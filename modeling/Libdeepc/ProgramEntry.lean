import Libdeepc.SyscallEntry
import Mathlib.Tactic.Ring

/-!
# The first instructions of a process and of a thread

The listings of `start.S` and `thread-bootstrap.S`. A process begins on the stack
that the kernel has filled with the arguments and the environment. A thread begins
in the middle of `__syscall_raw3`, on a stack that holds its `thrd_bootstrap_info`.
Both align the stack and call a C function, which pushes a return address.
-/

namespace ProgramEntry

open Machine SyscallEntry WordMemory

def start (libcStartMain : UInt64) : List Instr :=
  [.pop .rdi, .mov .rsi .rsp, .and .rsp (-16), .call libcStartMain]

def thrdBootstrapAsm (thrdBootstrapC : UInt64) : List Instr :=
  [.lea .rdi .rsp (-8), .and .rsp (-16), .call thrdBootstrapC]

/-- As C functions expect the stack: aligned below the return address. -/
def StackAligned (s : State) : Prop := (s.regs .rsp + 8).toNat % 16 = 0

/-- The call pushes below `top + 8`, which is aligned. -/
def pushed (top : UInt64) : UInt64 := (top + 8 &&& -16) - 8

theorem pushed_aligned (top : UInt64) : (pushed top + 8).toNat % 16 = 0 := by
  rw [pushed, UInt64.sub_add_cancel, toNat_and_neg16]
  exact Nat.mul_mod_left _ 16

/-- At most the word at `top`, and nothing above it, is overwritten. -/
theorem pushed_apart {top k : UInt64} (hlow : 8 ≤ k) (hhigh : k ≤ -32) :
    Apart (top + k) (pushed top) := by
  have hround := toNat_and_neg16 (top + 8)
  have h8 : (8 : UInt64).toNat = 8 := rfl
  have hneg : (-32 : UInt64).toNat = 2 ^ 64 - 32 := rfl
  have htop := top.toNat_lt
  have hk := k.toNat_lt
  rw [UInt64.le_iff_toNat_le] at hlow hhigh
  rw [UInt64.toNat_add] at hround
  constructor
  · rw [UInt64.le_iff_toNat_le, pushed, UInt64.toNat_sub, UInt64.toNat_sub, UInt64.toNat_add,
      hround]
    omega
  · rw [UInt64.le_iff_toNat_le, pushed, UInt64.toNat_sub, UInt64.toNat_sub, UInt64.toNat_add,
      hround]
    omega

/-- A word above `top` is read as before the call. -/
theorem load64_pushed {mem : Memory} {top k v : UInt64} (hlow : 8 ≤ k) (hhigh : k ≤ -32) :
    load64 (store64 mem (pushed top) v) (top + k) = load64 mem (top + k) :=
  load64_store64_of_apart (pushed_apart hlow hhigh)

/-- The array above `top`, with room to the end of the address space. -/
theorem words_pushed {mem : Memory} {top v : UInt64} {ws : List UInt64}
    (hroom : 8 * (ws.length + 5) ≤ 2 ^ 64) (h : Words mem (top + 8) ws) :
    Words (store64 mem (pushed top) v) (top + 8) ws := by
  intro i w hi
  have hlt : i < ws.length := (List.getElem?_eq_some_iff.mp hi).1
  have h8 : (8 : UInt64).toNat = 8 := rfl
  have hneg : (-32 : UInt64).toNat = 2 ^ 64 - 32 := rfl
  have hk : (8 + 8 * UInt64.ofNat i).toNat = 8 + 8 * i := by
    rw [UInt64.toNat_add, UInt64.toNat_mul, UInt64.toNat_ofNat', h8]
    omega
  have hsame : load64 (store64 mem (pushed top) v) (top + (8 + 8 * .ofNat i)) =
      load64 mem (top + (8 + 8 * .ofNat i)) := by
    apply load64_pushed
    · rw [UInt64.le_iff_toNat_le, hk]
      omega
    · rw [UInt64.le_iff_toNat_le, hk]
      omega
  rw [UInt64.add_assoc, hsame, ← UInt64.add_assoc]
  exact h i w hi

section Process

/-- `environ = argv + argc + 1`, for an `int argc`. -/
def environOf (argc argv : UInt64) : UInt64 :=
  argv + 8 * (argc.toUInt32.toInt32.toInt64.toUInt64 + 1)

/-- The stack that the kernel gives to a process. -/
def Image (mem : Memory) (top : UInt64) (argv envp : List UInt64) : Prop :=
  Words mem top ([.ofNat argv.length] ++ (argv ++ [0] ++ (envp ++ [0])))

theorem toInt64_argc {n : Nat} (hn : n < 2 ^ 31) :
    (UInt64.ofNat n).toUInt32.toInt32.toInt64.toUInt64 = .ofNat n := by
  have hmsb : (BitVec.ofNat 32 n).msb = false := by
    rw [BitVec.msb_eq_false_iff_two_mul_lt, BitVec.toNat_ofNat]
    omega
  have hlow : (UInt64.ofNat n).toUInt32.toInt32.toBitVec = BitVec.ofNat 32 n := by
    apply BitVec.eq_of_toNat_eq
    simp
  apply UInt64.toBitVec_inj.mp
  change (UInt64.ofNat n).toUInt32.toInt32.toBitVec.signExtend 64 = BitVec.ofNat 64 n
  rw [hlow, BitVec.signExtend_eq_setWidth_of_msb_false hmsb]
  apply BitVec.eq_of_toNat_eq
  simp
  omega

/-- `__libc_start_main` is called with the arguments of the process, and finds its environment
behind them. -/
theorem start_enters (code : Code) (kernel : Kernel) (s : State) (libcStartMain : UInt64)
    (argv envp : List UInt64) (hcode : Placed code s.rip (start libcStartMain))
    (himage : Image s.mem (s.regs .rsp) argv envp) (hargc : argv.length < 2 ^ 31)
    (hroom : 8 * (argv.length + envp.length + 7) ≤ 2 ^ 64) :
    ∃ t, Reaches code kernel s t ∧ t.rip = libcStartMain ∧ StackAligned t ∧
      t.regs .rdi = .ofNat argv.length ∧ Words t.mem (t.regs .rsi) (argv ++ [0]) ∧
      Words t.mem (environOf (t.regs .rdi) (t.regs .rsi)) (envp ++ [0]) ∧
      ∀ a, ¬Within (t.regs .rsp) 8 a → t.mem a = s.mem a := by
  have hplaced : Placed code s.rip
      ([.pop .rdi, .mov .rsi .rsp, .and .rsp (-16)] ++ [.call libcStartMain]) := hcode
  obtain ⟨last, next, _, hreach⟩ := reaches_block kernel hplaced (by decide)
  obtain ⟨hfirst, hrest⟩ := words_append.mp himage
  have hbehind : Words (store64 s.mem (pushed (s.regs .rsp)) next) (s.regs .rsp + 8)
      (argv ++ [0] ++ (envp ++ [0])) := by
    refine words_pushed ?_ hrest
    simp only [List.length_append, List.length_singleton]
    omega
  obtain ⟨hargv, henvp⟩ := words_append.mp hbehind
  have hrdi : load64 s.mem (s.regs .rsp) = .ofNat argv.length := by
    have hword : load64 s.mem (s.regs .rsp + 8 * 0) = .ofNat argv.length := hfirst 0 _ rfl
    rwa [UInt64.mul_zero, UInt64.add_zero] at hword
  refine ⟨_, hreach, rfl, pushed_aligned (s.regs .rsp), hrdi, hargv, ?_, fun a ha => ?_⟩
  · change Words (store64 s.mem (pushed (s.regs .rsp)) next)
      (environOf (load64 s.mem (s.regs .rsp)) (s.regs .rsp + 8)) (envp ++ [0])
    rw [hrdi, environOf, toInt64_argc hargc]
    rwa [List.length_append, List.length_singleton, UInt64.ofNat_add] at henvp
  · exact store64_outside ha

/-- A process with one argument and one variable. -/
def oneArgument : State where
  regs r := if r = .rsp then 0x7000 else 0
  rip := 0x1000
  zf := false
  fsBase := 0
  mem := store64 (store64 (store64 (fun _ => 0) 0x7000 1) 0x7008 0x7f00) 0x7018 0x7f20

def startImage : Code := fun a => (layout 0x1000 (start 0x2000)).lookup a

theorem start_enters_one : ∃ t, Reaches startImage quiet oneArgument t ∧
    t.rip = 0x2000 ∧ StackAligned t ∧ t.regs .rdi = 1 ∧ Words t.mem (t.regs .rsi) [0x7f00, 0] ∧
    Words t.mem (environOf (t.regs .rdi) (t.regs .rsi)) [0x7f20, 0] ∧
    ∀ a, ¬Within (t.regs .rsp) 8 a → t.mem a = oneArgument.mem a := by
  have himage : Image oneArgument.mem 0x7000 [0x7f00] [0x7f20] := by
    intro i w hi
    have hlt := (List.getElem?_eq_some_iff.mp hi).1
    rcases i with _ | _ | _ | _ | _ | i
    all_goals
      cases hi
    all_goals decide +kernel
  exact start_enters startImage quiet oneArgument 0x2000 [0x7f00] [0x7f20] (by decide +kernel)
    himage (by decide) (by decide)

end Process

section Thread

/-- `thrd_bootstrap_info` -/
structure BootstrapInfo where
  bootstrapFn : UInt64
  func : UInt64
  arg : UInt64
  thr : UInt64

def BootstrapInfo.fields (i : BootstrapInfo) : List UInt64 := [i.bootstrapFn, i.func, i.arg, i.thr]

def stackSize : UInt64 := 8 * 1024 * 1024

/-- `sizeof(thrd_bootstrap_info)` -/
def infoSize : UInt64 := 32

/-- Where `thrd_create` puts the structure: at the top of the new stack. -/
def stackTop (stackBase : UInt64) : UInt64 := stackBase + stackSize - infoSize

/-- The four assignments of `thrd_create`. -/
def storeInfo (mem : Memory) (info : UInt64) (i : BootstrapInfo) : Memory :=
  let mem := store64 mem (info + 0) i.bootstrapFn
  let mem := store64 mem (info + 8) i.func
  let mem := store64 mem (info + 16) i.arg
  store64 mem (info + 24) i.thr

def SYS_CLONE : UInt64 := 56

/-- The new thread goes on behind the system call, with 0 for its answer, on the stack that was
the second argument. Meanwhile memory may have changed. -/
def cloned (k : State) (next r11 : UInt64) (mem : Memory) : State :=
  { (((k.set .rax 0).set .rcx next).set .r11 r11).set .rsp (k.regs .rsi) with
    rip := next, mem := mem }

theorem words_storeInfo (mem : Memory) (info : UInt64) (i : BootstrapInfo) :
    Words (storeInfo mem info i) info i.fields := by
  have h : load64 (storeInfo mem info i) (info + 0) = i.bootstrapFn ∧
      load64 (storeInfo mem info i) (info + 8) = i.func ∧
      load64 (storeInfo mem info i) (info + 16) = i.arg ∧
      load64 (storeInfo mem info i) (info + 24) = i.thr := by
    simp (disch := decide) only [storeInfo, load64_store64, load64_store64_add, and_self]
  obtain ⟨h₀, h₁, h₂, h₃⟩ := h
  intro j w hj
  rcases j with _ | _ | _ | _ | j
  all_goals cases hj
  · exact h₀
  · exact h₁
  · exact h₂
  · exact h₃

/-- A new thread comes to `__thrd_bootstrap_c` with a pointer to its structure, wherever the stack
lies. Of the structure, at most the word that has been popped is overwritten. -/
theorem thread_enters (code : Code) (kernel : Kernel) (s : State) (flags id c r11 : UInt64)
    (stackBase : UInt64) (i : BootstrapInfo) (mem mem₀ : Memory)
    (hraw : Placed code s.rip syscallRaw3) (hasm : Placed code i.bootstrapFn (thrdBootstrapAsm c))
    (hargs : Holds s cArguments [flags, stackTop stackBase, id, SYS_CLONE])
    (hinfo : ∀ a, Within (stackTop stackBase) infoSize a →
      mem a = storeInfo mem₀ (stackTop stackBase) i a) :
    ∃ k next, Reaches code kernel s k ∧
      AtKernel code s [flags, stackTop stackBase, id] SYS_CLONE k next ∧
      ∃ t, Reaches code kernel (cloned k next r11 mem) t ∧ t.rip = c ∧ StackAligned t ∧
        t.fsBase = s.fsBase ∧ t.regs .rdi = stackTop stackBase ∧
        Words t.mem (stackTop stackBase + 8) [i.func, i.arg, i.thr] ∧
        ∀ a, ¬Within (t.regs .rsp) 8 a → t.mem a = mem a := by
  have hlength : syscallRaw[[flags, stackTop stackBase, id].length]? = some syscallRaw3 := rfl
  obtain ⟨k, next, hreach, hk⟩ := reaches_kernel kernel hlength hraw hargs
  refine ⟨k, next, hreach, hk, ?_⟩
  have hfields : Words mem (stackTop stackBase) ([i.bootstrapFn] ++ [i.func, i.arg, i.thr]) :=
    words_congr (n := infoSize) (Nat.le_refl 32) hinfo (words_storeInfo mem₀ (stackTop stackBase) i)
  obtain ⟨hfirst, hrest⟩ := words_append.mp hfields
  have hrsi : k.regs .rsi = stackTop stackBase := by
    obtain ⟨rest, hrest⟩ := hk.arguments
    have hsecond : some (stackTop stackBase) = some (k.regs .rsi) := congrArg (·[1]?) hrest
    exact (Option.some.inj hsecond).symm
  obtain ⟨last, hret⟩ := hk.ret
  have hpop : Reaches code kernel (cloned k next r11 mem)
      (exec kernel last (cloned k next r11 mem) .ret) := reaches_step kernel hret
  have hrsp : (cloned k next r11 mem).regs .rsp = stackTop stackBase := hrsi
  have hrip : (exec kernel last (cloned k next r11 mem) .ret).rip = i.bootstrapFn := by
    have hword : load64 mem (stackTop stackBase + 8 * 0) = i.bootstrapFn := hfirst 0 _ rfl
    rw [UInt64.mul_zero, UInt64.add_zero] at hword
    exact (congrArg (load64 mem) hrsp).trans hword
  have hplaced : Placed code (exec kernel last (cloned k next r11 mem) .ret).rip
      ([.lea .rdi .rsp (-8), .and .rsp (-16)] ++ [.call c]) := hrip ▸ hasm
  obtain ⟨last', next', _, hcall⟩ := reaches_block kernel hplaced (by decide)
  refine ⟨_, hpop.trans hcall, rfl, ?_, hk.fsBase, ?_, ?_, fun a ha => ?_⟩
  · exact pushed_aligned (k.regs .rsi)
  · have hcancel : (8 : UInt64) + -8 = 0 := by decide
    change k.regs .rsi + 8 + -8 = _
    rw [UInt64.add_assoc, hcancel, UInt64.add_zero, hrsi]
  · have hmem : Words (store64 mem (pushed (k.regs .rsi)) next') (k.regs .rsi + 8)
        [i.func, i.arg, i.thr] := words_pushed (by simp) (hrsi ▸ hrest)
    exact hrsi ▸ hmem
  · exact store64_outside ha

def threadImage : Code := fun a =>
  (layout 0x1000 syscallRaw3 ++ layout 0x2000 (thrdBootstrapAsm 0x3000)).lookup a

def info : BootstrapInfo := ⟨0x2000, 0x4000, 7, 0x5000⟩

/-- `thrd_create` at its system call, with a stack at an odd address. -/
def creator : State where
  regs r := match r with
    | .rsi => stackTop 0x100001 | .rdx => 0x5030 | .rcx => SYS_CLONE | .rsp => 0x7000 | _ => 0
  rip := 0x1000
  zf := false
  fsBase := 0x6000
  mem := storeInfo (fun _ => 0) (stackTop 0x100001) info

theorem thread_enters_odd : ∃ k next, Reaches threadImage quiet creator k ∧
    AtKernel threadImage creator [0, stackTop 0x100001, 0x5030] SYS_CLONE k next ∧
    ∃ t, Reaches threadImage quiet (cloned k next 0 creator.mem) t ∧ t.rip = 0x3000 ∧
      StackAligned t ∧ t.fsBase = 0x6000 ∧ t.regs .rdi = stackTop 0x100001 ∧
      Words t.mem (stackTop 0x100001 + 8) [0x4000, 7, 0x5000] ∧
      ∀ a, ¬Within (t.regs .rsp) 8 a → t.mem a = creator.mem a :=
  thread_enters threadImage quiet creator 0 0x5030 0x3000 0 0x100001 info creator.mem
    (fun _ => 0) (by decide +kernel) (by decide +kernel) (by decide +kernel) fun _ _ => rfl

end Thread

end ProgramEntry
