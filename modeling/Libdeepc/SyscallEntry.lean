import Libdeepc.Machine

/-!
# Into the kernel and back

The listings of `syscall-asm.S`. A C function passes the arguments of a system
call and then its number; the kernel expects the number in `rax` and the fourth
argument in `r10`, since `syscall` itself uses `rcx`.
-/

namespace SyscallEntry

open Machine WordMemory

/-- Where C passes integers, one after another. -/
def cArguments : List Reg := [.rdi, .rsi, .rdx, .rcx, .r8, .r9]

/-- Where the kernel expects the arguments of a system call. -/
def kernelArguments : List Reg := [.rdi, .rsi, .rdx, .r10, .r8, .r9]

/-- The registers are set, the kernel is entered and the call returns. -/
def enter (setup : List Instr) : List Instr := setup ++ [.syscall, .ret]

def syscallRaw0 : List Instr := enter [.mov .rax .rdi]
def syscallRaw1 : List Instr := enter [.mov .rax .rsi]
def syscallRaw2 : List Instr := enter [.mov .rax .rdx]
def syscallRaw3 : List Instr := enter [.mov .rax .rcx]
def syscallRaw4 : List Instr := enter [.mov .rax .r8, .mov .r10 .rcx]
def syscallRaw5 : List Instr := enter [.mov .rax .r9, .mov .r10 .rcx]

/-- `__syscall_rawN` takes `N` arguments and the number. -/
def syscallRaw : List (List Instr) :=
  [syscallRaw0, syscallRaw1, syscallRaw2, syscallRaw3, syscallRaw4, syscallRaw5]

/-- The registers hold these values, one after another. -/
def Holds (s : State) (rs : List Reg) (vs : List UInt64) : Prop :=
  vs <+: rs.map s.regs

instance (s : State) (rs : List Reg) (vs : List UInt64) : Decidable (Holds s rs vs) :=
  inferInstanceAs (Decidable (_ <+: _))

/-- The state at the return of a call that began in `s` and has asked the kernel in `k`. -/
structure Answered (kernel : Kernel) (s k t : State) : Prop where
  rax : t.regs .rax = (kernel k).rax
  mem : t.mem = (kernel k).mem
  rip : t.rip = load64 (kernel k).mem (s.regs .rsp)
  rsp : t.regs .rsp = s.regs .rsp + 8
  calleeSaved : ∀ r ∈ calleeSaved, t.regs r = s.regs r

variable {code : Code} {kernel : Kernel} {s : State} {listing : List Instr}

/-- The instructions in front of `syscall`. -/
def setupOf (listing : List Instr) : List Instr := listing.take (listing.length - 2)

/-- In front of the kernel only `rax` and `r10` have been written. -/
theorem setup_law (h : listing ∈ syscallRaw) : (∀ i ∈ setupOf listing, i.straight = true) ∧
    listing = enter (setupOf listing) ∧ ((setupOf listing).foldl act s).mem = s.mem ∧
      ∀ r, r ≠ .rax → r ≠ .r10 → ((setupOf listing).foldl act s).regs r = s.regs r := by
  simp only [syscallRaw, List.mem_cons, List.not_mem_nil, or_false] at h
  rcases h with rfl | rfl | rfl | rfl | rfl | rfl
  all_goals
    refine ⟨by decide, rfl, rfl, fun r hrax hr10 => ?_⟩
    simp [setupOf, syscallRaw0, syscallRaw1, syscallRaw2, syscallRaw3, syscallRaw4, syscallRaw5,
      enter, act, hrax, hr10]

/-- The arguments and the number, as registers. -/
theorem args_of_holds {args : List UInt64} {number : UInt64}
    (hs : Holds s cArguments (args ++ [number])) :
    args = (cArguments.map s.regs).take args.length ∧
      (cArguments.map s.regs)[args.length]? = some number := by
  obtain ⟨rest, hrest⟩ := hs
  rw [← hrest]
  constructor
  · rw [List.append_assoc, List.take_left]
  · rw [List.append_assoc, List.getElem?_append_right (Nat.le_refl _), Nat.sub_self]
    rfl

/-- The number goes to `rax`, and the fourth argument out of the way of `syscall`. -/
theorem setup_holds {args : List UInt64} {number : UInt64}
    (h : syscallRaw[args.length]? = some listing) (hs : Holds s cArguments (args ++ [number])) :
    Holds ((setupOf listing).foldl act s) kernelArguments args ∧
      ((setupOf listing).foldl act s).regs .rax = number := by
  obtain ⟨hargs, hnumber⟩ := args_of_holds hs
  generalize args.length = n at h hargs hnumber
  subst hargs
  rcases n with _ | _ | _ | _ | _ | _ | n
  all_goals cases h
  all_goals
    cases hnumber
    exact ⟨⟨_, rfl⟩, rfl⟩

/-- The state in which the kernel is entered. Behind `syscall` there is only the return. -/
structure AtKernel (code : Code) (s : State) (args : List UInt64) (number : UInt64) (k : State)
    (next : UInt64) : Prop where
  arguments : Holds k kernelArguments args
  number : k.regs .rax = number
  mem : k.mem = s.mem
  fsBase : k.fsBase = s.fsBase
  others : ∀ r, r ≠ .rax → r ≠ .r10 → k.regs r = s.regs r
  syscall : code k.rip = some (.syscall, next)
  ret : ∃ last, code next = some (.ret, last)

theorem setup_fsBase (h : listing ∈ syscallRaw) :
    ((setupOf listing).foldl act s).fsBase = s.fsBase := by
  simp only [syscallRaw, List.mem_cons, List.not_mem_nil, or_false] at h
  rcases h with rfl | rfl | rfl | rfl | rfl | rfl <;> rfl

theorem reaches_kernel (kernel : Kernel) {args : List UInt64} {number : UInt64}
    (h : syscallRaw[args.length]? = some listing) (hcode : Placed code s.rip listing)
    (hs : Holds s cArguments (args ++ [number])) :
    ∃ k next, Reaches code kernel s k ∧ AtKernel code s args number k next := by
  have hmem := List.mem_of_getElem? h
  obtain ⟨hstraight, hlisting, hsame, hregs⟩ := setup_law (s := s) hmem
  obtain ⟨hholds, hrax⟩ := setup_holds h hs
  rw [hlisting, enter] at hcode
  obtain ⟨last, ⟨next, hsyscall, next', hret, _⟩, hreach⟩ :=
    reaches_straight kernel hcode hstraight s
  exact ⟨_, next, hreach, hholds, hrax, hsame, setup_fsBase hmem, hregs, hsyscall, next', hret⟩

/-- The kernel finds the number and the arguments where it expects them, and the caller finds
what the kernel answers. -/
theorem syscall_enters (code : Code) (kernel : Kernel) (s : State) (listing : List Instr)
    (args : List UInt64) (number : UInt64) (h : syscallRaw[args.length]? = some listing)
    (hcode : Placed code s.rip listing) (hs : Holds s cArguments (args ++ [number])) :
    ∃ k next t, Reaches code kernel s k ∧ AtKernel code s args number k next ∧
      Reaches code kernel k t ∧ Answered kernel s k t := by
  obtain ⟨k, next, hreach, hk⟩ := reaches_kernel kernel h hcode hs
  obtain ⟨last, hret⟩ := hk.ret
  have hreturn : Reaches code kernel (exec kernel next k .syscall)
      (exec kernel last (exec kernel next k .syscall) .ret) := reaches_step kernel hret
  have hrsp : (exec kernel next k .syscall).regs .rsp = s.regs .rsp :=
    hk.others .rsp (by decide) (by decide)
  refine ⟨k, next, _, hreach, hk, (reaches_step kernel hk.syscall).trans hreturn, rfl, rfl, ?_, ?_,
    fun r hr => ?_⟩
  · exact congrArg (load64 (kernel k).mem) hrsp
  · exact congrArg (· + 8) hrsp
  · simp only [calleeSaved, List.mem_cons, List.not_mem_nil, or_false] at hr
    rcases hr with rfl | rfl | rfl | rfl | rfl | rfl
    all_goals exact hk.others _ (by decide) (by decide)

/-- `write(1, 0x6000, 5)`, from `0x4000`. -/
def caller : State where
  regs r := match r with
    | .rdi => 1 | .rsi => 0x6000 | .rdx => 5 | .rcx => 1 | .rsp => 0x7000 | .rbx => 11 | _ => 0
  rip := 0x1000
  zf := false
  fsBase := 0
  mem := store64 (fun _ => 0) 0x7000 0x4000

def image : Code := fun a => (layout 0x1000 syscallRaw3).lookup a

/-- A kernel that writes everything. -/
def obedient : Kernel := fun k => ⟨k.regs .rdx, 0, k.fsBase, k.mem⟩

theorem syscall_enters_write : ∃ k next t, Reaches image obedient caller k ∧
    AtKernel image caller [1, 0x6000, 5] 1 k next ∧ Reaches image obedient k t ∧
      Answered obedient caller k t :=
  syscall_enters image obedient caller syscallRaw3 [1, 0x6000, 5] 1 rfl (by decide +kernel)
    (by decide +kernel)

end SyscallEntry
