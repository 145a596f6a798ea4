import Libdeepc.Machine

/-!
# `setjmp` and `longjmp`

The listings of `setjmp.S`. A `jmp_buf` has eight words: the six callee-saved
registers, the return address and the stack pointer. As long as these bytes stay
as they are, `longjmp` leads back to where `setjmp` returned, whatever has been
run in between.
-/

namespace Setjmp

open Machine WordMemory

def setjmp : List Instr :=
  [.store .rdi 0 .rbx, .store .rdi 8 .rbp, .store .rdi 16 .r12, .store .rdi 24 .r13,
    .store .rdi 32 .r14, .store .rdi 40 .r15, .pop .rcx, .store .rdi 48 .rcx,
    .store .rdi 56 .rsp, .xor32 .rax .rax, .jmp .rcx]

def longjmp (longjmpZero : UInt64) : List Instr :=
  [.load .rbx .rdi 0, .load .rbp .rdi 8, .load .r12 .rdi 16, .load .r13 .rdi 24,
    .load .r14 .rdi 32, .load .r15 .rdi 40, .load .rcx .rdi 48, .load .rsp .rdi 56,
    .test .rsi .rsi, .jz longjmpZero, .mov .rax .rsi, .jmp .rcx]

def longjmpZero : List Instr := [.movImm .rax 1, .jmp .rcx]

/-- Where the three labels are. -/
structure Labels where
  setjmp : UInt64
  longjmp : UInt64
  longjmpZero : UInt64

structure Linked (code : Code) (l : Labels) : Prop where
  setjmp : Placed code l.setjmp setjmp
  longjmp : Placed code l.longjmp (longjmp l.longjmpZero)
  longjmpZero : Placed code l.longjmpZero longjmpZero

/-- `sizeof(jmp_buf)` -/
def jmpBufSize : UInt64 := 64

/-- The `jmp_buf` holds the state in which `setjmp` was called, as its caller will find it. -/
structure Saved (mem : Memory) (env : UInt64) (s : State) : Prop where
  rbx : load64 mem (env + 0) = s.regs .rbx
  rbp : load64 mem (env + 8) = s.regs .rbp
  r12 : load64 mem (env + 16) = s.regs .r12
  r13 : load64 mem (env + 24) = s.regs .r13
  r14 : load64 mem (env + 32) = s.regs .r14
  r15 : load64 mem (env + 40) = s.regs .r15
  returnAddress : load64 mem (env + 48) = load64 s.mem (s.regs .rsp)
  rsp : load64 mem (env + 56) = s.regs .rsp + 8

/-- State `t` is at the return of the call that begins in `s`. -/
structure Returned (s t : State) : Prop where
  rip : t.rip = load64 s.mem (s.regs .rsp)
  rsp : t.regs .rsp = s.regs .rsp + 8
  calleeSaved : ∀ r ∈ calleeSaved, t.regs r = s.regs r

/-- The return address is not in the `jmp_buf`. -/
def SlotApart (s : State) : Prop :=
  ∀ k : UInt64, k < 8 → ¬Within (s.regs .rdi) jmpBufSize (s.regs .rsp + k)

/-- What `setjmp` writes. -/
def savedMem (s : State) : Memory :=
  let env := s.regs .rdi
  let mem := store64 s.mem (env + 0) (s.regs .rbx)
  let mem := store64 mem (env + 8) (s.regs .rbp)
  let mem := store64 mem (env + 16) (s.regs .r12)
  let mem := store64 mem (env + 24) (s.regs .r13)
  let mem := store64 mem (env + 32) (s.regs .r14)
  let mem := store64 mem (env + 40) (s.regs .r15)
  let mem := store64 mem (env + 48) (load64 mem (s.regs .rsp))
  store64 mem (env + 56) (s.regs .rsp + 8)

section Laws

variable {code : Code} {kernel : Kernel} {l : Labels} {s t : State} {mem : Memory} {env : UInt64}

theorem load64_slot (hslot : SlotApart s) {k v : UInt64} (hk : k.toNat + 8 ≤ jmpBufSize.toNat) :
    load64 (store64 mem (s.regs .rdi + k) v) (s.regs .rsp) = load64 mem (s.regs .rsp) :=
  load64_congr fun j hj => store64_outside_region hk (hslot j hj)

theorem saved_savedMem (hslot : SlotApart s) : Saved (savedMem s) (s.regs .rdi) s := by
  constructor
  all_goals
    simp (disch := first | decide | exact hslot) only [savedMem, load64_store64,
      load64_store64_add, load64_slot]

theorem savedMem_outside {a : UInt64} (ha : ¬Within (s.regs .rdi) jmpBufSize a) :
    savedMem s a = s.mem a := by
  have hstore : ∀ {k : UInt64} (mem : Memory) (v : UInt64), k.toNat + 8 ≤ jmpBufSize.toNat →
      store64 mem (s.regs .rdi + k) v a = mem a := fun _ _ hk => store64_outside_region hk ha
  simp (disch := decide) only [savedMem, hstore]

theorem setjmp_saves (kernel : Kernel) (hl : Linked code l) (hs : s.rip = l.setjmp)
    (hslot : SlotApart s) : ∃ s', Reaches code kernel s s' ∧ Returned s s' ∧
      s'.regs .rax = 0 ∧ s'.mem = savedMem s := by
  have hplaced : Placed code s.rip (setjmp.dropLast ++ [.jmp .rcx]) := hs ▸ hl.setjmp
  obtain ⟨last, next, _, hreach⟩ := reaches_block kernel hplaced (by decide)
  refine ⟨_, hreach, ⟨?_, rfl, ?_⟩, ?_, ?_⟩
  · simp (disch := first | decide | exact hslot) only [setjmp, exec_jmp, act, List.dropLast,
      List.foldl, regs_set, mem_set, load64_slot, reduceCtorEq, if_false, if_true]
  · intro r hr
    simp only [calleeSaved, List.mem_cons, List.not_mem_nil, or_false] at hr
    rcases hr with rfl | rfl | rfl | rfl | rfl | rfl <;> rfl
  · simp only [setjmp, exec_jmp, act, List.dropLast, List.foldl, regs_set, if_true, UInt32.xor_self]
    rfl
  · simp only [setjmp, exec_jmp, act, List.dropLast, List.foldl, regs_set, mem_set, reduceCtorEq,
      if_false, if_true, savedMem]

/-- What `longjmp` has loaded before it looks at the status. -/
def restored (t : State) : State := ((longjmp 0).take 9).foldl act t

theorem restored_rsi (t : State) : (restored t).regs .rsi = t.regs .rsi := rfl

theorem restored_mem (t : State) : (restored t).mem = t.mem := rfl

theorem restored_zf (t : State) : (restored t).zf = true ↔ t.regs .rsi = 0 := by
  simp [restored, longjmp, act]

theorem returned_of_saved (h : Saved t.mem (t.regs .rdi) s) {t' : State}
    (hrip : t'.rip = (restored t).regs .rcx)
    (hregs : ∀ r, r ≠ .rax → t'.regs r = (restored t).regs r) : Returned s t' where
  rip := hrip.trans h.returnAddress
  rsp := (hregs .rsp (by decide)).trans h.rsp
  calleeSaved r hr := by
    simp only [calleeSaved, List.mem_cons, List.not_mem_nil, or_false] at hr
    rcases hr with rfl | rfl | rfl | rfl | rfl | rfl
    · exact (hregs .rbx (by decide)).trans h.rbx
    · exact (hregs .rbp (by decide)).trans h.rbp
    · exact (hregs .r12 (by decide)).trans h.r12
    · exact (hregs .r13 (by decide)).trans h.r13
    · exact (hregs .r14 (by decide)).trans h.r14
    · exact (hregs .r15 (by decide)).trans h.r15

/-- Both ways end with the return code in `rax` and a jump. -/
theorem reaches_return {a v : UInt64} {i : Instr} {m : State} (h : Placed code a [i, .jmp .rcx])
    (hi : i.straight = true)
    (hact : ∀ a, act { m with rip := a } i = { m.set .rax v with rip := a }) :
    Reaches code kernel { m with rip := a } { m.set .rax v with rip := m.regs .rcx } := by
  obtain ⟨next, hcode, last, hcode', _⟩ := h
  have hfirst : Reaches code kernel { m with rip := a } (exec kernel next { m with rip := a } i) :=
    reaches_step kernel hcode
  rw [exec_straight hi, hact] at hfirst
  exact hfirst.trans (reaches_step kernel (s := { m.set .rax v with rip := next }) hcode')

theorem reaches_longjmp (hl : Linked code l) (ht : t.rip = l.longjmp) :
    Reaches code kernel t
      { (restored t).set .rax (if t.regs .rsi = 0 then 1 else t.regs .rsi) with
        rip := (restored t).regs .rcx } := by
  have hplaced : Placed code t.rip ((longjmp 0).take 9 ++ .jz l.longjmpZero ::
      [.mov .rax .rsi, .jmp .rcx]) := ht ▸ hl.longjmp
  obtain ⟨last, next, hrest, hreach⟩ := reaches_block kernel hplaced (by decide)
  have hzf := restored_zf t
  have hrsi := restored_rsi t
  rw [← restored] at hreach
  generalize restored t = m at hreach hzf hrsi ⊢
  refine hreach.trans ?_
  by_cases hzero : t.regs .rsi = 0
  · rw [exec_jz, if_pos (hzf.mpr hzero), if_pos hzero]
    exact reaches_return hl.longjmpZero rfl fun _ => rfl
  · rw [exec_jz, if_neg (mt hzf.mp hzero), if_neg hzero, ← hrsi]
    exact reaches_return hrest rfl fun _ => rfl

/-- `longjmp` gives back what the `jmp_buf` holds. It tests all 64 bits of the status. -/
theorem longjmp_restores (kernel : Kernel) (hl : Linked code l) (ht : t.rip = l.longjmp) :
    ∃ t', Reaches code kernel t t' ∧ t'.mem = t.mem ∧
      t'.regs .rax = (if t.regs .rsi = 0 then 1 else t.regs .rsi) ∧
      ∀ s, Saved t.mem (t.regs .rdi) s → Returned s t' := by
  refine ⟨_, reaches_longjmp hl ht, restored_mem t, ?_, fun s hs => returned_of_saved hs rfl ?_⟩
  · simp only [regs_set, if_true]
  · intro r hr
    simp only [regs_set, if_neg hr]

theorem Saved.congr {env : UInt64} (h : Saved mem env s)
    (hsame : ∀ a, Within env jmpBufSize a → t.mem a = mem a) : Saved t.mem env s := by
  have hload : ∀ {k : UInt64}, k.toNat + 8 ≤ jmpBufSize.toNat →
      load64 t.mem (env + k) = load64 mem (env + k) := by
    intro k hk
    refine load64_congr fun j hj => hsame _ ?_
    rw [Within, UInt64.lt_iff_toNat_lt] at *
    rw [UInt64.add_assoc, add_sub_self, UInt64.toNat_add]
    have h8 : (8 : UInt64).toNat = 8 := rfl
    have h64 : jmpBufSize.toNat = 64 := rfl
    omega
  exact ⟨(hload (by decide)).trans h.rbx, (hload (by decide)).trans h.rbp,
    (hload (by decide)).trans h.r12, (hload (by decide)).trans h.r13,
    (hload (by decide)).trans h.r14, (hload (by decide)).trans h.r15,
    (hload (by decide)).trans h.returnAddress, (hload (by decide)).trans h.rsp⟩

end Laws

/-- `setjmp` returns 0. Then, whatever is run, as long as the bytes of the `jmp_buf` stay:
`longjmp` returns to the same place with the same callee-saved registers and stack pointer. It
returns the status, and 1 where all 64 bits of the status are 0. -/
theorem setjmp_returns_again (code : Code) (kernel : Kernel) (l : Labels) (s : State)
    (hl : Linked code l) (hs : s.rip = l.setjmp) (hslot : SlotApart s) :
    ∃ s', Reaches code kernel s s' ∧ Returned s s' ∧ s'.regs .rax = 0 ∧
      (∀ a, ¬Within (s.regs .rdi) jmpBufSize a → s'.mem a = s.mem a) ∧
      ∀ t, t.rip = l.longjmp → t.regs .rdi = s.regs .rdi →
        (∀ a, Within (s.regs .rdi) jmpBufSize a → t.mem a = s'.mem a) →
        ∃ t', Reaches code kernel t t' ∧ Returned s t' ∧ t'.mem = t.mem ∧
          t'.regs .rax = (if t.regs .rsi = 0 then 1 else t.regs .rsi) := by
  obtain ⟨s', hreach, hret, hzero, hmem⟩ := setjmp_saves kernel hl hs hslot
  refine ⟨s', hreach, hret, hzero, fun a ha => hmem ▸ savedMem_outside ha, ?_⟩
  intro t ht henv hsame
  obtain ⟨t', hreach', hmem', hrax, hback⟩ := longjmp_restores kernel hl ht
  have hsaved : Saved s'.mem (s.regs .rdi) s := hmem ▸ saved_savedMem hslot
  refine ⟨t', hreach', hback s ?_, hmem', hrax⟩
  rw [henv]
  exact hsaved.congr hsame

def labels : Labels := ⟨0x1000, 0x2000, 0x3000⟩

def image : Code := fun a =>
  (layout 0x1000 setjmp ++ layout 0x2000 (longjmp 0x3000) ++ layout 0x3000 longjmpZero).lookup a

/-- A call from `0x4000`, with its `jmp_buf` at `0x5000` and its stack at `0x7000`. -/
def caller : State where
  regs r := if r = .rdi then 0x5000 else if r = .rsp then 0x7000 else if r = .rbx then 11 else 0
  rip := 0x1000
  zf := false
  fsBase := 0
  mem := store64 (fun _ => 0) 0x7000 0x4000

/-- Somewhere else, with other registers, the same `jmp_buf` and the status 7. -/
def callee (mem : Memory) : State where
  regs r := if r = .rdi then 0x5000 else if r = .rsi then 7 else 99
  rip := 0x2000
  zf := true
  fsBase := 0
  mem := mem

theorem setjmp_returns_again_caller :
    ∃ s', Reaches image quiet caller s' ∧ s'.rip = 0x4000 ∧ s'.regs .rax = 0 ∧
      ∃ t', Reaches image quiet (callee s'.mem) t' ∧ t'.rip = 0x4000 ∧ t'.regs .rbx = 11 ∧
        t'.regs .rax = 7 := by
  have hl : Linked image labels := ⟨by decide +kernel, by decide +kernel, by decide +kernel⟩
  have hslot : SlotApart caller := by
    intro k hk hin
    have h64 : jmpBufSize.toNat = 64 := rfl
    have h8 : (8 : UInt64).toNat = 8 := rfl
    have hrsp : (caller.regs .rsp).toNat = 0x7000 := rfl
    have hrdi : (caller.regs .rdi).toNat = 0x5000 := rfl
    rw [UInt64.lt_iff_toNat_lt] at hk
    rw [Within, UInt64.lt_iff_toNat_lt, UInt64.toNat_sub, UInt64.toNat_add] at hin
    omega
  have haddress : load64 caller.mem (caller.regs .rsp) = 0x4000 := load64_store64 ..
  obtain ⟨s', hreach, hret, hzero, _, hagain⟩ :=
    setjmp_returns_again image quiet labels caller hl rfl hslot
  obtain ⟨t', hreach', hret', _, hrax⟩ := hagain (callee s'.mem) rfl rfl fun _ _ => rfl
  exact ⟨s', hreach, hret.rip.trans haddress, hzero, t', hreach', hret'.rip.trans haddress,
    hret'.calleeSaved .rbx (by decide), hrax⟩

end Setjmp
