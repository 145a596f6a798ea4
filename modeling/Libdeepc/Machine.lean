import Libdeepc.WordMemory
import Mathlib.Logic.Relation

/-!
# A part of the x86-64

The instructions that save and restore registers, enter the kernel and exchange a
byte with memory. Code lies at addresses; each instruction comes with the address
of the one behind it. The kernel is a parameter: it sees the state at `syscall`.
Of the flags there is only the zero flag, and every access to memory succeeds.
-/

namespace Machine

open WordMemory

inductive Reg
  | rax | rbx | rcx | rdx | rsi | rdi | rbp | rsp
  | r8 | r9 | r10 | r11 | r12 | r13 | r14 | r15
  deriving DecidableEq

/-- The registers that a call gives back as it found them, the stack pointer apart. -/
def calleeSaved : List Reg := [.rbx, .rbp, .r12, .r13, .r14, .r15]

inductive Instr
  | mov (dst src : Reg)
  | movImm (dst : Reg) (imm : UInt64)
  | load (dst base : Reg) (disp : UInt64)
  | store (base : Reg) (disp : UInt64) (src : Reg)
  | loadFs (dst : Reg) (disp : UInt64)
  | lea (dst base : Reg) (disp : UInt64)
  | pop (dst : Reg)
  | xor (dst src : Reg)
  | xor32 (dst src : Reg)
  | and (dst : Reg) (imm : UInt64)
  | test (a b : Reg)
  | xchgByte (r base : Reg)
  | jz (target : UInt64)
  | jmp (r : Reg)
  | call (target : UInt64)
  | ret
  | syscall
  deriving DecidableEq

/-- Goes on with the instruction behind it. -/
def Instr.straight : Instr → Bool
  | jz _ | jmp _ | call _ | ret | syscall => false
  | _ => true

structure State where
  regs : Reg → UInt64
  rip : UInt64
  zf : Bool
  fsBase : UInt64
  mem : Memory

def State.set (s : State) (r : Reg) (v : UInt64) : State :=
  { s with regs := Function.update s.regs r v }

/-- What the kernel leaves behind, apart from `rcx`, which it never restores. -/
structure Answer where
  rax : UInt64
  r11 : UInt64
  fsBase : UInt64
  mem : Memory

abbrev Kernel := State → Answer

/-- A kernel that answers 0 and does nothing. -/
def quiet : Kernel := fun s => ⟨0, 0, s.fsBase, s.mem⟩

/-- An instruction, the instruction pointer apart. -/
def act (s : State) : Instr → State
  | .mov dst src => s.set dst (s.regs src)
  | .movImm dst imm => s.set dst imm
  | .load dst base disp => s.set dst (load64 s.mem (s.regs base + disp))
  | .store base disp src => { s with mem := store64 s.mem (s.regs base + disp) (s.regs src) }
  | .loadFs dst disp => s.set dst (load64 s.mem (s.fsBase + disp))
  | .lea dst base disp => s.set dst (s.regs base + disp)
  | .pop dst => (s.set .rsp (s.regs .rsp + 8)).set dst (load64 s.mem (s.regs .rsp))
  | .xor dst src =>
    { s.set dst (s.regs dst ^^^ s.regs src) with zf := s.regs dst ^^^ s.regs src = 0 }
  | .xor32 dst src =>
    -- the upper half of the register becomes 0
    let v := ((s.regs dst).toUInt32 ^^^ (s.regs src).toUInt32).toUInt64
    { s.set dst v with zf := v = 0 }
  | .and dst imm => { s.set dst (s.regs dst &&& imm) with zf := s.regs dst &&& imm = 0 }
  | .test a b => { s with zf := s.regs a &&& s.regs b = 0 }
  | .xchgByte r base =>
    { s.set r ((s.regs r &&& 0xffffffffffffff00) ||| (s.mem (s.regs base)).toUInt64) with
      mem := Function.update s.mem (s.regs base) (s.regs r).toUInt8 }
  | .jz _ | .jmp _ | .call _ | .ret | .syscall => s

/-- `next` is the address of the instruction behind this one. -/
def exec (kernel : Kernel) (next : UInt64) (s : State) : Instr → State
  | .jz target => { s with rip := if s.zf then target else next }
  | .jmp r => { s with rip := s.regs r }
  | .call target =>
    { s.set .rsp (s.regs .rsp - 8) with
      rip := target, mem := store64 s.mem (s.regs .rsp - 8) next }
  | .ret => { s.set .rsp (s.regs .rsp + 8) with rip := load64 s.mem (s.regs .rsp) }
  | .syscall =>
    let a := kernel s
    { ((s.set .rcx next).set .r11 a.r11).set .rax a.rax with
      rip := next, fsBase := a.fsBase, mem := a.mem }
  | i => { act s i with rip := next }

abbrev Code := UInt64 → Option (Instr × UInt64)

def step (code : Code) (kernel : Kernel) (s : State) : Option State :=
  (code s.rip).map fun (i, next) => exec kernel next s i

/-- The listing stands in the code from this address on. -/
def Placed (code : Code) : UInt64 → List Instr → Prop
  | _, [] => True
  | a, i :: is => ∃ next, code a = some (i, next) ∧ Placed code next is

instance Placed.decidable (code : Code) : ∀ a is, Decidable (Placed code a is)
  | _, [] => isTrue trivial
  | a, i :: is => match h : code a with
    | none => isFalse (by rintro ⟨next, hcode, _⟩; rw [h] at hcode; cases hcode)
    | some (j, next) =>
      have : Decidable (Placed code next is) := Placed.decidable code next is
      decidable_of_iff (j = i ∧ Placed code next is) (by simp [Placed, h])

/-- A listing whose instructions take four bytes each. -/
def layout : UInt64 → List Instr → List (UInt64 × Instr × UInt64)
  | _, [] => []
  | a, i :: is => (a, i, a + 4) :: layout (a + 4) is

def Reaches (code : Code) (kernel : Kernel) : State → State → Prop :=
  Relation.ReflTransGen fun s s' => step code kernel s = some s'

section Set

variable (s : State) (r r' : Reg) (v : UInt64)

@[simp] theorem regs_set : (s.set r v).regs r' = if r' = r then v else s.regs r' :=
  Function.update_apply ..

@[simp] theorem mem_set : (s.set r v).mem = s.mem := rfl

@[simp] theorem zf_set : (s.set r v).zf = s.zf := rfl

@[simp] theorem rip_set : (s.set r v).rip = s.rip := rfl

@[simp] theorem fsBase_set : (s.set r v).fsBase = s.fsBase := rfl

end Set

variable {code : Code} {kernel : Kernel} {s s' : State} {i : Instr} {is rest : List Instr}
  {a : UInt64}

theorem act_rip (s : State) (a : UInt64) (i : Instr) :
    act { s with rip := a } i = { act s i with rip := a } := by
  cases i <;> rfl

theorem exec_jz (next target : UInt64) :
    exec kernel next s (.jz target) = { s with rip := if s.zf then target else next } := rfl

theorem exec_jmp (next : UInt64) (r : Reg) :
    exec kernel next s (.jmp r) = { s with rip := s.regs r } := rfl

theorem exec_straight (h : i.straight = true) (next : UInt64) :
    exec kernel next s i = { act s i with rip := next } := by
  cases i <;> first | rfl | cases h

theorem reaches_step (kernel : Kernel) {next : UInt64} (h : code s.rip = some (i, next)) :
    Reaches code kernel s (exec kernel next s i) :=
  .single (by rw [step, h]; rfl)

/-- A stretch of straight code is run through. -/
theorem reaches_straight (kernel : Kernel) (h : Placed code a (is ++ rest))
    (hs : ∀ i ∈ is, i.straight = true) (s : State) : ∃ next, Placed code next rest ∧
      Reaches code kernel { s with rip := a } { is.foldl act s with rip := next } := by
  induction is generalizing a s with
  | nil => exact ⟨a, h, .refl⟩
  | cons i is ih =>
    obtain ⟨next, hcode, hrest⟩ := h
    obtain ⟨last, hlast, hreach⟩ := ih hrest (fun j hj => hs j (List.mem_cons_of_mem i hj))
      (act s i)
    refine ⟨last, hlast, ?_⟩
    have hfirst : Reaches code kernel { s with rip := a }
        (exec kernel next { s with rip := a } i) := reaches_step kernel hcode
    rw [exec_straight (hs i List.mem_cons_self), act_rip] at hfirst
    exact hfirst.trans hreach

/-- Straight code, and then one instruction that may go elsewhere. -/
theorem reaches_block (kernel : Kernel) (h : Placed code s.rip (is ++ i :: rest))
    (hs : ∀ i ∈ is, i.straight = true) : ∃ last next, Placed code next rest ∧
      Reaches code kernel s (exec kernel next { is.foldl act s with rip := last } i) := by
  obtain ⟨last, ⟨next, hcode, hrest⟩, hreach⟩ := reaches_straight kernel h hs s
  exact ⟨last, next, hrest, hreach.trans (reaches_step kernel hcode)⟩

section Alignment

/-- The mask of `and rsp, -16` rounds down. -/
theorem toBitVec_and_neg16 (x : UInt64) : (x &&& -16).toBitVec = (x.toBitVec >>> 4) <<< 4 := by
  have hmask : ∀ i < 64, (-16 : UInt64).toBitVec.getLsbD i = decide (4 ≤ i) := by decide
  apply BitVec.eq_of_getLsbD_eq
  intro i hi
  rw [UInt64.toBitVec_and, BitVec.getLsbD_and, hmask i hi, BitVec.getLsbD_shiftLeft,
    BitVec.getLsbD_ushiftRight]
  by_cases h4 : i < 4
  · simp [h4]
  · simp [h4, hi, Nat.not_lt.mp h4]

theorem toNat_and_neg16 (x : UInt64) : (x &&& -16).toNat = x.toNat / 16 * 16 := by
  have h := congrArg BitVec.toNat (toBitVec_and_neg16 x)
  rw [BitVec.toNat_shiftLeft, BitVec.toNat_ushiftRight, Nat.shiftRight_eq_div_pow,
    Nat.shiftLeft_eq] at h
  have hx := x.toNat_lt
  change (x &&& -16).toNat = x.toNat / 2 ^ 4 * 2 ^ 4 % 2 ^ 64 at h
  omega

end Alignment

end Machine
