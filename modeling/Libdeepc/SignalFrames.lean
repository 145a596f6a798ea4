import Libdeepc.Machine

/-!
# What a signal leaves on the stack

The kernel's side of a signal handler. It puts the registers of what it
interrupts on the stack, behind the address of a restorer, and `rt_sigreturn`
takes them from there. The offsets are those of the kernel's `struct rt_sigframe`.
-/

namespace SignalFrames

open Machine WordMemory

/-- `sizeof(struct rt_sigframe)` -/
def frameSize : UInt64 := 440

/-- The bytes below the stack pointer that a function may use. -/
def redZone : UInt64 := 128

def registers : List Reg :=
  [.r8, .r9, .r10, .r11, .r12, .r13, .r14, .r15, .rdi, .rsi, .rbp, .rbx, .rdx, .rax, .rcx, .rsp]

/-- Where a register is in the frame. -/
def offsetOf : Reg → UInt64
  | .r8 => 48 | .r9 => 56 | .r10 => 64 | .r11 => 72 | .r12 => 80 | .r13 => 88 | .r14 => 96
  | .r15 => 104 | .rdi => 112 | .rsi => 120 | .rbp => 128 | .rbx => 136 | .rdx => 144 | .rax => 152
  | .rcx => 160 | .rsp => 168

def ripOffset : UInt64 := 176
def eflagsOffset : UInt64 := 184
def sigmaskOffset : UInt64 := 304
def infoOffset : UInt64 := 312

/-- The zero flag among the flags. -/
def eflagsOf (zf : Bool) : UInt64 := if zf then 0x40 else 0

/-- An interrupted state, with the signals that were blocked in it. -/
structure Context where
  cpu : State
  blocked : UInt64

/-- The words of a frame, with their offsets. -/
def frameWords (restorer : UInt64) (c : Context) : List (UInt64 × UInt64) :=
  (0, restorer) :: (ripOffset, c.cpu.rip) :: (eflagsOffset, eflagsOf c.cpu.zf) ::
    (sigmaskOffset, c.blocked) :: registers.map fun r => (offsetOf r, c.cpu.regs r)

/-- The frame in memory. Between it and the red zone the kernel leaves what it likes. -/
def pushFrame (restorer : UInt64) (c : Context) (addr : UInt64) (junk : Memory) : Memory :=
  let free := c.cpu.regs .rsp - redZone - addr
  storeAll (fun b => if Within addr free b then junk b else c.cpu.mem b) addr
    (frameWords restorer c)

/-- What `rt_sigreturn` takes from a frame. -/
def popFrame (s : State) (addr : UInt64) : Context where
  cpu := { s with
    regs := fun r => load64 s.mem (addr + offsetOf r)
    rip := load64 s.mem (addr + ripOffset)
    zf := load64 s.mem (addr + eflagsOffset) &&& 0x40 ≠ 0 }
  blocked := load64 s.mem (addr + sigmaskOffset)

/-- The frame stands in memory. -/
def Saved (mem : Memory) (restorer addr : UInt64) (c : Context) : Prop :=
  ∀ w ∈ frameWords restorer c, load64 mem (addr + w.1) = w.2

/-- The frame lies below the red zone of the interrupted function. -/
def Fits (c : Context) (addr : UInt64) : Prop :=
  addr.toNat + frameSize.toNat + redZone.toNat ≤ (c.cpu.regs .rsp).toNat

instance (c : Context) (addr : UInt64) : Decidable (Fits c addr) :=
  inferInstanceAs (Decidable (_ ≤ _))

section Laws

variable {mem mem' : Memory} {restorer addr b : UInt64} {c : Context} {s : State} {junk : Memory}

theorem registers_all (r : Reg) : r ∈ registers := by cases r <;> decide

theorem frameWords_offsets (restorer : UInt64) (c : Context) :
    (frameWords restorer c).map Prod.fst =
      0 :: ripOffset :: eflagsOffset :: sigmaskOffset :: registers.map offsetOf := rfl

theorem frameWords_apart (restorer : UInt64) (c : Context) :
    (frameWords restorer c).Pairwise fun u w => Apart u.1 w.1 := by
  have h : ((frameWords restorer c).map Prod.fst).Pairwise Apart := by
    rw [frameWords_offsets]
    decide +kernel
  exact List.pairwise_map.mp h

theorem frameWords_inside : ∀ w ∈ frameWords restorer c, w.1.toNat + 8 ≤ frameSize.toNat := by
  have h : ((frameWords restorer c).map Prod.fst).all (fun x => x.toNat + 8 ≤ frameSize.toNat) =
      true := by
    rw [frameWords_offsets]
    decide +kernel
  exact fun w hw => of_decide_eq_true (List.all_eq_true.mp h w.1 (List.mem_map_of_mem hw))

theorem saved_pushFrame (restorer : UInt64) (c : Context) (addr : UInt64) (junk : Memory) :
    Saved (pushFrame restorer c addr junk) restorer addr c :=
  fun _ hw => load64_storeAll (frameWords_apart restorer c) hw

/-- Nothing is written from the red zone on. -/
theorem pushFrame_outside (hfit : Fits c addr)
    (hb : (c.cpu.regs .rsp).toNat ≤ b.toNat + redZone.toNat) :
    pushFrame restorer c addr junk b = c.cpu.mem b := by
  have hframe : frameSize.toNat = 440 := rfl
  have hred : redZone.toNat = 128 := rfl
  have haddr := addr.toNat_lt
  have hsp := (c.cpu.regs .rsp).toNat_lt
  have hbl := b.toNat_lt
  rw [Fits] at hfit
  have hsub : (b - addr).toNat = b.toNat - addr.toNat := by
    rw [UInt64.toNat_sub]
    omega
  have hfree : (c.cpu.regs .rsp - redZone - addr).toNat =
      (c.cpu.regs .rsp).toNat - 128 - addr.toNat := by
    rw [UInt64.toNat_sub, UInt64.toNat_sub]
    omega
  have hword : ¬Within addr frameSize b := by
    rw [Within, UInt64.lt_iff_toNat_lt, hsub]
    omega
  have hjunk : ¬Within addr (c.cpu.regs .rsp - redZone - addr) b := by
    rw [Within, UInt64.lt_iff_toNat_lt, hsub, hfree]
    omega
  rw [pushFrame, storeAll_outside frameWords_inside hword]
  exact if_neg hjunk

theorem Saved.congr (h : Saved mem restorer addr c)
    (hsame : ∀ b, Within addr frameSize b → mem' b = mem b) : Saved mem' restorer addr c :=
  fun w hw => (load64_congr_region (frameWords_inside w hw) hsame).trans (h w hw)

theorem eflagsOf_and (zf : Bool) : (eflagsOf zf &&& 0x40 ≠ 0) ↔ zf = true := by
  cases zf <;> decide

/-- The interrupted state comes back, except for memory. -/
theorem popFrame_of_saved (h : Saved s.mem restorer addr c) : popFrame s addr =
    { c with cpu := { c.cpu with mem := s.mem, fsBase := s.fsBase } } := by
  have hrip : load64 s.mem (addr + ripOffset) = c.cpu.rip :=
    h (ripOffset, c.cpu.rip) (by simp [frameWords])
  have hflags : load64 s.mem (addr + eflagsOffset) = eflagsOf c.cpu.zf :=
    h (eflagsOffset, eflagsOf c.cpu.zf) (by simp [frameWords])
  have hmask : load64 s.mem (addr + sigmaskOffset) = c.blocked :=
    h (sigmaskOffset, c.blocked) (by simp [frameWords])
  have hregs : (fun r => load64 s.mem (addr + offsetOf r)) = c.cpu.regs := by
    funext r
    refine h (offsetOf r, c.cpu.regs r) ?_
    simp only [frameWords, List.mem_cons, List.mem_map]
    exact .inr (.inr (.inr (.inr ⟨r, registers_all r, rfl⟩)))
  simp only [popFrame, hrip, hflags, hmask, hregs, eflagsOf_and, Bool.decide_eq_true]

theorem Saved.returnAddress (h : Saved mem restorer addr c) : load64 mem addr = restorer := by
  have hfirst := h (0, restorer) List.mem_cons_self
  rwa [UInt64.add_zero] at hfirst

end Laws

end SignalFrames
