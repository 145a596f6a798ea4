import Libdeepc.Runs
import Libdeepc.SignalFrames
import Mathlib.Data.List.Perm.Subperm

/-!
# Signals in a process

`signal` of `signal.c` and the restorer of `signal-restorer.S`, with signals that
come between any two instructions, in handlers too. The kernel keeps an action for
each signal and the set of those that are blocked. `signal` is one step here; all
other code runs instruction by instruction.
-/

namespace Signals

open Machine SignalFrames WordMemory Runs

section Code

def SIG_DFL : UInt64 := 0
def SIG_IGN : UInt64 := 1
def SIG_ERR : UInt64 := -1

def SIGKILL : Int32 := 9
def SIGSTOP : Int32 := 19
def SIGMAX : Int32 := 31

def SA_RESTORER : UInt64 := 0x4000000
def SA_RESTART : UInt64 := 0x10000000

def EINVAL : Int32 := 22

/-- `struct sigaction`, with the words of its `sigset_t` -/
structure Sigaction where
  handler : UInt64
  flags : UInt64
  restorer : UInt64
  mask : List UInt64

def setMaskBit (set : List UInt64) (sig : Int32) : List UInt64 :=
  let sig := (sig - 1).toInt64.toUInt64
  let wordSize : UInt64 := 8 * 8
  let word := sig / wordSize
  let bit := sig % wordSize
  -- a shift of 32 bits, widened
  set.modify word.toNat (· ||| ((1 : UInt32) <<< bit.toUInt32).toUInt64)

end Code

section Kernel

/-- What the kernel keeps of a `struct sigaction`. -/
structure Action where
  handler : UInt64
  flags : UInt64
  restorer : UInt64
  mask : UInt64
  deriving DecidableEq

abbrev Table := Int32 → Action

def SA_NODEFER : UInt64 := 0x40000000
def SA_RESETHAND : UInt64 := 0x80000000

def maskBit (sig : Int32) : UInt64 := 1 <<< (sig - 1).toUInt32.toUInt64

/-- These are never in a mask that the kernel keeps. -/
def unblockable : UInt64 := maskBit SIGKILL ||| maskBit SIGSTOP

def rtSigaction (table : Table) (sig : Int32) (act : Sigaction) (size : UInt64) :
    Except Int32 (Action × Table) :=
  if size ≠ 8 ∨ sig < 1 ∨ sig > 64 ∨ sig = SIGKILL ∨ sig = SIGSTOP then .error EINVAL
  else .ok (table sig, Function.update table sig
    ⟨act.handler, act.flags, act.restorer, act.mask.headD 0 &&& ~~~unblockable⟩)

end Kernel

structure SignalCall where
  ret : UInt64
  errno : Int32
  table : Table

/-- `restore` is the address of `__restore`. -/
def signal (restore : UInt64) (table : Table) (errno : Int32) (sig : Int32) (handler : UInt64) :
    SignalCall :=
  if sig ≤ 0 ∨ sig > SIGMAX then ⟨SIG_ERR, EINVAL, table⟩
  else
    let newAct : Sigaction := ⟨handler, SA_RESTART ||| SA_RESTORER, restore, setMaskBit [0] sig⟩
    let maskSize : UInt64 := 8 * .ofNat newAct.mask.length
    match rtSigaction table sig newAct maskSize with
    | .error e => ⟨SIG_ERR, e, table⟩
    | .ok (oldAct, table) => ⟨oldAct.handler, errno, table⟩

def SYS_RT_SIGRETURN : UInt64 := 15

/-- `__restore` -/
def restorer : List Instr := [.movImm .rax SYS_RT_SIGRETURN, .syscall]

section Run

/-- A handler that has not returned, the place of its frame and what it has interrupted. -/
structure Frame where
  sig : Int32
  addr : UInt64
  context : Context

inductive Event
  | signal (sig : Int32) (handler : UInt64) (errno : Int32) (ret : UInt64) (errnoAfter : Int32)
  | started (sig : Int32) (handler : UInt64)
  deriving DecidableEq

/-- `frames` and `log` are what has happened: no step looks at them. -/
structure Process where
  cpu : State
  table : Table
  blocked : UInt64
  frames : List Frame
  log : List Event

inductive Act
  | run
  | signal (sig : Int32) (handler : UInt64) (errno : Int32)
  | deliver (sig : Int32) (addr : UInt64) (junk : Memory)

/-- A handler can be started for the signal, with its frame at this address. -/
def Deliverable (p : Process) (sig : Int32) (addr : UInt64) : Prop :=
  (p.table sig).handler ≠ SIG_DFL ∧ (p.table sig).handler ≠ SIG_IGN ∧
    (p.table sig).flags &&& SA_RESTORER ≠ 0 ∧ p.blocked &&& maskBit sig = 0 ∧
    addr % 16 = 8 ∧ Fits ⟨p.cpu, p.blocked⟩ addr

instance (p : Process) (sig : Int32) (addr : UInt64) : Decidable (Deliverable p sig addr) :=
  inferInstanceAs (Decidable (_ ∧ _))

/-- The arguments of a handler: the signal, and pointers to two parts of the frame. -/
def handlerRegs (sig : Int32) (addr : UInt64) (regs : Reg → UInt64) : Reg → UInt64
  | .rdi => sig.toInt64.toUInt64
  | .rsi => addr + infoOffset
  | .rdx => addr + 8
  | .rax => 0
  | .rsp => addr
  | r => regs r

def deliver (p : Process) (sig : Int32) (addr : UInt64) (junk : Memory) : Process :=
  let a := p.table sig
  let c : Context := ⟨p.cpu, p.blocked⟩
  { cpu := { p.cpu with
      regs := handlerRegs sig addr p.cpu.regs
      rip := a.handler
      mem := pushFrame a.restorer c addr junk }
    table := if a.flags &&& SA_RESETHAND = 0 then p.table
      else Function.update p.table sig { a with handler := SIG_DFL }
    blocked := (p.blocked ||| a.mask |||
      if a.flags &&& SA_NODEFER = 0 then maskBit sig else 0) &&& ~~~unblockable
    frames := ⟨sig, addr, c⟩ :: p.frames
    log := p.log ++ [.started sig a.handler] }

def sigreturn (p : Process) : Process :=
  let c := popFrame p.cpu (p.cpu.regs .rsp - 8)
  { p with
    cpu := c.cpu
    blocked := c.blocked &&& ~~~unblockable
    frames := p.frames.tail }

def step (code : Code) (kernel : Kernel) (restore : UInt64) (p : Process) : Act → Option Process
  | .run => (code p.cpu.rip).map fun (i, next) =>
    if i = .syscall ∧ p.cpu.regs .rax = SYS_RT_SIGRETURN then sigreturn p
    else { p with cpu := exec kernel next p.cpu i }
  | .signal sig handler errno =>
    let r := signal restore p.table errno sig handler
    some { p with table := r.table, log := p.log ++ [.signal sig handler errno r.ret r.errno] }
  | .deliver sig addr junk =>
    if Deliverable p sig addr then some (deliver p sig addr junk) else none

/-- A process starts with some signals ignored and some blocked. -/
def inherited (ignored : Int32 → Bool) (sig : Int32) : Action :=
  ⟨if ignored sig then SIG_IGN else SIG_DFL, 0, 0, 0⟩

def initial (cpu : State) (ignored : Int32 → Bool) (blocked : UInt64) : Process :=
  ⟨cpu, inherited ignored, blocked &&& ~~~unblockable, [], []⟩

/-- Handlers leave the frames alone, keep the stack pointer below them, and return with the stack
pointer that they have been given. -/
def Polite (code : Code) (kernel : Kernel) (restore : UInt64) (p : Process) : Act → Prop
  | .run => (∀ p', step code kernel restore p .run = some p' → ∀ f ∈ p.frames, ∀ b,
      Within f.addr frameSize b → p'.cpu.mem b = p.cpu.mem b) ∧
    ((∃ next, code p.cpu.rip = some (.syscall, next)) → p.cpu.regs .rax = SYS_RT_SIGRETURN →
      ∃ f ∈ p.frames.head?, p.cpu.regs .rsp = f.addr + 8)
  | .signal _ _ _ => True
  | .deliver _ _ _ => ∀ f ∈ p.frames.head?, (p.cpu.regs .rsp).toNat ≤ f.addr.toNat + 8

end Run

section Bits

variable {sig : Int32} {b c d : UInt64}

/-- The signals for which `signal` installs a handler. -/
def Accepted (sig : Int32) : Prop := 0 < sig ∧ sig ≤ SIGMAX ∧ sig ≠ SIGKILL ∧ sig ≠ SIGSTOP

instance (sig : Int32) : Decidable (Accepted sig) := inferInstanceAs (Decidable (_ ∧ _))

def accepted : List Int32 := ((List.range 32).map Int32.ofNat).filter Accepted

theorem mem_accepted (h : Accepted sig) : sig ∈ accepted := by
  have hle := Int32.le_iff_toInt_le.mp h.2.1
  have hlt := Int32.lt_iff_toInt_lt.mp h.1
  have hmax : SIGMAX.toInt = 31 := rfl
  have hzero : (0 : Int32).toInt = 0 := rfl
  refine List.mem_filter.mpr ⟨List.mem_map.mpr ⟨sig.toInt.toNat, ?_, ?_⟩, decide_eq_true h⟩
  · rw [List.mem_range]
    omega
  · apply Int32.toInt_inj.mp
    rw [Int32.toInt_ofNat_of_lt]
    · omega
    · omega

/-- The 32-bit shift does: no signal of `signal` is beyond it. -/
theorem accepted_bits (h : Accepted sig) : setMaskBit [0] sig = [maskBit sig] ∧
    maskBit sig &&& ~~~unblockable = maskBit sig ∧ maskBit sig ≠ 0 := by
  have hall : accepted.all (fun sig => setMaskBit [0] sig = [maskBit sig] ∧
      maskBit sig &&& ~~~unblockable = maskBit sig ∧ maskBit sig ≠ 0) = true := by decide +kernel
  exact of_decide_eq_true (List.all_eq_true.mp hall sig (mem_accepted h))

theorem or_and (b c d : UInt64) : (b ||| c) &&& d = (b &&& d) ||| (c &&& d) := by
  apply UInt64.toBitVec_inj.mp
  simp only [UInt64.toBitVec_and, UInt64.toBitVec_or, BitVec.and_or_distrib_right]

theorem and_or_self (c d : UInt64) : (c &&& d) ||| d = d := by
  apply UInt64.toBitVec_inj.mp
  apply BitVec.eq_of_getLsbD_eq
  intro i _
  simp only [UInt64.toBitVec_and, UInt64.toBitVec_or, BitVec.getLsbD_or, BitVec.getLsbD_and]
  cases c.toBitVec.getLsbD i <;> cases d.toBitVec.getLsbD i <;> rfl

end Bits

section Law

/-- What `signal` installs. -/
def made (restore : UInt64) (sig : Int32) (handler : UInt64) : Action :=
  ⟨handler, SA_RESTART ||| SA_RESTORER, restore, maskBit sig⟩

def Event.install (cur : Int32 → UInt64) : Event → Int32 → UInt64
  | .signal sig handler _ _ _ => if Accepted sig then Function.update cur sig handler else cur
  | .started _ _ => cur

/-- The handler that the last accepted call for a signal has installed. -/
def current (ignored : Int32 → Bool) (log : List Event) : Int32 → UInt64 :=
  log.foldl Event.install fun sig => (inherited ignored sig).handler

/-- What `signal` returns, and which handler is started, follows from what has come before. -/
def Told (ignored : Int32 → Bool) (log : List Event) : Event → Prop
  | .signal sig _ errno ret errnoAfter =>
    if Accepted sig then ret = current ignored log sig ∧ errnoAfter = errno
    else ret = SIG_ERR ∧ errnoAfter = EINVAL
  | .started sig handler => Accepted sig ∧ handler = current ignored log sig ∧
    handler ≠ SIG_DFL ∧ handler ≠ SIG_IGN

inductive Lawful (ignored : Int32 → Bool) : List Event → Prop
  | nil : Lawful ignored []
  | concat {log : List Event} {e : Event} :
    Lawful ignored log → Told ignored log e → Lawful ignored (log ++ [e])

/-- Each handler blocks its own signal, and what was blocked where it has come in. -/
def Masks (b₀ : UInt64) : List Frame → UInt64 → Prop
  | [], b => b = b₀
  | f :: fs, b => b = f.context.blocked ||| maskBit f.sig ∧
    f.context.blocked &&& maskBit f.sig = 0 ∧ Masks b₀ fs f.context.blocked

/-- The table is the one of the log. -/
structure Known (restore : UInt64) (ignored : Int32 → Bool) (table : Table) (log : List Event) :
    Prop where
  lawful : Lawful ignored log
  current : ∀ sig, (table sig).handler = current ignored log sig
  actions : ∀ sig, table sig = inherited ignored sig ∨
    Accepted sig ∧ table sig = made restore sig (table sig).handler

/-- The frames stand in memory, one below the other, newest first. -/
structure Nested (restore b₀ : UInt64) (mem : Memory) (frames : List Frame) (blocked : UInt64) :
    Prop where
  accepted : ∀ f ∈ frames, Accepted f.sig
  masks : Masks b₀ frames blocked
  fits : ∀ f ∈ frames, Fits f.context f.addr
  stacked : frames.Pairwise fun f g => (f.context.cpu.regs .rsp).toNat ≤ g.addr.toNat + 8
  saved : ∀ f ∈ frames, Saved mem restore f.addr f.context

structure Inv (restore : UInt64) (ignored : Int32 → Bool) (b₀ : UInt64) (p : Process) : Prop where
  known : Known restore ignored p.table p.log
  nested : Nested restore b₀ p.cpu.mem p.frames p.blocked

end Law

section Calls

variable {restore : UInt64} {ignored : Int32 → Bool} {table : Table} {log : List Event}
  {sig : Int32}

theorem signal_eq (restore : UInt64) (table : Table) (errno sig : Int32) (handler : UInt64) :
    signal restore table errno sig handler = if Accepted sig then
      ⟨(table sig).handler, errno, Function.update table sig (made restore sig handler)⟩
    else ⟨SIG_ERR, EINVAL, table⟩ := by
  by_cases h : Accepted sig
  · rw [if_pos h]
    obtain ⟨hbits, hclean, _⟩ := accepted_bits h
    obtain ⟨hpos, hmax, hkill, hstop⟩ := h
    have hrange : ¬(sig ≤ 0 ∨ sig > SIGMAX) := by
      rintro (hle | hgt)
      · exact absurd hpos (Int32.not_lt.mpr hle)
      · exact absurd hmax (Int32.not_le.mpr hgt)
    have hkernel : ¬((8 * .ofNat 1 : UInt64) ≠ 8 ∨ sig < 1 ∨ sig > 64 ∨ sig = SIGKILL ∨
        sig = SIGSTOP) := by
      rw [Int32.le_iff_toInt_le] at hmax
      rw [Int32.lt_iff_toInt_lt] at hpos
      rw [gt_iff_lt, Int32.lt_iff_toInt_lt, Int32.lt_iff_toInt_lt]
      have hthirtyone : SIGMAX.toInt = 31 := rfl
      have hzero : (0 : Int32).toInt = 0 := rfl
      have hone : (1 : Int32).toInt = 1 := rfl
      have hsixtyfour : (64 : Int32).toInt = 64 := rfl
      rintro (hsize | hlow | hhigh | hk | hs)
      · exact hsize rfl
      · omega
      · omega
      · exact hkill hk
      · exact hstop hs
    rw [signal, if_neg hrange]
    simp only [hbits, rtSigaction, List.length_singleton]
    rw [if_neg hkernel]
    simp only [List.headD_cons, hclean, made]
  · rw [if_neg h, signal]
    split
    · rfl
    · next hrange =>
      have hkernel : rtSigaction table sig
          ⟨handler, SA_RESTART ||| SA_RESTORER, restore, setMaskBit [0] sig⟩
          (8 * .ofNat (setMaskBit [0] sig).length) = .error EINVAL := by
        rw [not_or] at hrange
        refine if_pos (.inr (.inr (.inr ?_)))
        by_contra hneither
        rw [not_or] at hneither
        exact h ⟨Int32.not_le.mp hrange.1, Int32.not_lt.mp hrange.2, hneither⟩
      simp only [hkernel]

theorem current_concat (log : List Event) (e : Event) :
    current ignored (log ++ [e]) = e.install (current ignored log) := List.foldl_concat ..

theorem known_initial (restore : UInt64) (ignored : Int32 → Bool) :
    Known restore ignored (inherited ignored) [] :=
  ⟨.nil, fun _ => rfl, fun _ => .inl rfl⟩

theorem Known.install (h : Known restore ignored table log) (hsig : Accepted sig)
    (handler : UInt64) (errno : Int32) :
    Known restore ignored (Function.update table sig (made restore sig handler))
      (log ++ [.signal sig handler errno (table sig).handler errno]) := by
  refine ⟨h.lawful.concat ?_, fun sig' => ?_, fun sig' => ?_⟩
  · rw [Told, if_pos hsig]
    exact ⟨h.current sig, rfl⟩
  · rw [current_concat, Event.install, if_pos hsig]
    by_cases hsame : sig' = sig
    · subst hsame
      rw [Function.update_self, Function.update_self, made]
    · rw [Function.update_of_ne hsame, Function.update_of_ne hsame, h.current]
  · by_cases hsame : sig' = sig
    · subst hsame
      rw [Function.update_self]
      exact .inr ⟨hsig, rfl⟩
    · rw [Function.update_of_ne hsame]
      exact h.actions sig'

theorem Known.refuse (h : Known restore ignored table log) (hsig : ¬Accepted sig)
    (handler : UInt64) (errno : Int32) :
    Known restore ignored table (log ++ [.signal sig handler errno SIG_ERR EINVAL]) := by
  refine ⟨h.lawful.concat ?_, fun sig' => ?_, h.actions⟩
  · rw [Told, if_neg hsig]
    exact ⟨rfl, rfl⟩
  · rw [current_concat, Event.install, if_neg hsig, h.current]

theorem Known.signal (h : Known restore ignored table log) (errno sig : Int32)
    (handler : UInt64) : Known restore ignored (signal restore table errno sig handler).table
      (log ++ [.signal sig handler errno (signal restore table errno sig handler).ret
        (signal restore table errno sig handler).errno]) := by
  rw [signal_eq]
  split
  · next hsig => exact h.install hsig handler errno
  · next hsig => exact h.refuse hsig handler errno

theorem Known.start (h : Known restore ignored table log) (hsig : Accepted sig)
    (hdfl : (table sig).handler ≠ SIG_DFL) (hign : (table sig).handler ≠ SIG_IGN) :
    Known restore ignored table (log ++ [.started sig (table sig).handler]) := by
  refine ⟨h.lawful.concat ⟨hsig, h.current sig, hdfl, hign⟩, fun sig' => ?_, h.actions⟩
  rw [current_concat, Event.install, h.current]

/-- Only what `signal` has installed is ever started. -/
theorem Known.made_of_handler (h : Known restore ignored table log)
    (hdfl : (table sig).handler ≠ SIG_DFL) (hign : (table sig).handler ≠ SIG_IGN) :
    Accepted sig ∧ table sig = made restore sig (table sig).handler := by
  rcases h.actions sig with hin | hmade
  · have hhandler := congrArg Action.handler hin
    rw [inherited] at hhandler
    split at hhandler
    · exact absurd hhandler hign
    · exact absurd hhandler hdfl
  · exact hmade

end Calls

section Frames

variable {restore b₀ blocked : UInt64} {mem mem' : Memory} {frames rest : List Frame} {f : Frame}
  {sig : Int32} {addr : UInt64}

theorem clean_initial (b₀ : UInt64) :
    b₀ &&& ~~~unblockable &&& ~~~unblockable = b₀ &&& ~~~unblockable := by
  rw [UInt64.and_assoc, UInt64.and_self]

theorem clean_of_masks (hclean : b₀ &&& ~~~unblockable = b₀)
    (hacc : ∀ f ∈ frames, Accepted f.sig) (h : Masks b₀ frames blocked) :
    blocked &&& ~~~unblockable = blocked := by
  induction frames generalizing blocked with
  | nil =>
    obtain rfl : blocked = b₀ := h
    exact hclean
  | cons f fs ih =>
    obtain ⟨rfl, _, hrest⟩ := h
    have hf := (accepted_bits (hacc f List.mem_cons_self)).2.1
    rw [or_and, ih (fun g hg => hacc g (List.mem_cons_of_mem f hg)) hrest, hf]

/-- The signals of all handlers that have not returned are blocked. -/
theorem blocked_of_masks (h : Masks b₀ frames blocked) :
    ∀ f ∈ frames, blocked &&& maskBit f.sig = maskBit f.sig := by
  induction frames generalizing blocked with
  | nil => exact fun f hf => absurd hf List.not_mem_nil
  | cons f fs ih =>
    obtain ⟨rfl, _, hrest⟩ := h
    intro g hg
    rcases List.mem_cons.mp hg with rfl | hg
    · rw [or_and, UInt64.and_self, and_or_self]
    · rw [or_and, ih hrest g hg, UInt64.or_comm, and_or_self]

theorem nodup_of_masks (hacc : ∀ f ∈ frames, Accepted f.sig) (h : Masks b₀ frames blocked) :
    (frames.map Frame.sig).Nodup := by
  induction frames generalizing blocked with
  | nil => exact .nil
  | cons f fs ih =>
    obtain ⟨rfl, hfree, hrest⟩ := h
    rw [List.map_cons, List.nodup_cons]
    refine ⟨fun hmem => ?_, ih (fun g hg => hacc g (List.mem_cons_of_mem f hg)) hrest⟩
    obtain ⟨g, hg, hsame⟩ := List.mem_map.mp hmem
    have hblocked := blocked_of_masks hrest g hg
    rw [hsame, hfree] at hblocked
    exact (accepted_bits (hacc f List.mem_cons_self)).2.2 hblocked.symm

theorem masks_eq (h : Masks b₀ frames blocked) :
    blocked = frames.foldr (fun f b => b ||| maskBit f.sig) b₀ := by
  induction frames generalizing blocked with
  | nil => exact h
  | cons f fs ih =>
    obtain ⟨rfl, _, hrest⟩ := h
    rw [List.foldr_cons, ← ih hrest]

theorem le_of_within {a n b : UInt64} (hfit : a.toNat + n.toNat < UInt64.size)
    (h : Within a n b) : a.toNat ≤ b.toNat := by
  have hsize : UInt64.size = 18446744073709551616 := rfl
  rw [Within, UInt64.lt_iff_toNat_lt, UInt64.toNat_sub] at h
  have hb := b.toNat_lt
  omega

/-- A frame below the newest one is below all of them. -/
theorem Nested.below (h : Nested restore b₀ mem frames blocked) {sp : UInt64}
    (hsp : ∀ f ∈ frames.head?, sp.toNat ≤ f.addr.toNat + 8) :
    ∀ f ∈ frames, sp.toNat ≤ f.addr.toNat + 8 := by
  cases frames with
  | nil => exact fun f hf => absurd hf List.not_mem_nil
  | cons g rest =>
    have hg := hsp g rfl
    intro f hf
    rcases List.mem_cons.mp hf with rfl | hf
    · exact hg
    · have hfit : g.addr.toNat + frameSize.toNat + redZone.toNat ≤ _ := h.fits g List.mem_cons_self
      have hgf := (List.pairwise_cons.mp h.stacked).1 f hf
      have hframe : frameSize.toNat = 440 := rfl
      omega

theorem Nested.congr (h : Nested restore b₀ mem frames blocked)
    (hsame : ∀ f ∈ frames, ∀ b, Within f.addr frameSize b → mem' b = mem b) :
    Nested restore b₀ mem' frames blocked :=
  { h with saved := fun f hf => (h.saved f hf).congr (hsame f hf) }

theorem Nested.push {c : Context} (h : Nested restore b₀ c.cpu.mem frames c.blocked)
    (hsig : Accepted sig) (hfree : c.blocked &&& maskBit sig = 0) (hfit : Fits c addr)
    (hsp : ∀ f ∈ frames.head?, (c.cpu.regs .rsp).toNat ≤ f.addr.toNat + 8) (junk : Memory) :
    Nested restore b₀ (pushFrame restore c addr junk) (⟨sig, addr, c⟩ :: frames)
      (c.blocked ||| maskBit sig) where
  accepted := List.forall_mem_cons.mpr ⟨hsig, h.accepted⟩
  masks := ⟨rfl, hfree, h.masks⟩
  fits := List.forall_mem_cons.mpr ⟨hfit, h.fits⟩
  stacked := List.pairwise_cons.mpr ⟨h.below hsp, h.stacked⟩
  saved := by
    refine List.forall_mem_cons.mpr ⟨saved_pushFrame restore c addr junk, fun f hf => ?_⟩
    have hframe : frameSize.toNat = 440 := rfl
    have hred : redZone.toNat = 128 := rfl
    have hf₈ := h.below hsp f hf
    have hfits : f.addr.toNat + frameSize.toNat + redZone.toNat ≤ _ := h.fits f hf
    have htop := (f.context.cpu.regs .rsp).toNat_lt
    refine (h.saved f hf).congr fun b hb => pushFrame_outside hfit ?_
    have hsize : UInt64.size = 18446744073709551616 := rfl
    have hle := le_of_within (by omega) hb
    omega

/-- The newest handler has come back: what it has interrupted goes on. -/
theorem Nested.pop {p : Process} (hclean : b₀ &&& ~~~unblockable = b₀)
    (h : Nested restore b₀ p.cpu.mem (f :: rest) blocked) (hp : p.frames = f :: rest)
    (hrsp : p.cpu.regs .rsp = f.addr + 8) : sigreturn p =
      { p with
        cpu := { f.context.cpu with mem := p.cpu.mem, fsBase := p.cpu.fsBase }
        blocked := f.context.blocked
        frames := rest } := by
  have haddr : p.cpu.regs .rsp - 8 = f.addr := by rw [hrsp, UInt64.add_sub_cancel]
  have hmask : f.context.blocked &&& ~~~unblockable = f.context.blocked :=
    clean_of_masks hclean (fun g hg => h.accepted g (List.mem_cons_of_mem f hg)) h.masks.2.2
  rw [sigreturn, haddr, popFrame_of_saved (h.saved f List.mem_cons_self), hp]
  simp only [hmask, List.tail_cons]

theorem Nested.tail (h : Nested restore b₀ mem (f :: rest) blocked) :
    Nested restore b₀ mem rest f.context.blocked where
  accepted := (List.forall_mem_cons.mp h.accepted).2
  masks := h.masks.2.2
  fits := (List.forall_mem_cons.mp h.fits).2
  stacked := (List.pairwise_cons.mp h.stacked).2
  saved := (List.forall_mem_cons.mp h.saved).2

end Frames

section Steps

variable {code : Code} {kernel : Kernel} {restore b₀ : UInt64} {ignored : Int32 → Bool}
  {p p' : Process} {sig : Int32} {addr : UInt64}

theorem step_run {i : Instr} {next : UInt64} (hcode : code p.cpu.rip = some (i, next))
    (hi : ¬(i = .syscall ∧ p.cpu.regs .rax = SYS_RT_SIGRETURN)) :
    step code kernel restore p .run = some { p with cpu := Machine.exec kernel next p.cpu i } := by
  rw [step, hcode, Option.map_some]
  exact congrArg some (if_neg hi)

theorem step_sigreturn {next : UInt64} (hcode : code p.cpu.rip = some (.syscall, next))
    (hrax : p.cpu.regs .rax = SYS_RT_SIGRETURN) :
    step code kernel restore p .run = some (sigreturn p) := by
  rw [step, hcode, Option.map_some]
  exact congrArg some (if_pos ⟨rfl, hrax⟩)

/-- The handler's return: to the restorer that `signal` has put into the frame. -/
def atRestorer (restore : UInt64) (p : Process) : Process :=
  { p with cpu := { p.cpu.set .rsp (p.cpu.regs .rsp + 8) with rip := restore } }

theorem step_ret {next : UInt64} (hret : code p.cpu.rip = some (.ret, next))
    (hload : load64 p.cpu.mem (p.cpu.regs .rsp) = restore) :
    step code kernel restore p .run = some (atRestorer restore p) := by
  have hexec : Machine.exec kernel next p.cpu .ret =
      { p.cpu.set .rsp (p.cpu.regs .rsp + 8) with
        rip := load64 p.cpu.mem (p.cpu.regs .rsp) } := rfl
  rw [step_run hret (fun hsys => by cases hsys.1), hexec, hload]
  rfl

/-- The first instruction of the restorer: the number of the system call. -/
def atSigreturn (next : UInt64) (p : Process) : Process :=
  { p with cpu := { p.cpu.set .rax SYS_RT_SIGRETURN with rip := next } }

theorem step_movImm {next : UInt64}
    (hmov : code p.cpu.rip = some (.movImm .rax SYS_RT_SIGRETURN, next)) :
    step code kernel restore p .run = some (atSigreturn next p) := by
  rw [step_run hmov (fun hsys => by cases hsys.1), exec_straight rfl]
  rfl

/-- What a step does to the handlers. -/
inductive Change (p p' : Process) : Prop
  | none : p'.frames = p.frames → Change p p'
  | started (f : Frame) : p'.frames = f :: p.frames → Change p p'
  | returned (f : Frame) : p.frames = f :: p'.frames → Change p p'

theorem inv_initial (restore : UInt64) (cpu : State) (ignored : Int32 → Bool) (b₀ : UInt64) :
    Inv restore ignored (b₀ &&& ~~~unblockable) (initial cpu ignored b₀) :=
  ⟨known_initial restore ignored, by simp [initial], rfl, by simp [initial], .nil,
    by simp [initial]⟩

theorem deliver_made {handler : UInt64} (htable : p.table sig = made restore sig handler)
    (hsig : Accepted sig) (hclean : p.blocked &&& ~~~unblockable = p.blocked) (junk : Memory) :
    deliver p sig addr junk =
      { cpu := { p.cpu with
          regs := handlerRegs sig addr p.cpu.regs
          rip := handler
          mem := pushFrame restore ⟨p.cpu, p.blocked⟩ addr junk }
        table := p.table
        blocked := p.blocked ||| maskBit sig
        frames := ⟨sig, addr, p.cpu, p.blocked⟩ :: p.frames
        log := p.log ++ [.started sig handler] } := by
  have hflags : (SA_RESTART ||| SA_RESTORER) &&& SA_RESETHAND = 0 ∧
      (SA_RESTART ||| SA_RESTORER) &&& SA_NODEFER = 0 := by decide
  have hmask : (p.blocked ||| maskBit sig ||| maskBit sig) &&& ~~~unblockable =
      p.blocked ||| maskBit sig := by
    rw [UInt64.or_assoc, UInt64.or_self, or_and, hclean, (accepted_bits hsig).2.1]
  simp only [deliver, htable, made, hflags.1, hflags.2, if_true, hmask]

theorem inv_deliver (hclean : b₀ &&& ~~~unblockable = b₀) (h : Inv restore ignored b₀ p)
    (hd : Deliverable p sig addr)
    (hsp : ∀ f ∈ p.frames.head?, (p.cpu.regs .rsp).toNat ≤ f.addr.toNat + 8) (junk : Memory) :
    Inv restore ignored b₀ (deliver p sig addr junk) ∧ Change p (deliver p sig addr junk) := by
  obtain ⟨hdfl, hign, _, hfree, _, hfit⟩ := hd
  obtain ⟨hsig, htable⟩ := h.known.made_of_handler hdfl hign
  have hblocked := clean_of_masks hclean h.nested.accepted h.nested.masks
  rw [deliver_made htable hsig hblocked]
  refine ⟨⟨h.known.start hsig hdfl hign, ?_⟩, .started _ rfl⟩
  exact h.nested.push (c := ⟨p.cpu, p.blocked⟩) hsig hfree hfit hsp junk

theorem step_inv {a : Act} (hclean : b₀ &&& ~~~unblockable = b₀) (h : Inv restore ignored b₀ p)
    (ha : Polite code kernel restore p a) (hs : step code kernel restore p a = some p') :
    Inv restore ignored b₀ p' ∧ Change p p' := by
  cases a with
  | signal sig handler errno =>
    obtain rfl := Option.some.inj hs
    exact ⟨⟨h.known.signal errno sig handler, h.nested⟩, .none rfl⟩
  | deliver sig addr junk =>
    obtain ⟨hd, hs⟩ := Option.ite_none_right_eq_some.mp hs
    obtain rfl := Option.some.inj hs
    exact inv_deliver hclean h hd ha junk
  | run =>
    obtain ⟨hkeep, hreturn⟩ := ha
    have hmem := hkeep p' hs
    obtain ⟨⟨i, next⟩, hcode, hs⟩ := Option.map_eq_some_iff.mp hs
    dsimp only at hs
    split at hs
    · next hsys =>
      obtain ⟨rfl, hrax⟩ := hsys
      obtain ⟨f, hf, hrsp⟩ := hreturn ⟨next, hcode⟩ hrax
      obtain ⟨rest, hframes⟩ := List.head?_eq_some_iff.mp hf
      have hnested := hframes ▸ h.nested
      subst hs
      rw [hnested.pop hclean hframes hrsp]
      exact ⟨⟨h.known, hnested.tail⟩, .returned f hframes⟩
    · subst hs
      exact ⟨⟨h.known, h.nested.congr hmem⟩, .none rfl⟩

theorem inv_of_run {cpu : State} (acts : List Act)
    (hpolite : Along (step code kernel restore) (Polite code kernel restore)
      (initial cpu ignored b₀) acts)
    (h : exec (step code kernel restore) (initial cpu ignored b₀) acts = some p) :
    Inv restore ignored (b₀ &&& ~~~unblockable) p := by
  exact inv_of_exec (fun _ _ _ hi ha hs => (step_inv (clean_initial b₀) hi ha hs).1)
    (inv_initial restore cpu ignored b₀) hpolite h

end Steps

section Example

/-- Two handlers that return at once. -/
def image : Code := fun a =>
  (layout 0x1000 [.movImm .rbx 7] ++ layout 0x2000 [.ret] ++ layout 0x3000 restorer).lookup a

def start : State where
  regs r := match r with | .rsp => 0x8000 | .rbx => 11 | _ => 0
  rip := 0x1000
  zf := true
  fsBase := 0
  mem _ := 0

def installed : List Act := [.signal 8 0x2000 0, .signal 10 0x2000 0]

def firstSignal : Act := .deliver 8 0x7dc8 fun _ => 0

def secondSignal : Act := .deliver 10 0x7b88 fun _ => 0

/-- From the end of a handler to where it came in. -/
def returning : List Act := [.run, .run, .run]

/-- Instructions that leave memory alone. -/
def harmless (p : Process) : Act → Bool
  | .run => match image p.cpu.rip with
    | some (.movImm _ _, _) | some (.ret, _) => true
    | some (.syscall, _) => match p.frames with
      | f :: _ => p.cpu.regs .rsp = f.addr + 8
      | [] => false
    | _ => false
  | .signal _ _ _ => true
  | .deliver _ _ _ => match p.frames with
    | f :: _ => (p.cpu.regs .rsp).toNat ≤ f.addr.toNat + 8
    | [] => true

theorem polite_of_harmless (p : Process) (a : Act) (h : harmless p a = true) :
    Polite image quiet 0x3000 p a := by
  cases a with
  | signal sig handler errno => trivial
  | deliver sig addr junk =>
    intro f hf
    obtain ⟨rest, hframes⟩ := List.head?_eq_some_iff.mp hf
    simp only [harmless, hframes] at h
    exact of_decide_eq_true h
  | run =>
    cases hcode : image p.cpu.rip with
    | none => simp [harmless, hcode] at h
    | some c =>
      obtain ⟨i, next⟩ := c
      have hmem : ∀ p', step image quiet 0x3000 p .run = some p' → p'.cpu.mem = p.cpu.mem := by
        intro p' hs
        simp only [step, hcode, Option.map_some, Option.some.injEq] at hs
        split at hs
        · subst hs
          rfl
        · subst hs
          cases i <;> simp [harmless, hcode] at h <;> rfl
      refine ⟨fun p' hs f _ b _ => congrFun (hmem p' hs) b, ?_⟩
      rintro ⟨next', hsys⟩ _
      rw [hcode] at hsys
      obtain ⟨rfl, rfl⟩ := Prod.mk.injEq .. ▸ Option.some.inj hsys
      cases hframes : p.frames with
      | nil => simp [harmless, hcode, hframes] at h
      | cons f rest =>
        refine ⟨f, rfl, ?_⟩
        simpa [harmless, hcode, hframes] using h

theorem along_harmless {p : Process} {acts : List Act}
    (h : Along (step image quiet 0x3000) (fun p a => harmless p a = true) p acts) :
    Along (step image quiet 0x3000) (Polite image quiet 0x3000) p acts :=
  h.of_inv (I := fun _ => True) (fun p a _ => polite_of_harmless p a) (fun _ _ _ _ _ _ => trivial)
    trivial

end Example

section Runs

variable {restore b₀ : UInt64} {p q p' : Process} {f : Frame} {rest : List Frame}

/-- In every run `signal` returns what the last call for the signal has installed, and what it
installs stays. No handler comes in while one for the same signal has not returned. -/
theorem signals_nest (code : Code) (kernel : Kernel) (restore : UInt64) (cpu : State)
    (ignored : Int32 → Bool) (b₀ : UInt64) (acts : List Act) (p : Process)
    (hpolite : Along (step code kernel restore) (Polite code kernel restore)
      (initial cpu ignored b₀) acts)
    (h : exec (step code kernel restore) (initial cpu ignored b₀) acts = some p) :
    Lawful ignored p.log ∧ (∀ f ∈ p.frames, Accepted f.sig) ∧ (p.frames.map Frame.sig).Nodup ∧
      p.frames.length ≤ 29 ∧
      p.blocked = p.frames.foldr (fun f b => b ||| maskBit f.sig) (b₀ &&& ~~~unblockable) := by
  obtain ⟨hknown, hnested⟩ := inv_of_run acts hpolite h
  have hnodup := nodup_of_masks hnested.accepted hnested.masks
  refine ⟨hknown.lawful, hnested.accepted, hnodup, ?_, masks_eq hnested.masks⟩
  have hsub : p.frames.map Frame.sig ⊆ accepted := fun sig hsig => by
    obtain ⟨f, hf, rfl⟩ := List.mem_map.mp hsig
    exact mem_accepted (hnested.accepted f hf)
  have hle := (List.subperm_of_subset hnodup hsub).length_le
  have hcount : accepted.length = 29 := by decide +kernel
  rwa [List.length_map, hcount] at hle

/-- A signal in the handler of another one, which has returned. -/
theorem signals_nest_two : ∃ p : Process, p.frames.map Frame.sig = [8] ∧ p.blocked = 0x80 ∧
    p.log = [.signal 8 0x2000 0 SIG_DFL 0, .signal 10 0x2000 0 SIG_DFL 0, .started 8 0x2000,
      .started 10 0x2000, .signal 8 SIG_IGN 0 0x2000 0, .signal 9 0x2000 0 SIG_ERR EINVAL] ∧
    Lawful (fun _ => false) p.log ∧ (p.frames.map Frame.sig).Nodup := by
  let acts := installed ++ [firstSignal, secondSignal] ++ returning ++
    [.signal 8 SIG_IGN 0, .signal 9 0x2000 0]
  have hrun : (exec (step image quiet 0x3000) (initial start (fun _ => false) 0) acts).map
      (fun p => (p.frames.map Frame.sig, p.blocked, p.log)) =
      some ([8], 0x80, [.signal 8 0x2000 0 SIG_DFL 0, .signal 10 0x2000 0 SIG_DFL 0,
        .started 8 0x2000, .started 10 0x2000, .signal 8 SIG_IGN 0 0x2000 0,
        .signal 9 0x2000 0 SIG_ERR EINVAL]) := by
    decide +kernel
  obtain ⟨p, hexec, hp⟩ := Option.map_eq_some_iff.mp hrun
  obtain ⟨hframes, hrest⟩ := Prod.mk.injEq .. ▸ hp
  obtain ⟨hblocked, hlog⟩ := Prod.mk.injEq .. ▸ hrest
  obtain ⟨hlawful, _, hnodup, _⟩ := signals_nest image quiet 0x3000 start (fun _ => false) 0 acts p
    (along_harmless (by decide +kernel)) hexec
  exact ⟨p, hframes, hblocked, hlog, hlawful, hnodup⟩

/-- The return of the newest handler and the two instructions of `__restore`. -/
theorem comes_back {code : Code} {kernel : Kernel} {ignored : Int32 → Bool} {next : UInt64}
    (hclean : b₀ &&& ~~~unblockable = b₀) (hcode : Placed code restore restorer)
    (h : Inv restore ignored b₀ p) (hf : p.frames = f :: rest)
    (hret : code p.cpu.rip = some (.ret, next)) (hrsp : p.cpu.regs .rsp = f.addr) :
    exec (step code kernel restore) p [.run, .run, .run] = some
      { p with
        cpu := { f.context.cpu with mem := p.cpu.mem, fsBase := p.cpu.fsBase }
        blocked := f.context.blocked
        frames := rest } := by
  have hnested : Nested restore b₀ p.cpu.mem (f :: rest) p.blocked := hf ▸ h.nested
  obtain ⟨n₁, hmov, n₂, hsys, _⟩ := hcode
  have hload : load64 p.cpu.mem (p.cpu.regs .rsp) = restore := by
    rw [hrsp]
    exact (hnested.saved f List.mem_cons_self).returnAddress
  have hrsp' : (atSigreturn n₁ (atRestorer restore p)).cpu.regs .rsp = f.addr + 8 := by
    change p.cpu.regs .rsp + 8 = f.addr + 8
    rw [hrsp]
  rw [exec_cons, step_ret hret hload, Option.bind_some, exec_cons, step_movImm hmov,
    Option.bind_some, exec_cons, step_sigreturn hsys rfl,
    hnested.pop (p := atSigreturn n₁ (atRestorer restore p)) hclean hf hrsp']
  rfl

/-- As long as the handler has not returned, its frame and those below it stay. -/
theorem frames_of_deep {code : Code} {kernel : Kernel} {ignored : Int32 → Bool}
    (hclean : b₀ &&& ~~~unblockable = b₀) {acts : List Act} (hq : Inv restore ignored b₀ q)
    (hpolite : Along (step code kernel restore) (Polite code kernel restore) q acts)
    (hdeep : Along (step code kernel restore) (fun s _ => rest.length < s.frames.length) q acts)
    (h : exec (step code kernel restore) q acts = some p) (hlast : rest.length < p.frames.length)
    (newer : List Frame) (hform : q.frames = newer ++ f :: rest) :
    Inv restore ignored b₀ p ∧ ∃ newer, p.frames = newer ++ f :: rest := by
  induction acts generalizing q newer with
  | nil =>
    obtain rfl := Option.some.inj h
    exact ⟨hq, newer, hform⟩
  | cons a acts ih =>
    rw [exec_cons] at h
    obtain ⟨m, hm, h⟩ := Option.bind_eq_some_iff.mp h
    have hpolite' := hpolite.2 m hm
    have hdeep' := hdeep.2 m hm
    obtain ⟨hinv, hchange⟩ := step_inv hclean hq hpolite.1 hm
    have hlt : rest.length < m.frames.length := by
      cases acts with
      | nil => exact Option.some.inj h ▸ hlast
      | cons a' acts => exact hdeep'.1
    cases hchange with
    | none hframes => exact ih hinv hpolite' hdeep' h newer (hframes.trans hform)
    | started g hframes =>
      exact ih hinv hpolite' hdeep' h (g :: newer) (by rw [hframes, hform]; rfl)
    | returned g hframes =>
      rw [hform] at hframes
      cases newer with
      | cons g' newer => exact ih hinv hpolite' hdeep' h newer (List.cons.inj hframes).2.symm
      | nil =>
        rw [← (List.cons.inj hframes).2] at hlt
        exact absurd hlt (Nat.lt_irrefl _)

/-- Whatever happens in a handler, other handlers in it included: its return leads through
`__restore` to what it has interrupted, with the same registers, flag and blocked signals. -/
theorem interruption_passes (code : Code) (kernel : Kernel) (restore : UInt64) (cpu : State)
    (ignored : Int32 → Bool) (b₀ : UInt64) (before acts : List Act) (sig : Int32) (addr : UInt64)
    (junk : Memory) (p q p' : Process) (next : UInt64) (hcode : Placed code restore restorer)
    (hpolite : Along (step code kernel restore) (Polite code kernel restore)
      (initial cpu ignored b₀) (before ++ .deliver sig addr junk :: acts))
    (hp : exec (step code kernel restore) (initial cpu ignored b₀) before = some p)
    (hq : step code kernel restore p (.deliver sig addr junk) = some q)
    (h : exec (step code kernel restore) q acts = some p')
    (hdeep : Along (step code kernel restore)
      (fun s _ => p.frames.length < s.frames.length) q acts)
    (hnewest : p'.frames.length = p.frames.length + 1)
    (hret : code p'.cpu.rip = some (.ret, next)) (hrsp : p'.cpu.regs .rsp = addr) :
    exec (step code kernel restore) p' [.run, .run, .run] = some
      { p' with
        cpu := { p.cpu with mem := p'.cpu.mem, fsBase := p'.cpu.fsBase }
        blocked := p.blocked
        frames := p.frames } := by
  obtain ⟨hbefore, hrest⟩ := hpolite.split hp
  have hinv := inv_of_run before hbefore hp
  obtain ⟨hinv', _⟩ := step_inv (clean_initial b₀) hinv hrest.1 hq
  obtain ⟨_, hq'⟩ := Option.ite_none_right_eq_some.mp hq
  have hform : q.frames = [] ++ ⟨sig, addr, p.cpu, p.blocked⟩ :: p.frames :=
    congrArg Process.frames (Option.some.inj hq').symm
  obtain ⟨hback, newer, hframes⟩ := frames_of_deep (clean_initial b₀) hinv' (hrest.2 q hq) hdeep h
    (by omega) [] hform
  have hnone : newer = [] := by
    rw [hframes, List.length_append, List.length_cons] at hnewest
    exact List.length_eq_zero_iff.mp (by omega)
  rw [hnone] at hframes
  exact comes_back (clean_initial b₀) hcode hback hframes hret hrsp

/-- The second signal comes while the handler of the first one runs. -/
theorem interruption_passes_two : ∃ p p' p'' : Process, p.cpu.regs .rbx = 11 ∧
    exec (step image quiet 0x3000) p (firstSignal :: secondSignal :: returning) = some p' ∧
    exec (step image quiet 0x3000) p' returning = some p'' ∧ p''.frames = p.frames ∧
      p''.blocked = p.blocked ∧
      p''.cpu = { p.cpu with mem := p'.cpu.mem, fsBase := p'.cpu.fsBase } := by
  let first := initial start (fun _ => false) 0
  let acts := secondSignal :: returning
  have hrun : ((exec (step image quiet 0x3000) first installed).bind fun p =>
      (step image quiet 0x3000 p firstSignal).bind fun q =>
      (exec (step image quiet 0x3000) q acts).map fun p' =>
        decide (p.cpu.regs .rbx = 11 ∧ p'.frames.length = p.frames.length + 1 ∧
          image p'.cpu.rip = some (.ret, 0x2004) ∧ p'.cpu.regs .rsp = 0x7dc8 ∧
          Along (step image quiet 0x3000) (fun s _ => p.frames.length < s.frames.length) q
            acts)) = some true := by
    decide +kernel
  obtain ⟨p, hp, hrun⟩ := Option.bind_eq_some_iff.mp hrun
  obtain ⟨q, hq, hrun⟩ := Option.bind_eq_some_iff.mp hrun
  obtain ⟨p', h, htrue⟩ := Option.map_eq_some_iff.mp hrun
  obtain ⟨hrbx, hnewest, hret, hrsp, hdeep⟩ := of_decide_eq_true htrue
  refine ⟨p, p', _, hrbx, ?_, interruption_passes image quiet 0x3000 start (fun _ => false) 0
    installed acts 8 0x7dc8 (fun _ => 0) p q p' 0x2004 (by decide +kernel)
    (along_harmless (by decide +kernel)) hp hq h hdeep hnewest hret hrsp, rfl, rfl, rfl⟩
  rw [exec_cons, hq]
  exact h

/-- A handler that is about to return, with the stack pointer it has been given: three
instructions later what it has interrupted goes on. -/
theorem handler_comes_back (code : Code) (kernel : Kernel) (restore : UInt64) (cpu : State)
    (ignored : Int32 → Bool) (b₀ : UInt64) (acts : List Act) (p : Process) (f : Frame)
    (rest : List Frame) (next : UInt64) (hcode : Placed code restore restorer)
    (hpolite : Along (step code kernel restore) (Polite code kernel restore)
      (initial cpu ignored b₀) acts)
    (h : exec (step code kernel restore) (initial cpu ignored b₀) acts = some p)
    (hf : p.frames = f :: rest) (hret : code p.cpu.rip = some (.ret, next))
    (hrsp : p.cpu.regs .rsp = f.addr) :
    exec (step code kernel restore) p [.run, .run, .run] = some
      { p with
        cpu := { f.context.cpu with mem := p.cpu.mem, fsBase := p.cpu.fsBase }
        blocked := f.context.blocked
        frames := rest } :=
  comes_back (clean_initial b₀) hcode (inv_of_run acts hpolite h) hf hret hrsp

/-- The handler of the second signal, in that of the first one. -/
theorem handler_comes_back_two : ∃ (p p' : Process) (f g : Frame), p.frames = [g, f] ∧
    exec (step image quiet 0x3000) p returning = some p' ∧ p'.frames = [f] ∧
      p'.cpu = { g.context.cpu with mem := p.cpu.mem, fsBase := p.cpu.fsBase } := by
  have hrun : (exec (step image quiet 0x3000) (initial start (fun _ => false) 0)
      (installed ++ [firstSignal, secondSignal])).map (fun p =>
        (p.frames.map Frame.addr, p.cpu.rip, p.cpu.regs .rsp)) =
      some ([0x7b88, 0x7dc8], 0x2000, 0x7b88) := by
    decide +kernel
  obtain ⟨p, h, hp⟩ := Option.map_eq_some_iff.mp hrun
  obtain ⟨hframes, hrest⟩ := Prod.mk.injEq .. ▸ hp
  obtain ⟨hrip, hrsp⟩ := Prod.mk.injEq .. ▸ hrest
  obtain ⟨g, rest, hg, hgaddr, hrest⟩ := List.map_eq_cons_iff.mp hframes
  obtain ⟨f, rest, rfl, _, hnil⟩ := List.map_eq_cons_iff.mp hrest
  obtain rfl := List.map_eq_nil_iff.mp hnil
  have hret : image p.cpu.rip = some (.ret, 0x2004) := by
    rw [hrip]
    decide +kernel
  exact ⟨p, _, f, g, hg, handler_comes_back image quiet 0x3000 start (fun _ => false) 0
    (installed ++ [firstSignal, secondSignal]) p g [f] 0x2004 (by decide +kernel)
    (along_harmless (by decide +kernel)) h hg hret (hrsp.trans hgaddr.symm), rfl, rfl⟩

end Runs

end Signals
