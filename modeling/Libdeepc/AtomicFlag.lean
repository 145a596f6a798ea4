import Libdeepc.Linearization
import Libdeepc.Machine

/-!
# Atomic flags on several processors

The listings of `atomic-flag-set.S`, run by any number of processors on one
memory, an instruction at a time. Each of them exchanges one byte with memory
once: there the call takes effect.
-/

namespace AtomicFlag

open Linearization Machine Runs WordMemory

inductive MemoryOrder
  | relaxed | consume | acquire | release | acqRel | seqCst

inductive Op
  | testAndSet
  | clear
  deriving DecidableEq

def atomicFlagTestAndSet : List Instr := [.movImm .rax 1, .xchgByte .rax .rdi, .ret]

/-- The code behind the five labels of the weaker orders. -/
def atomicFlagSet : List Instr := [.movImm .rax 1, .xchgByte .rax .rdi, .ret]

def atomicFlagClear : List Instr := [.xor .rax .rax, .xchgByte .rax .rdi, .ret]

def atomicFlagClearWeak : List Instr := [.xor .rax .rax, .xchgByte .rax .rdi, .ret]

structure Labels where
  testAndSet : UInt64
  set : UInt64
  clear : UInt64
  clearWeak : UInt64

/-- The label that `atomic_flag_test_and_set_explicit` or `atomic_flag_clear_explicit` calls. -/
def Labels.entry (l : Labels) : Op → MemoryOrder → UInt64
  | .testAndSet, .seqCst => l.testAndSet
  | .testAndSet, .relaxed | .testAndSet, .consume | .testAndSet, .acquire
  | .testAndSet, .release | .testAndSet, .acqRel => l.set
  | .clear, .seqCst => l.clear
  | .clear, .relaxed | .clear, .consume | .clear, .acquire | .clear, .release
  | .clear, .acqRel => l.clearWeak

structure Linked (code : Code) (l : Labels) : Prop where
  testAndSet : Placed code l.testAndSet atomicFlagTestAndSet
  set : Placed code l.set atomicFlagSet
  clear : Placed code l.clear atomicFlagClear
  clearWeak : Placed code l.clearWeak atomicFlagClearWeak

/-- The byte that a call stores. -/
def Op.stored : Op → UInt8
  | testAndSet => 1
  | clear => 0

/-- What a call returns. `atomic_flag_clear` leaves something in `rax`, but has no result. -/
def Op.result (rax : UInt64) : Op → Option Bool
  | testAndSet => some (rax.toUInt8 ≠ 0)
  | clear => none

/-- The flag, one call at a time. -/
def object (set : Bool) : Op → Unit → Option Bool × Bool
  | .testAndSet, _ => (some set, true)
  | .clear, _ => (none, false)

universe u
variable {T : Type u} [DecidableEq T]

abbrev Event (T : Type u) := Linearization.Event T Op Unit (Option Bool)

/-- A processor with the call that it is in. Its memory is the one of all. -/
structure Core where
  state : Machine.State
  running : Option Op

structure System (T : Type u) where
  mem : Memory
  cores : T → Core
  trace : List (Event T)

inductive Act (T : Type u)
  | call (t : T) (op : Op) (order : MemoryOrder) (s : Machine.State)
  | go (t : T)

/-- What an instruction shows of the call. -/
def shows (t : T) (op : Op) (rax : UInt64) : Instr → List (Event T)
  | .xchgByte _ _ => [.point t op () (op.result rax)]
  | .ret => [.ret t (op.result rax)]
  | _ => []

def isRet : Instr → Bool
  | .ret => true
  | _ => false

/-- One processor begins a call or executes an instruction of it. -/
def step (code : Code) (kernel : Kernel) (l : Labels) (flag : UInt64) (m : System T) :
    Act T → Option (System T)
  | .call t op order s =>
    match (m.cores t).running with
    | some _ => none
    | none =>
      if s.rip = l.entry op order ∧ s.regs .rdi = flag then
        some { m with
          cores := Function.update m.cores t ⟨s, some op⟩
          trace := m.trace ++ [.call t op] }
      else none
  | .go t =>
    match (m.cores t).running with
    | none => none
    | some op =>
      let s := { (m.cores t).state with mem := m.mem }
      match code s.rip with
      | none => none
      | some (i, next) =>
        let s' := exec kernel next s i
        some {
          mem := s'.mem
          cores := Function.update m.cores t ⟨s', if isRet i then none else some op⟩
          trace := m.trace ++ shows t op (s'.regs .rax) i }

/-- No processor is in a call, and the flag is clear. -/
def Idle (flag : UInt64) (m : System T) : Prop :=
  (∀ t, (m.cores t).running = none) ∧ m.mem flag = 0 ∧ m.trace = []

section Laws

variable {code : Code} {kernel : Kernel} {l : Labels} {flag : UInt64} {m m' : System T} {t : T}

/-- All labels of a call have the same code: the byte is loaded, exchanged, and the call
returns. -/
def listing : Op → List Instr
  | .testAndSet => [.movImm .rax 1, .xchgByte .rax .rdi, .ret]
  | .clear => [.xor .rax .rax, .xchgByte .rax .rdi, .ret]

theorem placed_entry (hl : Linked code l) (op : Op) (order : MemoryOrder) :
    Placed code (l.entry op order) (listing op) := by
  cases op with
  | testAndSet =>
    cases order with
    | seqCst => exact hl.testAndSet
    | _ => exact hl.set
  | clear =>
    cases order with
    | seqCst => exact hl.clear
    | _ => exact hl.clearWeak

/-- How far a processor is with its call. -/
inductive At (code : Code) (flag : UInt64) (c : Core) : Phase Op (Option Bool) → Prop
  | idle (h : c.running = none) : At code flag c .idle
  | start (op : Op) (h : c.running = some op) (hcode : Placed code c.state.rip (listing op))
      (hflag : c.state.regs .rdi = flag) : At code flag c (.called op)
  | loaded (op : Op) (h : c.running = some op)
      (hcode : Placed code c.state.rip [.xchgByte .rax .rdi, .ret])
      (hflag : c.state.regs .rdi = flag) (hrax : c.state.regs .rax = op.stored.toUInt64) :
      At code flag c (.called op)
  | exchanged (op : Op) (h : c.running = some op) (hcode : Placed code c.state.rip [.ret]) :
      At code flag c (.served (op.result (c.state.regs .rax)))

/-- The first instruction of a call. -/
def Op.first : Op → Instr
  | testAndSet => .movImm .rax 1
  | clear => .xor .rax .rax

theorem act_first (s : Machine.State) (op : Op) : (act s op.first).mem = s.mem ∧
    (act s op.first).regs .rdi = s.regs .rdi ∧ (act s op.first).regs .rax = op.stored.toUInt64 := by
  cases op with
  | testAndSet => exact ⟨rfl, rfl, rfl⟩
  | clear =>
    refine ⟨rfl, rfl, ?_⟩
    exact UInt64.xor_self

/-- The exchange is the call, at the byte of the flag. -/
theorem exchange {s : Machine.State} {op : Op} {set : Bool} (hflag : s.regs .rdi = flag)
    (hrax : s.regs .rax = op.stored.toUInt64) (hbyte : s.mem flag = if set then 1 else 0) :
    op.result ((act s (.xchgByte .rax .rdi)).regs .rax) = (object set op ()).1 ∧
      (act s (.xchgByte .rax .rdi)).mem =
        Function.update s.mem flag (if (object set op ()).2 then 1 else 0) := by
  simp only [act, regs_set, if_true, hflag, hrax, hbyte]
  cases op <;> cases set <;> exact ⟨rfl, rfl⟩

/-- What the processor relies on is in its registers. -/
theorem At.of_mem {c : Core} {p : Phase Op (Option Bool)} (h : At code flag c p) (mem : Memory) :
    At code flag ⟨{ c.state with mem := mem }, c.running⟩ p := by
  cases h with
  | idle h => exact .idle h
  | start op h hcode hflag => exact .start op h hcode hflag
  | loaded op h hcode hflag hrax => exact .loaded op h hcode hflag hrax
  | exchanged op h hcode => exact .exchanged op h hcode

omit [DecidableEq T] in
/-- One instruction of a processor in a call: it is there, and it does not show, or is the point or
the return of the call. -/
theorem at_exec {s : Machine.State} {p : Phase Op (Option Bool)} {op : Op} {set : Bool}
    (kernel : Kernel) (t : T) (h : At code flag ⟨s, some op⟩ p)
    (hbyte : s.mem flag = if set then 1 else 0) :
    ∃ i next s' p' set', code s.rip = some (i, next) ∧ exec kernel next s i = s' ∧
      Effect object t set p (shows t op (s'.regs .rax) i) p' set' ∧
      At code flag ⟨s', if isRet i then none else some op⟩ p' ∧
      s'.mem flag = (if set' then 1 else 0) ∧ ∀ a, a ≠ flag → s'.mem a = s.mem a := by
  cases h with
  | idle h => cases h
  | start op' h hcode hflag =>
    obtain rfl : op' = op := Option.some.inj h.symm
    have hfirst : Placed code s.rip [op'.first, .xchgByte .rax .rdi, .ret] := by
      cases op' <;> exact hcode
    obtain ⟨next, hi, hrest⟩ := hfirst
    obtain ⟨hmem, hrdi, hrax⟩ := act_first s op'
    have hexec : exec kernel next s op'.first = { act s op'.first with rip := next } :=
      exec_straight (by cases op' <;> rfl) next
    have hnot : isRet op'.first = false := by cases op' <;> rfl
    refine ⟨op'.first, next, _, .called op', set, hi, hexec, ?_, ?_, ?_, fun a _ => ?_⟩
    · have hsilent : ∀ rax, shows t op' rax op'.first = [] := by cases op' <;> exact fun _ => rfl
      rw [hsilent]
      exact .silent
    · rw [hnot]
      exact .loaded op' rfl hrest (hrdi.trans hflag) hrax
    · exact (congrFun hmem flag).trans hbyte
    · exact congrFun hmem a
  | loaded op' h hcode hflag hrax =>
    obtain rfl : op' = op := Option.some.inj h.symm
    obtain ⟨next, hi, hrest⟩ := hcode
    obtain ⟨hans, hmem⟩ := exchange hflag hrax hbyte
    refine ⟨.xchgByte .rax .rdi, next, _, .served (object set op' ()).1, (object set op' ()).2, hi,
      exec_straight rfl next, ?_, ?_, ?_, fun a ha => ?_⟩
    · rw [shows, hans]
      exact .point op' () rfl
    · rw [← hans]
      exact .exchanged op' rfl hrest
    · exact (congrFun hmem flag).trans (Function.update_self ..)
    · exact (congrFun hmem a).trans (Function.update_of_ne ha ..)
  | exchanged op' h hcode =>
    obtain rfl : op' = op := Option.some.inj h.symm
    obtain ⟨next, hi, _⟩ := hcode
    refine ⟨.ret, next, _, .idle, set, hi, rfl, ?_, .idle rfl, hbyte, fun _ _ => rfl⟩
    exact .ret _ rfl

structure Inv (code : Code) (flag : UInt64) (mem₀ : Memory) (m : System T)
    (ph : T → Phase Op (Option Bool)) (set : Bool) : Prop where
  linear : Linearizes object false m.trace ph set
  cores : ∀ t, At code flag (m.cores t) (ph t)
  byte : m.mem flag = if set then 1 else 0
  others : ∀ a, a ≠ flag → m.mem a = mem₀ a

/-- What one processor has done leaves the others where they are. -/
theorem at_update {m : System T} {c : Core} {ph : T → Phase Op (Option Bool)}
    {p : Phase Op (Option Bool)} (h : ∀ u, At code flag (m.cores u) (ph u))
    (hc : At code flag c p) (u : T) :
    At code flag (Function.update m.cores t c u) (Function.update ph t p u) := by
  by_cases hu : u = t
  · subst hu
    rwa [Function.update_self, Function.update_self]
  · rw [Function.update_of_ne hu, Function.update_of_ne hu]
    exact h u

theorem At.phase_idle {c : Core} {p : Phase Op (Option Bool)} (h : At code flag c p)
    (hc : c.running = none) : p = .idle := by
  cases h with
  | idle _ => rfl
  | start op h | loaded op h | exchanged op h => rw [hc] at h; cases h

theorem inv_step {mem₀ : Memory} {ph : T → Phase Op (Option Bool)} {set : Bool} {a : Act T}
    (hl : Linked code l) (hi : Inv code flag mem₀ m ph set)
    (h : step code kernel l flag m a = some m') :
    ∃ ph' set', Inv code flag mem₀ m' ph' set' := by
  cases a with
  | call t op order s =>
    simp only [step] at h
    split at h
    · cases h
    rename_i hidle
    split at h
    · rename_i hentry
      cases h
      have hphase : ph t = .idle := (hi.cores t).phase_idle hidle
      have hcode : Placed code s.rip (listing op) := hentry.1 ▸ placed_entry hl op order
      exact ⟨_, set, hi.linear.call hphase,
        at_update hi.cores (.start op rfl hcode hentry.2), hi.byte, hi.others⟩
    · cases h
  | go t =>
    simp only [step] at h
    split at h
    · cases h
    rename_i op hop
    have hat := (hi.cores t).of_mem m.mem
    rw [hop] at hat
    obtain ⟨i, next, s', p', set', hcode, hexec, heffect, hat', hbyte, hothers⟩ :=
      at_exec kernel t hat hi.byte
    simp only [hcode, hexec] at h
    cases h
    exact ⟨_, set', hi.linear.effect heffect, at_update hi.cores hat', hbyte,
      fun a ha => (hothers a ha).trans (hi.others a ha)⟩

theorem can_go {mem₀ : Memory} {ph : T → Phase Op (Option Bool)} {set : Bool} {op : Op}
    (hi : Inv code flag mem₀ m ph set) (hop : (m.cores t).running = some op) :
    ∃ m', step code kernel l flag m (.go t) = some m' := by
  have hat := (hi.cores t).of_mem m.mem
  rw [hop] at hat
  obtain ⟨i, next, s', _, _, hcode, hexec, _⟩ := at_exec kernel t hat hi.byte
  simp only [step, hop, hcode, hexec]
  exact ⟨_, rfl⟩

theorem inv_idle (hidle : Idle flag m) : Inv code flag m.mem m (fun _ => .idle) false := by
  obtain ⟨hrunning, hbyte, htrace⟩ := hidle
  refine ⟨?_, fun t => .idle (hrunning t), hbyte, fun _ _ => rfl⟩
  rw [htrace]
  exact .nil

theorem inv_run {acts : List (Act T)} (hl : Linked code l) (hidle : Idle flag m)
    (h : Runs.exec (step code kernel l flag) m acts = some m') :
    ∃ ph set, Inv code flag m.mem m' ph set := by
  refine inv_of_exec (I := fun m' => ∃ ph set, Inv code flag m.mem m' ph set)
    (Q := fun _ _ => True) (fun m a m' hi _ hm' => ?_) ⟨_, _, inv_idle hidle⟩
    (along_of_forall (p := fun _ => True) (fun _ _ => trivial) _) h
  obtain ⟨ph, set, hi⟩ := hi
  exact inv_step hl hi hm'

end Laws

/-- However the instructions of the processors interleave, and whichever memory orders they ask
for: every call answers as if the calls came one at a time, each between its start and its return.
The byte of the flag says what the last of them has left, the rest of the memory is untouched, and
a processor that is in a call always has a next instruction. -/
theorem flag_linearizable (code : Code) (kernel : Kernel) (l : Labels) (flag : UInt64)
    (acts : List (Act T)) (m m' : System T) (hl : Linked code l) (hidle : Idle flag m)
    (h : Runs.exec (step code kernel l flag) m acts = some m') :
    Matched m'.trace ∧
      (∃ set, Serial object false (points m'.trace) set ∧ m'.mem flag = if set then 1 else 0) ∧
      (∀ a, a ≠ flag → m'.mem a = m.mem a) ∧
      ∀ t, (m'.cores t).running ≠ none → ∃ m'', step code kernel l flag m' (.go t) = some m'' := by
  obtain ⟨ph, set, hi⟩ := inv_run hl hidle h
  refine ⟨hi.linear.matched, ⟨set, hi.linear.serial, hi.byte⟩, hi.others, fun t ht => ?_⟩
  obtain ⟨op, hop⟩ := Option.ne_none_iff_exists'.mp ht
  exact can_go hi hop

section Two

/-- The four listings, one behind the other. -/
def flagCode : Code := fun a => ((layout 0x1000 (atomicFlagTestAndSet ++ atomicFlagSet ++
  atomicFlagClear ++ atomicFlagClearWeak)).lookup a)

def flagLabels : Labels := ⟨0x1000, 0x100c, 0x1018, 0x1024⟩

theorem flagCode_linked : Linked flagCode flagLabels := by
  constructor <;> decide

/-- A processor that calls with the flag at address 64. -/
def caller (rip rsp : UInt64) : Machine.State where
  regs r := if r = .rdi then 64 else if r = .rsp then rsp else 0
  rip := rip
  zf := false
  fsBase := 0
  mem _ := 0

def cold (T : Type u) : System T := ⟨fun _ => 0, fun _ => ⟨caller 0 0, none⟩, []⟩

/-- Both set the flag, in different orders of memory; the first one clears it again. -/
def bothSet (t u : Fin 2) : List (Act (Fin 2)) :=
  [.call t .testAndSet .seqCst (caller 0x1000 0x8000), .go t,
    .call u .testAndSet .acquire (caller 0x100c 0x9000), .go u, .go u, .go t, .go u, .go t,
    .call t .clear .release (caller 0x1024 0x8000), .go t, .go t]

theorem flag_linearizable_two : ∃ m' : System (Fin 2),
    points m'.trace = [(.testAndSet, (), some false), (.testAndSet, (), some true),
      (.clear, (), none)] ∧ Matched m'.trace ∧
      (∃ set, Serial object false (points m'.trace) set ∧ m'.mem 64 = if set then 1 else 0) ∧
      (∀ a, a ≠ 64 → m'.mem a = (cold (Fin 2)).mem a) ∧
      ∀ t, (m'.cores t).running ≠ none →
        ∃ m'', step flagCode quiet flagLabels 64 m' (.go t) = some m'' := by
  have hpoints : (Runs.exec (step flagCode quiet flagLabels 64)
      (cold (Fin 2)) (bothSet 0 1)).map (fun m => points m.trace) =
        some [(.testAndSet, (), some false), (.testAndSet, (), some true), (.clear, (), none)] := by
    decide +kernel
  obtain ⟨m', hexec, hm'⟩ := Option.map_eq_some_iff.mp hpoints
  refine ⟨m', hm', flag_linearizable flagCode quiet flagLabels 64
    (bothSet 0 1) (cold (Fin 2)) m' flagCode_linked ?_ hexec⟩
  exact ⟨fun _ => rfl, rfl, rfl⟩

end Two

end AtomicFlag
