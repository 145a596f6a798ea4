import Libdeepc.ModeLanguage
import Libdeepc.ResourceLedger

/-!
# The life of a FILE

Runs of `fopen` and `fclose`. What they acquire from malloc and the kernel is released
by the `fclose` of the stream and by nothing else, whatever fails. What `fclose` returns
is the opposite of what has happened.
-/

namespace FileLifecycle

open CString FileStreams FileCalls ModeLanguage ResourceLedger Runs

section Model

inductive Call
  | fopen (filename : UInt64) (mode : List UInt8) (block : UInt64) (answer : Answer)
  | fclose (stream : UInt64) (answer : Answer)

inductive Result
  | stream (p : UInt64)
  | status (r : Int)
  deriving DecidableEq

structure Entry where
  call : Call
  result : Result
  events : List Event

/-- The world behind the last call, and what each call has returned and asked for. -/
structure State where
  world : World
  journal : List Entry

def perform (w : World) : Call → Option (Result × World)
  | .fopen filename mode block answer =>
    (FileCalls.fopen filename mode block answer w).map fun r => (.stream r.1, r.2)
  | .fclose stream answer =>
    (FileCalls.fclose stream answer w).map fun r => (.status r.1, r.2)

def step (s : State) (c : Call) : Option State :=
  (perform { s.world with events := [] } c).map fun r =>
    ⟨r.2, s.journal ++ [⟨c, r.1, r.2.events⟩]⟩

def start (errno : Int32) : State := ⟨⟨errno, fun _ => none, []⟩, []⟩

/-- What the caller, malloc and the kernel see to: modes are strings, a block that is handed out is
not in use, only a stream that is open is closed, and -1 is no result. -/
def Proper (s : State) : Call → Prop
  | .fopen _ mode block answer => Terminated mode ∧
      (block ≠ 0 → s.world.streams block = none) ∧ answer ≠ .ok (-1)
  | .fclose stream answer => (s.world.streams stream).isSome ∧ answer ≠ .ok (-1)

end Model

section Law

/-- What the call does to the streams of the caller. -/
def handleMoves (e : Entry) : List (Move UInt64) :=
  match e.call, e.result with
  | .fopen .., .stream p => if p = 0 then [] else [.acquire p]
  | .fclose stream _, _ => [.release stream]
  | _, _ => []

def blockMove : Event → List (Move UInt64)
  | .malloc _ p => if p = 0 then [] else [.acquire p]
  | .free p => [.release p]
  | _ => []

def descriptorMove : Event → List (Move Int32)
  | .opened _ _ _ fd => if fd = -1 then [] else [.acquire fd]
  | .closed fd _ => [.release fd]
  | _ => []

/-- The stream that the call returns or closes. -/
def Entry.stream (e : Entry) : UInt64 :=
  match e.call, e.result with
  | .fopen .., .stream p => p
  | .fclose stream _, _ => stream
  | _, _ => 0

def blockMoves (e : Entry) : List (Move UInt64) := e.events.flatMap blockMove

/-- The descriptors, each with the stream of the call that opens or closes it. -/
def descriptorMoves (e : Entry) : List (Move (UInt64 × Int32)) :=
  (e.events.flatMap descriptorMove).map (Move.map fun fd => (e.stream, fd))

def opened (w : World) : Set UInt64 := {p | (w.streams p).isSome}

def descriptors (w : World) : Set (UInt64 × Int32) :=
  {q | ∃ f, w.streams q.1 = some f ∧ f.fd = q.2}

/-- The streams the caller holds have a block and a descriptor each; nothing else is held, and
nothing has been given back twice. -/
structure Ledger (s : State) : Prop where
  handles : Replays ∅ (s.journal.flatMap handleMoves) (opened s.world)
  blocks : Replays ∅ (s.journal.flatMap blockMoves) (opened s.world)
  descriptors : Replays ∅ (s.journal.flatMap descriptorMoves) (descriptors s.world)

/-- `fopen` returns a stream just when nothing is wrong, and `fclose` 0 just when nothing fails. -/
def Right (s : State) (c : Call) : Prop := ∃ result w,
  perform { s.world with events := [] } c = some (result, w) ∧
  match c with
  | .fopen _ mode block answer => ∃ p, result = .stream p ∧
      (p ≠ 0 ↔ Valid (text mode) ∧ block ≠ 0 ∧ ∃ fd, answer = .ok fd)
  | .fclose stream answer => ∃ r, result = .status r ∧
      (r = 0 ↔ (fflush stream s.world).1 = 0 ∧ ∃ ret, answer = .ok ret) ∧ (r ≠ 0 → r = EOF)

/-- The mode is told right, or something else fails. -/
def Good (_ : State) : Call → Prop
  | .fopen _ mode block answer => (block ≠ 0 ∧ ∃ fd, answer = .ok fd) →
      (∀ c ∈ lead (text mode), ¬Foreign c) ∨ ¬Valid (kept (text mode))
  | .fclose .. => False

end Law

section Calls

variable {filename block stream : UInt64} {mode : List UInt8} {answer : Answer} {w w' : World}

/-- What `fopen` may have done: it has returned NULL and changed no stream, or opened one. -/
inductive Opening (mode : List UInt8) (block : UInt64) (answer : Answer) (w : World) :
    UInt64 → World → Prop
  | rejected (hmode : ¬Accepted (text mode)) (errno : Int32) :
      Opening mode block answer w 0 ⟨errno, w.streams, w.events⟩
  | noMemory (hblock : block = 0) (errno : Int32) :
      Opening mode block answer w 0 ⟨errno, w.streams, w.events ++ [.malloc sizeofFILE 0]⟩
  | failed (hblock : block ≠ 0) (hanswer : ∃ e, answer = .error e) (errno : Int32)
      (pathname : UInt64) (flags modeArg : UInt32) :
      Opening mode block answer w 0 ⟨errno, w.streams, w.events ++
        [.malloc sizeofFILE block, .opened pathname flags modeArg (-1), .free block]⟩
  | opened (hmode : Accepted (text mode)) (hblock : block ≠ 0) (fd : Int32)
      (hanswer : answer = .ok fd) (hfd : fd ≠ -1) (errno : Int32)
      (pathname : UInt64) (flags modeArg : UInt32) (f : File) (hf : f.fd = fd) :
      Opening mode block answer w block ⟨errno, Function.update w.streams block (some f),
        w.events ++ [.malloc sizeofFILE block, .opened pathname flags modeArg fd]⟩

theorem fopen_cases (filename : UInt64) (w : World) (hmode : Terminated mode)
    (hblock : block ≠ 0 → w.streams block = none) (hanswer : answer ≠ .ok (-1)) :
    ∃ p w', FileCalls.fopen filename mode block answer w = some (p, w') ∧
      Opening mode block answer w p w' := by
  rw [FileCalls.fopen, parseMode_eq hmode, Option.map_some]
  cases hparse : (scan (text mode)).bind finish with
  | none =>
    refine ⟨_, _, rfl, .rejected ?_ _⟩
    rw [accepted_iff, hparse]
    exact Bool.false_ne_true
  | some info =>
    have haccepted : Accepted (text mode) := by
      rw [accepted_iff, hparse]
      rfl
    by_cases hnull : block = 0
    · subst hnull
      exact ⟨_, _, rfl, .noMemory rfl _⟩
    · cases answer with
      | error e =>
        have hback : Function.update w.streams block none = w.streams := by
          rw [← hblock hnull, Function.update_eq_self]
        simp only [malloc, openFile, checkErr, World.store, World.record, free, hnull,
          Function.update_idem, hback, List.append_assoc, List.cons_append, List.nil_append,
          if_true, if_false]
        exact ⟨_, _, rfl, .failed hnull ⟨e, rfl⟩ ..⟩
      | ok fd =>
        have hfd : fd ≠ -1 := fun h => hanswer (h ▸ rfl)
        simp only [malloc, openFile, checkErr, World.store, World.record, hnull, hfd,
          Function.update_idem, List.append_assoc, List.cons_append, List.nil_append, if_false]
        exact ⟨_, _, rfl, .opened haccepted hnull fd rfl hfd _ _ _ _ _ rfl⟩

/-- `fclose` closes the descriptor of its stream and frees the block, whatever the kernel says. -/
theorem fclose_eq {f : File} (answer : Answer) (hf : w.streams stream = some f) : ∃ errno ret,
    FileCalls.fclose stream answer w = some (if ret = -1 then 0 else EOF,
      ⟨errno, Function.update w.streams stream none,
        w.events ++ [.closed f.fd ret, .free stream]⟩) ∧
      (ret = -1 ↔ answer = .ok (-1) ∨ ∃ e, answer = .error e) := by
  have hflushed : ¬(0 : Int) = EOF := by decide
  cases answer with
  | error e =>
    refine ⟨e, -1, ?_, iff_of_true rfl (.inr ⟨e, rfl⟩)⟩
    simp only [FileCalls.fclose, fflush, hflushed, if_false, hf, Option.map_some, close, checkErr,
      World.record, free, List.append_assoc, List.cons_append, List.nil_append]
    rfl
  | ok ret =>
    refine ⟨w.errno, ret, ?_, by simp⟩
    simp only [FileCalls.fclose, fflush, hflushed, if_false, hf, Option.map_some, close, checkErr,
      World.record, free, List.append_assoc, List.cons_append, List.nil_append]
    by_cases hret : ret = -1
    · simp only [hret, decide_true, Bool.not_true, Bool.false_eq_true, if_true, if_false]
    · simp only [hret, decide_false, Bool.not_false, if_true, if_false]

end Calls

section Run

variable {s s' : State} {c : Call}

structure Inv (s : State) : Prop where
  ledger : Ledger s
  null : s.world.streams 0 = none

theorem replays_snoc {K : Type*} {moves : Entry → List (Move K)} {e : Entry} {held after : Set K}
    {journal : List Entry} (h : Replays ∅ (journal.flatMap moves) held)
    (he : Replays held (moves e) after) : Replays ∅ ((journal ++ [e]).flatMap moves) after := by
  rw [List.flatMap_append, List.flatMap_singleton]
  exact h.append he

theorem opened_update_some {w : World} {p : UInt64} {f : File} {errno : Int32}
    {events : List Event} : opened ⟨errno, Function.update w.streams p (some f), events⟩ =
      insert p (opened w) := by
  ext q
  by_cases hq : q = p
  · simp [opened, hq]
  · simp [opened, hq]

theorem opened_update_none {w : World} {p : UInt64} {errno : Int32} {events : List Event} :
    opened ⟨errno, Function.update w.streams p none, events⟩ = opened w \ {p} := by
  ext q
  by_cases hq : q = p
  · simp [opened, hq]
  · simp [opened, hq]

theorem descriptors_update_some {w : World} {p : UInt64} {f : File} {errno : Int32}
    {events : List Event} (hp : w.streams p = none) :
    descriptors ⟨errno, Function.update w.streams p (some f), events⟩ =
      insert (p, f.fd) (descriptors w) := by
  ext ⟨q, fd⟩
  by_cases hq : q = p
  · subst hq
    simp [descriptors, hp, eq_comm]
  · simp [descriptors, hq]

theorem descriptors_update_none {w : World} {p : UInt64} {f : File} {errno : Int32}
    {events : List Event} (hp : w.streams p = some f) :
    descriptors ⟨errno, Function.update w.streams p none, events⟩ =
      descriptors w \ {(p, f.fd)} := by
  ext ⟨q, fd⟩
  by_cases hq : q = p
  · subst hq
    simp [descriptors, hp, eq_comm]
  · simp [descriptors, hq]

/-- A call that moves what the streams do not hold leaves the ledger right. -/
theorem inv_of_same {w : World} {e : Entry} (h : Inv s) (hw : w.streams = s.world.streams)
    (hhandles : handleMoves e = []) (hblocks : Replays (opened s.world) (blockMoves e)
      (opened s.world)) (hdescriptors : descriptorMoves e = []) :
    Inv ⟨w, s.journal ++ [e]⟩ := by
  have hopened : opened w = opened s.world := by
    rw [opened, hw]
    rfl
  have hheld : descriptors w = descriptors s.world := by
    rw [descriptors, hw]
    rfl
  refine ⟨⟨?_, ?_, ?_⟩, hw ▸ h.null⟩
  · exact replays_snoc h.ledger.handles (by rw [hhandles, hopened]; rfl)
  · exact replays_snoc h.ledger.blocks (by rwa [hopened])
  · exact replays_snoc h.ledger.descriptors (by rw [hdescriptors, hheld]; rfl)

theorem inv_fopen {filename block : UInt64} {mode : List UInt8} {answer : Answer} (h : Inv s)
    (hproper : Proper s (.fopen filename mode block answer))
    (hstep : step s (.fopen filename mode block answer) = some s') : Inv s' := by
  obtain ⟨hmode, hfresh, hanswer⟩ := hproper
  obtain ⟨p, w', hcall, hopening⟩ :=
    fopen_cases filename { s.world with events := [] } hmode hfresh hanswer
  simp only [step, perform, hcall, Option.map_some] at hstep
  obtain rfl := Option.some.inj hstep
  cases hopening with
  | rejected hrejected errno =>
    exact inv_of_same h rfl rfl (replays_nil _) rfl
  | noMemory hblock errno =>
    exact inv_of_same h rfl rfl (replays_nil _) rfl
  | failed hblock hfailed errno pathname flags modeArg =>
    have hfree : block ∉ opened s.world := by
      simp [opened, hfresh hblock]
    refine inv_of_same h rfl rfl ?_ rfl
    have hmoves : blockMoves ⟨.fopen filename mode block answer, .stream 0,
        [] ++ [.malloc sizeofFILE block, .opened pathname flags modeArg (-1), .free block]⟩ =
        [.acquire block, .release block] := by
      simp [blockMoves, blockMove, hblock]
    rw [hmoves]
    exact replays_both hfree
  | opened haccepted hblock fd hok hfd errno pathname flags modeArg f hf =>
    obtain rfl := hf
    have hfree : s.world.streams block = none := hfresh hblock
    have hnew : block ∉ opened s.world := by
      simp [opened, hfree]
    have hunheld : (block, f.fd) ∉ descriptors s.world := by
      simp [descriptors, hfree]
    refine ⟨⟨?_, ?_, ?_⟩, (Function.update_of_ne hblock.symm ..).trans h.null⟩
    · refine replays_snoc h.ledger.handles ?_
      simp only [handleMoves, hblock, if_false, opened_update_some]
      exact replays_acquire hnew
    · refine replays_snoc h.ledger.blocks ?_
      simp only [blockMoves, blockMove, hblock, if_false, opened_update_some, List.nil_append,
        List.flatMap_cons, List.flatMap_nil, List.append_nil]
      exact replays_acquire hnew
    · refine replays_snoc h.ledger.descriptors ?_
      rw [descriptors_update_some hfree]
      simp only [descriptorMoves, descriptorMove, Entry.stream, hfd, if_false, List.nil_append,
        List.flatMap_cons, List.flatMap_nil, List.append_nil]
      exact replays_acquire hunheld

theorem inv_fclose {stream : UInt64} {answer : Answer} (h : Inv s)
    (hproper : Proper s (.fclose stream answer))
    (hstep : step s (.fclose stream answer) = some s') : Inv s' := by
  obtain ⟨f, hf⟩ := Option.isSome_iff_exists.mp hproper.1
  obtain ⟨errno, ret, hcall, _⟩ :=
    fclose_eq (w := { s.world with events := [] }) answer hf
  simp only [step, perform, hcall, Option.map_some] at hstep
  obtain rfl := Option.some.inj hstep
  have hopen : stream ∈ opened s.world := hproper.1
  refine ⟨⟨?_, ?_, ?_⟩, ?_⟩
  · refine replays_snoc h.ledger.handles ?_
    rw [opened_update_none]
    exact replays_release hopen
  · refine replays_snoc h.ledger.blocks ?_
    rw [opened_update_none]
    exact replays_release hopen
  · refine replays_snoc h.ledger.descriptors ?_
    rw [descriptors_update_none hf]
    exact replays_release ⟨f, hf, rfl⟩
  · by_cases hnull : stream = 0
    · rw [hnull, h.null] at hf
      cases hf
    · exact (Function.update_of_ne (Ne.symm hnull) ..).trans h.null

theorem inv_step (h : Inv s) (hproper : Proper s c) (hstep : step s c = some s') : Inv s' := by
  cases c with
  | fopen filename mode block answer => exact inv_fopen h hproper hstep
  | fclose stream answer => exact inv_fclose h hproper hstep

theorem inv_start (errno : Int32) : Inv (start errno) where
  ledger := ⟨by simp [start, opened, Replays], by simp [start, opened, Replays],
    by simp [start, descriptors, Replays]⟩
  null := rfl

theorem step_total (hproper : Proper s c) : ∃ s', step s c = some s' := by
  cases c with
  | fopen filename mode block answer =>
    obtain ⟨p, w', hcall, _⟩ := fopen_cases filename { s.world with events := [] } hproper.1
      hproper.2.1 hproper.2.2
    exact ⟨_, by simp only [step, perform, hcall, Option.map_some]; rfl⟩
  | fclose stream answer =>
    obtain ⟨f, hf⟩ := Option.isSome_iff_exists.mp hproper.1
    obtain ⟨errno, ret, hcall, _⟩ := fclose_eq (w := { s.world with events := [] }) answer hf
    exact ⟨_, by simp only [step, perform, hcall, Option.map_some]; rfl⟩

end Run

section Results

variable {s : State} {c : Call}

theorem right_fopen {filename block : UInt64} {mode : List UInt8} {answer : Answer}
    (hproper : Proper s (.fopen filename mode block answer)) :
    Right s (.fopen filename mode block answer) ↔ Good s (.fopen filename mode block answer) := by
  obtain ⟨hmode, hfresh, hanswer⟩ := hproper
  obtain ⟨p, w', hcall, hopening⟩ :=
    fopen_cases filename { s.world with events := [] } hmode hfresh hanswer
  have hright : Right s (.fopen filename mode block answer) ↔
      (p ≠ 0 ↔ Valid (text mode) ∧ block ≠ 0 ∧ ∃ fd, answer = .ok fd) := by
    simp only [Right, perform, hcall, Option.map_some, Option.some.injEq, Prod.mk.injEq]
    constructor
    · rintro ⟨_, _, ⟨rfl, rfl⟩, q, hq, hiff⟩
      obtain rfl := Result.stream.inj hq
      exact hiff
    · exact fun hiff => ⟨_, _, ⟨rfl, rfl⟩, p, rfl, hiff⟩
  rw [hright, Good, valid_kept]
  cases hopening with
  | rejected hrejected errno =>
    refine iff_of_true (iff_of_false nofun fun h => ?_) fun _ => .inr hrejected
    exact hrejected (valid_iff.mp h.1).1
  | noMemory hblock errno =>
    exact iff_of_true (iff_of_false nofun fun h => h.2.1 hblock) fun h => absurd hblock h.1
  | failed hblock hfailed errno pathname flags modeArg =>
    obtain ⟨e, rfl⟩ := hfailed
    exact iff_of_true (iff_of_false nofun fun h => nomatch h.2.2) fun h => nomatch h.2
  | opened haccepted hblock fd hok hfd errno pathname flags modeArg f hf =>
    have hresources : block ≠ 0 ∧ ∃ fd, answer = .ok fd := ⟨hblock, fd, hok⟩
    rw [iff_true_left hblock, and_iff_left hresources, valid_iff_known haccepted,
      imp_iff_right hresources, or_iff_left (not_not.mpr haccepted)]

/-- The status is always the opposite one. -/
theorem not_right_fclose {stream : UInt64} {answer : Answer}
    (hproper : Proper s (.fclose stream answer)) : ¬Right s (.fclose stream answer) := by
  obtain ⟨f, hf⟩ := Option.isSome_iff_exists.mp hproper.1
  obtain ⟨errno, ret, hcall, hret⟩ := fclose_eq (w := { s.world with events := [] }) answer hf
  rintro ⟨result, w, hperform, r, rfl, hstatus, _⟩
  simp only [perform, hcall, Option.map_some, Option.some.injEq, Prod.mk.injEq] at hperform
  obtain ⟨hr, _⟩ := hperform
  obtain rfl := Result.status.inj hr
  have hEOF : EOF ≠ 0 := by decide
  cases answer with
  | error e =>
    have hfail : ret = -1 := hret.mpr (.inr ⟨e, rfl⟩)
    rw [if_pos hfail] at hstatus
    obtain ⟨_, ok, hok⟩ := hstatus.mp rfl
    cases hok
  | ok r =>
    have hdone : ret ≠ -1 := fun h => (hret.mp h).elim hproper.2 nofun
    rw [if_neg hdone] at hstatus
    exact hEOF (hstatus.mpr ⟨rfl, r, rfl⟩)

theorem right_iff_good (hproper : Proper s c) : Right s c ↔ Good s c := by
  cases c with
  | fopen filename mode block answer => exact right_fopen hproper
  | fclose stream answer => exact iff_of_false (not_right_fclose hproper) id

end Results

/-- When all streams have been closed, each of them has been freed as often as it was allocated, and
its descriptor closed as often as opened. -/
theorem settled {s : State} (h : Ledger s) (hclosed : ∀ p, s.world.streams p = none) (p : UInt64)
    (fd : Int32) :
    (s.journal.flatMap blockMoves).count (.acquire p) =
      (s.journal.flatMap blockMoves).count (.release p) ∧
    (s.journal.flatMap descriptorMoves).count (.acquire (p, fd)) =
      (s.journal.flatMap descriptorMoves).count (.release (p, fd)) := by
  have hblock : p ∉ opened s.world := by
    simp [opened, hclosed]
  have hdescriptor : (p, fd) ∉ descriptors s.world := by
    simp [descriptors, hclosed]
  have hblocks := h.blocks.count_eq p
  have hdescriptors := h.descriptors.count_eq (p, fd)
  simp only [Set.mem_empty_iff_false, hblock, hdescriptor, if_false] at hblocks hdescriptors
  exact ⟨hblocks, hdescriptors⟩

/-- Whatever fails, nothing leaks and nothing is given back twice. The results are right just when
nothing is closed and no wrong mode is let through. -/
theorem fopen_fclose_lifecycle_iff (errno : Int32) (calls : List Call)
    (h : Along step Proper (start errno) calls) :
    (∃ s, exec step (start errno) calls = some s ∧ Ledger s) ∧
    (Along step Right (start errno) calls ↔ Along step Good (start errno) calls) := by
  have hprogress : Progress step Proper Inv := fun s c hinv hproper => by
    obtain ⟨s', hs'⟩ := step_total hproper
    exact ⟨s', hs', inv_step hinv hproper hs'⟩
  constructor
  · obtain ⟨s, hexec, hinv⟩ := exec_of_progress hprogress (inv_start errno) h
    exact ⟨s, hexec, hinv.ledger⟩
  · constructor
    · intro hright
      exact Along.of_inv (I := fun _ => True) (fun s c _ hc => (right_iff_good hc.2).mp hc.1)
        (fun _ _ _ _ _ _ => trivial) trivial (hright.and h)
    · intro hgood
      exact Along.of_inv (I := fun _ => True) (fun s c _ hc => (right_iff_good hc.2).mpr hc.1)
        (fun _ _ _ _ _ _ => trivial) trivial (hgood.and h)

/-- A stream is opened and closed. -/
def calls : List Call := [.fopen 16 (literal ['r']) 4096 (.ok 3), .fclose 4096 (.ok 0)]

theorem proper_calls : Along step Proper (start 0) calls := by
  refine ⟨⟨by decide, fun _ => rfl, nofun⟩, fun s hs => ⟨⟨?_, nofun⟩, fun _ _ => trivial⟩⟩
  obtain rfl := Option.some.inj hs
  rfl

theorem fopen_fclose_lifecycle_iff_calls :
    (∃ s, exec step (start 0) calls = some s ∧ Ledger s) ∧ ¬Along step Right (start 0) calls := by
  obtain ⟨hledger, hright⟩ := fopen_fclose_lifecycle_iff 0 calls proper_calls
  refine ⟨hledger, fun h => ?_⟩
  exact ((hright.mp h).2 _ rfl).1

/-- `close` succeeds, and `fclose` returns `EOF`. -/
theorem fclose_status_inverted :
    (∃ s, exec step (start 0) calls = some s ∧
      s.journal.map Entry.result = [.stream 4096, .status EOF]) ∧
    ¬Along step Right (start 0) calls :=
  ⟨⟨_, rfl, rfl⟩, fun h => not_right_fclose (proper_calls.2 _ rfl).1 (h.2 _ rfl).1⟩

end FileLifecycle
