import Libdeepc.LockDiscipline
import Libdeepc.ThreadCalls
import Mathlib.Data.List.Basic

/-!
# One thread object and its two parties

What the calls do to the object of one thread: the thread itself and the one that
joins or detaches it move in turn. The reference count is the number of parties
that have not left yet, and the lock in the object keeps them apart.
-/

namespace ThreadObject

open LockDiscipline ThreadCalls

section Cell

inductive Claim
  | unclaimed
  | claiming (c : ClaimPlace)
  | returned

/-- A thread object with what its parties are at. `exit` is `none` as long as the thread runs. -/
structure Cell where
  object : Option Object
  exit : Option ExitPlace
  claim : Claim
  history : List Event

/-- A step of one of the parties. -/
inductive Move : Cell → Cell → Prop
  | exits {c : Cell} (ret : Int32) (hexit : c.exit = none) :
      Move c ⟨c.object, some (.lock ret), c.claim, c.history ++ [.exits ret]⟩
  | claims {c : Cell} {p : ClaimPlace} (hclaim : c.claim = .unclaimed)
      (hstart : p = .lockDetach ∨ ∃ res, p = .lockJoin res) :
      Move c ⟨c.object, c.exit, .claiming p, c.history⟩
  | exit {c : Cell} {e e' : ExitPlace} {object : Option Object} {events : List Event}
      (hexit : c.exit = some e) (hadv : advanceExit c.object e = some (object, e', events)) :
      Move c ⟨object, some e', c.claim, c.history ++ events⟩
  | claim {c : Cell} {p : ClaimPlace} {p' : Option ClaimPlace} {object : Option Object}
      {events : List Event} (hclaim : c.claim = .claiming p)
      (hadv : advanceClaim c.object p = some (object, p', events)) :
      Move c ⟨object, c.exit, p'.elim .returned .claiming, c.history ++ events⟩

end Cell

section Histories

def isRef : Event → Bool
  | .dropped _ | .freed _ => true
  | _ => false

def isResult : Event → Bool
  | .exits _ | .stored _ | .returned (.joined _ _) => true
  | _ => false

/-- The references given up. -/
def refEvents (history : List Event) : List Event := history.filter isRef

def resultEvents (history : List Event) : List Event := history.filter isResult

/-- The reference of the first party is dropped, and the second party frees the object. -/
def FreedBySecond (history : List Event) : Prop :=
  ∃ p : Party, refEvents history = [.dropped p, .freed p.other]

/-- A join delivers what the thread stored, and after that. -/
def Delivers (history : List Event) : Prop :=
  ∃ ret res, resultEvents history <+:
    [.exits ret, .stored ret, .returned (.joined res (if res then some ret else none))]

end Histories

section Lock

/-- Between `__spinlock_lock` and `__spinlock_unlock`, or between `__spinlock_lock` and `free`. -/
def exitInside : ExitPlace → Bool
  | .lock _ | .sysExit | .gone => false
  | .testRefs _ | .assertRefs _ | .storeResult _ | .loadRefs | .storeRefs _ | .unlock
  | .freeObject => true

def claimInside : ClaimPlace → Bool
  | .lockJoin _ | .yieldJoin _ | .lockDetach => false
  | .testJoin _ | .unlockJoin _ | .assertJoin _ | .readResult _ | .loadDetach | .storeDetach _
  | .testDetach | .assertDetach | .unlockDetach | .freeStack _ | .freeObject _ => true

def Claim.inside : Claim → Bool
  | .claiming p => claimInside p
  | .unclaimed | .returned => false

def spinning (object : Option Object) : Bool := object.any Object.spin

def view (c : Cell) : View Party where
  locked := spinning c.object
  inside
    | .exiter => c.exit.any exitInside
    | .claimer => c.claim.inside

variable {c c' : Cell} {object object' : Option Object} {events : List Event}

/-- Only the exit system call does without the object. -/
theorem object_of_advanceExit {e e' : ExitPlace}
    (h : advanceExit object e = some (object', e', events)) :
    (∃ thr, object = some thr) ∨ e = .sysExit := by
  cases object with
  | some thr => exact .inl ⟨thr, rfl⟩
  | none =>
    cases e with
    | sysExit => exact .inr rfl
    | _ => cases h

theorem object_of_advanceClaim {p : ClaimPlace} {p' : Option ClaimPlace}
    (h : advanceClaim object p = some (object', p', events)) :
    (∃ thr, object = some thr) ∨ ∃ res, p = .yieldJoin res := by
  cases object with
  | some thr => exact .inl ⟨thr, rfl⟩
  | none =>
    cases p with
    | yieldJoin res => exact .inr ⟨res, rfl⟩
    | _ => cases h

/-- One exchange of `__spinlock_lock`, which goes on waiting if the lock was taken. -/
theorem turn_lock (thr : Object) {inside : Bool} (hwait : thr.spin = true → inside = false) :
    ∃ k, k ≠ .reset ∧
      Turn (spinning (some thr)) false (spinning (some { thr with spin := true })) inside k := by
  cases hspin : thr.spin with
  | true => exact ⟨.stay, nofun, .stay hspin.symm (hwait hspin)⟩
  | false => exact ⟨.acquire, nofun, .acquire hspin rfl⟩

theorem advanceExit_turn {e e' : ExitPlace}
    (h : advanceExit object e = some (object', e', events)) : ∃ k, k ≠ .reset ∧
      Turn (spinning object) (exitInside e) (spinning object') (exitInside e') k := by
  rcases object_of_advanceExit h with ⟨thr, rfl⟩ | rfl
  · cases e with
    | lock ret =>
      cases h
      exact turn_lock thr fun hspin => by rw [if_pos hspin]; rfl
    | testRefs ret =>
      cases h
      exact ⟨.stay, nofun, .stay rfl (by split <;> rfl)⟩
    | assertRefs ret =>
      obtain ⟨-, h⟩ := Option.ite_none_right_eq_some.mp h
      cases h
      exact ⟨.stay, nofun, .stay rfl rfl⟩
    | unlock | freeObject =>
      cases h
      exact ⟨.release, nofun, .release rfl rfl⟩
    | gone => cases h
    | _ =>
      cases h
      exact ⟨.stay, nofun, .stay rfl rfl⟩
  · cases h
    exact ⟨.stay, nofun, .stay rfl rfl⟩

theorem advanceClaim_turn {p : ClaimPlace} {p' : Option ClaimPlace}
    (h : advanceClaim object p = some (object', p', events)) : ∃ k, k ≠ .reset ∧
      Turn (spinning object) (claimInside p) (spinning object')
        (Claim.inside (p'.elim .returned .claiming)) k := by
  rcases object_of_advanceClaim h with ⟨thr, rfl⟩ | ⟨res, rfl⟩
  · cases p with
    | lockJoin _ | lockDetach =>
      cases h
      exact turn_lock thr fun hspin => by rw [if_pos hspin]; rfl
    | testJoin _ | testDetach =>
      cases h
      exact ⟨.stay, nofun, .stay rfl (by split <;> rfl)⟩
    | assertJoin _ | assertDetach =>
      obtain ⟨-, h⟩ := Option.ite_none_right_eq_some.mp h
      cases h
      exact ⟨.stay, nofun, .stay rfl rfl⟩
    | unlockJoin _ | unlockDetach | freeObject _ =>
      cases h
      exact ⟨.release, nofun, .release rfl rfl⟩
    | _ =>
      cases h
      exact ⟨.stay, nofun, .stay rfl rfl⟩
  · cases h
    exact ⟨.stay, nofun, .stay rfl rfl⟩

theorem move_moves (h : Move c c') : ∃ p k, k ≠ .reset ∧ Moves p k (view c) (view c') := by
  cases h with
  | exits ret hexit =>
    refine ⟨.exiter, .stay, nofun, .stay rfl ?_, fun p hp => ?_⟩
    · simp [view, hexit, exitInside]
    · cases p with
      | exiter => exact absurd rfl hp
      | claimer => rfl
  | claims hclaim hstart =>
    refine ⟨.claimer, .stay, nofun, .stay rfl ?_, fun p hp => ?_⟩
    · rcases hstart with rfl | ⟨res, rfl⟩ <;> simp [view, hclaim, Claim.inside, claimInside]
    · cases p with
      | exiter => rfl
      | claimer => exact absurd rfl hp
  | exit hexit hadv =>
    obtain ⟨k, hk, hturn⟩ := advanceExit_turn hadv
    refine ⟨.exiter, k, hk, ?_, fun p hp => ?_⟩
    · simpa [view, hexit] using hturn
    · cases p with
      | exiter => exact absurd rfl hp
      | claimer => rfl
  | claim hclaim hadv =>
    obtain ⟨k, hk, hturn⟩ := advanceClaim_turn hadv
    refine ⟨.claimer, k, hk, ?_, fun p hp => ?_⟩
    · simpa [view, hclaim, Claim.inside] using hturn
    · cases p with
      | exiter => rfl
      | claimer => exact absurd rfl hp

theorem guarded_move (hg : Guarded (view c)) (h : Move c c') : Guarded (view c') := by
  obtain ⟨p, k, hk, hmoves⟩ := move_moves h
  exact hg.step hmoves fun hreset => absurd hreset hk

end Lock

section Invariant

/-- The number of parties that still have a reference; `gone` is the one that has left. -/
def references (gone : Option Party) : Int8 := if gone = none then 2 else 1

def Stored (thr : Object) (results : List Event) : Prop :=
  results = [.exits thr.result, .stored thr.result]

/-- What the thread itself relies on. -/
def ExitOk (thr : Object) (gone : Option Party) (results : List Event) : Option ExitPlace → Prop
  | none => gone ≠ some .exiter ∧ results = []
  | some (.lock ret) => gone ≠ some .exiter ∧ results = [.exits ret]
  | some (.testRefs ret) =>
    gone ≠ some .exiter ∧ results = [.exits ret] ∧ thr.refs = references gone
  | some (.assertRefs ret) | some (.storeResult ret) =>
    gone = none ∧ results = [.exits ret] ∧ thr.refs = 2
  | some .loadRefs => gone = none ∧ Stored thr results ∧ thr.refs = 2
  | some (.storeRefs refs) => gone = none ∧ Stored thr results ∧ thr.refs = 2 ∧ refs = 2
  | some .unlock => gone = none ∧ Stored thr results ∧ thr.refs = 1
  | some .freeObject => gone = some .claimer ∧ (∃ ret, results = [.exits ret]) ∧ thr.refs = 1
  | some .sysExit | some .gone => gone = some .exiter ∧ Stored thr results

/-- The value that a join stores, if it stores one, is the result of the thread. -/
def Answers (thr : Object) (r : Ret) : Prop :=
  r = .detached ∨ ∃ res, r = .joined res (if res then some thr.result else none)

/-- What the other party relies on. -/
def ClaimOk (thr : Object) (gone : Option Party) : Claim → Prop
  | .unclaimed | .claiming (.lockJoin _) | .claiming (.yieldJoin _) | .claiming .lockDetach =>
    gone ≠ some .claimer
  | .claiming (.testJoin _) | .claiming .loadDetach =>
    gone ≠ some .claimer ∧ thr.refs = references gone
  | .claiming (.unlockJoin _) => gone = none ∧ thr.refs = 2
  | .claiming (.assertJoin _) | .claiming (.readResult _) => gone = some .exiter ∧ thr.refs = 1
  | .claiming (.storeDetach refs) =>
    gone ≠ some .claimer ∧ thr.refs = references gone ∧ refs = references gone
  | .claiming .testDetach => gone ≠ some .claimer ∧ thr.refs = references gone - 1
  | .claiming .assertDetach | .claiming .unlockDetach => gone = none ∧ thr.refs = 1
  | .claiming (.freeStack r) | .claiming (.freeObject r) =>
    gone = some .exiter ∧ Answers thr r ∧ (thr.refs = 1 ∨ thr.refs = 0)
  | .returned => gone = some .claimer

structure Live (c : Cell) (thr : Object) (gone : Option Party) : Prop where
  object : c.object = some thr
  exit : ExitOk thr gone (resultEvents c.history) c.exit
  claim : ClaimOk thr gone c.claim
  quiet : Vacant (view c) → thr.refs = references gone
  refs : refEvents c.history = gone.toList.map Event.dropped

structure Freed (c : Cell) : Prop where
  object : c.object = none
  exit : c.exit = some .sysExit ∨ c.exit = some .gone
  claim : c.claim = .returned
  freed : FreedBySecond c.history
  delivers : Delivers c.history

def Known (c : Cell) : Prop := (∃ thr gone, Live c thr gone) ∨ Freed c

structure Sound (c : Cell) : Prop where
  guarded : Guarded (view c)
  known : Known c

variable {c : Cell} {thr thr' : Object} {gone gone' : Option Party} {results events : List Event}

theorem not_gone_of_none {p : Party} : (none : Option Party) ≠ some p := nofun

/-- A party outside the lock relies on nothing that the other one changes inside. -/
theorem ExitOk.outside {e : Option ExitPlace} (h : ExitOk thr gone results e)
    (hout : e.any exitInside = false) (hresult : thr'.result = thr.result)
    (hgone : gone' = some .exiter ↔ gone = some .exiter) : ExitOk thr' gone' results e := by
  cases e with
  | none => exact ⟨fun hleft => h.1 (hgone.mp hleft), h.2⟩
  | some e =>
    cases e with
    | lock ret => exact ⟨fun hleft => h.1 (hgone.mp hleft), h.2⟩
    | sysExit => exact ⟨hgone.mpr h.1, by rw [Stored, hresult]; exact h.2⟩
    | gone => exact ⟨hgone.mpr h.1, by rw [Stored, hresult]; exact h.2⟩
    | _ => cases hout

theorem ClaimOk.outside {claim : Claim} (h : ClaimOk thr gone claim)
    (hout : claim.inside = false) (hgone : gone' = some .claimer ↔ gone = some .claimer) :
    ClaimOk thr' gone' claim := by
  cases claim with
  | unclaimed => exact fun hleft => h (hgone.mp hleft)
  | returned => exact hgone.mpr h
  | claiming p =>
    cases p with
    | lockJoin res => exact fun hleft => h (hgone.mp hleft)
    | yieldJoin res => exact fun hleft => h (hgone.mp hleft)
    | lockDetach => exact fun hleft => h (hgone.mp hleft)
    | _ => cases hout

theorem Live.of_exit (h : Live c thr gone) (hout : c.claim.inside = false) {e : ExitPlace}
    (hgone : gone' = some .claimer ↔ gone = some .claimer)
    (hexit : ExitOk thr' gone' (resultEvents (c.history ++ events)) (some e))
    (hquiet : exitInside e = false → thr'.refs = references gone')
    (hrefs : refEvents (c.history ++ events) = gone'.toList.map Event.dropped) :
    Live ⟨some thr', some e, c.claim, c.history ++ events⟩ thr' gone' where
  object := rfl
  exit := hexit
  claim := h.claim.outside hout hgone
  quiet hvacant := hquiet (hvacant .exiter)
  refs := hrefs

theorem Live.of_claim (h : Live c thr gone) (hout : c.exit.any exitInside = false)
    {claim : Claim} (hresult : thr'.result = thr.result)
    (hgone : gone' = some .exiter ↔ gone = some .exiter) (hclaim : ClaimOk thr' gone' claim)
    (hquiet : claim.inside = false → thr'.refs = references gone')
    (hresults : resultEvents events = [])
    (hrefs : refEvents (c.history ++ events) = gone'.toList.map Event.dropped) :
    Live ⟨some thr', c.exit, claim, c.history ++ events⟩ thr' gone' where
  object := rfl
  exit := by
    rw [resultEvents, List.filter_append]
    change ExitOk thr' gone' (_ ++ resultEvents events) c.exit
    rw [hresults, List.append_nil]
    exact h.exit.outside hout hresult hgone
  claim := hclaim
  quiet hvacant := hquiet (hvacant .claimer)
  refs := hrefs

theorem refEvents_append (h h' : List Event) :
    refEvents (h ++ h') = refEvents h ++ refEvents h' :=
  List.filter_append h h'

theorem resultEvents_append (h h' : List Event) :
    resultEvents (h ++ h') = resultEvents h ++ resultEvents h' :=
  List.filter_append h h'

theorem ClaimOk.returned {claim : Claim} (h : ClaimOk thr (some .claimer) claim) :
    claim = .returned := by
  cases claim with
  | unclaimed => exact absurd rfl h
  | returned => rfl
  | claiming p =>
    cases p with
    | lockJoin res => exact absurd rfl h
    | yieldJoin res => exact absurd rfl h
    | lockDetach => exact absurd rfl h
    | testJoin res => exact absurd rfl h.1
    | loadDetach => exact absurd rfl h.1
    | storeDetach refs => exact absurd rfl h.1
    | testDetach => exact absurd rfl h.1
    | _ => cases h.1

theorem ExitOk.left {e : Option ExitPlace} (h : ExitOk thr (some .exiter) results e) :
    (e = some .sysExit ∨ e = some .gone) ∧ Stored thr results := by
  cases e with
  | none => exact absurd rfl h.1
  | some e =>
    cases e with
    | lock ret => exact absurd rfl h.1
    | testRefs ret => exact absurd rfl h.1
    | sysExit => exact ⟨.inl rfl, h.2⟩
    | gone => exact ⟨.inr rfl, h.2⟩
    | _ => cases h.1

theorem vacant_of {e : ExitPlace} (hexit : c.exit = some e) (he : exitInside e = false)
    (hclaim : c.claim.inside = false) : Vacant (view c) := by
  intro p
  cases p with
  | exiter =>
    change c.exit.any exitInside = false
    rw [hexit]
    exact he
  | claimer => exact hclaim

/-- A busy lock is waited for. -/
theorem Live.waiting_exit (h : Live c thr gone) {e : ExitPlace} (hexit : c.exit = some e) :
    Live ⟨some thr, some e, c.claim, c.history ++ []⟩ thr gone := by
  rw [List.append_nil, ← h.object, ← hexit]
  exact h

theorem Live.waiting_claim (h : Live c thr gone) {p : ClaimPlace}
    (hclaim : c.claim = .claiming p) :
    Live ⟨some thr, c.exit, .claiming p, c.history ++ []⟩ thr gone := by
  rw [List.append_nil, ← h.object, ← hclaim]
  exact h

theorem Live.vacant_of_free (h : Live c thr gone) (hg : Guarded (view c))
    (hspin : thr.spin = false) : Vacant (view c) := by
  refine hg.vacant_of_free ?_
  change spinning c.object = false
  rw [h.object]
  exact hspin

/-- If one party is known not to have left, either nobody has or the other one. -/
theorem gone_cases {p : Party} (h : gone ≠ some p) : gone = none ∨ gone = some p.other := by
  cases gone with
  | none => exact .inl rfl
  | some q =>
    cases p <;> cases q
    case exiter.exiter => exact absurd rfl h
    case exiter.claimer => exact .inr rfl
    case claimer.exiter => exact .inr rfl
    case claimer.claimer => exact absurd rfl h

theorem spin_true_eq (hspin : thr.spin = true) : { thr with spin := true } = thr := by
  cases thr
  cases hspin
  rfl

/-- The thread goes on inside the lock, and no event tells of it. -/
theorem Live.exit_inside (h : Live c thr gone) (hout : c.claim.inside = false) {e : ExitPlace}
    (hin : exitInside e = true) (hok : ExitOk thr' gone (resultEvents c.history) (some e)) :
    Known ⟨some thr', some e, c.claim, c.history ++ []⟩ := by
  rw [List.append_nil]
  refine .inl ⟨thr', gone, rfl, hok, h.claim.outside hout Iff.rfl, fun hvacant => ?_, h.refs⟩
  cases hin.symm.trans (hvacant .exiter)

theorem Live.exit_go (hg : Guarded (view c)) (h : Live c thr gone) {e : ExitPlace}
    (hexit : c.exit = some e) (hne : e ≠ .gone) :
    ∃ object e' events, advanceExit c.object e = some (object, e', events) ∧
      Known ⟨object, some e', c.claim, c.history ++ events⟩ := by
  have hok := h.exit
  rw [hexit] at hok
  rw [h.object]
  have hout : exitInside e = true → c.claim.inside = false := by
    intro hin
    have hself : (view c).inside .exiter = true := by
      change c.exit.any exitInside = true
      rw [hexit]
      exact hin
    exact hg.others_out hself (by decide : Party.claimer ≠ .exiter)
  cases e with
  | lock ret =>
    cases hspin : thr.spin with
    | true =>
      refine ⟨some thr, .lock ret, [], ?_, .inl ⟨thr, gone, h.waiting_exit hexit⟩⟩
      simp only [advanceExit, Option.bind_some, hspin, if_true, spin_true_eq hspin]
    | false =>
      have hvacant := h.vacant_of_free hg hspin
      refine ⟨some { thr with spin := true }, .testRefs ret, [], ?_,
        h.exit_inside (hvacant .claimer) rfl ⟨hok.1, hok.2, h.quiet hvacant⟩⟩
      simp only [advanceExit, Option.bind_some, hspin, Bool.false_eq_true, if_false]
  | testRefs ret =>
    obtain ⟨hleft, hresults, hrefs⟩ := hok
    rcases gone_cases hleft with rfl | rfl
    · have hne : thr.refs ≠ 1 := by rw [hrefs]; decide
      refine ⟨some thr, .assertRefs ret, [], ?_,
        h.exit_inside (hout rfl) rfl ⟨rfl, hresults, hrefs⟩⟩
      simp only [advanceExit, Option.bind_some, if_neg hne]
    · have heq : thr.refs = 1 := hrefs
      refine ⟨some thr, .freeObject, [], ?_,
        h.exit_inside (hout rfl) rfl ⟨rfl, ⟨ret, hresults⟩, heq⟩⟩
      simp only [advanceExit, Option.bind_some, if_pos heq]
  | assertRefs ret =>
    obtain ⟨rfl, hresults, hrefs⟩ := hok
    refine ⟨some thr, .storeResult ret, [], ?_,
      h.exit_inside (hout rfl) rfl ⟨rfl, hresults, hrefs⟩⟩
    simp only [advanceExit, Option.bind_some, if_pos hrefs]
  | storeResult ret =>
    obtain ⟨rfl, hresults, hrefs⟩ := hok
    refine ⟨_, _, _, rfl, .inl ⟨_, none, h.of_exit (hout rfl) Iff.rfl ?_ nofun ?_⟩⟩
    · rw [resultEvents_append, hresults]
      exact ⟨rfl, rfl, hrefs⟩
    · rw [refEvents_append, h.refs]
      rfl
  | loadRefs =>
    obtain ⟨rfl, hstored, hrefs⟩ := hok
    exact ⟨_, _, _, rfl, h.exit_inside (hout rfl) rfl ⟨rfl, hstored, hrefs, hrefs⟩⟩
  | storeRefs refs =>
    obtain ⟨rfl, hstored, -, rfl⟩ := hok
    exact ⟨_, _, _, rfl, h.exit_inside (hout rfl) rfl ⟨rfl, hstored, rfl⟩⟩
  | unlock =>
    obtain ⟨rfl, hstored, hrefs⟩ := hok
    refine ⟨_, _, _, rfl, .inl ⟨_, some .exiter,
      h.of_exit (hout rfl) (by decide) ?_ (fun _ => hrefs) ?_⟩⟩
    · rw [resultEvents_append, hstored]
      exact ⟨rfl, rfl⟩
    · rw [refEvents_append, h.refs]
      rfl
  | freeObject =>
    obtain ⟨rfl, ⟨ret, hresults⟩, hrefs⟩ := hok
    refine ⟨_, _, _, rfl, .inr ⟨rfl, .inl rfl, h.claim.returned, ⟨.claimer, ?_⟩, ?_⟩⟩
    · rw [refEvents_append, h.refs]
      rfl
    · refine ⟨ret, false, ?_⟩
      rw [resultEvents_append, hresults]
      exact ⟨_, rfl⟩
  | sysExit =>
    refine ⟨_, _, _, rfl, .inl ⟨thr, gone, rfl, ?_, h.claim, fun hvacant => h.quiet ?_, ?_⟩⟩
    · rw [resultEvents_append]
      change ExitOk thr gone (_ ++ []) (some .gone)
      rw [List.append_nil]
      exact hok
    · exact vacant_of hexit rfl (hvacant .claimer)
    · rw [refEvents_append, h.refs]
      exact List.append_nil _
  | gone => exact absurd rfl hne

/-- Where the claiming party goes on, as far as the cell is concerned. -/
def claimAfter (c : Cell) (object : Option Object) (p : Option ClaimPlace)
    (events : List Event) : Cell :=
  ⟨object, c.exit, p.elim .returned .claiming, c.history ++ events⟩

theorem Live.claim_inside (h : Live c thr gone) (hout : c.exit.any exitInside = false)
    {p : ClaimPlace} (hin : claimInside p = true) (hresult : thr'.result = thr.result)
    (hok : ClaimOk thr' gone (.claiming p)) : Known (claimAfter c (some thr') (some p) []) := by
  refine .inl ⟨thr', gone, h.of_claim hout hresult Iff.rfl hok (fun hfree => ?_) rfl ?_⟩
  · cases hin.symm.trans hfree
  · rw [List.append_nil]
    exact h.refs

/-- The lock is taken when it is free, and waited for otherwise. -/
theorem Live.claim_lock (hg : Guarded (view c)) (h : Live c thr gone) {p p' : ClaimPlace}
    (hclaim : c.claim = .claiming p)
    (hadv : advanceClaim (some thr) p =
      some (some { thr with spin := true }, some (if thr.spin then p else p'), []))
    (hin : claimInside p' = true)
    (hok : thr.refs = references gone → ClaimOk { thr with spin := true } gone (.claiming p')) :
    ∃ object q events, advanceClaim (some thr) p = some (object, q, events) ∧
      Known (claimAfter c object q events) := by
  refine ⟨_, _, _, hadv, ?_⟩
  cases hspin : thr.spin with
  | true =>
    rw [spin_true_eq hspin, if_pos rfl]
    exact .inl ⟨thr, gone, h.waiting_claim hclaim⟩
  | false =>
    have hvacant := h.vacant_of_free hg hspin
    exact h.claim_inside (hvacant .exiter) hin rfl (hok (h.quiet hvacant))

/-- Between two tries of `thrd_join` the lock is not needed. -/
theorem Live.claim_yield (h : Live c thr gone) {res : Bool}
    (hclaim : c.claim = .claiming (.yieldJoin res)) (hok : gone ≠ some .claimer) :
    Known (claimAfter c (some thr) (some (.lockJoin res)) []) := by
  refine .inl ⟨thr, gone, rfl, ?_, hok, fun hvacant => h.quiet fun q => ?_, ?_⟩
  · change ExitOk thr gone (resultEvents (c.history ++ [])) c.exit
    rw [List.append_nil]
    exact h.exit
  · cases q with
    | exiter => exact hvacant .exiter
    | claimer =>
      change c.claim.inside = false
      rw [hclaim]
      rfl
  · change refEvents (c.history ++ []) = _
    rw [List.append_nil]
    exact h.refs

/-- The other party has gone before: the object is freed, and the result is delivered. -/
theorem Live.claim_free (h : Live c thr (some .exiter)) {r : Ret} (hanswers : Answers thr r) :
    Known (claimAfter c none none [.freed .claimer, .returned r]) := by
  obtain ⟨hexit, hstored⟩ := h.exit.left
  refine .inr ⟨rfl, hexit, rfl, ⟨.exiter, ?_⟩, ?_⟩
  · change refEvents (c.history ++ [.freed .claimer, .returned r]) = _
    rw [refEvents_append, h.refs]
    rfl
  · change Delivers (c.history ++ [.freed .claimer, .returned r])
    rw [Delivers, resultEvents_append, hstored]
    rcases hanswers with rfl | ⟨res, rfl⟩
    · exact ⟨thr.result, false, ⟨_, rfl⟩⟩
    · exact ⟨thr.result, res, ⟨_, rfl⟩⟩

theorem Live.claim_go (hg : Guarded (view c)) (h : Live c thr gone) {p : ClaimPlace}
    (hclaim : c.claim = .claiming p) :
    ∃ object p' events, advanceClaim c.object p = some (object, p', events) ∧
      Known (claimAfter c object p' events) := by
  have hok := h.claim
  rw [hclaim] at hok
  rw [h.object]
  have hout : claimInside p = true → c.exit.any exitInside = false := by
    intro hin
    have hself : (view c).inside .claimer = true := by
      change c.claim.inside = true
      rw [hclaim]
      exact hin
    exact hg.others_out hself (by decide : Party.exiter ≠ .claimer)
  cases p with
  | lockJoin res => exact h.claim_lock hg hclaim rfl rfl fun hrefs => ⟨hok, hrefs⟩
  | testJoin res =>
    obtain ⟨hleft, hrefs⟩ := hok
    rcases gone_cases hleft with rfl | rfl
    · have heq : thr.refs = 2 := hrefs
      refine ⟨some thr, some (.unlockJoin res), [], ?_,
        h.claim_inside (hout rfl) rfl rfl ⟨rfl, heq⟩⟩
      simp only [advanceClaim, Option.bind_some, if_pos heq]
    · have hne : thr.refs ≠ 2 := by rw [hrefs]; decide
      refine ⟨some thr, some (.assertJoin res), [], ?_,
        h.claim_inside (hout rfl) rfl rfl ⟨rfl, hrefs⟩⟩
      simp only [advanceClaim, Option.bind_some, if_neg hne]
  | unlockJoin res =>
    obtain ⟨rfl, hrefs⟩ := hok
    refine ⟨_, _, _, rfl, .inl ⟨_, none, h.of_claim (hout rfl) rfl Iff.rfl not_gone_of_none
      (fun _ => hrefs) rfl ?_⟩⟩
    rw [List.append_nil]
    exact h.refs
  | yieldJoin res => exact ⟨_, _, _, rfl, h.claim_yield hclaim hok⟩
  | assertJoin res =>
    obtain ⟨rfl, hrefs⟩ := hok
    refine ⟨some thr, some (.readResult res), [], ?_,
      h.claim_inside (hout rfl) rfl rfl ⟨rfl, hrefs⟩⟩
    simp only [advanceClaim, Option.bind_some, if_pos hrefs]
  | readResult res =>
    obtain ⟨rfl, hrefs⟩ := hok
    exact ⟨_, _, _, rfl,
      h.claim_inside (hout rfl) rfl rfl ⟨rfl, .inr ⟨res, rfl⟩, .inl hrefs⟩⟩
  | lockDetach => exact h.claim_lock hg hclaim rfl rfl fun hrefs => ⟨hok, hrefs⟩
  | loadDetach =>
    obtain ⟨hleft, hrefs⟩ := hok
    exact ⟨_, _, _, rfl, h.claim_inside (hout rfl) rfl rfl ⟨hleft, hrefs, hrefs⟩⟩
  | storeDetach refs =>
    obtain ⟨hleft, hrefs, rfl⟩ := hok
    exact ⟨_, _, _, rfl, h.claim_inside (hout rfl) rfl rfl ⟨hleft, rfl⟩⟩
  | testDetach =>
    obtain ⟨hleft, hrefs⟩ := hok
    rcases gone_cases hleft with rfl | rfl
    · have hne : thr.refs ≠ 0 := by rw [hrefs]; decide
      refine ⟨some thr, some .assertDetach, [], ?_,
        h.claim_inside (hout rfl) rfl rfl ⟨rfl, hrefs⟩⟩
      simp only [advanceClaim, Option.bind_some, if_neg hne]
    · have heq : thr.refs = 0 := hrefs
      refine ⟨some thr, some (.freeStack .detached), [], ?_,
        h.claim_inside (hout rfl) rfl rfl ⟨rfl, .inl rfl, .inr heq⟩⟩
      simp only [advanceClaim, Option.bind_some, if_pos heq]
  | assertDetach =>
    obtain ⟨rfl, hrefs⟩ := hok
    refine ⟨some thr, some .unlockDetach, [], ?_, h.claim_inside (hout rfl) rfl rfl ⟨rfl, hrefs⟩⟩
    simp only [advanceClaim, Option.bind_some, if_pos hrefs]
  | unlockDetach =>
    obtain ⟨rfl, hrefs⟩ := hok
    refine ⟨_, _, _, rfl, .inl ⟨_, some .claimer,
      h.of_claim (hout rfl) rfl (by decide) rfl (fun _ => hrefs) rfl ?_⟩⟩
    rw [refEvents_append, h.refs]
    rfl
  | freeStack r =>
    refine ⟨_, _, _, rfl, .inl ⟨thr, gone, h.of_claim (hout rfl) rfl Iff.rfl hok nofun rfl ?_⟩⟩
    rw [refEvents_append, h.refs]
    exact List.append_nil _
  | freeObject r =>
    obtain ⟨rfl, hanswers, -⟩ := hok
    exact ⟨_, _, _, rfl, h.claim_free hanswers⟩

end Invariant

section Sound

variable {c : Cell}

theorem sound_created (result : Int32) :
    Sound ⟨some { spin := false, refs := 2, result }, none, .unclaimed, []⟩ where
  guarded := guarded_of_vacant fun p => by cases p <;> rfl
  known := .inl ⟨_, none, rfl, ⟨nofun, rfl⟩, not_gone_of_none, fun _ => rfl, rfl⟩

theorem Sound.exits (h : Sound c) (ret : Int32) (hexit : c.exit = none) :
    Sound ⟨c.object, some (.lock ret), c.claim, c.history ++ [.exits ret]⟩ := by
  refine ⟨guarded_move h.guarded (.exits ret hexit), ?_⟩
  rcases h.known with ⟨thr, gone, hl⟩ | hf
  · have hok := hl.exit
    rw [hexit] at hok
    refine .inl ⟨thr, gone, hl.object, ⟨hok.1, ?_⟩, hl.claim,
      fun hvacant => hl.quiet fun p => ?_, ?_⟩
    · rw [resultEvents_append, hok.2]
      rfl
    · cases p with
      | exiter =>
        change c.exit.any exitInside = false
        rw [hexit]
        rfl
      | claimer => exact hvacant .claimer
    · rw [refEvents_append, hl.refs]
      exact List.append_nil _
  · rcases hf.exit with he | he <;> rw [hexit] at he <;> cases he

theorem Sound.claims (h : Sound c) {p : ClaimPlace} (hclaim : c.claim = .unclaimed)
    (hstart : p = .lockDetach ∨ ∃ res, p = .lockJoin res) :
    Sound ⟨c.object, c.exit, .claiming p, c.history⟩ := by
  refine ⟨guarded_move h.guarded (.claims hclaim hstart), ?_⟩
  rcases h.known with ⟨thr, gone, hl⟩ | hf
  · have hok := hl.claim
    rw [hclaim] at hok
    refine .inl ⟨thr, gone, hl.object, hl.exit, ?_, fun hvacant => hl.quiet fun q => ?_, hl.refs⟩
    · rcases hstart with rfl | ⟨res, rfl⟩
      · exact hok
      · exact hok
    · cases q with
      | exiter => exact hvacant .exiter
      | claimer =>
        change c.claim.inside = false
        rw [hclaim]
        rfl
  · have hreturned := hf.claim
    rw [hclaim] at hreturned
    cases hreturned

/-- The thread goes on until its exit system call. -/
theorem Sound.exit_go (h : Sound c) {e : ExitPlace} (hexit : c.exit = some e) (hne : e ≠ .gone) :
    ∃ object e' events, advanceExit c.object e = some (object, e', events) ∧
      Sound ⟨object, some e', c.claim, c.history ++ events⟩ := by
  rcases h.known with ⟨thr, gone, hl⟩ | hf
  · obtain ⟨object, e', events, hadv, hknown⟩ := hl.exit_go h.guarded hexit hne
    exact ⟨object, e', events, hadv, guarded_move h.guarded (.exit hexit hadv), hknown⟩
  · obtain rfl : e = .sysExit := by
      rcases hf.exit with he | he
      · exact Option.some.inj (hexit.symm.trans he)
      · exact absurd (Option.some.inj (hexit.symm.trans he)) hne
    have hadv : advanceExit c.object .sysExit = some (c.object, .gone, [.exited]) := rfl
    refine ⟨_, _, _, hadv, guarded_move h.guarded (.exit hexit hadv), .inr ⟨hf.object, .inr rfl,
      hf.claim, ?_, ?_⟩⟩
    · obtain ⟨p, hp⟩ := hf.freed
      exact ⟨p, by rw [refEvents_append, hp]; rfl⟩
    · obtain ⟨ret, res, hstart⟩ := hf.delivers
      refine ⟨ret, res, ?_⟩
      rw [resultEvents_append]
      exact (List.append_nil _).symm ▸ hstart

/-- The other party goes on until it returns, and its assertions hold. -/
theorem Sound.claim_go (h : Sound c) {p : ClaimPlace} (hclaim : c.claim = .claiming p) :
    ∃ object p' events, advanceClaim c.object p = some (object, p', events) ∧
      Sound (claimAfter c object p' events) := by
  rcases h.known with ⟨thr, gone, hl⟩ | hf
  · obtain ⟨object, p', events, hadv, hknown⟩ := hl.claim_go h.guarded hclaim
    exact ⟨object, p', events, hadv, guarded_move h.guarded (.claim hclaim hadv), hknown⟩
  · have hreturned := hf.claim
    rw [hclaim] at hreturned
    cases hreturned

def Counted (thr : Object) : Prop := thr.refs = 2 ∨ thr.refs = 1 ∨ thr.refs = 0

variable {thr : Object} {gone : Option Party} {results : List Event}

theorem counted_of_references (h : thr.refs = references gone) : Counted thr := by
  cases gone with
  | none => exact .inl h
  | some p => exact .inr (.inl h)

theorem ExitOk.counted {e : ExitPlace} (h : ExitOk thr gone results (some e))
    (hin : exitInside e = true) : Counted thr := by
  cases e with
  | testRefs ret => exact counted_of_references h.2.2
  | assertRefs ret => exact .inl h.2.2
  | storeResult ret => exact .inl h.2.2
  | loadRefs => exact .inl h.2.2
  | storeRefs refs => exact .inl h.2.2.1
  | unlock => exact .inr (.inl h.2.2)
  | freeObject => exact .inr (.inl h.2.2)
  | _ => cases hin

theorem ClaimOk.counted {p : ClaimPlace} (h : ClaimOk thr gone (.claiming p))
    (hin : claimInside p = true) : Counted thr := by
  cases p with
  | testJoin res => exact counted_of_references h.2
  | unlockJoin res => exact .inl h.2
  | assertJoin res => exact .inr (.inl h.2)
  | readResult res => exact .inr (.inl h.2)
  | loadDetach => exact counted_of_references h.2
  | storeDetach refs => exact counted_of_references h.2.1
  | testDetach =>
    cases gone with
    | none => exact .inr (.inl h.2)
    | some q =>
      cases q with
      | exiter => exact .inr (.inr h.2)
      | claimer => exact absurd rfl h.1
  | assertDetach => exact .inr (.inl h.2)
  | unlockDetach => exact .inr (.inl h.2)
  | freeStack r => exact .inr h.2.2
  | freeObject r => exact .inr h.2.2
  | _ => cases hin

theorem Live.counted (hl : Live c thr gone) : Counted thr := by
  by_cases hvacant : Vacant (view c)
  · exact counted_of_references (hl.quiet hvacant)
  obtain ⟨q, hq⟩ := not_forall.mp hvacant
  rw [Bool.not_eq_false] at hq
  cases q with
  | exiter =>
    obtain ⟨e, hexit, hin⟩ := (Option.any_eq_true _ _).mp hq
    exact (hexit ▸ hl.exit).counted hin
  | claimer =>
    have hclaim := hl.claim
    change c.claim.inside = true at hq
    cases hc : c.claim with
    | claiming p =>
      rw [hc] at hclaim hq
      exact hclaim.counted hq
    | _ =>
      rw [hc] at hq
      cases hq

theorem Sound.counted (h : Sound c) (hthr : c.object = some thr) : Counted thr := by
  rcases h.known with ⟨thr', gone, hl⟩ | hf
  · obtain rfl := Option.some.inj (hl.object.symm.trans hthr)
    exact hl.counted
  · cases hf.object.symm.trans hthr

theorem Live.not_freed (hl : Live c thr gone) :
    ¬FreedBySecond c.history := by
  rintro ⟨p, hp⟩
  rw [hl.refs] at hp
  cases gone <;> cases hp

theorem Sound.finished (h : Sound c) (hexit : c.exit = some .gone)
    (hclaim : c.claim = .returned) : FreedBySecond c.history := by
  rcases h.known with ⟨thr, gone, hl⟩ | hf
  · have hgone := hl.exit
    have hreturned := hl.claim
    rw [hexit] at hgone
    rw [hclaim] at hreturned
    cases hgone.1.symm.trans hreturned
  · exact hf.freed

theorem Sound.freed_iff (h : Sound c) : c.object = none ↔ FreedBySecond c.history := by
  rcases h.known with ⟨thr, gone, hl⟩ | hf
  · refine iff_of_false ?_ hl.not_freed
    rw [hl.object]
    nofun
  · exact iff_of_true hf.object hf.freed

theorem Sound.refEvents_start (h : Sound c) :
    ∃ p : Party, refEvents c.history <+: [.dropped p, .freed p.other] := by
  rcases h.known with ⟨thr, gone, hl⟩ | hf
  · rw [hl.refs]
    cases gone with
    | none => exact ⟨.exiter, List.nil_prefix⟩
    | some p => exact ⟨p, ⟨_, rfl⟩⟩
  · obtain ⟨p, hp⟩ := hf.freed
    exact ⟨p, hp ▸ List.prefix_refl _⟩

theorem ExitOk.delivers {e : Option ExitPlace} (h : ExitOk thr gone results e) :
    ∃ ret, results <+: [.exits ret, .stored ret] := by
  cases e with
  | none => exact ⟨0, h.2 ▸ List.nil_prefix⟩
  | some e =>
    cases e with
    | lock ret => exact ⟨ret, h.2 ▸ ⟨_, rfl⟩⟩
    | testRefs ret => exact ⟨ret, h.2.1 ▸ ⟨_, rfl⟩⟩
    | assertRefs ret => exact ⟨ret, h.2.1 ▸ ⟨_, rfl⟩⟩
    | storeResult ret => exact ⟨ret, h.2.1 ▸ ⟨_, rfl⟩⟩
    | freeObject =>
      obtain ⟨ret, hresults⟩ := h.2.1
      exact ⟨ret, hresults ▸ ⟨_, rfl⟩⟩
    | loadRefs => exact ⟨thr.result, h.2.1 ▸ List.prefix_refl _⟩
    | storeRefs refs => exact ⟨thr.result, h.2.1 ▸ List.prefix_refl _⟩
    | unlock => exact ⟨thr.result, h.2.1 ▸ List.prefix_refl _⟩
    | sysExit => exact ⟨thr.result, h.2 ▸ List.prefix_refl _⟩
    | gone => exact ⟨thr.result, h.2 ▸ List.prefix_refl _⟩

theorem Sound.delivers (h : Sound c) : Delivers c.history := by
  rcases h.known with ⟨thr, gone, hl⟩ | hf
  · obtain ⟨ret, hstart⟩ := hl.exit.delivers
    exact ⟨ret, false, hstart.trans ⟨_, rfl⟩⟩
  · exact hf.delivers

end Sound

end ThreadObject
