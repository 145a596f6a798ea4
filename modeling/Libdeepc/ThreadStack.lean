import Libdeepc.ThreadLife

/-!
# The stack of a thread

A thread still runs on its stack after it has given up its reference, until its
exit system call. The stack is freed by the call that joins or detaches it, which
only looks at the reference count.
-/

namespace ThreadStack

open Runs ThreadCalls ThreadObject ThreadLife

section Cell

def isStack : Event → Bool
  | .exited | .stackFreed => true
  | _ => false

/-- The exit system call and the calls of `free(thr->stack_base)`. -/
def stackEvents (history : List Event) : List Event := history.filter isStack

/-- The call has read that the thread has given up its reference. -/
def pastTest : Claim → Bool
  | .claiming (.assertJoin _) | .claiming (.readResult _) | .claiming (.freeStack _)
  | .claiming (.freeObject _) => true
  | _ => false

/-- The call has freed the stack and not the object yet. -/
def freeing : Claim → Bool
  | .claiming (.freeObject _) => true
  | _ => false

def stackFreed (c : Cell) : Bool := c.object.isNone || freeing c.claim

def exitEvents (exit : Option ExitPlace) : List Event :=
  if exit = some .gone then [.exited] else []

/-- Who has read that the thread has given up its reference has read it after the exit system
call. -/
structure StackOk (c : Cell) : Prop where
  shared : c.exit ≠ some .freeObject
  waited : pastTest c.claim = true ∨ c.object = none → c.exit = some .gone
  events : stackEvents c.history =
    exitEvents c.exit ++ if stackFreed c then [.stackFreed] else []

variable {c : Cell} {object : Option Object} {events : List Event}

theorem stackEvents_append (h h' : List Event) :
    stackEvents (h ++ h') = stackEvents h ++ stackEvents h' :=
  List.filter_append h h'

theorem stackOk_created (result : Int32) :
    StackOk ⟨some { spin := false, refs := 2, result }, none, .unclaimed, []⟩ where
  shared := nofun
  waited h := by rcases h with h | h <;> cases h
  events := rfl

theorem StackOk.exits (h : StackOk c) (hexit : c.exit = none) (ret : Int32) :
    StackOk ⟨c.object, some (.lock ret), c.claim, c.history ++ [.exits ret]⟩ where
  shared := nofun
  waited hpast := by cases hexit.symm.trans (h.waited hpast)
  events := by
    have hevents := h.events
    rw [hexit] at hevents
    rw [stackEvents_append, hevents]
    exact List.append_nil _

theorem StackOk.claims (h : StackOk c) (hclaim : c.claim = .unclaimed) {p : ClaimPlace}
    (hstart : p = .lockDetach ∨ ∃ res, p = .lockJoin res) :
    StackOk ⟨c.object, c.exit, .claiming p, c.history⟩ := by
  have hpast : pastTest (.claiming p) = false := by
    rcases hstart with rfl | ⟨res, rfl⟩ <;> rfl
  have hfreed : stackFreed ⟨c.object, c.exit, .claiming p, c.history⟩ = stackFreed c := by
    rw [stackFreed, stackFreed, hclaim]
    rcases hstart with rfl | ⟨res, rfl⟩ <;> rfl
  refine ⟨h.shared, fun hor => h.waited (hor.imp_left fun hp => ?_), ?_⟩
  · rw [hpast] at hp
    cases hp
  · rw [hfreed]
    exact h.events

theorem past_of_freeing {claim : Claim} (h : freeing claim = true) : pastTest claim = true := by
  cases claim with
  | claiming p =>
    cases p with
    | freeObject r => rfl
    | _ => cases h
  | _ => cases h

theorem StackOk.freed_waits (h : StackOk c) (hfreed : stackFreed c = true) :
    c.exit = some .gone := by
  refine h.waited ?_
  rcases Bool.or_eq_true_iff.mp hfreed with hnone | hclaim
  · exact .inr (Option.isNone_iff_eq_none.mp hnone)
  · exact .inl (past_of_freeing hclaim)

theorem StackOk.not_freed (h : StackOk c) (hne : c.exit ≠ some .gone) : stackFreed c = false :=
  Bool.eq_false_iff.mpr fun hfreed => hne (h.freed_waits hfreed)

theorem StackOk.before (h : StackOk c) (hgone : c.exit ≠ some .gone) :
    stackEvents c.history = [] := by
  rw [h.events, h.not_freed hgone, exitEvents, if_neg hgone]
  rfl

theorem StackOk.of_exit (h : StackOk c) {e e' : ExitPlace} (hexit : c.exit = some e)
    (hne : e ≠ .gone) (hobject : object ≠ none) (he : e' ≠ .gone ∧ e' ≠ .freeObject)
    (hevents : stackEvents events = []) :
    StackOk ⟨object, some e', c.claim, c.history ++ events⟩ := by
  have hrunning : c.exit ≠ some .gone := by
    rw [hexit]
    exact fun heq => hne (Option.some.inj heq)
  have hold := h.before hrunning
  have hnone : object.isNone = false := by
    rw [Option.isNone_eq_false_iff, Option.isSome_iff_ne_none]
    exact hobject
  have hfreed : stackFreed ⟨object, some e', c.claim, c.history ++ events⟩ = false := by
    have hclaim := h.not_freed hrunning
    rw [stackFreed, Bool.or_eq_false_iff] at hclaim ⊢
    exact ⟨hnone, hclaim.2⟩
  refine ⟨fun heq => he.2 (Option.some.inj heq), fun hor => ?_, ?_⟩
  · exact absurd (h.waited (hor.imp_right fun hnone => absurd hnone hobject)) hrunning
  · rw [stackEvents_append, hold, hevents, hfreed, exitEvents,
      if_neg fun heq => he.1 (Option.some.inj heq)]
    rfl

/-- The exit system call, the last use of the stack. -/
theorem StackOk.exited (h : StackOk c) (hexit : c.exit = some .sysExit) :
    StackOk ⟨c.object, some .gone, c.claim, c.history ++ [.exited]⟩ := by
  have hrunning : c.exit ≠ some .gone := by
    rw [hexit]
    nofun
  have hfreed : stackFreed ⟨c.object, some .gone, c.claim, c.history ++ [.exited]⟩ = false :=
    h.not_freed hrunning
  refine ⟨nofun, fun _ => rfl, ?_⟩
  rw [stackEvents_append, h.before hrunning, hfreed, exitEvents, if_pos rfl]
  rfl

/-- The thread itself changes nothing for its stack until the system call. -/
theorem StackOk.exit_go (h : StackOk c) {e e' : ExitPlace} (hexit : c.exit = some e)
    (hadv : advanceExit c.object e = some (object, e', events))
    (hsafe : ∀ ret, e = .testRefs ret → ∀ thr, c.object = some thr → thr.refs ≠ 1) :
    StackOk ⟨object, some e', c.claim, c.history ++ events⟩ := by
  rcases object_of_advanceExit hadv with ⟨thr, hthr⟩ | rfl
  · rw [hthr] at hadv
    cases e with
    | lock ret =>
      cases hadv
      refine h.of_exit hexit nofun nofun ?_ rfl
      split
      · exact ⟨nofun, nofun⟩
      · exact ⟨nofun, nofun⟩
    | testRefs ret =>
      cases hadv
      refine h.of_exit hexit nofun nofun ?_ rfl
      rw [if_neg (hsafe ret rfl thr hthr)]
      exact ⟨nofun, nofun⟩
    | assertRefs ret =>
      obtain ⟨-, hadv⟩ := Option.ite_none_right_eq_some.mp hadv
      cases hadv
      exact h.of_exit hexit nofun nofun ⟨nofun, nofun⟩ rfl
    | freeObject => exact absurd hexit h.shared
    | sysExit =>
      cases hadv
      exact hthr ▸ h.exited hexit
    | gone => cases hadv
    | _ =>
      cases hadv
      exact h.of_exit hexit nofun nofun ⟨nofun, nofun⟩ rfl
  · cases hadv
    exact h.exited hexit

/-- A step that does not free the stack and does not come past the test too early. -/
theorem StackOk.of_claim (h : StackOk c) {p : ClaimPlace} {p' : Option ClaimPlace}
    {thr thr' : Object} (hclaim : c.claim = .claiming p) (hthr : c.object = some thr)
    (hfreeing : freeing (p'.elim .returned .claiming) = freeing (.claiming p))
    (hpast : pastTest (p'.elim .returned .claiming) = true → c.exit = some .gone)
    (hevents : stackEvents events = []) : StackOk (claimAfter c (some thr') p' events) := by
  have hfreed : stackFreed (claimAfter c (some thr') p' events) = stackFreed c := by
    rw [stackFreed, stackFreed, hclaim, hthr]
    exact hfreeing
  refine ⟨h.shared, fun hor => hpast (hor.resolve_right nofun), ?_⟩
  change stackEvents (c.history ++ events) = _
  rw [hfreed, stackEvents_append, hevents, List.append_nil]
  exact h.events

/-- `thrd_join` yields outside the lock and tries again. -/
theorem StackOk.yielded (h : StackOk c) {res : Bool}
    (hclaim : c.claim = .claiming (.yieldJoin res)) :
    StackOk (claimAfter c c.object (some (.lockJoin res)) []) := by
  have hfreed : stackFreed (claimAfter c c.object (some (.lockJoin res)) []) = stackFreed c := by
    rw [stackFreed, stackFreed, hclaim]
    rfl
  refine ⟨h.shared, fun hor => h.waited (.inr (hor.resolve_left nofun)), ?_⟩
  change stackEvents (c.history ++ []) = _
  rw [hfreed, List.append_nil]
  exact h.events

theorem StackOk.claim_go (h : StackOk c) {p : ClaimPlace} {p' : Option ClaimPlace}
    (hclaim : c.claim = .claiming p)
    (hadv : advanceClaim c.object p = some (object, p', events))
    (hjoin : ∀ res, p = .testJoin res → ∀ thr, c.object = some thr → thr.refs ≠ 2 →
      c.exit = some .gone)
    (hdetach : p = .testDetach → ∀ thr, c.object = some thr → thr.refs = 0 →
      c.exit = some .gone) :
    StackOk (claimAfter c object p' events) := by
  rcases object_of_advanceClaim hadv with ⟨thr, hthr⟩ | ⟨res, rfl⟩
  · have hpast : pastTest (.claiming p) = true → c.exit = some .gone :=
      fun hp => h.waited (.inl (hclaim ▸ hp))
    rw [hthr] at hadv
    cases p with
    | lockJoin _ | lockDetach =>
      cases hadv
      cases hspin : thr.spin with
      | true => exact h.of_claim hclaim hthr rfl nofun rfl
      | false => exact h.of_claim hclaim hthr rfl nofun rfl
    | testJoin res =>
      cases hadv
      by_cases hrefs : thr.refs = 2
      · rw [if_pos hrefs]
        exact h.of_claim hclaim hthr rfl nofun rfl
      · rw [if_neg hrefs]
        exact h.of_claim hclaim hthr rfl (fun _ => hjoin res rfl thr hthr hrefs) rfl
    | yieldJoin res =>
      cases hadv
      exact hthr ▸ h.yielded hclaim
    | assertJoin res =>
      obtain ⟨-, hadv⟩ := Option.ite_none_right_eq_some.mp hadv
      cases hadv
      exact h.of_claim hclaim hthr rfl (fun _ => hpast rfl) rfl
    | readResult res =>
      cases hadv
      exact h.of_claim hclaim hthr rfl (fun _ => hpast rfl) rfl
    | testDetach =>
      cases hadv
      by_cases hrefs : thr.refs = 0
      · rw [if_pos hrefs]
        exact h.of_claim hclaim hthr rfl (fun _ => hdetach rfl thr hthr hrefs) rfl
      · rw [if_neg hrefs]
        exact h.of_claim hclaim hthr rfl nofun rfl
    | assertDetach =>
      obtain ⟨-, hadv⟩ := Option.ite_none_right_eq_some.mp hadv
      cases hadv
      exact h.of_claim hclaim hthr rfl nofun rfl
    | freeStack r =>
      cases hadv
      have hfreed : stackFreed c = false := by
        rw [stackFreed, hclaim, hthr]
        rfl
      have hevents := h.events
      rw [hfreed] at hevents
      refine ⟨h.shared, fun _ => hpast rfl, ?_⟩
      change stackEvents (c.history ++ [.stackFreed]) = _
      rw [stackEvents_append, hevents, List.append_assoc]
      rfl
    | freeObject r =>
      cases hadv
      have hfreed : stackFreed c = true := by
        rw [stackFreed, hclaim]
        exact Bool.or_true _
      have hevents := h.events
      rw [hfreed] at hevents
      refine ⟨h.shared, fun _ => hpast rfl, ?_⟩
      change stackEvents (c.history ++ [.freed .claimer, .returned r]) = _
      rw [stackEvents_append, hevents]
      exact List.append_nil _
    | _ =>
      cases hadv
      exact h.of_claim hclaim hthr rfl nofun rfl
  · cases hadv
    exact h.yielded hclaim

theorem StackOk.order (h : StackOk c) : stackEvents c.history <+: [.exited, .stackFreed] := by
  by_cases hgone : c.exit = some .gone
  · rw [h.events, exitEvents, if_pos hgone]
    split
    · exact List.prefix_refl _
    · exact ⟨_, rfl⟩
  · rw [h.before hgone]
    exact List.nil_prefix

theorem StackOk.over (h : StackOk c) (hgone : c.exit = some .gone) (hobject : c.object = none) :
    stackEvents c.history = [.exited, .stackFreed] := by
  rw [h.events, exitEvents, if_pos hgone, stackFreed, hobject]
  rfl

end Cell

universe u
variable {T : Type u} [DecidableEq T]

section Runs

def refsOf (s : State T) (u : T) : Option Int8 := (s.object u).map Object.refs

/-- A thread that exits has not been detached, and a call that finds the reference of the thread
given up finds it after the exit system call. -/
def isSafe (s : State T) : Act T → Bool
  | .go t => match s.place t with
    | .exit (.testRefs _) => decide (refsOf s t ≠ some 1)
    | .claim u (.testJoin _) => decide (refsOf s u ≠ some 2 → s.place u = .exit .gone)
    | .claim u .testDetach => decide (refsOf s u = some 0 → s.place u = .exit .gone)
    | _ => true
  | _ => true

def Safe (s : State T) (a : Act T) : Prop := isSafe s a = true

instance (s : State T) (a : Act T) : Decidable (Safe s a) := inferInstanceAs (Decidable (_ = _))

/-- The stack is freed after the exit system call, and once when both are over. -/
structure StackKept (s : State T) (u : T) : Prop where
  order : stackEvents (s.history u) <+: [.exited, .stackFreed]
  finished : s.place u = .exit .gone → Returned s u →
    stackEvents (s.history u) = [.exited, .stackFreed]

variable {s s' : State T} {a : Act T} {t u : T}

omit [DecidableEq T] in
theorem refsOf_of_object {thr : Object} (h : s.object u = some thr) :
    refsOf s u = some thr.refs := by
  rw [refsOf, h, Option.map_some]

theorem safe_exit (hsafe : Safe s (.go t)) {ret : Int32}
    (hplace : s.place t = .exit (.testRefs ret)) {thr : Object} (hthr : s.object t = some thr) :
    thr.refs ≠ 1 := by
  simp only [Safe, isSafe, hplace, refsOf_of_object hthr, decide_eq_true_eq] at hsafe
  exact fun heq => hsafe (heq ▸ rfl)

theorem safe_join (hsafe : Safe s (.go t)) {res : Bool}
    (hplace : s.place t = .claim u (.testJoin res)) {thr : Object}
    (hthr : s.object u = some thr) (hrefs : thr.refs ≠ 2) : s.place u = .exit .gone := by
  simp only [Safe, isSafe, hplace, refsOf_of_object hthr, decide_eq_true_eq] at hsafe
  exact hsafe fun heq => hrefs (Option.some.inj heq)

theorem safe_detach (hsafe : Safe s (.go t)) (hplace : s.place t = .claim u .testDetach)
    {thr : Object} (hthr : s.object u = some thr) (hrefs : thr.refs = 0) :
    s.place u = .exit .gone := by
  simp only [Safe, isSafe, hplace, refsOf_of_object hthr, decide_eq_true_eq] at hsafe
  exact hsafe (hrefs ▸ rfl)

theorem stack_step (hi : Inv s) (hst : Everywhere StackOk s) (ha : Allowed s a)
    (hsafe : Safe s a) (hs : step s a = some s') : Everywhere StackOk s' := by
  cases a with
  | create t u garbage =>
    obtain ⟨-, hs⟩ := Option.ite_none_right_eq_some.mp hs
    obtain rfl := Option.some.inj hs
    exact everywhere_created hst hi ha.2 (stackOk_created garbage)
  | exit t ret =>
    obtain ⟨huser, hs⟩ := Option.ite_none_right_eq_some.mp hs
    obtain rfl := Option.some.inj hs
    have hrunning : (cell s t).exit = none := by simp only [cell, huser, exitOf]
    have hok := hst t (present_of_user huser)
    exact everywhere_exits hst huser (hok.exits hrunning ret)
  | join t u res =>
    obtain ⟨huser, htu, hpresent, hclaimer⟩ := ha
    obtain ⟨-, hs⟩ := Option.ite_none_right_eq_some.mp hs
    obtain rfl := Option.some.inj hs
    exact everywhere_claims hst huser htu
      ((hst u hpresent).claims (cell_unclaimed hclaimer) (.inr ⟨res, rfl⟩))
  | detach t u =>
    obtain ⟨huser, htu, hpresent, hclaimer⟩ := ha
    obtain ⟨-, hs⟩ := Option.ite_none_right_eq_some.mp hs
    obtain rfl := Option.some.inj hs
    exact everywhere_claims hst huser htu
      ((hst u hpresent).claims (cell_unclaimed hclaimer) (.inl rfl))
  | go t =>
    obtain ⟨hpresent, hbusy, -⟩ := ha
    cases hplace : s.place t with
    | absent => exact absurd hplace hpresent
    | user => exact absurd hplace hbusy
    | exit e =>
      simp only [step, hplace] at hs
      obtain ⟨⟨object, e', events⟩, hadv, rfl⟩ := Option.map_eq_some_iff.mp hs
      refine everywhere_exit_go hst hplace ((hst t hpresent).exit_go (cell_exit hplace) hadv ?_)
      rintro ret rfl thr hthr
      exact safe_exit hsafe hplace hthr
    | claim u c =>
      obtain ⟨hclaimer, htu⟩ := hi.claims t u c hplace
      simp only [step, hplace] at hs
      obtain ⟨⟨object, c', events⟩, hadv, rfl⟩ := Option.map_eq_some_iff.mp hs
      refine everywhere_claim_go hst hplace hclaimer htu
        ((hst u (hi.present hplace)).claim_go (cell_claim hclaimer hplace) hadv ?_ ?_)
      · rintro res rfl thr hthr hrefs
        exact cell_exit (safe_join hsafe hplace hthr hrefs)
      · rintro rfl thr hthr hrefs
        exact cell_exit (safe_detach hsafe hplace hthr hrefs)

theorem stackKept_of_inv (hi : Inv s) (hst : Everywhere StackOk s)
    (hpresent : s.place u ≠ .absent) : StackKept s u where
  order := (hst u hpresent).order
  finished hgone hreturned := by
    have hsound := hi.sound u hpresent
    have hfreed := hsound.finished (cell_exit hgone) (returned_iff.mpr hreturned)
    exact (hst u hpresent).over (cell_exit hgone) (hsound.freed_iff.mpr hfreed)

end Runs

section Violations

variable {s s' s'' : State T} {a : Act T} {as : List (Act T)} {t u : T} {thr : Object}

/-- Allowed steps lead from one state to the other. -/
def Leads (s : State T) (as : List (Act T)) (s' : State T) : Prop :=
  Along step Allowed s as ∧ exec step s as = some s'

theorem Leads.cons (ha : Allowed s a) (hs : step s a = some s') (h : Leads s' as s'') :
    Leads s (a :: as) s'' := by
  refine ⟨along_cons_of_step hs ha h.1, ?_⟩
  rw [exec_cons, hs]
  exact h.2

theorem Leads.inv (hi : Inv s) (h : Leads s as s') : Inv s' :=
  inv_of_exec progress.keep hi h.1 h.2

omit [DecidableEq T] in
theorem allowed_claim {c : ClaimPlace} (hplace : s.place t = .claim u c) : Allowed s (.go t) := by
  simp [Allowed, hplace]

omit [DecidableEq T] in
theorem allowed_exit {e : ExitPlace} (hplace : s.place t = .exit e) (hne : e ≠ .gone) :
    Allowed s (.go t) := by
  simpa [Allowed, hplace] using hne

/-- The call goes on to free the stack, whatever the thread does. -/
theorem leads_freeStack {r : Ret} (hplace : s.place t = .claim u (.freeStack r))
    (hthr : s.object u = some thr) : ∃ s', Leads s [.go t] s' ∧
      s'.history u = s.history u ++ [.stackFreed] := by
  have hadv : advanceClaim (s.object u) (.freeStack r) =
      some (some thr, some (.freeObject r), [.stackFreed]) := by
    rw [hthr]
    rfl
  exact ⟨_, Leads.cons (allowed_claim hplace) (go_claim hplace hadv) ⟨trivial, rfl⟩, touch_history⟩

/-- A step that leaves the object as it is. -/
theorem leads_step {c c' : ClaimPlace} (hplace : s.place t = .claim u c)
    (hthr : s.object u = some thr)
    (hadv : advanceClaim (some thr) c = some (some thr, some c', []))
    (hrest : ∀ s₁ : State T, s₁.place t = .claim u c' → s₁.object u = some thr →
      ∃ s', Leads s₁ as s' ∧ s'.history u = s₁.history u ++ [.stackFreed]) :
    ∃ s', Leads s (.go t :: as) s' ∧ s'.history u = s.history u ++ [.stackFreed] := by
  have hadv' : advanceClaim (s.object u) c = some (some thr, some c', []) := by
    rw [hthr]
    exact hadv
  have hgo := go_claim hplace hadv'
  obtain ⟨s', hleads, hhistory⟩ := hrest _ touch_place touch_object
  refine ⟨s', Leads.cons (allowed_claim hplace) hgo hleads, ?_⟩
  rw [hhistory, touch_history, List.append_nil]

theorem leads_testDetach (hplace : s.place t = .claim u .testDetach)
    (hthr : s.object u = some thr) (hrefs : thr.refs = 0) :
    ∃ s', Leads s [.go t, .go t] s' ∧ s'.history u = s.history u ++ [.stackFreed] := by
  have htest : advanceClaim (some thr) .testDetach =
      some (some thr, some (.freeStack .detached), []) := by
    simp only [advanceClaim, Option.bind_some, if_pos hrefs]
  exact leads_step hplace hthr htest fun s₁ => leads_freeStack

theorem leads_testJoin {res : Bool} (hplace : s.place t = .claim u (.testJoin res))
    (hthr : s.object u = some thr) (hrefs : thr.refs = 1) :
    ∃ s', Leads s [.go t, .go t, .go t, .go t] s' ∧
      s'.history u = s.history u ++ [.stackFreed] := by
  have hne : thr.refs ≠ 2 := by
    rw [hrefs]
    decide
  have htest : advanceClaim (some thr) (.testJoin res) =
      some (some thr, some (.assertJoin res), []) := by
    simp only [advanceClaim, Option.bind_some, if_neg hne]
  have hassert : advanceClaim (some thr) (.assertJoin res) =
      some (some thr, some (.readResult res), []) := by
    simp only [advanceClaim, Option.bind_some, if_pos hrefs]
  refine leads_step hplace hthr htest fun s₁ hplace₁ hthr₁ => ?_
  refine leads_step hplace₁ hthr₁ hassert fun s₂ hplace₂ hthr₂ => ?_
  exact leads_step hplace₂ hthr₂ rfl fun s₃ => leads_freeStack

/-- A thread that has been detached frees its object and leaves its stack behind. -/
theorem leads_testRefs {ret : Int32} (hplace : s.place u = .exit (.testRefs ret))
    (hthr : s.object u = some thr) (hrefs : thr.refs = 1) :
    ∃ s', Leads s [.go u, .go u, .go u] s' ∧ s'.place u = .exit .gone ∧ s'.object u = none ∧
      s'.history u = s.history u ++ [.freed .exiter, .exited] := by
  have htest : advanceExit (s.object u) (.testRefs ret) = some (some thr, .freeObject, []) := by
    rw [hthr]
    simp only [advanceExit, Option.bind_some, if_pos hrefs]
  let s₁ := touch s u u (.exit .freeObject) (some thr) []
  have hfree : advanceExit (s₁.object u) .freeObject = some (none, .sysExit, [.freed .exiter]) := by
    rw [touch_object]
    rfl
  let s₂ := touch s₁ u u (.exit .sysExit) none [.freed .exiter]
  have hexit : advanceExit (s₂.object u) .sysExit = some (none, .gone, [.exited]) := by
    rw [touch_object]
    rfl
  refine ⟨_, Leads.cons (allowed_exit hplace (by simp)) (go_exit hplace htest)
    (Leads.cons (allowed_exit touch_place (by simp)) (go_exit touch_place hfree)
      (Leads.cons (allowed_exit touch_place (by simp)) (go_exit touch_place hexit) ⟨trivial, rfl⟩)),
    touch_place, touch_object, ?_⟩
  rw [touch_history, touch_history, touch_history, List.append_nil, List.append_assoc]
  rfl

theorem not_kept_of_stackFreed (hi : Inv s')
    (hhistory : stackEvents (s'.history u) = [.stackFreed]) :
    s'.place u ≠ .absent ∧ ¬StackKept s' u := by
  constructor
  · intro habsent
    rw [(hi.absent u habsent).2] at hhistory
    cases hhistory
  · intro hkept
    have horder := hkept.order
    rw [hhistory] at horder
    exact absurd horder (by decide)

/-- The object that a call is working on, with its reference count. -/
theorem exists_object (hi : Inv s) {c : ClaimPlace} (hplace : s.place t = .claim u c) :
    ∃ thr gone, s.object u = some thr ∧ ClaimOk thr gone (.claiming c) := by
  have hclaim := cell_claim (hi.claims t u c hplace).1 hplace
  rcases (hi.sound u (hi.present hplace)).known with ⟨thr, gone, hl⟩ | hf
  · exact ⟨thr, gone, hl.object, hclaim ▸ hl.claim⟩
  · cases hclaim.symm.trans hf.claim

theorem before_of_place (hi : Inv s) (hst : Everywhere StackOk s) {c : ClaimPlace}
    (hplace : s.place t = .claim u c) (hne : s.place u ≠ .exit .gone) :
    stackEvents (s.history u) = [] :=
  (hst u (hi.present hplace)).before fun hexit => hne (exitOf_eq_some hexit)

theorem exists_leak (hi : Inv s) (hst : Everywhere StackOk s) {ret : Int32}
    (hplace : s.place u = .exit (.testRefs ret)) (hrefs : refsOf s u = some 1) :
    ∃ bs s', Leads s (.go u :: bs) s' ∧ ∃ u, s'.place u ≠ .absent ∧ ¬StackKept s' u := by
  obtain ⟨thr, hthr, hone⟩ := Option.map_eq_some_iff.mp hrefs
  obtain ⟨s', hleads, hgone, hobject, hhistory⟩ := leads_testRefs hplace hthr hone
  have hi' := hleads.inv hi
  have hpresent := present_of_exit hplace
  have hpresent' := present_of_exit hgone
  refine ⟨_, s', hleads, u, hpresent', fun hkept => ?_⟩
  have hreturned : (cell s' u).claim = .returned := by
    rcases (hi'.sound u hpresent').known with ⟨thr', gone, hl⟩ | hf
    · cases hobject.symm.trans hl.object
    · exact hf.claim
  have hbefore : stackEvents (s.history u) = [] := by
    refine (hst u hpresent).before ?_
    rw [cell_exit hplace]
    nofun
  have hover := hkept.finished hgone (returned_iff.mp hreturned)
  rw [hhistory, stackEvents_append, hbefore] at hover
  cases hover

/-- After a step against the condition the stack of some thread may be freed too early, or it stays
behind. -/
theorem exists_not_kept (hi : Inv s) (hst : Everywhere StackOk s) (hrisk : ¬Safe s a) :
    ∃ bs s', Leads s (a :: bs) s' ∧ ∃ u, s'.place u ≠ .absent ∧ ¬StackKept s' u := by
  cases a with
  | go t =>
    cases hplace : s.place t with
    | exit e =>
      cases e with
      | testRefs ret =>
        simp only [Safe, isSafe, hplace, ne_eq, decide_eq_true_eq, not_not] at hrisk
        exact exists_leak hi hst hplace hrisk
      | _ => simp [Safe, isSafe, hplace] at hrisk
    | claim u c =>
      cases c with
      | testJoin res =>
        simp only [Safe, isSafe, hplace, decide_eq_true_eq, Classical.not_imp] at hrisk
        obtain ⟨hrefs, hrunning⟩ := hrisk
        obtain ⟨thr, gone, hthr, -, hcount⟩ := exists_object hi hplace
        have hone : thr.refs = 1 := by
          cases gone with
          | none => exact absurd (by rw [refsOf_of_object hthr, hcount]; rfl) hrefs
          | some p => exact hcount
        obtain ⟨s', hleads, hhistory⟩ := leads_testJoin hplace hthr hone
        refine ⟨_, s', hleads, u, not_kept_of_stackFreed (hleads.inv hi) ?_⟩
        rw [hhistory, stackEvents_append, before_of_place hi hst hplace hrunning]
        rfl
      | testDetach =>
        simp only [Safe, isSafe, hplace, decide_eq_true_eq, Classical.not_imp] at hrisk
        obtain ⟨hrefs, hrunning⟩ := hrisk
        obtain ⟨thr, hthr, hzero⟩ := Option.map_eq_some_iff.mp hrefs
        obtain ⟨s', hleads, hhistory⟩ := leads_testDetach hplace hthr hzero
        refine ⟨_, s', hleads, u, not_kept_of_stackFreed (hleads.inv hi) ?_⟩
        rw [hhistory, stackEvents_append, before_of_place hi hst hplace hrunning]
        rfl
      | _ => simp [Safe, isSafe, hplace] at hrisk
    | _ => simp [Safe, isSafe, hplace] at hrisk
  | _ => exact absurd rfl hrisk

/-- In a run whose steps are all safe the stacks are kept, and a step that is not safe may be
continued to a state in which one is not. -/
theorem stacks_kept_of_safe (main : T) (as : List (Act T))
    (hallowed : Along step Allowed (initial main) as) (hsafe : Along step Safe (initial main) as) :
    Along step (fun s a => ∃ s', step s a = some s' ∧
      ∀ u, s'.place u ≠ .absent → StackKept s' u) (initial main) as ∧
    ∀ s a, exec step (initial main) as = some s → ¬Safe s a →
      ∃ bs s', Along step Allowed s (a :: bs) ∧ exec step s (a :: bs) = some s' ∧
        ∃ u, s'.place u ≠ .absent ∧ ¬StackKept s' u := by
  have hboth := hallowed.and hsafe
  have hprogress : Progress step (fun (s : State T) a => Allowed s a ∧ Safe s a)
      fun s => Inv s ∧ Everywhere StackOk s := by
    rintro s a ⟨hi, hst⟩ ⟨ha, hsafe⟩
    obtain ⟨s', hs', hi'⟩ := progress s a hi ha
    exact ⟨s', hs', hi', stack_step hi hst ha hsafe hs'⟩
  have hinit : Inv (initial main) ∧ Everywhere StackOk (initial main) :=
    ⟨inv_initial main, everywhere_initial main (stackOk_created 0)⟩
  constructor
  · refine Along.of_progress hprogress ?_ hinit hboth
    rintro s ⟨hi, hst⟩ u
    exact stackKept_of_inv hi hst
  · intro s a hs hrisk
    obtain ⟨hi, hst⟩ := inv_of_exec hprogress.keep hinit hboth hs
    obtain ⟨bs, s', hleads, hnot⟩ := exists_not_kept hi hst hrisk
    exact ⟨bs, s', hleads.1, hleads.2, hnot⟩

/-- Thread 1 has made its exit system call when thread 0 joins it. -/
def joinAfterExit : List (Act Nat) :=
  [.create 0 1 0, .exit 1 7] ++ List.replicate 8 (.go 1) ++ [.join 0 1 true] ++
    List.replicate 6 (.go 0)

theorem stacks_kept_of_safe_joinAfterExit :
    Along step (fun s a => ∃ s', step s a = some s' ∧
      ∀ u, s'.place u ≠ .absent → StackKept s' u) (initial 0) joinAfterExit :=
  (stacks_kept_of_safe 0 joinAfterExit (by decide) (by decide)).1

/-- Thread 0 joins thread 1 after its last use of the object and before its exit system call. -/
def joinBeforeExit : List (Act Nat) :=
  [.create 0 1 0, .exit 1 7] ++ List.replicate 7 (.go 1) ++ [.join 0 1 true] ++
    List.replicate 5 (.go 0)

/-- Thread 0 detaches thread 1, which exits afterwards. -/
def exitAfterDetach : List (Act Nat) :=
  [.create 0 1 0, .detach 0 1] ++ List.replicate 6 (.go 0) ++ [.exit 1 7] ++
    List.replicate 4 (.go 1)

theorem stack_freed_in_use_or_leaked :
    (¬∀ as : List (Act Nat), Along step Allowed (initial 0) as →
      Along step (fun s a => ∃ s', step s a = some s' ∧
        ∀ u, s'.place u ≠ .absent → StackKept s' u) (initial 0) as) ∧
    ((exec step (initial 0) joinBeforeExit).map fun s => stackEvents (s.history 1)) =
      some [.stackFreed] ∧
    ((exec step (initial 0) exitAfterDetach).map fun s => (s.place 1, stackEvents (s.history 1))) =
      some (.exit .gone, [.exited]) := by
  refine ⟨fun h => ?_, by decide, by decide⟩
  have hrun := h joinBeforeExit (by decide)
  have hweak : Along step (fun (s : State Nat) a => ∀ s' ∈ step s a,
      s'.place 1 = .absent ∨ stackEvents (s'.history 1) ≠ [.stackFreed]) (initial 0)
      joinBeforeExit := by
    refine Along.of_inv (I := fun _ => True) (fun s a _ hs => ?_) (fun _ _ _ _ _ _ => trivial)
      trivial hrun
    obtain ⟨s', hs', hkept⟩ := hs
    intro t ht
    obtain rfl := Option.some.inj (hs'.symm.trans ht)
    by_cases hpresent : s'.place 1 = .absent
    · exact .inl hpresent
    · refine .inr fun hevents => ?_
      have horder := (hkept 1 hpresent).order
      rw [hevents] at horder
      exact absurd horder (by decide)
  exact absurd hweak (by decide)

end Violations

end ThreadStack
