import Libdeepc.Runs
import Libdeepc.ThreadObject

/-!
# Thread objects in every run

Any number of threads create, join and detach each other. Each object is used by
its two parties only, so a step of one thread is a step of one object and leaves
the others as they are.
-/

namespace ThreadLife

open Runs ThreadCalls ThreadObject

universe u
variable {T : Type u} [DecidableEq T]

section Cells

def exitOf : Place T → Option ExitPlace
  | .exit e => some e
  | .absent | .user | .claim _ _ => none

/-- The call on the object of `u` that a thread is in, once it has made it. -/
def claimAt (p : Place T) (u : T) : Claim :=
  match p with
  | .claim v c => if v = u then .claiming c else .returned
  | .absent | .user | .exit _ => .returned

def cell (s : State T) (u : T) : Cell where
  object := s.object u
  exit := exitOf (s.place u)
  claim := (s.claimer u).elim .unclaimed fun t => claimAt (s.place t) u
  history := s.history u

/-- Created threads are joined or detached once, by another thread. -/
def Allowed (s : State T) : Act T → Prop
  | .create t u _ => s.place t = .user ∧ s.place u = .absent
  | .exit t _ => s.place t = .user
  | .join t u _ | .detach t u =>
    s.place t = .user ∧ t ≠ u ∧ s.place u ≠ .absent ∧ s.claimer u = none
  | .go t => s.place t ≠ .absent ∧ s.place t ≠ .user ∧ s.place t ≠ .exit .gone

instance (s : State T) : ∀ a, Decidable (Allowed s a)
  | .create _ _ _ => inferInstanceAs (Decidable (_ ∧ _))
  | .exit _ _ => inferInstanceAs (Decidable (_ = _))
  | .join _ _ _ | .detach _ _ => inferInstanceAs (Decidable (_ ∧ _))
  | .go _ => inferInstanceAs (Decidable (_ ∧ _))

/-- A property of all objects that have been created. -/
def Everywhere (P : Cell → Prop) (s : State T) : Prop := ∀ u, s.place u ≠ .absent → P (cell s u)

structure Inv (s : State T) : Prop where
  absent : ∀ u, s.place u = .absent → s.claimer u = none ∧ s.history u = []
  claims : ∀ t u c, s.place t = .claim u c → s.claimer u = some t ∧ t ≠ u
  sound : Everywhere Sound s

variable {s s' : State T} {t u w : T} {p : Place T} {object : Option Object}
  {events : List Event}

theorem cell_exit {e : ExitPlace} (h : s.place u = .exit e) : (cell s u).exit = some e := by
  simp only [cell, h, exitOf]

theorem cell_unclaimed (h : s.claimer u = none) : (cell s u).claim = .unclaimed := by
  simp only [cell, h, Option.elim_none]

theorem cell_claim {c : ClaimPlace} (h : s.claimer u = some t) (hplace : s.place t = .claim u c) :
    (cell s u).claim = .claiming c := by
  simp only [cell, h, Option.elim_some, hplace, claimAt, if_true]

omit [DecidableEq T] in
theorem present_of_user (huser : s.place t = .user) : s.place t ≠ .absent := by
  intro habsent
  cases huser.symm.trans habsent

omit [DecidableEq T] in
theorem present_of_exit {e : ExitPlace} (hplace : s.place t = .exit e) : s.place t ≠ .absent := by
  intro habsent
  cases hplace.symm.trans habsent

/-- A thread at such a place has nothing to do with the objects of other threads than `u`. -/
def Aside (u : T) (p : Place T) : Prop := ∀ w, w ≠ u → claimAt p w = .returned

theorem aside_claim (u : T) (c : ClaimPlace) : Aside u (.claim u c) := fun _ hw =>
  if_neg (Ne.symm hw)

theorem aside_user (u : T) : Aside u (.user : Place T) := fun _ _ => rfl

theorem aside_exit (u : T) (e : ExitPlace) : Aside u (.exit e : Place T) := fun _ _ => rfl

theorem claim_update (hp : claimAt p w = claimAt (s.place t) w) (claimer : Option T) :
    (claimer.elim .unclaimed fun v => claimAt (Function.update s.place t p v) w) =
      claimer.elim .unclaimed fun v => claimAt (s.place v) w := by
  cases claimer with
  | none => rfl
  | some v =>
    by_cases hv : v = t
    · rw [hv, Option.elim_some, Option.elim_some, Function.update_self, hp]
    · rw [Option.elim_some, Option.elim_some, Function.update_of_ne hv]

/-- The step of a thread is a step of one object. -/
theorem cell_touch_other (hw : w ≠ u) (hold : Aside u (s.place t)) (hnew : Aside u p)
    (hexit : t ≠ u → exitOf p = exitOf (s.place t)) :
    cell (touch s t u p object events) w = cell s w := by
  have hclaim := claim_update ((hnew w hw).trans (hold w hw).symm) (s.claimer w)
  have hplace : exitOf (Function.update s.place t p w) = exitOf (s.place w) := by
    by_cases hwt : w = t
    · rw [hwt, Function.update_self, hexit (hwt ▸ hw)]
    · rw [Function.update_of_ne hwt]
  simp only [cell, touch, Function.update_of_ne hw, hclaim, hplace]

theorem cell_touch_exit {e : ExitPlace} (hold : claimAt (s.place u) u = .returned) :
    cell (touch s u u (.exit e) object events) u =
      ⟨object, some e, (cell s u).claim, (cell s u).history ++ events⟩ := by
  have hclaim := claim_update (p := .exit e) hold.symm (s.claimer u)
  simp only [cell, touch, Function.update_self, hclaim, exitOf]

theorem cell_touch_claim (hclaimer : s.claimer u = some t) (htu : t ≠ u)
    (c : Option ClaimPlace) :
    cell (touch s t u (c.elim .user fun c => .claim u c) object events) u =
      claimAfter (cell s u) object c events := by
  have hclaim : claimAt (c.elim .user fun c => .claim u c) u = c.elim .returned .claiming := by
    cases c with
    | none => rfl
    | some c => exact if_pos rfl
  simp only [cell, touch, claimAfter, hclaimer, Option.elim_some, Function.update_self,
    Function.update_of_ne (Ne.symm htu), hclaim]

/-- After `startClaim`. -/
def claiming (s : State T) (t u : T) (c : ClaimPlace) : State T :=
  { s with
    place := Function.update s.place t (.claim u c)
    claimer := Function.update s.claimer u (some t) }

theorem cell_claiming_self (htu : t ≠ u) (c : ClaimPlace) :
    cell (claiming s t u c) u = ⟨s.object u, (cell s u).exit, .claiming c, s.history u⟩ := by
  simp [cell, claiming, Function.update_of_ne (Ne.symm htu), claimAt]

theorem cell_claiming_other (huser : s.place t = .user) (hw : w ≠ u) (c : ClaimPlace) :
    cell (claiming s t u c) w = cell s w := by
  have hclaim : claimAt (.claim u c) w = claimAt (s.place t) w := by
    rw [huser]
    exact aside_claim u c w hw
  have hclaim' := claim_update hclaim (s.claimer w)
  have hplace : exitOf (Function.update s.place t (.claim u c) w) = exitOf (s.place w) := by
    by_cases hwt : w = t
    · rw [hwt, Function.update_self, huser]
      rfl
    · rw [Function.update_of_ne hwt]
  simp only [cell, claiming, Function.update_of_ne hw, hclaim', hplace]

end Cells

section Steps

variable {s s' : State T} {t u : T} {p : Place T} {object : Option Object} {events : List Event}
  {a : Act T} {P : Cell → Prop}

theorem everywhere_touch (h : Everywhere P s) (hold : Aside u (s.place t)) (hnew : Aside u p)
    (hother : t ≠ u → s.place t ≠ .absent ∧ exitOf p = exitOf (s.place t))
    (hself : P (cell (touch s t u p object events) u)) :
    Everywhere P (touch s t u p object events) := by
  intro w hw
  by_cases hwu : w = u
  · rw [hwu]
    exact hself
  · rw [cell_touch_other hwu hold hnew fun htu => (hother htu).2]
    refine h w fun habsent => hw ?_
    change Function.update s.place t p w = .absent
    by_cases hwt : w = t
    · exact absurd (hwt ▸ habsent) (hother fun htu => hwu (hwt.trans htu)).1
    · rw [Function.update_of_ne hwt, habsent]

theorem everywhere_claiming (h : Everywhere P s) (huser : s.place t = .user) {c : ClaimPlace}
    (hself : P (cell (claiming s t u c) u)) : Everywhere P (claiming s t u c) := by
  intro w hw
  by_cases hwu : w = u
  · rw [hwu]
    exact hself
  · rw [cell_claiming_other huser hwu c]
    refine h w fun habsent => hw ?_
    change Function.update s.place t (.claim u c) w = .absent
    rw [Function.update_of_ne, habsent]
    rintro rfl
    cases huser.symm.trans habsent

theorem everywhere_created (h : Everywhere P s) (hi : Inv s) (habsent : s.place u = .absent)
    {result : Int32} (hP : P ⟨some { spin := false, refs := 2, result }, none, .unclaimed, []⟩) :
    Everywhere P (touch s u u .user (some { spin := false, refs := 2, result }) []) := by
  refine everywhere_touch h ?_ (aside_user u) (fun hne => absurd rfl hne) ?_
  · rw [habsent]
    exact fun _ _ => rfl
  · obtain ⟨hclaimer, hhistory⟩ := hi.absent u habsent
    simpa [cell, touch, hclaimer, hhistory, exitOf] using hP

theorem everywhere_exits (h : Everywhere P s) (huser : s.place t = .user) {ret : Int32}
    (hP : P ⟨s.object t, some (.lock ret), (cell s t).claim, s.history t ++ [.exits ret]⟩) :
    Everywhere P (touch s t t (.exit (.lock ret)) (s.object t) [.exits ret]) := by
  refine everywhere_touch h (huser ▸ aside_user t) (aside_exit t _) (fun hne => absurd rfl hne) ?_
  rw [cell_touch_exit (by rw [huser]; rfl)]
  exact hP

theorem everywhere_claims (h : Everywhere P s) (huser : s.place t = .user) (htu : t ≠ u)
    {c : ClaimPlace} (hP : P ⟨s.object u, (cell s u).exit, .claiming c, s.history u⟩) :
    Everywhere P (claiming s t u c) := by
  refine everywhere_claiming h huser ?_
  rw [cell_claiming_self htu c]
  exact hP

theorem everywhere_exit_go (h : Everywhere P s) {e e' : ExitPlace} (hplace : s.place t = .exit e)
    (hP : P ⟨object, some e', (cell s t).claim, s.history t ++ events⟩) :
    Everywhere P (touch s t t (.exit e') object events) := by
  refine everywhere_touch h (hplace ▸ aside_exit t e) (aside_exit t e')
    (fun hne => absurd rfl hne) ?_
  rw [cell_touch_exit (by rw [hplace]; rfl)]
  exact hP

theorem everywhere_claim_go (h : Everywhere P s) {c : ClaimPlace} {c' : Option ClaimPlace}
    (hplace : s.place t = .claim u c) (hclaimer : s.claimer u = some t) (htu : t ≠ u)
    (hP : P (claimAfter (cell s u) object c' events)) :
    Everywhere P (touch s t u (c'.elim .user fun c' => .claim u c') object events) := by
  refine everywhere_touch h (hplace ▸ aside_claim u c) ?_ (fun _ => ⟨?_, ?_⟩) ?_
  · cases c' with
    | none => exact aside_user u
    | some c' => exact aside_claim u c'
  · rw [hplace]
    nofun
  · rw [hplace]
    cases c' <;> rfl
  · rw [cell_touch_claim hclaimer htu c']
    exact hP

theorem go_exit {e e' : ExitPlace} (hplace : s.place t = .exit e)
    (hadv : advanceExit (s.object t) e = some (object, e', events)) :
    step s (.go t) = some (touch s t t (.exit e') object events) := by
  simp only [step, hplace, hadv, Option.map_some]

theorem go_claim {c : ClaimPlace} {c' : Option ClaimPlace} (hplace : s.place t = .claim u c)
    (hadv : advanceClaim (s.object u) c = some (object, c', events)) :
    step s (.go t) = some (touch s t u (c'.elim .user fun c' => .claim u c') object events) := by
  simp only [step, hplace, hadv, Option.map_some]

theorem inv_touch (hi : Inv s) (hother : t ≠ u → s.place u ≠ .absent) (hne : p ≠ .absent)
    (hclaims : ∀ v c, p = .claim v c → s.claimer v = some t ∧ t ≠ v)
    (hsound : Everywhere Sound (touch s t u p object events)) :
    Inv (touch s t u p object events) where
  absent w hw := by
    change Function.update s.place t p w = .absent at hw
    by_cases hwt : w = t
    · rw [hwt, Function.update_self] at hw
      exact absurd hw hne
    · rw [Function.update_of_ne hwt] at hw
      have hwu : w ≠ u := by
        rintro rfl
        exact hother (Ne.symm hwt) hw
      change s.claimer w = none ∧ Function.update s.history u _ w = []
      rw [Function.update_of_ne hwu]
      exact hi.absent w hw
  claims v w c hv := by
    change Function.update s.place t p v = .claim w c at hv
    change s.claimer w = some v ∧ v ≠ w
    by_cases hvt : v = t
    · rw [hvt, Function.update_self] at hv
      rw [hvt]
      exact hclaims w c hv
    · rw [Function.update_of_ne hvt] at hv
      exact hi.claims v w c hv
  sound := hsound

theorem inv_claiming (hi : Inv s) (huser : s.place t = .user) (htu : t ≠ u)
    (hpresent : s.place u ≠ .absent) (hclaimer : s.claimer u = none) {c : ClaimPlace}
    (hstart : c = .lockDetach ∨ ∃ res, c = .lockJoin res) : Inv (claiming s t u c) where
  absent w hw := by
    change Function.update s.place t (.claim u c) w = .absent at hw
    change Function.update s.claimer u (some t) w = none ∧ s.history w = []
    by_cases hwt : w = t
    · rw [hwt, Function.update_self] at hw
      cases hw
    · rw [Function.update_of_ne hwt] at hw
      have hwu : w ≠ u := by
        rintro rfl
        exact hpresent hw
      rw [Function.update_of_ne hwu]
      exact hi.absent w hw
  claims v w d hv := by
    change Function.update s.place t (.claim u c) v = .claim w d at hv
    change Function.update s.claimer u (some t) w = some v ∧ v ≠ w
    by_cases hvt : v = t
    · rw [hvt, Function.update_self] at hv
      cases hv
      rw [hvt, Function.update_self]
      exact ⟨rfl, htu⟩
    · rw [Function.update_of_ne hvt] at hv
      have hwu : w ≠ u := by
        rintro rfl
        cases hclaimer.symm.trans (hi.claims v w d hv).1
      rw [Function.update_of_ne hwu]
      exact hi.claims v w d hv
  sound := everywhere_claims hi.sound huser htu
    ((hi.sound u hpresent).claims (cell_unclaimed hclaimer) hstart)

/-- The object a thread is working on has been created. -/
theorem Inv.present (hi : Inv s) {c : ClaimPlace} (hplace : s.place t = .claim u c) :
    s.place u ≠ .absent := by
  intro habsent
  cases (hi.claims t u c hplace).1.symm.trans (hi.absent u habsent).1

theorem inv_exit_go (hi : Inv s) {e : ExitPlace} (hplace : s.place t = .exit e) (hne : e ≠ .gone) :
    ∃ s', step s (.go t) = some s' ∧ Inv s' := by
  obtain ⟨object, e', events, hadv, hsound⟩ :=
    (hi.sound t (present_of_exit hplace)).exit_go (cell_exit hplace) hne
  exact ⟨_, go_exit hplace hadv, inv_touch hi (fun htt => absurd rfl htt) nofun nofun
    (everywhere_exit_go hi.sound hplace hsound)⟩

theorem inv_claim_go (hi : Inv s) {c : ClaimPlace} (hplace : s.place t = .claim u c) :
    ∃ s', step s (.go t) = some s' ∧ Inv s' := by
  obtain ⟨hclaimer, htu⟩ := hi.claims t u c hplace
  have hpresent := hi.present hplace
  obtain ⟨object, c', events, hadv, hsound⟩ :=
    (hi.sound u hpresent).claim_go (cell_claim hclaimer hplace)
  refine ⟨_, go_claim hplace hadv, inv_touch hi (fun _ => hpresent) ?_ (fun v d hd => ?_)
    (everywhere_claim_go hi.sound hplace hclaimer htu hsound)⟩
  · cases c' <;> nofun
  · cases c' with
    | none => cases hd
    | some c' =>
      cases hd
      exact ⟨hclaimer, htu⟩

theorem progress : Progress step Allowed (Inv : State T → Prop) := by
  intro s a hi ha
  cases a with
  | create t u garbage =>
    exact ⟨_, if_pos ha, inv_touch hi (fun huu => absurd rfl huu) nofun nofun
      (everywhere_created hi.sound hi ha.2 (sound_created garbage))⟩
  | exit t ret =>
    have huser : s.place t = .user := ha
    have hsound := hi.sound t (present_of_user huser)
    have hrunning : (cell s t).exit = none := by simp only [cell, huser, exitOf]
    exact ⟨_, if_pos ha, inv_touch hi (fun htt => absurd rfl htt) nofun nofun
      (everywhere_exits hi.sound huser (hsound.exits ret hrunning))⟩
  | join t u res =>
    obtain ⟨huser, htu, hpresent, hclaimer⟩ := ha
    exact ⟨_, if_pos huser, inv_claiming hi huser htu hpresent hclaimer (.inr ⟨res, rfl⟩)⟩
  | detach t u =>
    obtain ⟨huser, htu, hpresent, hclaimer⟩ := ha
    exact ⟨_, if_pos huser, inv_claiming hi huser htu hpresent hclaimer (.inl rfl)⟩
  | go t =>
    obtain ⟨hpresent, hbusy, hne⟩ := ha
    cases hplace : s.place t with
    | absent => exact absurd hplace hpresent
    | user => exact absurd hplace hbusy
    | exit e => exact inv_exit_go hi hplace fun he => hne (he ▸ hplace)
    | claim u c => exact inv_claim_go hi hplace

end Steps

section Law

/-- The call that joins or detaches `u` has returned. -/
def Returned (s : State T) (u : T) : Prop :=
  ∃ t, s.claimer u = some t ∧ ∀ c, s.place t ≠ .claim u c

/-- What holds of a thread and its object at any time. -/
structure Kept (s : State T) (u : T) : Prop where
  references : ∃ p : Party, refEvents (s.history u) <+: [.dropped p, .freed p.other]
  freed : s.object u = none ↔ FreedBySecond (s.history u)
  counted : ∀ thr, s.object u = some thr → Counted thr
  delivers : Delivers (s.history u)
  finished : s.place u = .exit .gone → Returned s u → FreedBySecond (s.history u)

variable {s : State T} {u : T}

omit [DecidableEq T] in
theorem exitOf_eq_some {p : Place T} {e : ExitPlace} (h : exitOf p = some e) : p = .exit e := by
  cases p with
  | exit e' => rw [Option.some.inj h]
  | _ => cases h

theorem returned_iff : (cell s u).claim = .returned ↔ Returned s u := by
  constructor
  · intro h
    cases hclaimer : s.claimer u with
    | none => cases (cell_unclaimed hclaimer).symm.trans h
    | some t =>
      refine ⟨t, hclaimer, fun c hplace => ?_⟩
      cases (cell_claim hclaimer hplace).symm.trans h
  · rintro ⟨t, hclaimer, hplace⟩
    simp only [cell, hclaimer, Option.elim_some]
    cases hp : s.place t with
    | claim v c =>
      refine if_neg fun hv => hplace c ?_
      rw [hp, hv]
    | _ => rfl

theorem kept_of_inv (hi : Inv s) (hpresent : s.place u ≠ .absent) : Kept s u where
  references := (hi.sound u hpresent).refEvents_start
  freed := (hi.sound u hpresent).freed_iff
  counted _ hthr := (hi.sound u hpresent).counted hthr
  delivers := (hi.sound u hpresent).delivers
  finished hgone hreturned :=
    (hi.sound u hpresent).finished (cell_exit hgone) (returned_iff.mpr hreturned)

theorem everywhere_initial {P : Cell → Prop} (main : T)
    (hP : P ⟨some { spin := false, refs := 2, result := 0 }, none, .unclaimed, []⟩) :
    Everywhere P (initial main) := by
  intro u h
  obtain rfl : u = main := by
    by_contra hu
    exact h (by simp [initial, hu])
  simpa [cell, initial, exitOf] using hP

theorem inv_initial (main : T) : Inv (initial main) where
  absent _ _ := ⟨rfl, rfl⟩
  claims t u c h := by
    by_cases ht : t = main
    · simp [initial, ht] at h
    · simp [initial, ht] at h
  sound := everywhere_initial main (sound_created 0)

/-- In every run no access is to a freed object and no assertion fails, and each object is freed
once, by the party that comes second. -/
theorem objects_kept (main : T) (as : List (Act T))
    (hallowed : Along step Allowed (initial main) as) :
    Along step (fun s a => ∃ s', step s a = some s' ∧
      ∀ u, s'.place u ≠ .absent → Kept s' u) (initial main) as :=
  Along.of_progress progress (fun _ hi _ => kept_of_inv hi) (inv_initial main) hallowed

/-- Thread 0 waits in `thrd_join` while thread 1 exits, and it detaches thread 2, which exits
afterwards. -/
def joinAndDetach : List (Act (Fin 3)) :=
  [.create 0 1 0, .create 1 2 0, .join 0 1 true] ++ List.replicate 4 (.go 0) ++ [.exit 1 7] ++
    List.replicate 8 (.go 1) ++ List.replicate 6 (.go 0) ++ [.detach 0 2] ++
    List.replicate 6 (.go 0) ++ [.exit 2 8] ++ List.replicate 4 (.go 2)

theorem objects_kept_joinAndDetach :
    Along step (fun s a => ∃ s', step s a = some s' ∧
      ∀ u, s'.place u ≠ .absent → Kept s' u) (initial 0) joinAndDetach :=
  objects_kept 0 joinAndDetach (by decide +kernel)

end Law

end ThreadLife
