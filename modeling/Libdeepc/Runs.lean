import Mathlib.Data.List.Basic

/-!
# Runs of a partial step function

`step s a` is the state after the call `a`, or `none` when that call does not
come back (undefined behaviour). A property of calls holds along a run when it
holds of every call in the state in which that call is made.
-/

namespace Runs

universe u v
variable {S : Type u} {A : Type v}

/-- The state after a sequence of calls. -/
def exec (step : S → A → Option S) (s : S) (as : List A) : Option S := as.foldlM step s

@[simp] theorem exec_nil (step : S → A → Option S) (s : S) : exec step s [] = some s := rfl

theorem exec_cons (step : S → A → Option S) (s : S) (a : A) (as : List A) :
    exec step s (a :: as) = (step s a).bind fun s' => exec step s' as := rfl

theorem exec_append (step : S → A → Option S) (s : S) (as bs : List A) :
    exec step s (as ++ bs) = (exec step s as).bind fun s' => exec step s' bs := by
  simp only [exec, List.foldlM_append]
  rfl

/-- Calls that all come back make runs that come back. -/
theorem exec_total {step : S → A → Option S} (h : ∀ s a, ∃ s', step s a = some s') (as : List A)
    (s : S) : ∃ s', exec step s as = some s' := by
  induction as generalizing s with
  | nil => exact ⟨s, rfl⟩
  | cons a as ih =>
    obtain ⟨m, hm⟩ := h s a
    obtain ⟨s', hs'⟩ := ih m
    exact ⟨s', by rw [exec_cons, hm]; exact hs'⟩

def Along (step : S → A → Option S) (P : S → A → Prop) : S → List A → Prop
  | _, [] => True
  | s, a :: as => P s a ∧ ∀ s', step s a = some s' → Along step P s' as

variable {step : S → A → Option S} {P Q : S → A → Prop}

instance Along.decidable [∀ s a, Decidable (P s a)] :
    ∀ s as, Decidable (Along step P s as)
  | _, [] => isTrue trivial
  | s, a :: as => match h : step s a with
    | none => decidable_of_iff (P s a) ⟨fun hp => ⟨hp, fun s' hs' => by simp [h] at hs'⟩, And.left⟩
    | some s' =>
      have : Decidable (Along step P s' as) := Along.decidable s' as
      decidable_of_iff (P s a ∧ Along step P s' as) ⟨fun hp => ⟨hp.1, fun t ht => by
        rw [h] at ht
        exact Option.some.inj ht ▸ hp.2⟩, fun hp => ⟨hp.1, hp.2 s' h⟩⟩

/-- Along a run means: of every call, in the state its predecessors lead to. -/
theorem along_iff_forall_prefix {s : S} {as : List A} :
    Along step P s as ↔
      ∀ pre a post, as = pre ++ a :: post → ∀ s', exec step s pre = some s' → P s' a := by
  induction as generalizing s with
  | nil => simp [Along]
  | cons b as ih =>
    constructor
    · rintro ⟨hb, hrest⟩ pre a post has s' hs'
      cases pre with
      | nil =>
        obtain ⟨rfl, rfl⟩ := List.cons.inj has
        exact Option.some.inj hs' ▸ hb
      | cons c pre =>
        obtain ⟨rfl, htail⟩ := List.cons.inj has
        rw [exec_cons] at hs'
        obtain ⟨m, hm, hs'⟩ := Option.bind_eq_some_iff.mp hs'
        exact ih.mp (hrest m hm) pre a post htail s' hs'
    · intro h
      refine ⟨h [] b as rfl s rfl, fun m hm => ih.mpr fun pre a post has s' hs' => ?_⟩
      refine h (b :: pre) a post (by rw [has]; rfl) s' ?_
      rw [exec_cons, hm]
      exact hs'

theorem along_cons_of_step {s s' : S} {a : A} {as : List A} (h : step s a = some s')
    (ha : P s a) (hrest : Along step P s' as) : Along step P s (a :: as) := by
  refine ⟨ha, fun t ht => ?_⟩
  rw [h] at ht
  rwa [← Option.some.inj ht]

theorem along_of_forall {p : A → Prop} {as : List A} (h : ∀ a ∈ as, p a) (s : S) :
    Along step (fun _ a => p a) s as := by
  induction as generalizing s with
  | nil => trivial
  | cons a as ih =>
    exact ⟨h a List.mem_cons_self, fun s' _ => ih (fun b hb => h b (List.mem_cons_of_mem a hb)) s'⟩

theorem Along.and {s : S} {as : List A} (hp : Along step P s as) (hq : Along step Q s as) :
    Along step (fun s a => P s a ∧ Q s a) s as := by
  induction as generalizing s with
  | nil => trivial
  | cons a as ih => exact ⟨⟨hp.1, hq.1⟩, fun s' hs' => ih (hp.2 s' hs') (hq.2 s' hs')⟩

/-- Of a run along which a property holds, the first part and the rest. -/
theorem Along.split {s m : S} {as bs : List A} (h : Along step P s (as ++ bs))
    (hm : exec step s as = some m) : Along step P s as ∧ Along step P m bs := by
  induction as generalizing s with
  | nil => exact ⟨trivial, Option.some.inj hm ▸ h⟩
  | cons a as ih =>
    rw [exec_cons] at hm
    obtain ⟨s', hs', hm⟩ := Option.bind_eq_some_iff.mp hm
    obtain ⟨ha, hrest⟩ := ih (h.2 s' hs') hm
    exact ⟨along_cons_of_step hs' h.1 ha, hrest⟩

/-- A run whose calls all meet `Q` keeps the invariant, hence `P`. -/
theorem Along.of_inv {I : S → Prop} (hold : ∀ s a, I s → Q s a → P s a)
    (keep : ∀ s a s', I s → Q s a → step s a = some s' → I s')
    {s : S} {as : List A} (hs : I s) (hq : Along step Q s as) : Along step P s as := by
  induction as generalizing s with
  | nil => trivial
  | cons a as ih =>
    obtain ⟨ha, hrest⟩ := hq
    exact ⟨hold s a hs ha, fun s' hs' => ih (keep s a s' hs ha hs') (hrest s' hs')⟩

/-- Every call that meets `Q` comes back and keeps the invariant. -/
def Progress (step : S → A → Option S) (Q : S → A → Prop) (I : S → Prop) : Prop :=
  ∀ s a, I s → Q s a → ∃ s', step s a = some s' ∧ I s'

theorem Progress.keep {I : S → Prop} (h : Progress step Q I) (s : S) (a : A) (s' : S) (hs : I s)
    (ha : Q s a) (hs' : step s a = some s') : I s' := by
  obtain ⟨t, ht, hi⟩ := h s a hs ha
  exact Option.some.inj (ht.symm.trans hs') ▸ hi

/-- A run whose calls all meet `Q` never gets stuck, and every state it reaches meets `R`. -/
theorem Along.of_progress {I R : S → Prop} (h : Progress step Q I) (hold : ∀ s, I s → R s)
    {s : S} {as : List A} (hs : I s) (hq : Along step Q s as) :
    Along step (fun s a => ∃ s', step s a = some s' ∧ R s') s as := by
  refine Along.of_inv (fun s a hs ha => ?_) h.keep hs hq
  obtain ⟨s', hs', hi⟩ := h s a hs ha
  exact ⟨s', hs', hold s' hi⟩

theorem exec_of_progress {I : S → Prop} (h : Progress step Q I) {s : S} {as : List A} (hs : I s)
    (hq : Along step Q s as) : ∃ s', exec step s as = some s' ∧ I s' := by
  induction as generalizing s with
  | nil => exact ⟨s, rfl, hs⟩
  | cons a as ih =>
    obtain ⟨m, hm, hi⟩ := h s a hs hq.1
    obtain ⟨s', hs', hi'⟩ := ih hi (hq.2 m hm)
    exact ⟨s', by rw [exec_cons, hm]; exact hs', hi'⟩

/-- When the two agree on the states of an invariant that `P` keeps, they agree on runs. -/
theorem along_congr {I : S → Prop} (agree : ∀ s a, I s → (P s a ↔ Q s a))
    (keep : ∀ s a s', I s → P s a → step s a = some s' → I s')
    {s : S} {as : List A} (hs : I s) : Along step P s as ↔ Along step Q s as :=
  ⟨Along.of_inv (fun s a h => (agree s a h).mp) keep hs,
    Along.of_inv (fun s a h => (agree s a h).mpr)
      (fun s a s' h hq => keep s a s' h ((agree s a h).mpr hq)) hs⟩

/-- A property that only sees a part of the state, on which the steps act alike. -/
theorem along_proj {T : Type*} {f : T → S} {stepT : T → A → Option T}
    (hstep : ∀ t a, (stepT t a).map f = step (f t) a) {t : T} {as : List A} :
    Along stepT (fun t a => P (f t) a) t as ↔ Along step P (f t) as := by
  induction as generalizing t with
  | nil => exact Iff.rfl
  | cons a as ih =>
    refine and_congr_right fun _ => ?_
    constructor
    · intro h s' hs'
      rw [← hstep] at hs'
      obtain ⟨t', ht', rfl⟩ := Option.map_eq_some_iff.mp hs'
      exact ih.mp (h t' ht')
    · intro h t' ht'
      refine ih.mpr (h (f t') ?_)
      rw [← hstep, ht']
      rfl

/-- The invariant itself, in every state such a run reaches. -/
theorem inv_of_exec {I : S → Prop}
    (keep : ∀ s a s', I s → Q s a → step s a = some s' → I s')
    {s s' : S} {as : List A} (hs : I s) (hq : Along step Q s as)
    (h : exec step s as = some s') : I s' := by
  induction as generalizing s with
  | nil => exact Option.some.inj h ▸ hs
  | cons a as ih =>
    obtain ⟨ha, hrest⟩ := hq
    rw [exec_cons] at h
    obtain ⟨m, hm, h⟩ := Option.bind_eq_some_iff.mp h
    exact ih (keep s a m hs ha hm) (hrest m hm) h

end Runs
