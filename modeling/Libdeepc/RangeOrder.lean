import Mathlib.Data.Fintype.Perm
import Mathlib.Logic.Equiv.Basic

/-!
# Sequences in place

A sequence is a function of the index. What is done to a range of it permutes the
elements of that range. A partition with a moving border is kept by one exchange,
and two sorted parts around a pivot are a sorted range.
-/

namespace RangeOrder

universe u
variable {α : Type u} {f g h : Nat → α} {lo hi i j m : Nat}

section Permutations

/-- The elements of the range `[lo, hi)` change their places, no others do. -/
def PermOn (lo hi : Nat) (f g : Nat → α) : Prop :=
  ∃ σ : Equiv.Perm Nat, (∀ k, k < lo ∨ hi ≤ k → σ k = k) ∧ g = f ∘ σ

theorem permOn_refl (lo hi : Nat) (f : Nat → α) : PermOn lo hi f f :=
  ⟨1, fun _ _ => rfl, rfl⟩

theorem PermOn.trans (hfg : PermOn lo hi f g) (hgh : PermOn lo hi g h) : PermOn lo hi f h := by
  obtain ⟨σ, hσ, rfl⟩ := hfg
  obtain ⟨τ, hτ, rfl⟩ := hgh
  refine ⟨σ * τ, fun k hk => ?_, rfl⟩
  rw [Equiv.Perm.mul_apply, hτ k hk, hσ k hk]

theorem PermOn.mono (hfg : PermOn lo hi f g) {lo' hi' : Nat} (hlo : lo' ≤ lo) (hhi : hi ≤ hi') :
    PermOn lo' hi' f g := by
  obtain ⟨σ, hσ, rfl⟩ := hfg
  exact ⟨σ, fun k hk => hσ k (by omega), rfl⟩

theorem permOn_swap (f : Nat → α) (hi' : lo ≤ i ∧ i < hi) (hj : lo ≤ j ∧ j < hi) :
    PermOn lo hi f (f ∘ Equiv.swap i j) := by
  refine ⟨Equiv.swap i j, fun k hk => Equiv.swap_apply_of_ne_of_ne ?_ ?_, rfl⟩
  · omega
  · omega

theorem PermOn.eq_outside (hfg : PermOn lo hi f g) {k : Nat} (hk : k < lo ∨ hi ≤ k) :
    g k = f k := by
  obtain ⟨σ, hσ, rfl⟩ := hfg
  rw [Function.comp_apply, hσ k hk]

/-- The range holds the same elements before and after. -/
theorem PermOn.exists_index (hfg : PermOn lo hi f g) {k : Nat} (hk : lo ≤ k ∧ k < hi) :
    ∃ k', (lo ≤ k' ∧ k' < hi) ∧ g k = f k' := by
  obtain ⟨σ, hσ, rfl⟩ := hfg
  refine ⟨σ k, ?_, rfl⟩
  by_contra hout
  have hfix := hσ (σ k) (by omega)
  rw [σ.injective hfix] at hout
  exact hout hk

theorem PermOn.symm (hfg : PermOn lo hi f g) : PermOn lo hi g f := by
  obtain ⟨σ, hσ, rfl⟩ := hfg
  refine ⟨σ.symm, fun k hk => ?_, ?_⟩
  · rw [Equiv.symm_apply_eq, hσ k hk]
  · funext k
    rw [Function.comp_apply, Function.comp_apply, Equiv.apply_symm_apply]

theorem PermOn.forall_range (hfg : PermOn lo hi f g) {P : α → Prop}
    (hall : ∀ k, lo ≤ k → k < hi → P (f k)) : ∀ k, lo ≤ k → k < hi → P (g k) := by
  intro k hlo hhi
  obtain ⟨k', ⟨hlo', hhi'⟩, heq⟩ := hfg.exists_index ⟨hlo, hhi⟩
  exact heq ▸ hall k' hlo' hhi'

end Permutations

section Partition

variable {less : α → Bool} {right : Nat}

/-- From `lo` to `right` the elements are less, from there to `i` they are not. -/
structure Partitioned (less : α → Bool) (lo right i : Nat) (f : Nat → α) : Prop where
  left : ∀ k, lo ≤ k → k < right → less (f k) = true
  right : ∀ k, right ≤ k → k < i → less (f k) = false

theorem partitioned_start (less : α → Bool) (lo : Nat) (f : Nat → α) :
    Partitioned less lo lo lo f where
  left _ hlo hhi := absurd hhi (Nat.not_lt.mpr hlo)
  right _ hlo hhi := absurd hhi (Nat.not_lt.mpr hlo)

theorem Partitioned.keep (hp : Partitioned less lo right i f) (hless : less (f i) = false) :
    Partitioned less lo right (i + 1) f where
  left := hp.left
  right k hlo hhi := by
    rcases Nat.lt_or_eq_of_le (Nat.le_of_lt_succ hhi) with hlt | rfl
    · exact hp.right k hlo hlt
    · exact hless

/-- The element that is less changes places with the first one that is not. -/
theorem Partitioned.exchange (hp : Partitioned less lo right i f) (hlo : lo ≤ right)
    (hright : right ≤ i) (hless : less (f i) = true) :
    Partitioned less lo (right + 1) (i + 1) (f ∘ Equiv.swap i right) where
  left k hlo' hhi := by
    rcases Nat.lt_or_eq_of_le (Nat.le_of_lt_succ hhi) with hlt | rfl
    · have hfix : Equiv.swap i right k = k :=
        Equiv.swap_apply_of_ne_of_ne (by omega) (by omega)
      rw [Function.comp_apply, hfix]
      exact hp.left k hlo' hlt
    · rw [Function.comp_apply, Equiv.swap_apply_right]
      exact hless
  right k hlo' hhi := by
    rw [Function.comp_apply]
    rcases Nat.lt_or_eq_of_le (Nat.le_of_lt_succ hhi) with hlt | rfl
    · rw [Equiv.swap_apply_of_ne_of_ne (by omega) (by omega)]
      exact hp.right k (Nat.le_of_succ_le hlo') hlt
    · rw [Equiv.swap_apply_left]
      exact hp.right right (Nat.le_refl _) (by omega)

/-- The pivot from behind takes the place of the first element that is not less. -/
theorem Partitioned.place (hp : Partitioned less lo right m f) (hright : right ≤ m) :
    (∀ k, lo ≤ k → k < right → less ((f ∘ Equiv.swap right m) k) = true) ∧
      ∀ k, right < k → k < m + 1 → less ((f ∘ Equiv.swap right m) k) = false := by
  constructor
  · intro k hlo hhi
    rw [Function.comp_apply, Equiv.swap_apply_of_ne_of_ne (by omega) (by omega)]
    exact hp.left k hlo hhi
  · intro k hlo hhi
    rw [Function.comp_apply]
    rcases Nat.lt_or_eq_of_le (Nat.le_of_lt_succ hhi) with hlt | rfl
    · rw [Equiv.swap_apply_of_ne_of_ne (by omega) (by omega)]
      exact hp.right k hlo.le hlt
    · rw [Equiv.swap_apply_right]
      exact hp.right right (Nat.le_refl _) hlo

end Partition

section Sorted

variable {r : α → α → Prop}

def SortedOn (r : α → α → Prop) (lo hi : Nat) (f : Nat → α) : Prop :=
  ∀ i j, lo ≤ i → i < j → j < hi → r (f i) (f j)

theorem sortedOn_of_le_one (h : hi ≤ lo + 1) : SortedOn r lo hi f := by
  intro i j hlo hij hhi
  omega

theorem SortedOn.congr (hs : SortedOn r lo hi f) (hsame : ∀ k, lo ≤ k → k < hi → g k = f k) :
    SortedOn r lo hi g := by
  intro i j hlo hij hhi
  rw [hsame i hlo (hij.trans hhi), hsame j (hlo.trans hij.le) hhi]
  exact hs i j hlo hij hhi

/-- Two sorted parts with a pivot between them that no element passes. -/
theorem sortedOn_join {E : α → Prop} (htrans : ∀ a b c, E a → E b → E c → r a b → r b c → r a c)
    (hE : ∀ k, lo ≤ k → k < hi → E (f k)) (hm : lo ≤ m ∧ m < hi)
    (hleft : SortedOn r lo m f) (hright : SortedOn r (m + 1) hi f)
    (hbelow : ∀ k, lo ≤ k → k < m → r (f k) (f m))
    (habove : ∀ k, m < k → k < hi → r (f m) (f k)) : SortedOn r lo hi f := by
  intro i j hlo hij hhi
  rcases Nat.lt_trichotomy j m with hj | rfl | hj
  · exact hleft i j hlo hij hj
  · exact hbelow i hlo hij
  rcases Nat.lt_trichotomy i m with hi' | rfl | hi'
  · exact htrans _ _ _ (hE i hlo (hij.trans hhi)) (hE m hm.1 hm.2) (hE j (hlo.trans hij.le) hhi)
      (hbelow i hlo hi') (habove j hj hhi)
  · exact habove j hj hhi
  · exact hright i j hi' hij hhi

/-- What stands before and behind the element at `m` is told apart first, in `f`. Then the part
before it is sorted, in `g`, and the part behind it, in `h`. -/
theorem sortedOn_halves {E : α → Prop}
    (htrans : ∀ a b c, E a → E b → E c → r a b → r b c → r a c) {f g h : Nat → α}
    (hE : ∀ k, lo ≤ k → k < hi → E (h k)) (hm : lo ≤ m ∧ m < hi)
    (hleft : PermOn lo m f g) (hright : PermOn (m + 1) hi g h)
    (hsorted : SortedOn r lo m g) (hsorted' : SortedOn r (m + 1) hi h)
    (hbelow : ∀ k, lo ≤ k → k < m → r (f k) (f m))
    (habove : ∀ k, m < k → k < hi → r (f m) (f k)) : SortedOn r lo hi h := by
  have hmid : h m = f m :=
    (hright.eq_outside (.inl (Nat.lt_succ_self m))).trans (hleft.eq_outside (.inr (Nat.le_refl m)))
  refine sortedOn_join htrans hE hm ?_ hsorted' ?_ ?_
  · exact hsorted.congr fun k _ hk => hright.eq_outside (.inl (Nat.lt_succ_of_lt hk))
  · intro k hk hkm
    rw [hmid, hright.eq_outside (.inl (Nat.lt_succ_of_lt hkm))]
    exact hleft.forall_range (P := fun x => r x (f m)) hbelow k hk hkm
  · intro k hkm hk
    rw [hmid]
    refine hright.forall_range (P := fun x => r (f m) x) (fun k hkm hk => ?_) k hkm hk
    rw [hleft.eq_outside (.inr (Nat.le_of_succ_le hkm))]
    exact habove k hkm hk

end Sorted

end RangeOrder
