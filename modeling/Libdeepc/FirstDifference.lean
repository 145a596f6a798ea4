import Mathlib.Data.List.Lex
import Mathlib.Order.Lattice

/-!
# The first difference of two lists

Two lists share a prefix. Behind it they differ in an element, or one of them ends.
Where they differ, that one pair of elements decides their lexicographic order.
-/

namespace FirstDifference

universe u v

section Split

variable {α : Type u} [DecidableEq α]

def common : List α → List α → List α
  | x :: xs, y :: ys => if x = y then x :: common xs ys else []
  | _, _ => []

def firstDifference : List α → List α → Option (α × α)
  | x :: xs, y :: ys => if x = y then firstDifference xs ys else some (x, y)
  | _, _ => none

variable {xs ys w : List α} {a b : α}

theorem common_nil (ys : List α) : common [] ys = [] := by
  cases ys <;> rfl

theorem firstDifference_append (w xs ys : List α) :
    firstDifference (w ++ xs) (w ++ ys) = firstDifference xs ys := by
  induction w with
  | nil => rfl
  | cons x w ih => rw [List.cons_append, List.cons_append, firstDifference, if_pos rfl, ih]

theorem firstDifference_self (xs : List α) : firstDifference xs xs = none := by
  induction xs with
  | nil => rfl
  | cons x xs ih => rw [firstDifference, if_pos rfl, ih]

/-- The lists behind their common prefix do not start with the same element. -/
theorem exists_common (xs ys : List α) : ∃ xs' ys', xs = common xs ys ++ xs' ∧
    ys = common xs ys ++ ys' ∧ ∀ x, x ∈ xs'.head? → x ∉ ys'.head? := by
  induction xs generalizing ys with
  | nil => exact ⟨[], ys, by rw [common_nil]; rfl, by rw [common_nil]; rfl, nofun⟩
  | cons x xs ih =>
    cases ys with
    | nil => exact ⟨x :: xs, [], rfl, rfl, fun _ _ h => nomatch h⟩
    | cons y ys =>
      by_cases hxy : x = y
      · obtain ⟨xs', ys', hxs, hys, hne⟩ := ih ys
        rw [common, if_pos hxy]
        exact ⟨xs', ys', congrArg (x :: ·) hxs, hxy ▸ congrArg (x :: ·) hys, hne⟩
      · rw [common, if_neg hxy]
        refine ⟨x :: xs, y :: ys, rfl, rfl, fun z hz hz' => hxy ?_⟩
        rw [List.head?_cons, Option.mem_some_iff] at hz hz'
        rw [hz, hz']

theorem firstDifference_eq_some (h : firstDifference xs ys = some (a, b)) :
    a ≠ b ∧ ∃ w xs' ys', xs = w ++ a :: xs' ∧ ys = w ++ b :: ys' := by
  obtain ⟨xs', ys', hxs, hys, hne⟩ := exists_common xs ys
  generalize common xs ys = w at hxs hys
  subst hxs hys
  rw [firstDifference_append] at h
  cases xs' with
  | nil => cases ys' <;> exact nomatch h
  | cons x xs' =>
    cases ys' with
    | nil => exact nomatch h
    | cons y ys' =>
      have hxy : x ≠ y := by
        rintro rfl
        exact hne x rfl rfl
      rw [firstDifference, if_neg hxy] at h
      cases h
      exact ⟨hxy, w, xs', ys', rfl, rfl⟩

/-- Lists of one length without a difference are equal. -/
theorem eq_of_firstDifference_none (h : firstDifference xs ys = none)
    (hlen : xs.length = ys.length) : xs = ys := by
  induction xs generalizing ys with
  | nil => exact (List.eq_nil_of_length_eq_zero hlen.symm).symm
  | cons x xs ih =>
    cases ys with
    | nil => cases hlen
    | cons y ys =>
      rw [firstDifference] at h
      split at h
      · next hxy => rw [hxy, ih h (Nat.succ.inj hlen)]
      · cases h

/-- Behind their common prefix two terminated lists both have an element: the terminator on
both sides, or two that differ. -/
theorem exists_parting {z : α} {t u : List α} (ht : z ∉ t) (hu : z ∉ u) :
    ∃ a b t' u', t ++ [z] = common t u ++ a :: t' ∧ u ++ [z] = common t u ++ b :: u' ∧
      z ∉ common t u ∧ (a = z ∧ b = z ∧ t = u ∨ a ≠ b ∧ t ≠ u) := by
  obtain ⟨xs, ys, hxs, hys, hne⟩ := exists_common t u
  have hz : z ∉ common t u := fun h => ht (hxs ▸ List.mem_append_left _ h)
  generalize common t u = w at hxs hys hz
  subst hxs hys
  have hsome : ∀ (zs : List α), ∃ c zs', zs ++ [z] = c :: zs' ∧ (zs = [] → c = z) ∧
      (zs ≠ [] → c ∈ zs ∧ c ∈ zs.head?) := by
    intro zs
    cases zs with
    | nil => exact ⟨z, [], rfl, fun _ => rfl, fun h => absurd rfl h⟩
    | cons c zs => exact ⟨c, zs ++ [z], rfl, nofun, fun _ => ⟨List.mem_cons_self, rfl⟩⟩
  obtain ⟨a, t', hat, hanil, hacons⟩ := hsome xs
  obtain ⟨b, u', hbu, hbnil, hbcons⟩ := hsome ys
  refine ⟨a, b, t', u', by rw [List.append_assoc, hat], by rw [List.append_assoc, hbu], hz, ?_⟩
  by_cases hx : xs = []
  · by_cases hy : ys = []
    · exact .inl ⟨hanil hx, hbnil hy, by rw [hx, hy]⟩
    · refine .inr ⟨fun hab => hu ?_, fun heq => hy ?_⟩
      · rw [← hanil hx, hab]
        exact List.mem_append_right _ (hbcons hy).1
      · rw [hx] at heq
        exact (List.append_cancel_left heq).symm
  · right
    constructor
    · intro hab
      by_cases hy : ys = []
      · refine ht (List.mem_append_right _ ?_)
        rw [← hbnil hy, ← hab]
        exact (hacons hx).1
      · exact hne a (hacons hx).2 (hab ▸ (hbcons hy).2)
    · intro heq
      have hsame := List.append_cancel_left heq
      exact hne a (hacons hx).2 (hsame ▸ (hacons hx).2)

end Split

section Order

variable {α : Type u} [LinearOrder α] {c : Int} {xs ys w : List α} {a b : α}

/-- `c` is negative, zero or positive as `xs` is below, at or above `ys`. -/
structure SignOf (c : Int) (xs ys : List α) : Prop where
  neg : c < 0 ↔ xs < ys
  zero : c = 0 ↔ xs = ys
  pos : 0 < c ↔ ys < xs

theorem signOf_zero (xs : List α) : SignOf 0 xs xs :=
  ⟨by simp, by simp, by simp⟩

theorem lt_of_parting (h : a < b) (w xs ys : List α) : w ++ a :: xs < w ++ b :: ys :=
  List.append_left_lt (List.cons_lt_cons_iff.mpr (.inl h))

theorem lt_of_longer (w : List α) (a : α) (xs : List α) : w < w ++ a :: xs := by
  have h : w ++ [] < w ++ a :: xs := List.append_left_lt (List.nil_lt_cons a xs)
  rwa [List.append_nil] at h

/-- Of three statements of which exactly one holds on each side, the sign has to agree in one. -/
theorem signOf_iff_of_lt (hc : c ≠ 0) (h : xs < ys) : SignOf c xs ys ↔ c < 0 := by
  constructor
  · intro hs
    exact hs.neg.mpr h
  intro hneg
  refine ⟨?_, ?_, ?_⟩
  · exact ⟨fun _ => h, fun _ => hneg⟩
  · exact ⟨fun h0 => absurd h0 hc, fun heq => absurd heq h.ne⟩
  · exact ⟨fun hpos => absurd hpos (by omega), fun hgt => absurd hgt (lt_asymm h)⟩

theorem signOf_iff_of_gt (hc : c ≠ 0) (h : ys < xs) : SignOf c xs ys ↔ 0 < c := by
  constructor
  · intro hs
    exact hs.pos.mpr h
  intro hpos
  refine ⟨?_, ?_, ?_⟩
  · exact ⟨fun hneg => absurd hneg (by omega), fun hlt => absurd hlt (lt_asymm h)⟩
  · exact ⟨fun h0 => absurd h0 hc, fun heq => absurd heq h.ne'⟩
  · exact ⟨fun _ => h, fun _ => hpos⟩

theorem SignOf.le_zero_iff (h : SignOf c xs ys) : c ≤ 0 ↔ xs ≤ ys := by
  constructor
  · intro hc
    exact not_lt.mp fun hlt => absurd (h.pos.mpr hlt) (by omega)
  · intro hle
    by_contra hc
    exact absurd (h.pos.mp (by omega)) (not_lt.mpr hle)

end Order

end FirstDifference
