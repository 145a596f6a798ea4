import Mathlib.Data.List.Basic
import Mathlib.Order.Defs.Unbundled

/-!
# Elements in the order of their first insertion

A list takes a new element at its end unless it has an equivalent one. From the empty
list, what is inserted first of each class is what is there at the end.
-/

namespace FirstOccurrences

universe u
variable {α : Type u} (E : α → α → Prop) [DecidableRel E]

def insertNew (es : List α) (k : α) : List α := if ∃ e ∈ es, E k e then es else es ++ [k]

/-- The elements without those that are equivalent to one before, or to one of `seen`. -/
def firsts : List α → List α → List α
  | _, [] => []
  | seen, k :: ks =>
    if ∃ e ∈ seen, E k e then firsts (k :: seen) ks else k :: firsts (k :: seen) ks

variable {E} {es ks seen : List α} {k : α}

theorem insertNew_of_found (h : ∃ e ∈ es, E k e) : insertNew E es k = es := if_pos h

theorem insertNew_of_new (h : ¬∃ e ∈ es, E k e) : insertNew E es k = es ++ [k] := if_neg h

/-- Two lists have elements of the same classes. -/
def SameClasses (E : α → α → Prop) (es seen : List α) : Prop :=
  ∀ x, (∃ e ∈ es, E x e) ↔ ∃ e ∈ seen, E x e

theorem SameClasses.insertNew (hE : Equivalence E) (h : SameClasses E es seen) (k : α) :
    SameClasses E (insertNew E es k) (k :: seen) := by
  intro x
  rw [List.exists_mem_cons_iff, ← h x]
  by_cases hk : ∃ e ∈ es, E k e
  · rw [insertNew_of_found hk]
    refine ⟨.inr, fun hx => hx.elim (fun hxk => ?_) id⟩
    obtain ⟨e, he, hke⟩ := hk
    exact ⟨e, he, hE.trans hxk hke⟩
  · rw [insertNew_of_new hk]
    simp only [List.mem_append, List.mem_singleton, or_and_right, exists_or, exists_eq_left]
    exact or_comm

theorem foldl_insertNew (hE : Equivalence E) (h : SameClasses E es seen) (ks : List α) :
    ks.foldl (insertNew E) es = es ++ firsts E seen ks := by
  induction ks generalizing es seen with
  | nil => exact (List.append_nil es).symm
  | cons k ks ih =>
    rw [List.foldl_cons, ih (h.insertNew hE k), firsts]
    by_cases hk : ∃ e ∈ es, E k e
    · rw [insertNew_of_found hk, if_pos ((h k).mp hk)]
    · rw [insertNew_of_new hk, if_neg (mt (h k).mpr hk), List.append_assoc]
      rfl

/-- From the empty list on. -/
theorem foldl_insertNew_nil (hE : Equivalence E) (ks : List α) :
    ks.foldl (insertNew E) [] = firsts E [] ks := foldl_insertNew hE (fun _ => Iff.rfl) ks

theorem pairwise_insertNew (hE : Equivalence E) (h : es.Pairwise fun a b => ¬E a b) (k : α) :
    (insertNew E es k).Pairwise fun a b => ¬E a b := by
  by_cases hk : ∃ e ∈ es, E k e
  · rwa [insertNew_of_found hk]
  · rw [insertNew_of_new hk, List.pairwise_append]
    refine ⟨h, List.pairwise_singleton _ _, fun e he c hc hec => hk ⟨e, he, ?_⟩⟩
    rw [← List.mem_singleton.mp hc]
    exact hE.symm hec

theorem pairwise_foldl (hE : Equivalence E) (h : es.Pairwise fun a b => ¬E a b) (ks : List α) :
    (ks.foldl (insertNew E) es).Pairwise fun a b => ¬E a b := by
  induction ks generalizing es with
  | nil => exact h
  | cons k ks ih => exact ih (pairwise_insertNew hE h k)

/-- The list stands for all that has been inserted. -/
theorem sameClasses_foldl (hE : Equivalence E) (h : SameClasses E es seen) (ks : List α) :
    SameClasses E (ks.foldl (insertNew E) es) (ks.reverse ++ seen) := by
  induction ks generalizing es seen with
  | nil => exact h
  | cons k ks ih =>
    rw [List.reverse_cons, List.append_assoc]
    exact ih (h.insertNew hE k)

theorem found_of_mem (hE : Equivalence E) (hk : k ∈ ks) :
    ∃ e ∈ ks.foldl (insertNew E) [], E k e := by
  have hclasses : SameClasses E (ks.foldl (insertNew E) []) (ks.reverse ++ []) :=
    sameClasses_foldl hE (fun _ => Iff.rfl) ks
  refine (hclasses k).mpr ⟨k, ?_, hE.refl k⟩
  rwa [List.append_nil, List.mem_reverse]

end FirstOccurrences
