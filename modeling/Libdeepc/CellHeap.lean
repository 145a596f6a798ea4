import Mathlib.Data.List.Perm.Subperm
import Mathlib.Data.List.Dedup

/-!
# A heap of cells

Finitely many addresses hold a cell. An address without one cannot be accessed;
`put` allocates a cell or overwrites one, `erase` gives one back.
-/

namespace CellHeap

universe u
variable {α : Type u}

abbrev Heap (α : Type u) := List (Nat × α)

def get (h : Heap α) (a : Nat) : Option α := h.lookup a

def erase (h : Heap α) (a : Nat) : Heap α := h.filter fun c => c.1 ≠ a

def put (h : Heap α) (a : Nat) (x : α) : Heap α := (a, x) :: erase h a

@[simp] theorem get_nil (a : Nat) : get ([] : Heap α) a = none := rfl

theorem get_cons (c : Nat × α) (h : Heap α) (a : Nat) :
    get (c :: h) a = if a = c.1 then some c.2 else get h a := by
  obtain ⟨b, x⟩ := c
  by_cases hab : a = b
  · simp [get, hab]
  · have hne : (a == b) = false := by simpa using hab
    simp [get, List.lookup_cons, hne, hab]

@[simp] theorem get_erase_self (h : Heap α) (a : Nat) : get (erase h a) a = none := by
  induction h with
  | nil => rfl
  | cons c h ih =>
    by_cases hc : c.1 = a
    · simpa [erase, hc] using ih
    · have hne : ¬a = c.1 := fun he => hc he.symm
      simpa [erase, hc, get_cons, hne] using ih

theorem get_erase_ne (h : Heap α) {a b : Nat} (hne : b ≠ a) : get (erase h a) b = get h b := by
  induction h with
  | nil => rfl
  | cons c h ih =>
    by_cases hc : c.1 = a
    · have hb : ¬b = c.1 := fun he => hne (he.trans hc)
      rw [get_cons, if_neg hb, ← ih]
      simp [erase, hc]
    · have herase : erase (c :: h) a = c :: erase h a := by simp [erase, hc]
      rw [herase, get_cons, get_cons, ih]

@[simp] theorem get_put_self (h : Heap α) (a : Nat) (x : α) : get (put h a x) a = some x := by
  simp [put, get_cons]

theorem get_put_ne (h : Heap α) {a b : Nat} (x : α) (hne : b ≠ a) :
    get (put h a x) b = get h b := by
  rw [put, get_cons, if_neg hne, get_erase_ne h hne]

theorem mem_of_get {h : Heap α} {a : Nat} {x : α} (hx : get h a = some x) :
    a ∈ h.map Prod.fst := by
  induction h with
  | nil => simp at hx
  | cons c h ih =>
    rw [get_cons] at hx
    split at hx
    · next hac => simp [hac]
    · exact List.mem_cons_of_mem _ (ih hx)

/-- There are at least as many cells as different addresses with one. -/
theorem length_le_of_nodup {h : Heap α} {as : List Nat} (hnodup : as.Nodup)
    (hall : ∀ a ∈ as, ∃ x, get h a = some x) : as.length ≤ h.length := by
  have hsub : as ⊆ h.map Prod.fst := fun a ha => (hall a ha).elim fun _ hx => mem_of_get hx
  simpa using (hnodup.subperm hsub).length_le

end CellHeap
