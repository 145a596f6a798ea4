import Mathlib.Data.Set.Lattice
import Mathlib.Order.CompletePartialOrder
import Mathlib.Order.Interval.Set.Disjoint

/-!
# Regions stacked under a rising top

Half-open regions between a bottom and a top, no two of them overlapping. A
region put between the old top and a new one keeps that, whatever lies below.
-/

namespace RegionStack

universe u
variable {α : Type u} [LinearOrder α]

abbrev Apart (r q : α × α) : Prop := Disjoint (Set.Ico r.1 r.2) (Set.Ico q.1 q.2)

structure Stacked (bottom top : α) (regions : List (α × α)) : Prop where
  ordered : bottom ≤ top
  inside : ∀ r ∈ regions, bottom ≤ r.1 ∧ r.2 ≤ top
  apart : regions.Pairwise Apart

variable {bottom top top' : α} {regions : List (α × α)}

theorem stacked_nil (h : bottom ≤ top) : Stacked bottom top [] :=
  ⟨h, fun _ hr => absurd hr List.not_mem_nil, .nil⟩

theorem apart_of_le {r q : α × α} (h : q.2 ≤ r.1) : Apart r q :=
  Set.disjoint_left.mpr fun _ hr hq => absurd (lt_of_lt_of_le hq.2 h) (not_lt.mpr hr.1)

theorem Stacked.push (h : Stacked bottom top regions) (hle : top ≤ top') :
    Stacked bottom top' ((top, top') :: regions) where
  ordered := le_trans h.ordered hle
  inside r hr := by
    rcases List.mem_cons.mp hr with rfl | hr
    · exact ⟨h.ordered, le_refl _⟩
    · exact ⟨(h.inside r hr).1, le_trans (h.inside r hr).2 hle⟩
  apart := List.pairwise_cons.mpr ⟨fun q hq => apart_of_le (h.inside q hq).2, h.apart⟩

end RegionStack
