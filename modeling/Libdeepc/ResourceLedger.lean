import Mathlib.Order.BooleanAlgebra.Set

/-!
# Replaying the moves of resources

A record of moves is sound when nothing is acquired that is held and nothing released
that is not. What is held at its end is then determined, and each resource has been
released as often as it was acquired, or once less.
-/

namespace ResourceLedger

universe u v

inductive Move (K : Type u)
  | acquire (k : K)
  | release (k : K)
  deriving DecidableEq

def Move.map {K : Type u} {L : Type v} (f : K → L) : Move K → Move L
  | .acquire k => .acquire (f k)
  | .release k => .release (f k)

variable {K : Type u}

/-- The moves lead from what is held before to what is held after. -/
def Replays : Set K → List (Move K) → Set K → Prop
  | held, [], after => held = after
  | held, .acquire k :: moves, after => k ∉ held ∧ Replays (insert k held) moves after
  | held, .release k :: moves, after => k ∈ held ∧ Replays (held \ {k}) moves after

variable {held between after : Set K} {k : K} {moves rest : List (Move K)}

theorem replays_nil (held : Set K) : Replays held [] held := rfl

theorem replays_acquire (h : k ∉ held) : Replays held [.acquire k] (insert k held) := ⟨h, rfl⟩

theorem replays_release (h : k ∈ held) : Replays held [.release k] (held \ {k}) := ⟨h, rfl⟩

/-- What is acquired and released at once leaves things as they were. -/
theorem replays_both (h : k ∉ held) : Replays held [.acquire k, .release k] held := by
  refine ⟨h, Set.mem_insert k held, ?_⟩
  change insert k held \ {k} = held
  exact Set.insert_sdiff_self_of_notMem h

theorem Replays.append (h : Replays held moves between) (hrest : Replays between rest after) :
    Replays held (moves ++ rest) after := by
  induction moves generalizing held with
  | nil =>
    obtain rfl : held = between := h
    exact hrest
  | cons move moves ih =>
    cases move with
    | acquire k => exact ⟨h.1, ih h.2⟩
    | release k => exact ⟨h.1, ih h.2⟩

open Classical in
/-- What is held has been acquired once more often than released. -/
theorem Replays.count_eq [DecidableEq K] (h : Replays held moves after) (k : K) :
    moves.count (.acquire k) + (if k ∈ held then 1 else 0) =
      moves.count (.release k) + (if k ∈ after then 1 else 0) := by
  induction moves generalizing held with
  | nil =>
    obtain rfl : held = after := h
    rfl
  | cons move moves ih =>
    cases move with
    | acquire j =>
      have hcount := ih h.2
      by_cases hj : j = k
      · subst hj
        simp only [List.count_cons, h.1, Set.mem_insert_iff, true_or, beq_self_eq_true,
          reduceCtorEq, beq_iff_eq, if_true, if_false] at hcount ⊢
        omega
      · have hne : k ≠ j := fun h => hj h.symm
        simp only [List.count_cons, Set.mem_insert_iff, hne, hj, false_or, beq_iff_eq,
          Move.acquire.injEq, reduceCtorEq, if_false] at hcount ⊢
        omega
    | release j =>
      have hcount := ih h.2
      by_cases hj : j = k
      · subst hj
        simp only [List.count_cons, h.1, Set.mem_sdiff, Set.mem_singleton_iff, not_true_eq_false,
          and_false, beq_self_eq_true, reduceCtorEq, beq_iff_eq, if_true, if_false] at hcount ⊢
        omega
      · have hne : k ≠ j := fun h => hj h.symm
        simp only [List.count_cons, Set.mem_sdiff, Set.mem_singleton_iff, hne, hj,
          not_false_eq_true, and_true, beq_iff_eq, Move.release.injEq, reduceCtorEq, if_false] at hcount ⊢
        omega

end ResourceLedger
