import Libdeepc.ComparatorCalls
import Mathlib.Data.Nat.Size

/-!
# How often the comparator is called

`qsort` takes the last element as its pivot. It asks at most once about each pair
of places, and as often as that where the array is in order already. `bsearch`
halves what is left with each question.
-/

namespace ComparisonCounts

open Memory RangeOrder ComparatorCalls
open ArraySort (Holds)

universe u
variable {σ : Type u} {comp : σ → Mem → Nat → Nat → Int × σ} {w w' : World σ}
  {arr size n : Nat} {f : Nat → List UInt8}

section Partition

theorem swap_calls {a b : Nat} (h : swap size w a b = some w') : w'.calls = w.calls := by
  obtain ⟨mem, _, rfl⟩ := Option.map_eq_some_iff.mp h
  rfl

theorem swap_same (w : World σ) (a : Nat) : swap size w a a = some w := by
  rw [swap, ArraySort.swap, if_pos rfl, Option.map_some]

theorem next_place (arr size i : Nat) : arr + i * size + size = arr + (i + 1) * size := by
  rw [Nat.succ_mul, Nat.add_assoc]

/-- One question for each element before the pivot. -/
theorem partitionLoop_calls (hsize : 0 < size) {m fuel i right p : Nat} (hright : right ≤ i)
    (hi : i ≤ m) (h : partitionLoop comp size (arr + m * size) fuel w (arr + i * size)
      (arr + right * size) = some (w', p)) :
    w'.calls.length = w.calls.length + (m - i) ∧ ∃ k, p = arr + k * size ∧ k ≤ m := by
  induction fuel generalizing w i right with
  | zero => cases h
  | succ fuel ih =>
    rw [partitionLoop] at h
    rcases Nat.lt_or_eq_of_le hi with hlt | rfl
    · have hptr : arr + i * size < arr + m * size :=
        Nat.add_lt_add_left (Nat.mul_lt_mul_of_pos_right hlt hsize) arr
      have hasked : (ask comp w (arr + i * size) (arr + m * size)).2.calls.length =
          w.calls.length + 1 := rfl
      rw [if_pos hptr] at h
      generalize ask comp w (arr + i * size) (arr + m * size) = r at h hasked
      dsimp only at h
      split at h
      · obtain ⟨w₁, hswap, h⟩ := Option.bind_eq_some_iff.mp h
        rw [next_place, next_place] at h
        obtain ⟨hcalls, hplace⟩ := ih (Nat.succ_le_succ hright) hlt h
        rw [swap_calls hswap] at hcalls
        exact ⟨by omega, hplace⟩
      · rw [next_place] at h
        obtain ⟨hcalls, hplace⟩ := ih (Nat.le_succ_of_le hright) hlt h
        exact ⟨by omega, hplace⟩
    · rw [if_neg (Nat.lt_irrefl _)] at h
      obtain ⟨rfl, rfl⟩ := Prod.mk.inj (Option.some.inj h)
      exact ⟨by omega, right, rfl, hright⟩

/-- Where all elements are less than the pivot, nothing is moved. -/
theorem partitionLoop_sorted (hsize : 0 < size) {cmp : List UInt8 → List UInt8 → Int}
    {m fuel i : Nat} (hans : Answers comp w.mem arr size n cmp) (hm : Holds w.mem arr size n f)
    (hmn : m < n) (hless : ∀ i, i < m → cmp (f i) (f m) < 0) (hi : i ≤ m) (hfuel : m - i < fuel) :
    ∃ w', partitionLoop comp size (arr + m * size) fuel w (arr + i * size) (arr + i * size) =
      some (w', arr + m * size) ∧ w'.mem = w.mem := by
  induction fuel generalizing w i with
  | zero => omega
  | succ fuel ih =>
    rw [partitionLoop]
    rcases Nat.lt_or_eq_of_le hi with hlt | rfl
    · have hptr : arr + i * size < arr + m * size :=
        Nat.add_lt_add_left (Nat.mul_lt_mul_of_pos_right hlt hsize) arr
      have hneg := (ask_neg hans hm (hlt.trans hmn) hmn).mpr (hless i hlt)
      simp only [if_pos hptr, if_pos hneg, swap_same, Option.bind_some, next_place]
      exact ih hans hm hlt (by omega)
    · exact ⟨w, if_neg (Nat.lt_irrefl _), rfl⟩

end Partition

section Sorting

/-- The pairs within two parts, and those with the pivot. -/
theorem pairs_split (k r : Nat) :
    k * (k - 1) + r * (r - 1) + 2 * (k + r) ≤ (k + r + 1) * (k + r) := by
  have hk := Nat.le_mul_self k
  have hr := Nat.le_mul_self r
  rw [Nat.mul_sub_one, Nat.mul_sub_one, Nat.succ_mul (k + r), Nat.mul_add (k + r),
    Nat.add_mul k r k, Nat.add_mul k r r]
  omega

theorem pairs_succ (k : Nat) : (k + 1) * k = k * (k - 1) + 2 * k := by
  have hk := Nat.le_mul_self k
  rw [Nat.mul_sub_one, Nat.succ_mul]
  omega

theorem left_count (hsize : 0 < size) (arr k : Nat) :
    (arr + k * size + size - arr) / size - 1 = k := by
  rw [next_place, Nat.add_sub_cancel_left, Nat.mul_div_cancel _ hsize, Nat.add_sub_cancel]

/-- Whatever the comparator answers. -/
theorem qsortRec_calls (hsize : 0 < size) {fuel count : Nat}
    (h : qsortRec comp size fuel w arr count = some w') :
    2 * w'.calls.length ≤ 2 * w.calls.length + count * (count - 1) := by
  induction fuel generalizing w w' arr count with
  | zero => cases h
  | succ fuel ih =>
    rw [qsortRec] at h
    split at h
    · obtain rfl := Option.some.inj h
      omega
    · next hcount =>
      obtain ⟨m, rfl⟩ : ∃ m, count = m + 1 := ⟨count - 1, by omega⟩
      dsimp only at h
      obtain ⟨⟨w₁, p⟩, hloop, h⟩ := Option.bind_eq_some_iff.mp h
      obtain ⟨w₂, hswap, h⟩ := Option.bind_eq_some_iff.mp h
      obtain ⟨w₃, hleft, hright⟩ := Option.bind_eq_some_iff.mp h
      have hloop' : partitionLoop comp size (arr + m * size) (m + 1) w (arr + 0 * size)
          (arr + 0 * size) = some (w₁, p) := by
        rwa [Nat.zero_mul, Nat.add_zero]
      obtain ⟨hcalls, k, rfl, hk⟩ :=
        partitionLoop_calls hsize (Nat.le_refl 0) (Nat.zero_le m) hloop'
      rw [left_count hsize] at hleft hright
      have hleft' := ih hleft
      have hright' := ih hright
      have hsame : w₂.calls = w₁.calls := swap_calls hswap
      rw [hsame] at hleft'
      obtain ⟨r, rfl⟩ : ∃ r, m = k + r := ⟨m - k, by omega⟩
      have hrest : k + r + 1 - k - 1 = r := by omega
      rw [hrest] at hright'
      have hpairs := pairs_split k r
      rw [Nat.add_sub_cancel]
      omega

/-- Where the array is in order already, the pivot goes last and nothing is moved. -/
theorem qsortRec_sorted (hsize : 0 < size) {cmp : List UInt8 → List UInt8 → Int}
    {fuel count : Nat} (hans : Answers comp w.mem arr size n cmp) (hm : Holds w.mem arr size n f)
    (hless : ∀ i j, i < j → j < count → cmp (f i) (f j) < 0) (hn : count ≤ n)
    (hfuel : count < fuel) : ∃ w', qsortRec comp size fuel w arr count = some w' ∧
      w'.mem = w.mem ∧ 2 * w'.calls.length = 2 * w.calls.length + count * (count - 1) := by
  induction fuel generalizing w count with
  | zero => omega
  | succ fuel ih =>
    by_cases hsmall : count ≤ 1
    · refine ⟨w, if_pos hsmall, rfl, ?_⟩
      obtain rfl | rfl : count = 0 ∨ count = 1 := by omega
      · rfl
      · rfl
    · obtain ⟨m, rfl⟩ : ∃ m, count = m + 1 := ⟨count - 1, by omega⟩
      obtain ⟨w₁, hloop, hmem⟩ := partitionLoop_sorted hsize hans hm (by omega : m < n)
        (fun i hi => hless i m hi (Nat.lt_succ_self m)) (Nat.zero_le m)
        (by omega : m - 0 < m + 1)
      have hfirst := (partitionLoop_calls hsize (Nat.le_refl 0) (Nat.zero_le m) hloop).1
      simp only [Nat.zero_mul, Nat.add_zero] at hloop
      obtain ⟨w₂, hleft, hmem₂, hcalls⟩ := ih (w := w₁) (hmem ▸ hans) (hmem ▸ hm)
        (fun i j hij hj => hless i j hij (Nat.lt_succ_of_lt hj)) (by omega) (by omega)
      have hrest : m + 1 - m - 1 = 0 := by omega
      obtain ⟨g, rfl⟩ : ∃ g, fuel = g + 1 := ⟨fuel - 1, by omega⟩
      refine ⟨w₂, ?_, hmem₂.trans hmem, ?_⟩
      · rw [qsortRec, if_neg hsmall]
        dsimp only
        rw [Nat.add_sub_cancel, hloop, Option.bind_some, swap_same, Option.bind_some,
          left_count hsize, hleft, Option.bind_some, hrest]
        exact if_pos (Nat.zero_le 1)
      · rw [Nat.add_sub_cancel, pairs_succ]
        omega

/-- `qsort` asks about no more than all pairs of places, whatever the comparator answers. Where
each element is less than those behind it, it asks as often as that and moves nothing. -/
theorem qsort_questions {σ : Type u} (comp : σ → Mem → Nat → Nat → Int × σ) (mem : Mem)
    (state : σ) (arr count size : Nat) (hsize : 0 < size) (f : Nat → List UInt8)
    (harr : Holds mem arr size count f) :
    ∃ w', qsort comp size ⟨mem, state, []⟩ arr count = some w' ∧
      2 * w'.calls.length ≤ count * (count - 1) ∧
      ∀ cmp, Answers comp mem arr size count cmp →
        (∀ i j, i < j → j < count → cmp (f i) (f j) < 0) →
        w'.mem = mem ∧ 2 * w'.calls.length = count * (count - 1) := by
  have hstart : arr + 0 * size = arr := by rw [Nat.zero_mul, Nat.add_zero]
  have hcalls : AsksElements arr size count (World.mk mem state []) := by
    intro c hc
    cases hc
  obtain ⟨w', _, hsort, _⟩ := qsortRec_spec comp hsize
    (show Holds (World.mk mem state []).mem arr size count f from harr) hcalls
    (by omega : 0 + count ≤ count) (Nat.lt_succ_self count)
  rw [hstart] at hsort
  have hbound := qsortRec_calls hsize hsort
  rw [List.length_nil, Nat.mul_zero, Nat.zero_add] at hbound
  refine ⟨w', hsort, hbound, fun cmp hans hless => ?_⟩
  obtain ⟨w'', hsort', hmem, hexact⟩ := qsortRec_sorted (w := World.mk mem state []) hsize hans
    harr hless (Nat.le_refl count) (Nat.lt_succ_self count)
  rw [List.length_nil, Nat.mul_zero, Nat.zero_add] at hexact
  obtain rfl := Option.some.inj (hsort.symm.trans hsort')
  exact ⟨hmem, hexact⟩

/-- Four elements of one byte at 16, in order. -/
def orderly : Mem := fun a => if a < 16 then none else [2, 3, 5, 7][a - 16]?

def orderlyElement (i : Nat) : List UInt8 := [[2, 3, 5, 7].getD i 0]

theorem qsort_questions_four : ∃ w', qsort (reads 1 ArraySort.compareFirst) 1 ⟨orderly, (), []⟩ 16
    4 = some w' ∧ w'.mem = orderly ∧ w'.calls.length = 6 := by
  have harr : Holds orderly 16 1 4 orderlyElement := by
    intro i hi
    revert i
    decide
  have hless : ∀ i j, i < j → j < 4 →
      ArraySort.compareFirst (orderlyElement i) (orderlyElement j) < 0 := by
    intro i j hij hj
    revert i
    revert j
    decide
  obtain ⟨w', hsort, _, hexact⟩ := qsort_questions (reads 1 ArraySort.compareFirst) orderly () 16 4
    1 (by decide) orderlyElement harr
  obtain ⟨hmem, hcalls⟩ := hexact _ (answers_reads orderly 16 1 4 ArraySort.compareFirst) hless
  exact ⟨w', hsort, hmem, by omega⟩

end Sorting

section Searching

variable {key : Nat}

theorem size_half {d : Nat} (h : 0 < d) : Nat.size d = Nat.size (d / 2) + 1 := by
  apply Nat.le_antisymm
  · have hhalf := Nat.lt_size_self (d / 2)
    rw [Nat.size_le, Nat.pow_succ]
    omega
  · obtain ⟨s, hs⟩ : ∃ s, Nat.size d = s + 1 := ⟨Nat.size d - 1, by
      have hpos := Nat.size_pos.mpr h
      omega⟩
    have hd := Nat.lt_size_self d
    rw [hs, Nat.pow_succ] at hd
    rw [hs, Nat.succ_le_succ_iff, Nat.size_le]
    omega

/-- At most half of what is left is left after a question, whatever the answer. -/
theorem bsearchLoop_questions {fuel min max : Nat} (hfuel : max - min < fuel) :
    ∃ r, bsearchLoop comp size key arr fuel w min max = some r ∧
      r.2.calls.length ≤ w.calls.length + Nat.size (max - min) := by
  induction fuel generalizing w min max with
  | zero => omega
  | succ fuel ih =>
    rw [bsearchLoop]
    split
    · next hlt =>
      obtain ⟨mid, hmid⟩ : ∃ mid, (max - min) / 2 + min = mid := ⟨_, rfl⟩
      have hsize := size_half (Nat.sub_pos_of_lt hlt)
      have hasked : (ask comp w (arr + mid * size) key).2.calls.length = w.calls.length + 1 := rfl
      simp only [hmid]
      generalize ask comp w (arr + mid * size) key = q at hasked
      split
      · obtain ⟨r, hr, hcalls⟩ := ih (w := q.2) (by omega : max - (mid + 1) < fuel)
        have hhalf : Nat.size (max - (mid + 1)) ≤ Nat.size ((max - min) / 2) :=
          Nat.size_le_size (by omega)
        exact ⟨r, hr, by omega⟩
      split
      · obtain ⟨r, hr, hcalls⟩ := ih (w := q.2) (by omega : mid - min < fuel)
        have hhalf : Nat.size (mid - min) ≤ Nat.size ((max - min) / 2) :=
          Nat.size_le_size (by omega)
        exact ⟨r, hr, by omega⟩
      · refine ⟨_, rfl, ?_⟩
        change q.2.calls.length ≤ _
        omega
    · exact ⟨_, rfl, Nat.le_add_right _ _⟩

/-- A key in front of all elements is the dearest. -/
theorem bsearchLoop_before {fuel max : Nat} {r : Option Nat × World σ}
    (hbefore : ∀ s i, i < n → 0 < (comp s w.mem (arr + i * size) key).1) (hmax : max ≤ n)
    (h : bsearchLoop comp size key arr fuel w 0 max = some r) :
    r.1 = none ∧ r.2.calls.length = w.calls.length + Nat.size max := by
  induction fuel generalizing w max with
  | zero => cases h
  | succ fuel ih =>
    rw [bsearchLoop] at h
    split at h
    · next hlt =>
      have hpos : 0 < (ask comp w (arr + max / 2 * size) key).1 :=
        hbefore w.state (max / 2) (by omega)
      simp only [Nat.sub_zero, Nat.add_zero, if_neg (Int.not_lt.mpr hpos.le), if_pos hpos] at h
      obtain ⟨hnone, hcalls⟩ := ih (w := (ask comp w (arr + max / 2 * size) key).2) hbefore
        (by omega) h
      rw [ask_calls, List.length_cons] at hcalls
      rw [size_half hlt]
      exact ⟨hnone, by omega⟩
    · next hle =>
      obtain rfl := Option.some.inj h
      obtain rfl : max = 0 := by omega
      exact ⟨rfl, rfl⟩

/-- `bsearch` asks no more often than the number of elements has binary digits, whatever the
comparator answers. For a key in front of all elements it asks as often as that. -/
theorem bsearch_questions {σ : Type u} (comp : σ → Mem → Nat → Nat → Int × σ) (mem : Mem)
    (state : σ) (key arr count size : Nat) :
    ∃ r, bsearch comp size ⟨mem, state, []⟩ key arr count = some r ∧
      r.2.calls.length ≤ Nat.size count ∧
      ((∀ s i, i < count → 0 < (comp s mem (arr + i * size) key).1) →
        r.1 = none ∧ r.2.calls.length = Nat.size count) := by
  let w₀ : World σ := ⟨mem, state, []⟩
  obtain ⟨r, hr, hcalls⟩ : ∃ r, bsearchLoop comp size key arr (count + 1) w₀ 0 count = some r ∧
      r.2.calls.length ≤ w₀.calls.length + Nat.size (count - 0) :=
    bsearchLoop_questions (by omega)
  rw [List.length_nil, Nat.zero_add, Nat.sub_zero] at hcalls
  refine ⟨r, hr, hcalls, fun hbefore => ?_⟩
  have hexact := bsearchLoop_before hbefore (Nat.le_refl count) hr
  rwa [List.length_nil, Nat.zero_add] at hexact

end Searching

end ComparisonCounts
