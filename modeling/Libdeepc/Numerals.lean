import Mathlib.Data.Nat.Digits.Lemmas
import Mathlib.Tactic.Ring

/-!
# Positional numerals, most significant digit first

`value` reads a digit sequence the way an accumulating reader does, and
`numeral` writes a number by repeated division. The cut-off test at the end is
the one that compares the accumulator with `max / b` and the next digit with
`max % b`: it is exactly the test that the next value stays within `max`.
-/

namespace Numerals

/-- Continue reading digits from the accumulator `n`. -/
def accumulate (b n : Nat) (ds : List Nat) : Nat :=
  ds.foldl (fun n d => n * b + d) n

def value (b : Nat) (ds : List Nat) : Nat := accumulate b 0 ds

def numeral (b n : Nat) : List Nat := (Nat.digits b n).reverse

@[simp] theorem accumulate_nil (b n : Nat) : accumulate b n [] = n := rfl

@[simp] theorem accumulate_cons (b n d : Nat) (ds : List Nat) :
    accumulate b n (d :: ds) = accumulate b (n * b + d) ds := rfl

@[simp] theorem accumulate_append (b n : Nat) (ds es : List Nat) :
    accumulate b n (ds ++ es) = accumulate b (accumulate b n ds) es :=
  List.foldl_append

theorem le_accumulate {b : Nat} (hb : 0 < b) (n : Nat) (ds : List Nat) :
    n ≤ accumulate b n ds := by
  induction ds generalizing n with
  | nil => simp
  | cons d ds ih =>
    have hn : n ≤ n * b + d := by
      have := Nat.le_mul_of_pos_right n hb
      omega
    exact hn.trans (ih (n * b + d))

theorem value_eq_ofDigits (b : Nat) (ds : List Nat) :
    value b ds = Nat.ofDigits b ds.reverse := by
  rw [Nat.ofDigits_eq_foldr, List.foldr_reverse, value, accumulate]
  congr 1
  funext n d
  push_cast
  ring

@[simp] theorem value_numeral (b n : Nat) : value b (numeral b n) = n := by
  rw [value_eq_ofDigits, numeral, List.reverse_reverse, Nat.ofDigits_digits]

@[simp] theorem accumulate_zeros (b k : Nat) :
    accumulate b 0 (List.replicate k 0) = 0 := by
  induction k with
  | zero => rfl
  | succ k ih => simpa [List.replicate_succ] using ih

/-- Leading zeros do not change what a numeral denotes. -/
theorem value_leadingZeros (b k : Nat) (ds : List Nat) :
    value b (List.replicate k 0 ++ ds) = value b ds := by simp [value]

theorem numeral_lt_base {b n d : Nat} (hb : 1 < b) (hd : d ∈ numeral b n) : d < b :=
  Nat.digits_lt_base hb (List.mem_reverse.mp hd)

theorem numeral_zero (b : Nat) : numeral b 0 = [] := by simp [numeral]

theorem numeral_eq_concat {b n : Nat} (hb : 1 < b) (hn : n ≠ 0) :
    numeral b n = numeral b (n / b) ++ [n % b] := by
  rw [numeral, Nat.digits_def' hb (Nat.pos_of_ne_zero hn), List.reverse_cons, numeral]

theorem numeral_length_le {b n k : Nat} (hb : 1 < b) (h : n < b ^ k) :
    (numeral b n).length ≤ k := by
  rw [numeral, List.length_reverse]
  exact (Nat.digits_length_le_iff hb n).mpr h

theorem numeral_eq_nil_iff {b n : Nat} : numeral b n = [] ↔ n = 0 := by
  rw [numeral, List.reverse_eq_nil_iff, Nat.digits_eq_nil_iff_eq_zero]

/-- Comparing with quotient and remainder of the limit, as an accumulating
reader does before it takes the digit `d`, is comparing the next value. -/
theorem cutoff_iff {b d : Nat} (hd : d < b) (max n : Nat) :
    (n < max / b ∨ n = max / b ∧ d ≤ max % b) ↔ n * b + d ≤ max := by
  have hmax := Nat.div_add_mod max b
  constructor
  · rintro (hlt | ⟨rfl, hle⟩)
    · have hstep : (n + 1) * b ≤ max / b * b := Nat.mul_le_mul_right b hlt
      rw [Nat.mul_comm (max / b) b] at hstep
      have hexpand : (n + 1) * b = n * b + b := by ring
      omega
    · rw [Nat.mul_comm]
      omega
  · intro h
    have hle : n ≤ max / b :=
      (Nat.le_div_iff_mul_le (by omega)).mpr (by omega)
    rcases Nat.lt_or_eq_of_le hle with hlt | heq
    · exact Or.inl hlt
    · refine Or.inr ⟨heq, ?_⟩
      rw [heq, Nat.mul_comm] at h
      omega

end Numerals
