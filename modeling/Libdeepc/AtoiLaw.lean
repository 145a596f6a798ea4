import Libdeepc.StrtolLaw

/-!
# The atoi family

`atoi`, `atol` and `atoll` share their readers with the strtol family and differ
from it in the front end and in what becomes of a number out of range.
-/

namespace AtoiLaw

open CString MachineInt NumberParsing StrtolLaw

variable {s : List UInt8} {width pos neg : Nat} {errno : Int}

/-- In base 10 the digits follow the sign. -/
theorem magnitude_ten (s : List UInt8) : (subject s 10).base = 10 ∧
    Numerals.value 10 (digitRun 10 (dropSign (s.dropWhile isSpaceByte))) =
      (subject s 10).magnitude := by
  have hten : ¬((10 = 0 ∨ 10 = 16) ∧ hexPrefixed (dropSign (s.dropWhile isSpaceByte))) := by
    rintro ⟨h | h, _⟩ <;> cases h
  refine ⟨rfl, ?_⟩
  simp [Subject.magnitude, subject, subjectBase]

theorem atoiBody_eq (hwidth : 0 < width) (hwide : width ≤ 64) (hpos : pos < 2 ^ (width - 1))
    (hneg : neg ≤ 2 ^ (width - 1)) (h : Terminated s) :
    atoiBody width pos (-(neg : Int)) s errno =
      let v := (subject s 10).exact
      some ⟨if -(neg : Int) ≤ v ∧ v ≤ pos then v else 0, errno⟩ := by
  have hterm : Terminated (dropSign (s.dropWhile isSpaceByte)) :=
    terminated_dropSign (terminated_dropWhile (by decide) h)
  have hhalf : 2 ^ (width - 1) ≤ 2 ^ 63 := Nat.pow_le_pow_right (by decide) (by omega)
  have hfits : ∀ x : Int, -(2 ^ (width - 1) : Nat) ≤ x → x < (2 ^ (width - 1) : Nat) →
      toSigned width x = x := by
    intro x hlo hhi
    push_cast at hlo hhi
    exact toSigned_of_inSigned hwidth ⟨hlo, hhi⟩
  obtain ⟨hbase, hval⟩ := magnitude_ten s
  rw [← hbase] at hval
  have hbounds : 2 ≤ (subject s 10).base ∧ (subject s 10).base ≤ 36 := by omega
  have hup := readPosInt_subject hterm hbounds hval (by omega : pos < 2 ^ 64)
  have hdown := readNegInt_subject hterm hbounds hval (by omega : neg ≤ 2 ^ 63)
  rw [hbase, Nat.cast_ofNat] at hup hdown
  have hstart := atoiStart_eq h
  rw [show isNegative (s.dropWhile isSpaceByte) = (subject s 10).negative from rfl] at hstart
  simp only [atoiBody, hstart, Option.bind_eq_bind, Option.bind_some, Subject.exact]
  by_cases hsign : (subject s 10).negative = true
  · simp only [hsign, reduceCtorEq, if_false, if_true, hdown, Option.bind_some, decide_eq_true_eq]
    by_cases hle : (subject s 10).magnitude ≤ neg
    · rw [if_neg (by omega), if_pos hle, if_pos (by omega), hfits _ (by omega) (by omega)]
    · rw [if_pos (by omega), if_neg (by omega)]
  · rw [Bool.not_eq_true] at hsign
    simp only [hsign, Bool.false_eq_true, if_false, if_true, Int.toNat_natCast, hup,
      Option.bind_some, decide_eq_true_eq]
    by_cases hle : (subject s 10).magnitude ≤ pos
    · rw [if_neg (by omega), if_pos hle, if_pos (by omega), hfits _ (by omega) (by omega)]
    · rw [if_pos (by omega), if_neg (by omega)]

/-- What a member of the family makes of the number `strtoll` reads: the number itself where its
type holds it, 0 elsewhere, and `errno` as it was. -/
def ExactOrZero (f : List UInt8 → Int → Option AtoiResult) (max min : Int) : Prop :=
  ∀ s errno, Terminated s → ∃ r, strtoll s 10 errno = some r ∧
    let v := (subject s 10).exact
    r.value = clamp longMax longMin v ∧
      f s errno = some ⟨if min ≤ v ∧ v ≤ max then v else 0, errno⟩

theorem atoiBody_law (pos neg : Nat) (hwidth : 0 < width) (hwide : width ≤ 64)
    (hpos : pos < 2 ^ (width - 1)) (hneg : neg ≤ 2 ^ (width - 1)) :
    ExactOrZero (atoiBody width pos (-(neg : Int))) pos (-neg) := by
  intro s errno h
  have hlaw : SignedLaw strtoll longMax longMin :=
    strtolBody_law (by decide : 2 ^ 63 - 1 < 2 ^ 63) (le_refl (2 ^ 63))
  obtain ⟨r, hr, _, hvalid⟩ := hlaw s 10 errno h
  have hten : ¬InvalidBase 10 := by
    rw [InvalidBase]
    omega
  exact ⟨r, hr, (hvalid hten).1, atoiBody_eq hwidth hwide hpos hneg h⟩

/-- `atoi`, `atol` and `atoll` are the exact number that `strtoll` reads in base 10, or 0. -/
theorem atoi_family_law :
    ExactOrZero atoi intMax intMin ∧ ExactOrZero atol longMax longMin ∧
      ExactOrZero atoll longMax longMin := by
  have hint : ExactOrZero (atoiBody 32 intMax intMin) intMax intMin :=
    atoiBody_law (2 ^ 31 - 1) (2 ^ 31) (by decide) (by decide) (by decide) (by decide)
  have hlong : ExactOrZero (atoiBody 64 longMax longMin) longMax longMin :=
    atoiBody_law (2 ^ 63 - 1) (2 ^ 63) (by decide) (by decide) (by decide) (by decide)
  exact ⟨hint, hlong, hlong⟩

/-- `"-2147483648"` and `"2147483648"`. -/
theorem atoi_family_law_limits :
    atoi [45, 50, 49, 52, 55, 52, 56, 51, 54, 52, 56, 0] 7 = some ⟨intMin, 7⟩ ∧
      atoi [50, 49, 52, 55, 52, 56, 51, 54, 52, 56, 0] 7 = some ⟨0, 7⟩ := by
  obtain ⟨_, _, _, hmin⟩ := atoi_family_law.1 [45, 50, 49, 52, 55, 52, 56, 51, 54, 52, 56, 0] 7
    (by decide)
  obtain ⟨_, _, _, hbeyond⟩ := atoi_family_law.1 [50, 49, 52, 55, 52, 56, 51, 54, 52, 56, 0] 7
    (by decide)
  exact ⟨hmin.trans rfl, hbeyond.trans rfl⟩

end AtoiLaw
