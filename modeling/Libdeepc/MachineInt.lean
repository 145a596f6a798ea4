import Mathlib.Data.Int.Basic
import Mathlib.Tactic.Ring

/-!
# Fixed-width C integers on an LP64 target

Values of C integer types are kept as `Int` or `Nat`. Conversion to a
`w`-bit unsigned type is reduction modulo `2 ^ w`, conversion to a `w`-bit
signed type is the balanced residue, as on every two's complement target.
-/

namespace MachineInt

def intMax : Int := 2 ^ 31 - 1
def intMin : Int := -2 ^ 31
def longMax : Int := 2 ^ 63 - 1
def longMin : Int := -2 ^ 63
def ulongMax : Nat := 2 ^ 64 - 1
def sizeMax : Nat := 2 ^ 64 - 1

/-- Conversion to `uint64_t`, `size_t` or `uintmax_t`. -/
def toU64 (n : Nat) : Nat := n % 2 ^ 64

/-- Conversion of a possibly negative value to `size_t`. -/
def toSize (x : Int) : Nat := (x % (2 ^ 64 : Int)).toNat

/-- Conversion to a signed type of `w` bits. -/
def toSigned (w : Nat) (x : Int) : Int := Int.bmod x (2 ^ w)

/-- A signed `int` result: overflow is undefined, which `none` stands for. -/
def checkedInt (x : Int) : Option Int :=
  if intMin ≤ x ∧ x ≤ intMax then some x else none

/-- The values of a signed type of `w` bits. -/
def InSigned (w : Nat) (x : Int) : Prop := -2 ^ (w - 1) ≤ x ∧ x < 2 ^ (w - 1)

instance (w : Nat) (x : Int) : Decidable (InSigned w x) :=
  inferInstanceAs (Decidable (_ ∧ _))

theorem toU64_of_lt {n : Nat} (h : n < 2 ^ 64) : toU64 n = n := Nat.mod_eq_of_lt h

theorem toSize_of_nonneg {x : Int} (lo : 0 ≤ x) (hi : x < 2 ^ 64) : toSize x = x.toNat := by
  rw [toSize, Int.emod_eq_of_lt lo hi]

theorem toSigned_of_inSigned {w : Nat} (hw : 0 < w) {x : Int} (h : InSigned w x) :
    toSigned w x = x := by
  obtain ⟨lo, hi⟩ := h
  obtain ⟨k, rfl⟩ := Nat.exists_eq_succ_of_ne_zero hw.ne'
  have hpow : ((2 ^ (k + 1) : Nat) : Int) = 2 * 2 ^ k := by push_cast; ring
  simp only [Nat.succ_eq_add_one, Nat.add_sub_cancel] at lo hi
  rw [toSigned]
  apply Int.bmod_eq_of_le
  · rw [hpow]; omega
  · rw [hpow]; omega

/-- A count of type `size_t` that becomes an `int` keeps its low half. -/
theorem toSigned_count (n : Nat) : toSigned 32 (UInt64.ofNat n).toNat =
    if n % 2 ^ 32 < 2 ^ 31 then ((n % 2 ^ 32 : Nat) : Int) else (n % 2 ^ 32 : Nat) - 2 ^ 32 := by
  have hmod : ((n % 2 ^ 64 : Nat) : Int) % (2 ^ 32 : Nat) = (n % 2 ^ 32 : Nat) := by omega
  rw [UInt64.toNat_ofNat', toSigned, Int.bmod, hmod]
  split <;> split <;> omega

theorem checkedInt_of_le {x : Int} (lo : intMin ≤ x) (hi : x ≤ intMax) :
    checkedInt x = some x := if_pos ⟨lo, hi⟩

end MachineInt
