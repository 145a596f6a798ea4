import Mathlib.Data.Nat.Bitwise
import Mathlib.Data.Nat.Factorization.Basic
import Mathlib.Data.Nat.ModEq
import Mathlib.Logic.Function.Iterate
import Mathlib.Tactic.Ring

/-!
# The cycle of a masked increment

Stepping by `i ↦ (i + 1) &&& mask` from a submask of `mask` runs through the
`2 ^ k` values that differ from the start in the low `k` bits only, where `k`
is the number of trailing ones of `mask`: the increment never carries into the
first zero bit. `mask + 1 = 2 ^ k * m` with `m` odd says what `k` is.
-/

namespace MaskedCycle

def next (mask i : Nat) : Nat := (i + 1) &&& mask

/-- The index reached after `d` steps. -/
def probe (mask start d : Nat) : Nat := (next mask)^[d] start

theorem probe_zero (mask start : Nat) : probe mask start 0 = start := rfl

theorem probe_succ (mask start d : Nat) :
    probe mask start (d + 1) = next mask (probe mask start d) :=
  Function.iterate_succ_apply' (next mask) d start

theorem land_mask_eq {mask k t : Nat} (hm : mask + 1 = 2 ^ k * (2 * t + 1)) (x : Nat) :
    x &&& mask = 2 ^ k * (x / 2 ^ k &&& 2 * t) + x % 2 ^ k := by
  have hpos : 0 < 2 ^ k := Nat.two_pow_pos k
  have hmask : mask = (2 ^ k - 1) + 2 ^ k * (2 * t) := by
    have : 2 ^ k * (2 * t + 1) = 2 ^ k * (2 * t) + 2 ^ k := by ring
    omega
  have hdiv : mask / 2 ^ k = 2 * t := by
    rw [hmask, Nat.add_mul_div_left _ _ hpos, Nat.div_eq_of_lt (by omega)]
    omega
  have hmod : mask % 2 ^ k = 2 ^ k - 1 := by
    rw [hmask, Nat.add_mul_mod_self_left, Nat.mod_eq_of_lt (by omega)]
  calc x &&& mask = 2 ^ k * ((x &&& mask) / 2 ^ k) + (x &&& mask) % 2 ^ k :=
        (Nat.div_add_mod _ _).symm
    _ = 2 ^ k * (x / 2 ^ k &&& 2 * t) + x % 2 ^ k := by
        rw [Nat.and_div_two_pow, Nat.and_mod_two_pow, hdiv, hmod,
          Nat.and_two_pow_sub_one_eq_mod, Nat.mod_mod]

theorem land_mask_le (x mask : Nat) : x &&& mask ≤ mask := Nat.and_le_right

theorem land_land_mask (x mask : Nat) : (x &&& mask) &&& mask = x &&& mask := by
  rw [Nat.land_assoc, Nat.and_self]

theorem succ_land_even {h : Nat} (t : Nat) (hh : h % 2 = 0) :
    (h + 1) &&& 2 * t = h &&& 2 * t := by
  apply Nat.eq_of_testBit_eq
  intro i
  cases i with
  | zero => simp [Nat.testBit_zero]
  | succ i =>
    have hdiv : (h + 1) / 2 = h / 2 := by omega
    rw [Nat.testBit_and, Nat.testBit_and, Nat.testBit_succ, Nat.testBit_succ h, hdiv]

/-- From a submask of `mask` the low `k` bits count and the others stay. -/
theorem next_eq {mask k t i : Nat} (hm : mask + 1 = 2 ^ k * (2 * t + 1))
    (hi : i &&& mask = i) :
    next mask i = 2 ^ k * (i / 2 ^ k) + (i % 2 ^ k + 1) % 2 ^ k := by
  have hpos : 0 < 2 ^ k := Nat.two_pow_pos k
  have hhigh : i / 2 ^ k &&& 2 * t = i / 2 ^ k := by
    have hland := land_mask_eq hm i
    have hsplit := Nat.div_add_mod i (2 ^ k)
    have hmul : 2 ^ k * (i / 2 ^ k &&& 2 * t) = 2 ^ k * (i / 2 ^ k) := by omega
    exact Nat.eq_of_mul_eq_mul_left hpos hmul
  have heven : i / 2 ^ k % 2 = 0 := by
    have hmod : (i / 2 ^ k &&& 2 * t) % 2 ^ 1 = i / 2 ^ k % 2 ^ 1 := by rw [hhigh]
    rw [Nat.and_mod_two_pow] at hmod
    simpa using hmod.symm
  have hsplit := Nat.div_add_mod i (2 ^ k)
  have hlow := Nat.mod_lt i hpos
  rw [next, land_mask_eq hm]
  by_cases hcarry : i % 2 ^ k + 1 = 2 ^ k
  · have hi1 : i + 1 = 2 ^ k * (i / 2 ^ k + 1) := by
      have : 2 ^ k * (i / 2 ^ k + 1) = 2 ^ k * (i / 2 ^ k) + 2 ^ k := by ring
      omega
    rw [hi1, Nat.mul_div_cancel_left _ hpos, succ_land_even t heven, hhigh,
      Nat.mul_mod_right, hcarry, Nat.mod_self]
  · have hi1 : i + 1 = (i % 2 ^ k + 1) + 2 ^ k * (i / 2 ^ k) := by omega
    have hdiv : (i + 1) / 2 ^ k = i / 2 ^ k := by
      rw [hi1, Nat.add_mul_div_left _ _ hpos, Nat.div_eq_of_lt (by omega), Nat.zero_add]
    have hmod : (i + 1) % 2 ^ k = i % 2 ^ k + 1 := by
      conv_lhs => rw [hi1]
      rw [Nat.add_mul_mod_self_left, Nat.mod_eq_of_lt (by omega)]
    rw [hdiv, hhigh, hmod, Nat.mod_eq_of_lt (by omega : i % 2 ^ k + 1 < 2 ^ k)]

section Cycle

variable {mask k t start : Nat}

theorem probe_submask (hs : start &&& mask = start) (d : Nat) :
    probe mask start d &&& mask = probe mask start d := by
  cases d with
  | zero => exact hs
  | succ d => rw [probe_succ, next, land_land_mask]

theorem probe_le (hs : start &&& mask = start) (d : Nat) : probe mask start d ≤ mask := by
  rw [← probe_submask hs d]
  exact land_mask_le _ _

theorem probe_eq (hm : mask + 1 = 2 ^ k * (2 * t + 1)) (hs : start &&& mask = start) (d : Nat) :
    probe mask start d = 2 ^ k * (start / 2 ^ k) + (start % 2 ^ k + d) % 2 ^ k := by
  have hpos : 0 < 2 ^ k := Nat.two_pow_pos k
  induction d with
  | zero =>
    rw [probe_zero, Nat.add_zero, Nat.mod_mod, Nat.div_add_mod]
  | succ d ih =>
    have hlow := Nat.mod_lt (start % 2 ^ k + d) hpos
    have hdiv : probe mask start d / 2 ^ k = start / 2 ^ k := by
      rw [ih, Nat.mul_add_div hpos, Nat.div_eq_of_lt hlow, Nat.add_zero]
    have hmod : probe mask start d % 2 ^ k = (start % 2 ^ k + d) % 2 ^ k := by
      rw [ih, Nat.mul_add_mod, Nat.mod_mod]
    rw [probe_succ, next_eq hm (probe_submask hs d), hdiv, hmod, Nat.mod_add_mod]
    rfl

/-- The walk is back at its start after `2 ^ k` steps. -/
theorem probe_period (hm : mask + 1 = 2 ^ k * (2 * t + 1)) (hs : start &&& mask = start) :
    probe mask start (2 ^ k) = start := by
  rw [probe_eq hm hs, Nat.add_mod_right, Nat.mod_mod, Nat.div_add_mod]

/-- And it meets no index twice before that. -/
theorem probe_injective (hm : mask + 1 = 2 ^ k * (2 * t + 1)) (hs : start &&& mask = start)
    {d e : Nat} (hd : d < 2 ^ k) (he : e < 2 ^ k)
    (h : probe mask start d = probe mask start e) : d = e := by
  rw [probe_eq hm hs, probe_eq hm hs] at h
  have hmod : (start % 2 ^ k + d) % 2 ^ k = (start % 2 ^ k + e) % 2 ^ k := by omega
  have hcancel : d % 2 ^ k = e % 2 ^ k :=
    Nat.ModEq.add_left_cancel (Nat.ModEq.refl (start % 2 ^ k)) hmod
  rwa [Nat.mod_eq_of_lt hd, Nat.mod_eq_of_lt he] at hcancel

theorem probe_mod (hm : mask + 1 = 2 ^ k * (2 * t + 1)) (hs : start &&& mask = start) (d : Nat) :
    probe mask start (d % 2 ^ k) = probe mask start d := by
  rw [probe_eq hm hs, probe_eq hm hs, Nat.add_mod_mod]

/-- A mask of the form `2 ^ k - 1` is walked through completely. -/
theorem exists_probe_eq (hm : mask + 1 = 2 ^ k) {start i : Nat} (hs : start ≤ mask)
    (hi : i ≤ mask) : ∃ d, d < 2 ^ k ∧ probe mask start d = i := by
  have hm' : mask + 1 = 2 ^ k * (2 * 0 + 1) := by omega
  have hland : start &&& mask = start := by
    have hmask : mask = 2 ^ k - 1 := by omega
    rw [hmask, Nat.and_two_pow_sub_one_eq_mod, Nat.mod_eq_of_lt (by omega)]
  have hpos : 0 < 2 ^ k := Nat.two_pow_pos k
  refine ⟨(i + 2 ^ k - start) % 2 ^ k, Nat.mod_lt _ hpos, ?_⟩
  rw [probe_mod hm' hland, probe_eq hm' hland, Nat.div_eq_of_lt (by omega : start < 2 ^ k),
    Nat.mod_eq_of_lt (by omega : start < 2 ^ k)]
  have hsum : start + (i + 2 ^ k - start) = i + 2 ^ k := by omega
  rw [hsum, Nat.add_mod_right, Nat.mod_eq_of_lt (by omega)]
  omega

end Cycle

/-- Every mask has a number of trailing ones. -/
theorem exists_trailingOnes (mask : Nat) : ∃ k t, mask + 1 = 2 ^ k * (2 * t + 1) := by
  obtain ⟨k, m, hodd, h⟩ := Nat.exists_eq_two_pow_mul_odd (Nat.succ_ne_zero mask)
  obtain ⟨t, rfl⟩ := hodd
  exact ⟨k, t, h⟩

end MaskedCycle
