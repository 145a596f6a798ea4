import Mathlib.Algebra.Group.Nat.Defs
import Mathlib.Data.List.TakeDrop
import Mathlib.Logic.Function.Basic

/-!
# Bytes at 64-bit addresses

Memory for code that walks with pointers: an address that cannot be accessed has
no byte, and address arithmetic wraps. What a piece of code reads is bounded by
the bytes its specification asks for, all others may be missing. What it writes is
a patch: a list of bytes laid over the memory at one place.
-/

namespace ByteMemory

abbrev Mem := UInt64 → Option UInt8

/-- `*p = b` -/
def put (mem : Mem) (p : UInt64) (b : UInt8) : Option Mem :=
  (mem p).map fun _ => Function.update mem p (some b)

/-- The bytes from `p` on are these. -/
def Holds (mem : Mem) (p : UInt64) (bs : List UInt8) : Prop :=
  ∀ (i : Nat) (h : i < bs.length), mem (p + .ofNat i) = some bs[i]

/-- The `n` bytes from `p` on can be written. -/
def Accessible (mem : Mem) (p : UInt64) (n : Nat) : Prop :=
  ∀ i, i < n → (mem (p + .ofNat i)).isSome

instance (mem : Mem) (p : UInt64) (bs : List UInt8) : Decidable (Holds mem p bs) :=
  inferInstanceAs (Decidable (∀ (i : Nat) (h : i < bs.length), mem (p + .ofNat i) = some bs[i]))

instance (mem : Mem) (p : UInt64) (n : Nat) : Decidable (Accessible mem p n) :=
  inferInstanceAs (Decidable (∀ i, i < n → (mem (p + .ofNat i)).isSome))

/-- `bs` at `p`, and the rest as it was. -/
def patch (mem : Mem) (p : UInt64) (bs : List UInt8) : Mem := fun a =>
  if (a - p).toNat < bs.length then bs[(a - p).toNat]? else mem a

section Address

theorem add_ofNat_succ (p : UInt64) (i : Nat) : p + .ofNat (i + 1) = p + .ofNat i + 1 := by
  rw [UInt64.ofNat_add, ← UInt64.add_assoc]
  rfl

theorem add_ofNat_zero (p : UInt64) : p + .ofNat 0 = p := UInt64.add_zero p

theorem add_ofNat_add (p : UInt64) (i j : Nat) : p + .ofNat i + .ofNat j = p + .ofNat (i + j) := by
  rw [UInt64.ofNat_add, UInt64.add_assoc]

theorem add_one_add_ofNat (p : UInt64) (i : Nat) : p + 1 + .ofNat i = p + .ofNat (i + 1) := by
  rw [Nat.add_comm]
  exact add_ofNat_add p 1 i

theorem toNat_offset (p : UInt64) {i : Nat} (h : i < 2 ^ 64) : (p + .ofNat i - p).toNat = i := by
  rw [UInt64.add_comm, UInt64.add_sub_cancel, UInt64.toNat_ofNat', Nat.mod_eq_of_lt h]

theorem add_ofNat_toNat_sub (p a : UInt64) : p + .ofNat (a - p).toNat = a := by
  rw [UInt64.ofNat_toNat, UInt64.add_comm, UInt64.sub_add_cancel]

theorem add_ofNat_inj {p : UInt64} {i j : Nat} (hi : i < 2 ^ 64) (hj : j < 2 ^ 64)
    (h : p + .ofNat i = p + .ofNat j) : i = j := by
  rw [← toNat_offset p hi, h, toNat_offset p hj]

/-- Below the end of the address space nothing wraps. -/
theorem toNat_add_ofNat {p : UInt64} {i : Nat} (h : p.toNat + i < 2 ^ 64) :
    (p + .ofNat i).toNat = p.toNat + i := by
  rw [UInt64.toNat_add, UInt64.toNat_ofNat', Nat.mod_eq_of_lt (by omega : i < 2 ^ 64),
    Nat.mod_eq_of_lt h]

end Address

variable {mem mem' : Mem} {p q : UInt64} {b : UInt8} {bs cs : List UInt8} {n : Nat}

section Holds

theorem holds_append : Holds mem p (bs ++ cs) ↔
    Holds mem p bs ∧ Holds mem (p + .ofNat bs.length) cs := by
  constructor
  · intro h
    constructor
    · intro i hi
      rw [h i (by rw [List.length_append]; omega), List.getElem_append_left hi]
    · intro i hi
      rw [add_ofNat_add, h _ (by rw [List.length_append]; omega),
        List.getElem_append_right (Nat.le_add_right ..)]
      simp only [Nat.add_sub_cancel_left]
  · rintro ⟨hb, hc⟩ i hi
    rw [List.length_append] at hi
    by_cases hlt : i < bs.length
    · rw [hb i hlt, List.getElem_append_left hlt]
    · obtain ⟨j, rfl⟩ := Nat.exists_eq_add_of_le (Nat.not_lt.mp hlt)
      rw [← add_ofNat_add, hc j (by omega), List.getElem_append_right (by omega)]
      simp only [Nat.add_sub_cancel_left]

theorem holds_singleton : Holds mem p [b] ↔ mem p = some b := by
  constructor
  · intro h
    have hbyte := h 0 Nat.one_pos
    rwa [add_ofNat_zero] at hbyte
  · intro h i hi
    obtain rfl : i = 0 := Nat.lt_one_iff.mp hi
    rw [add_ofNat_zero, h]
    rfl

theorem holds_cons : Holds mem p (b :: bs) ↔ mem p = some b ∧ Holds mem (p + 1) bs := by
  rw [← List.singleton_append, holds_append, holds_singleton]
  rfl

theorem Holds.upTo (h : Holds mem p (bs ++ b :: cs)) : Holds mem p (bs ++ [b]) := by
  rw [List.append_cons] at h
  exact (holds_append.mp h).1

theorem Holds.take (h : Holds mem p bs) (n : Nat) : Holds mem p (bs.take n) := by
  rw [← List.take_append_drop n bs, holds_append] at h
  exact h.1

theorem Holds.congr (h : Holds mem p bs)
    (hsame : ∀ i, i < bs.length → mem' (p + .ofNat i) = mem (p + .ofNat i)) : Holds mem' p bs :=
  fun i hi => (hsame i hi).trans (h i hi)

theorem Holds.accessible (h : Holds mem p bs) : Accessible mem p bs.length := fun i hi => by
  rw [h i hi]
  rfl

/-- Two lists at one place are the same as far as both go. -/
theorem Holds.unique (h : Holds mem p bs) (h' : Holds mem p cs) (hlen : bs.length = cs.length) :
    bs = cs := by
  refine List.ext_getElem hlen fun i hi hi' => ?_
  exact Option.some.inj ((h i hi).symm.trans (h' i hi'))

end Holds

section Patch

theorem patch_nil (mem : Mem) (p : UInt64) : patch mem p [] = mem := rfl

theorem patch_inside {i : Nat} (hi : i < bs.length) (hlen : bs.length ≤ 2 ^ 64) :
    patch mem p bs (p + .ofNat i) = some bs[i] := by
  rw [patch, toNat_offset p (by omega), if_pos hi, List.getElem?_eq_getElem hi]

theorem patch_outside {a : UInt64} (h : ∀ i, i < bs.length → a ≠ p + .ofNat i) :
    patch mem p bs a = mem a := by
  apply if_neg
  intro hlt
  apply h _ hlt
  rw [add_ofNat_toNat_sub]

/-- A patch takes no byte away. -/
theorem isSome_patch (p : UInt64) (bs : List UInt8) {a : UInt64} (h : (mem a).isSome) :
    (patch mem p bs a).isSome := by
  rw [patch]
  split
  · next hlt =>
    rw [List.getElem?_eq_getElem hlt]
    rfl
  · exact h

theorem holds_patch (mem : Mem) (p : UInt64) (hlen : bs.length ≤ 2 ^ 64) :
    Holds (patch mem p bs) p bs := fun _ hi => patch_inside hi hlen

/-- One more byte behind the patch. -/
theorem put_patch (mem : Mem) (p : UInt64) (bs : List UInt8) (b : UInt8)
    (hlen : bs.length < 2 ^ 64) (h : (mem (p + .ofNat bs.length)).isSome) :
    put (patch mem p bs) (p + .ofNat bs.length) b = some (patch mem p (bs ++ [b])) := by
  obtain ⟨c, hc⟩ := Option.isSome_iff_exists.mp h
  have hat : patch mem p bs (p + .ofNat bs.length) = some c := by
    rw [patch, toNat_offset p hlen, if_neg (Nat.lt_irrefl _), hc]
  rw [put, hat, Option.map_some]
  refine congrArg some (funext fun a => ?_)
  rw [Function.update_apply, patch, patch, List.length_append, List.length_singleton]
  by_cases ha : a = p + .ofNat bs.length
  · rw [if_pos ha, ha, toNat_offset p hlen, if_pos (Nat.lt_succ_self _),
      List.getElem?_concat_length]
  · have hne : (a - p).toNat ≠ bs.length := by
      intro heq
      rw [← heq, add_ofNat_toNat_sub] at ha
      exact ha rfl
    rw [if_neg ha]
    by_cases hlt : (a - p).toNat < bs.length
    · rw [if_pos hlt, if_pos (Nat.lt_succ_of_lt hlt), List.getElem?_append_left hlt]
    · rw [if_neg hlt, if_neg (by omega)]

/-- One more byte in front of the patch. -/
theorem put_patch_front (hlen : bs.length + 1 < 2 ^ 64) (h : (mem p).isSome) :
    put (patch mem (p + 1) bs) p b = some (patch mem p (b :: bs)) := by
  obtain ⟨c, hc⟩ := Option.isSome_iff_exists.mp h
  have hfront : ∀ i, i < bs.length → p ≠ p + 1 + .ofNat i := by
    intro i hi heq
    have hzero : p + .ofNat 0 = p + .ofNat (i + 1) := by
      rwa [add_ofNat_zero, Nat.add_comm, ← add_ofNat_add]
    exact absurd (add_ofNat_inj (by omega) (by omega) hzero) (Nat.succ_ne_zero i).symm
  rw [put, patch_outside hfront, hc, Option.map_some]
  refine congrArg some (funext fun a => ?_)
  rw [Function.update_apply]
  by_cases ha : a = p
  · rw [if_pos ha, ha, patch, UInt64.sub_self]
    rfl
  · obtain ⟨i, hi, rfl⟩ : ∃ i, i < 2 ^ 64 ∧ a = p + .ofNat i :=
      ⟨(a - p).toNat, (a - p).toNat_lt, (add_ofNat_toNat_sub p a).symm⟩
    obtain ⟨i, rfl⟩ := Nat.exists_eq_succ_of_ne_zero (n := i) (by
      rintro rfl
      exact ha (add_ofNat_zero p))
    rw [if_neg ha, patch, patch, toNat_offset p hi, Nat.succ_eq_add_one, Nat.add_comm i 1,
      ← add_ofNat_add, show UInt64.ofNat 1 = 1 from rfl, toNat_offset (p + 1) (by omega),
      List.length_cons, Nat.add_comm 1 i, List.getElem?_cons_succ]
    simp only [Nat.add_lt_add_iff_right]

end Patch

section Text

/-- The text `t` and the NUL behind it stand at `p`, not at the null address. -/
structure TextAt (mem : Mem) (p : UInt64) (t : List UInt8) : Prop where
  nonnull : p ≠ 0
  inSpace : p.toNat + t.length < 2 ^ 64
  holds : Holds mem p (t ++ [0])
  noZero : 0 ∉ t

variable {t : List UInt8}

theorem TextAt.length_lt (h : TextAt mem p t) : t.length + 1 < 2 ^ 64 := by
  have hpos : p.toNat ≠ 0 := fun hzero => h.nonnull (UInt64.toNat_inj.mp hzero)
  have hspace := h.inSpace
  omega

theorem TextAt.text (h : TextAt mem p t) : Holds mem p t := (holds_append.mp h.holds).1

theorem TextAt.nul (h : TextAt mem p t) : mem (p + .ofNat t.length) = some 0 :=
  holds_singleton.mp (holds_append.mp h.holds).2

/-- No byte of a string is at the null address. -/
theorem TextAt.place_ne_zero (h : TextAt mem p t) {i : Nat} (hi : i ≤ t.length) :
    p + .ofNat i ≠ 0 := by
  intro hzero
  have hpos : p.toNat ≠ 0 := fun hp => h.nonnull (UInt64.toNat_inj.mp hp)
  have hspace := h.inSpace
  have hnat := congrArg UInt64.toNat hzero
  rw [toNat_add_ofNat (by omega)] at hnat
  change _ = 0 at hnat
  omega

/-- The rest of a string is a string. -/
theorem TextAt.drop (h : TextAt mem p t) {n : Nat} (hn : n ≤ t.length) :
    TextAt mem (p + .ofNat n) (t.drop n) where
  nonnull := h.place_ne_zero hn
  inSpace := by
    have hspace := h.inSpace
    rw [toNat_add_ofNat (by omega), List.length_drop]
    omega
  holds := by
    have hall := h.holds
    rw [← List.take_append_drop n t, List.append_assoc, holds_append,
      List.length_take_of_le hn] at hall
    exact hall.2
  noZero hmem := h.noZero (List.mem_of_mem_drop hmem)

end Text

end ByteMemory
