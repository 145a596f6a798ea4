import Libdeepc.StringFunctions

/-!
# Moves between ranges that overlap

A loop that copies from the front is right when no byte is overwritten before it is
read, one that copies from the back when none is overwritten after it. `memmove`
chooses by the order of the two ranges.
-/

namespace MemoryMove

open ByteMemory StringFunctions

variable {mem : Mem} {dest src count : UInt64} {bs : List UInt8}

section Loops

/-- Byte `i` of the source is not in the first `i` bytes of the destination. -/
def AheadOf (src dest : UInt64) (n : Nat) : Prop :=
  ∀ i j, j < i → i < n → src + .ofNat i ≠ dest + .ofNat j

/-- Byte `i` of the source is not behind byte `i` of the destination. -/
def BehindOf (src dest : UInt64) (n : Nat) : Prop :=
  ∀ i j, i < j → j < n → src + .ofNat i ≠ dest + .ofNat j

theorem copyUp_eq (hsrc : Holds mem src bs) (hdest : Accessible mem dest bs.length)
    (hlen : bs.length < 2 ^ 64) (hahead : AheadOf src dest bs.length) {k fuel : Nat}
    (hk : k ≤ bs.length) (hfuel : bs.length - k < fuel) :
    copyUp (dest + .ofNat bs.length) fuel (patch mem dest (bs.take k)) (dest + .ofNat k)
      (src + .ofNat k) = some (patch mem dest bs) := by
  induction fuel generalizing k with
  | zero => omega
  | succ fuel ih =>
    rw [copyUp]
    rcases Nat.lt_or_eq_of_le hk with hlt | rfl
    · have hne : dest + .ofNat k ≠ dest + .ofNat bs.length := fun h =>
        absurd (add_ofNat_inj (by omega) hlen h) (Nat.ne_of_lt hlt)
      have htake : (bs.take k).length = k := List.length_take_of_le hk
      have hread : patch mem dest (bs.take k) (src + .ofNat k) = some bs[k] := by
        rw [patch_outside fun j hj => hahead k j (by omega) hlt, hsrc k hlt]
      have hwrite : put (patch mem dest (bs.take k)) (dest + .ofNat k) bs[k] =
          some (patch mem dest (bs.take (k + 1))) := by
        have hput := put_patch mem dest (bs.take k) bs[k] (by omega)
          (by rw [htake]; exact hdest k hlt)
        rwa [htake, List.take_append_getElem] at hput
      rw [if_neg hne, hread, Option.bind_some, hwrite, Option.bind_some, ← add_ofNat_succ,
        ← add_ofNat_succ]
      exact ih hlt (by omega)
    · rw [if_pos rfl, List.take_length]

theorem copyDown_eq (hsrc : Holds mem src bs) (hdest : Accessible mem dest bs.length)
    (hlen : bs.length < 2 ^ 64) (hbehind : BehindOf src dest bs.length) {k fuel : Nat}
    (hk : k ≤ bs.length) (hfuel : k < fuel) :
    copyDown dest fuel (patch mem (dest + .ofNat k) (bs.drop k)) (dest + .ofNat k)
      (src + .ofNat k) = some (patch mem dest bs) := by
  induction k generalizing fuel with
  | zero =>
    obtain ⟨fuel, rfl⟩ := Nat.exists_eq_succ_of_ne_zero (Nat.ne_of_gt hfuel)
    rw [copyDown, add_ofNat_zero, if_pos rfl, List.drop_zero]
  | succ k ih =>
    obtain ⟨fuel, rfl⟩ := Nat.exists_eq_succ_of_ne_zero (Nat.ne_of_gt (Nat.zero_lt_of_lt hfuel))
    have hne : dest + .ofNat (k + 1) ≠ dest := by
      intro h
      rw [← add_ofNat_zero dest, add_ofNat_add] at h
      exact absurd (add_ofNat_inj (by omega) (by omega) h) (by omega)
    have hsub : ∀ p : UInt64, p + .ofNat (k + 1) - 1 = p + .ofNat k := fun p => by
      rw [add_ofNat_succ, UInt64.add_sub_cancel]
    have hread : patch mem (dest + .ofNat (k + 1)) (bs.drop (k + 1)) (src + .ofNat k) =
        some bs[k] := by
      rw [patch_outside, hsrc k hk]
      intro j hj
      rw [List.length_drop] at hj
      rw [add_ofNat_add]
      exact hbehind k _ (by omega) (by omega)
    have hwrite : put (patch mem (dest + .ofNat (k + 1)) (bs.drop (k + 1))) (dest + .ofNat k)
        bs[k] = some (patch mem (dest + .ofNat k) (bs.drop k)) := by
      rw [add_ofNat_succ, put_patch_front (by rw [List.length_drop]; omega) (hdest k hk),
        List.getElem_cons_drop]
    rw [copyDown, if_neg hne, hsub, hsub, hread, Option.bind_some, hwrite, Option.bind_some]
    exact ih (Nat.le_of_lt hk) (by omega)

end Loops

section Ranges

/-- The range, and the address behind it, which every object in C has. -/
def InSpace (p count : UInt64) : Prop := p.toNat + count.toNat < 2 ^ 64

/-- Neither range starts before the other has ended. -/
def Apart (p q count : UInt64) : Prop :=
  p.toNat + count.toNat ≤ q.toNat ∨ q.toNat + count.toNat ≤ p.toNat

instance (p count : UInt64) : Decidable (InSpace p count) := inferInstanceAs (Decidable (_ < _))

instance (p q count : UInt64) : Decidable (Apart p q count) := inferInstanceAs (Decidable (_ ∨ _))

theorem aheadOf_of_le (hd : InSpace dest count) (hs : InSpace src count)
    (h : dest ≤ src ∨ Apart dest src count) : AheadOf src dest count.toNat := by
  intro i j hji hi heq
  have hnat := congrArg UInt64.toNat heq
  rw [InSpace] at hd hs
  rw [toNat_add_ofNat (by omega), toNat_add_ofNat (by omega)] at hnat
  rw [UInt64.le_iff_toNat_le, Apart] at h
  omega

theorem behindOf_of_lt (hd : InSpace dest count) (hs : InSpace src count) (h : src < dest) :
    BehindOf src dest count.toNat := by
  intro i j hij hj heq
  have hnat := congrArg UInt64.toNat heq
  rw [InSpace] at hd hs
  rw [toNat_add_ofNat (by omega), toNat_add_ofNat (by omega)] at hnat
  rw [UInt64.lt_iff_toNat_lt] at h
  omega

/-- The first branch of `memmove`. -/
theorem apart_of_test (hd : InSpace dest count) (hs : InSpace src count)
    (h : dest + count ≤ src ∨ src + count < dest) : Apart dest src count := by
  rw [InSpace] at hd hs
  rw [UInt64.le_iff_toNat_le, UInt64.lt_iff_toNat_lt, UInt64.toNat_add, UInt64.toNat_add,
    Nat.mod_eq_of_lt hd, Nat.mod_eq_of_lt hs] at h
  rw [Apart]
  omega

end Ranges

theorem copyUp_all (hlen : bs.length = count.toNat) (hsrc : Holds mem src bs)
    (hdest : Accessible mem dest bs.length) (hahead : AheadOf src dest bs.length) :
    copyUp (dest + count) rounds mem dest src = some (patch mem dest bs) := by
  have hword : count = .ofNat bs.length := by rw [hlen, UInt64.ofNat_toNat]
  have hlt : bs.length < 2 ^ 64 := hlen ▸ count.toNat_lt
  have hfuel : bs.length - 0 < rounds := hlt
  have hloop := copyUp_eq hsrc hdest hlt hahead (Nat.zero_le _) hfuel
  rwa [List.take_zero, patch_nil, add_ofNat_zero, add_ofNat_zero, ← hword] at hloop

/-- `memcpy` needs no more than that no byte is overwritten before it is read. -/
theorem memcpy_eq (hlen : bs.length = count.toNat) (hsrc : Holds mem src bs)
    (hdest : Accessible mem dest bs.length) (hahead : AheadOf src dest bs.length) :
    memcpy mem dest src count = some (dest, patch mem dest bs) := by
  rw [memcpy, copyUp_all hlen hsrc hdest hahead]
  rfl

/-- All branches of `memmove` leave the same memory. -/
theorem memmove_eq (hlen : bs.length = count.toNat) (hd : InSpace dest count)
    (hs : InSpace src count) (hsrc : Holds mem src bs)
    (hdest : Accessible mem dest bs.length) :
    ∃ calls, memmove mem dest src count = some ⟨dest, patch mem dest bs, calls⟩ ∧
      ∀ c ∈ calls, Apart c.dest c.src c.count := by
  have hword : count = .ofNat bs.length := by rw [hlen, UInt64.ofNat_toNat]
  have hlt : bs.length < 2 ^ 64 := hlen ▸ count.toNat_lt
  rw [memmove]
  split
  · next htest =>
    have hapart := apart_of_test hd hs htest
    refine ⟨[⟨dest, src, count⟩], ?_, fun c hc => ?_⟩
    · rw [memcpy_eq hlen hsrc hdest (hlen ▸ aheadOf_of_le hd hs (.inr hapart))]
      rfl
    · rw [List.mem_singleton.mp hc]
      exact hapart
  · refine ⟨[], ?_, fun c hc => absurd hc List.not_mem_nil⟩
    split
    · next hlt' =>
      have hfuel : bs.length < rounds := hlt
      have hloop := copyDown_eq hsrc hdest hlt (hlen ▸ behindOf_of_lt hd hs hlt') (Nat.le_refl _)
        hfuel
      rw [List.drop_length, patch_nil, ← hword] at hloop
      rw [hloop]
      rfl
    · next hge =>
      have hahead := aheadOf_of_le hd hs (.inl (UInt64.not_lt.mp hge))
      rw [copyUp_all hlen hsrc hdest (hlen ▸ hahead)]
      rfl

/-- The destination gets what the source held before, every other byte stays, and `memcpy`
is called on ranges that do not overlap only. No byte outside the two ranges is needed. -/
theorem memmove_moves (mem : Mem) (dest src count : UInt64) (bs : List UInt8)
    (hlen : bs.length = count.toNat) (hd : InSpace dest count) (hs : InSpace src count)
    (hsrc : Holds mem src bs) (hdest : Accessible mem dest count.toNat) :
    ∃ r, memmove mem dest src count = some r ∧ r.ret = dest ∧ Holds r.mem dest bs ∧
      (∀ a, (∀ i, i < count.toNat → a ≠ dest + .ofNat i) → r.mem a = mem a) ∧
      ∀ c ∈ r.memcpyCalls, Apart c.dest c.src c.count := by
  obtain ⟨calls, hrun, hcalls⟩ := memmove_eq hlen hd hs hsrc (hlen ▸ hdest)
  have hle : bs.length ≤ 2 ^ 64 := hlen ▸ Nat.le_of_lt count.toNat_lt
  refine ⟨_, hrun, rfl, holds_patch mem dest hle, fun a ha => patch_outside ?_, hcalls⟩
  rwa [hlen]

/-- `abcdef` at 16, and nothing else. -/
def row : Mem := fun a => if 16 ≤ a ∧ a < 22 then some (a.toUInt8 + 81) else none

/-- `abcd` goes two places up, over its own end. -/
theorem memmove_moves_up : ∃ r, memmove row 18 16 4 = some r ∧
    r.ret = 18 ∧ Holds r.mem 18 [97, 98, 99, 100] ∧
      (∀ a, (∀ i, i < 4 → a ≠ 18 + .ofNat i) → r.mem a = row a) ∧
      ∀ c ∈ r.memcpyCalls, Apart c.dest c.src c.count := by
  have hsrc : Holds row 16 [97, 98, 99, 100] := by
    rw [holds_cons, holds_cons, holds_cons, holds_singleton]
    decide
  have hdest : Holds row 18 [99, 100, 101, 102] := by
    rw [holds_cons, holds_cons, holds_cons, holds_singleton]
    decide
  exact memmove_moves row 18 16 4 [97, 98, 99, 100] rfl (by decide) (by decide) hsrc
    hdest.accessible

end MemoryMove
