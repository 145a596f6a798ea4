import Libdeepc.FirstDifference
import Libdeepc.StringFunctions

/-!
# The three comparisons

`memcmp`, `strcmp` and `strncmp` walk over a common prefix and stop at the first pair
of characters that differ, at a shared NUL or at the end of the count. That pair is all
that the answer depends on.
-/

namespace StringCompare

open ByteMemory FirstDifference StringFunctions

section Loop

variable {charSigned strings : Bool} {ends : UInt64 → Bool} {mem : Mem} {lhs rhs count : UInt64}
  {w : List UInt8} {a b : UInt8}

/-- The answer at the pair that ends a comparison. -/
def outcome (charSigned : Bool) (a b : UInt8) : Int :=
  if a = b then 0 else charOrder charSigned a b

theorem compareLoop_skip (hl : Holds mem lhs w) (hr : Holds mem rhs w)
    (hends : ∀ i, i < w.length → ends (lhs + .ofNat i) = false) (hz : strings = true → 0 ∉ w)
    (fuel : Nat) : compareLoop charSigned ends strings mem (fuel + w.length) lhs rhs =
      compareLoop charSigned ends strings mem fuel (lhs + .ofNat w.length)
        (rhs + .ofNat w.length) := by
  induction w generalizing lhs rhs with
  | nil => rw [List.length_nil, add_ofNat_zero, add_ofNat_zero, Nat.add_zero]
  | cons c w ih =>
    obtain ⟨hlc, hl⟩ := holds_cons.mp hl
    obtain ⟨hrc, hr⟩ := holds_cons.mp hr
    have hstart : ends lhs = false := by
      have hzero := hends 0 (Nat.succ_pos _)
      rwa [add_ofNat_zero] at hzero
    have hnul : (strings && decide (c = 0)) = false := by
      rw [Bool.and_eq_false_iff, decide_eq_false_iff_not]
      cases hs : strings with
      | false => exact .inl rfl
      | true => exact .inr fun hc => hz hs (hc ▸ List.mem_cons_self)
    have hrest := ih hl hr (fun i hi => by
      rw [add_one_add_ofNat]
      exact hends (i + 1) (Nat.succ_lt_succ hi)) fun hs hmem => hz hs (List.mem_cons_of_mem c hmem)
    rw [List.length_cons, ← Nat.add_assoc, compareLoop, hstart, hlc, hrc, ← add_one_add_ofNat,
      ← add_one_add_ofNat, ← hrest]
    simp only [Bool.false_eq_true, if_false, Option.bind_some, ne_eq, not_true_eq_false, hnul]

/-- A comparison ends at a pair that differs, or at a NUL that both strings have. -/
theorem compareLoop_parting (hl : Holds mem lhs (w ++ [a])) (hr : Holds mem rhs (w ++ [b]))
    (hends : ∀ i, i ≤ w.length → ends (lhs + .ofNat i) = false) (hz : strings = true → 0 ∉ w)
    (hab : a ≠ b ∨ strings = true ∧ a = 0 ∧ b = 0) {fuel : Nat} (hfuel : w.length < fuel) :
    compareLoop charSigned ends strings mem fuel lhs rhs = some (outcome charSigned a b) := by
  obtain ⟨hlw, hla⟩ := holds_append.mp hl
  obtain ⟨hrw, hrb⟩ := holds_append.mp hr
  obtain ⟨k, rfl⟩ : ∃ k, fuel = k + 1 + w.length := ⟨fuel - w.length - 1, by omega⟩
  rw [compareLoop_skip hlw hrw (fun i hi => hends i (Nat.le_of_lt hi)) hz, compareLoop,
    hends _ (Nat.le_refl _), holds_singleton.mp hla, holds_singleton.mp hrb, outcome]
  rcases hab with hne | ⟨hs, rfl, rfl⟩
  · simp [hne]
  · simp [hs]

theorem compareLoop_end (hl : Holds mem lhs w) (hr : Holds mem rhs w)
    (hends : ∀ i, i < w.length → ends (lhs + .ofNat i) = false)
    (hend : ends (lhs + .ofNat w.length) = true) (hz : strings = true → 0 ∉ w) {fuel : Nat}
    (hfuel : w.length < fuel) :
    compareLoop charSigned ends strings mem fuel lhs rhs = some 0 := by
  obtain ⟨k, rfl⟩ : ∃ k, fuel = k + 1 + w.length := ⟨fuel - w.length - 1, by omega⟩
  rw [compareLoop_skip hl hr hends hz, compareLoop, if_pos hend]

/-- The end pointer is met behind `count` bytes and not before, also where it has wrapped. -/
theorem end_iff (lhs count : UInt64) {i : Nat} (hi : i ≤ count.toNat) :
    lhs + .ofNat i = lhs + count ↔ i = count.toNat := by
  have hlt := count.toNat_lt
  have hcount : lhs + count = lhs + .ofNat count.toNat := by rw [UInt64.ofNat_toNat]
  rw [hcount]
  exact ⟨add_ofNat_inj (by omega) (by omega), fun h => by rw [h]⟩

theorem not_end (lhs : UInt64) {i : Nat} (hi : i < count.toNat) :
    decide (lhs + .ofNat i = lhs + count) = false :=
  decide_eq_false fun h => absurd ((end_iff lhs count (Nat.le_of_lt hi)).mp h) (Nat.ne_of_lt hi)

theorem at_end (lhs : UInt64) (hw : w.length = count.toNat) :
    decide (lhs + .ofNat w.length = lhs + count) = true :=
  decide_eq_true ((end_iff lhs count (Nat.le_of_eq hw)).mpr hw)

theorem memcmp_parting (hl : Holds mem lhs (w ++ [a])) (hr : Holds mem rhs (w ++ [b]))
    (hab : a ≠ b) (hw : w.length < count.toNat) :
    memcmp charSigned mem lhs rhs count = some (outcome charSigned a b) := by
  refine compareLoop_parting hl hr ?_ ?_ (.inl hab) (Nat.lt_trans hw count.toNat_lt)
  · exact fun _ hi => not_end lhs (by omega)
  · exact nofun

theorem memcmp_same (hl : Holds mem lhs w) (hr : Holds mem rhs w) (hw : w.length = count.toNat) :
    memcmp charSigned mem lhs rhs count = some 0 := by
  refine compareLoop_end hl hr ?_ ?_ ?_ (hw ▸ count.toNat_lt)
  · exact fun _ hi => not_end lhs (hw ▸ hi)
  · exact at_end lhs hw
  · exact nofun

theorem strncmp_parting (hl : Holds mem lhs (w ++ [a])) (hr : Holds mem rhs (w ++ [b]))
    (hz : 0 ∉ w) (hab : a ≠ b ∨ a = 0 ∧ b = 0) (hw : w.length < count.toNat) :
    strncmp charSigned mem lhs rhs count = some (outcome charSigned a b) := by
  refine compareLoop_parting hl hr ?_ (fun _ => hz) (hab.imp_right fun h => ⟨rfl, h⟩)
    (Nat.lt_trans hw count.toNat_lt)
  exact fun _ hi => not_end lhs (by omega)

theorem strncmp_same (hl : Holds mem lhs w) (hr : Holds mem rhs w) (hz : 0 ∉ w)
    (hw : w.length = count.toNat) : strncmp charSigned mem lhs rhs count = some 0 := by
  refine compareLoop_end hl hr ?_ (at_end lhs hw) (fun _ => hz) (hw ▸ count.toNat_lt)
  exact fun _ hi => not_end lhs (hw ▸ hi)

/-- A text without a NUL leaves room for the one behind it. -/
theorem length_lt_of_parting (hl : Holds mem lhs (w ++ [a])) (hr : Holds mem rhs (w ++ [b]))
    (hz : 0 ∉ w) (hab : a ≠ b ∨ a = 0 ∧ b = 0) : w.length < 2 ^ 64 := by
  by_contra hle
  -- the byte behind the prefix is the first one again
  have hwrap : ∀ p : UInt64, p + .ofNat w.length = p + .ofNat (w.length - 2 ^ 64) := by
    intro p
    have hadd : w.length = w.length - 2 ^ 64 + 2 ^ 64 := by omega
    rw [← UInt64.toNat_inj, UInt64.toNat_add, UInt64.toNat_add, UInt64.toNat_ofNat',
      UInt64.toNat_ofNat']
    omega
  have hin : w.length - 2 ^ 64 < w.length := by omega
  obtain ⟨hlw, hla⟩ := holds_append.mp hl
  obtain ⟨hrw, hrb⟩ := holds_append.mp hr
  have ha := holds_singleton.mp hla
  have hb := holds_singleton.mp hrb
  rw [hwrap, hlw _ hin] at ha
  rw [hwrap, hrw _ hin] at hb
  have haw := Option.some.inj ha
  have hbw := Option.some.inj hb
  rcases hab with hne | ⟨h0, _⟩
  · exact hne (haw.symm.trans hbw)
  · exact hz ((haw.trans h0) ▸ List.getElem_mem hin)

theorem strcmp_parting (hl : Holds mem lhs (w ++ [a])) (hr : Holds mem rhs (w ++ [b]))
    (hz : 0 ∉ w) (hab : a ≠ b ∨ a = 0 ∧ b = 0) :
    strcmp charSigned mem lhs rhs = some (outcome charSigned a b) :=
  compareLoop_parting hl hr (fun _ _ => rfl) (fun _ => hz) (hab.imp_right fun h => ⟨rfl, h⟩)
    (length_lt_of_parting hl hr hz hab)

end Loop

section Order

variable {charSigned : Bool} {mem : Mem} {lhs rhs : UInt64} {t u w : List UInt8} {a b : UInt8}

/-- The bytes as `unsigned char`. -/
def unsigned (xs : List UInt8) : List Nat := xs.map UInt8.toNat

theorem unsigned_append_cons (w : List UInt8) (a : UInt8) (xs : List UInt8) :
    unsigned (w ++ a :: xs) = unsigned w ++ a.toNat :: unsigned xs := List.map_append

/-- `char` is unsigned, or the first two characters that differ are both below 128 or both not. -/
def SameSide (charSigned : Bool) (xs ys : List UInt8) : Prop :=
  charSigned = false ∨ ∀ p ∈ firstDifference xs ys, (p.1 < 128 ↔ p.2 < 128)

instance (charSigned : Bool) (xs ys : List UInt8) : Decidable (SameSide charSigned xs ys) :=
  inferInstanceAs (Decidable (_ ∨ _))

theorem sameSide_of_none {xs ys : List UInt8} (h : firstDifference xs ys = none) :
    SameSide charSigned xs ys := .inr fun p hp => by
  rw [h] at hp
  cases hp

theorem sameSide_of_some {xs ys : List UInt8} (h : firstDifference xs ys = some (a, b)) :
    SameSide charSigned xs ys ↔ charSigned = false ∨ (a < 128 ↔ b < 128) := by
  rw [SameSide, h]
  refine or_congr_right ⟨fun hp => hp _ rfl, fun hp p hmem => ?_⟩
  rw [← Option.mem_some_iff.mp hmem]
  exact hp

theorem charVal_eq (charSigned : Bool) (c : UInt8) : charVal charSigned c =
    if charSigned = true ∧ 128 ≤ c.toNat then (c.toNat : Int) - 256 else c.toNat := by
  rw [charVal, CString.charVal_eq]
  cases charSigned with
  | false => simp
  | true =>
    have hc := c.toNat_lt
    simp only [if_true, true_and]
    split <;> split <;> omega

/-- The characters compare as the bytes do, unless they are signed and on two sides of 128. -/
theorem charVal_lt_iff (hab : a ≠ b) :
    (charVal charSigned a < charVal charSigned b ↔ a.toNat < b.toNat) ↔
      charSigned = false ∨ (a < 128 ↔ b < 128) := by
  have ha := a.toNat_lt
  have hb := b.toNat_lt
  have hne : a.toNat ≠ b.toNat := fun h => hab (UInt8.toNat_inj.mp h)
  have h128 : ∀ c : UInt8, c < 128 ↔ c.toNat < 128 := fun c => UInt8.lt_iff_toNat_lt
  rw [charVal_eq, charVal_eq, h128, h128]
  cases charSigned with
  | false => simp
  | true =>
    simp only [true_and, Bool.true_eq_false, false_or]
    split <;> split <;> omega

theorem outcome_of_ne (hab : a ≠ b) : outcome charSigned a b = charOrder charSigned a b :=
  if_neg hab

theorem charOrder_ne_zero (charSigned : Bool) (a b : UInt8) : charOrder charSigned a b ≠ 0 := by
  rw [charOrder]
  split <;> omega

theorem charOrder_neg_iff : charOrder charSigned a b < 0 ↔
    charVal charSigned a < charVal charSigned b := by
  rw [charOrder]
  split <;> simp [*]

theorem charOrder_pos_iff : 0 < charOrder charSigned a b ↔
    ¬ charVal charSigned a < charVal charSigned b := by
  rw [charOrder]
  split <;> simp [*]

/-- Where the bytes decide an order, the answer has its sign exactly when the characters
compare as the bytes do. -/
theorem signOf_outcome_iff {α : Type*} [LinearOrder α] {xs ys : List α} (hab : a ≠ b)
    (hlt : a.toNat < b.toNat → xs < ys) (hgt : b.toNat < a.toNat → ys < xs) :
    SignOf (outcome charSigned a b) xs ys ↔ charSigned = false ∨ (a < 128 ↔ b < 128) := by
  have hne : a.toNat ≠ b.toNat := fun h => hab (UInt8.toNat_inj.mp h)
  rw [← charVal_lt_iff hab, outcome_of_ne hab]
  rcases Nat.lt_or_gt_of_ne hne with h | h
  · rw [signOf_iff_of_lt (charOrder_ne_zero _ a b) (hlt h), charOrder_neg_iff]
    simp [h]
  · rw [signOf_iff_of_gt (charOrder_ne_zero _ a b) (hgt h), charOrder_pos_iff]
    simp [Nat.lt_asymm h]

theorem firstDifference_parting (hab : a ≠ b) (w xs ys : List UInt8) :
    firstDifference (w ++ a :: xs) (w ++ b :: ys) = some (a, b) := by
  rw [firstDifference_append, firstDifference, if_neg hab]

theorem unsigned_lt_of_parting (h : a.toNat < b.toNat) (w xs ys : List UInt8) :
    unsigned (w ++ a :: xs) < unsigned (w ++ b :: ys) := by
  rw [unsigned_append_cons, unsigned_append_cons]
  exact lt_of_parting h ..

/-- How two texts part: a common prefix, and the first pair behind it. -/
structure Parting (t u w : List UInt8) (a b : UInt8) : Prop where
  left : ∃ t', t ++ [0] = w ++ a :: t'
  right : ∃ u', u ++ [0] = w ++ b :: u'
  noZero : 0 ∉ w
  pair : a = 0 ∧ b = 0 ∧ t = u ∨ a ≠ b ∧ t ≠ u

theorem Parting.symm (h : Parting t u w a b) : Parting u t w b a where
  left := h.right
  right := h.left
  noZero := h.noZero
  pair := h.pair.imp (fun e => ⟨e.2.1, e.1, e.2.2.symm⟩) fun e => ⟨e.1.symm, e.2.symm⟩

theorem exists_pair (ht : 0 ∉ t) (hu : 0 ∉ u) : ∃ a b, Parting t u (common t u) a b := by
  obtain ⟨a, b, t', u', htw, huw, hz, hpair⟩ := exists_parting ht hu
  exact ⟨a, b, ⟨t', htw⟩, ⟨u', huw⟩, hz, hpair⟩

/-- What a text is, when `w` and then `a` stand in front of its terminator or are it. -/
theorem text_of_parting (ht : 0 ∉ t) (h : ∃ t', t ++ [0] = w ++ a :: t') :
    a = 0 ∧ t = w ∨ a ≠ 0 ∧ ∃ t', t = w ++ a :: t' := by
  obtain ⟨t', h⟩ := h
  rcases List.append_eq_append_iff.mp h with ⟨v, hw, hv⟩ | ⟨v, ht', hv⟩
  · -- the prefix is the whole text
    cases v with
    | nil =>
      rw [List.append_nil] at hw
      exact .inl ⟨(List.cons.inj hv).1.symm, hw.symm⟩
    | cons c v => cases v <;> cases hv
  · cases v with
    | nil =>
      rw [List.append_nil] at ht'
      exact .inl ⟨(List.cons.inj hv).1, ht'⟩
    | cons c v =>
      obtain ⟨rfl, _⟩ := List.cons.inj hv
      refine .inr ⟨fun h0 => ht ?_, v, ht'⟩
      rw [ht', h0]
      exact List.mem_append_right _ List.mem_cons_self

theorem take_within (ht : 0 ∉ t) (h : ∃ t', t ++ [0] = w ++ a :: t') {n : Nat}
    (hn : n ≤ w.length) : t.take n = w.take n ∧ (t ++ [0]).take n = w.take n := by
  constructor
  · rcases text_of_parting ht h with ⟨_, rfl⟩ | ⟨_, t', rfl⟩
    · rfl
    · exact List.take_append_of_le_length hn
  · obtain ⟨t', h⟩ := h
    rw [h, List.take_append_of_le_length hn]

/-- Texts cut behind the pair part as the whole texts do. -/
theorem Parting.take (h : Parting t u w a b) (ht : 0 ∉ t) (hu : 0 ∉ u) {n : Nat}
    (hn : w.length < n) : Parting (t.take n) (u.take n) w a b := by
  obtain ⟨k, rfl⟩ : ∃ k, n = w.length + (k + 1) := ⟨n - w.length - 1, by omega⟩
  have hcut : ∀ {s : List UInt8} {c : UInt8}, 0 ∉ s → (∃ s', s ++ [0] = w ++ c :: s') →
      ∃ s', s.take (w.length + (k + 1)) ++ [0] = w ++ c :: s' := by
    intro s c hs hc
    rcases text_of_parting hs hc with ⟨rfl, rfl⟩ | ⟨_, s', rfl⟩
    · exact ⟨[], by rw [List.take_of_length_le (Nat.le_add_right ..)]⟩
    · exact ⟨s'.take k ++ [0], by
        rw [List.take_length_add_append, List.take_succ_cons, List.append_assoc, List.cons_append]⟩
  refine ⟨hcut ht h.left, hcut hu h.right, h.noZero, h.pair.imp ?_ fun e => ⟨e.1, fun heq => ?_⟩⟩
  · exact fun e => ⟨e.1, e.2.1, congrArg _ e.2.2⟩
  · obtain ⟨t', ht'⟩ := hcut ht h.left
    obtain ⟨u', hu'⟩ := hcut hu h.right
    rw [heq, hu'] at ht'
    exact e.1 (List.cons.inj (List.append_cancel_left ht')).1.symm

/-- The pair decides the order of the texts. -/
theorem Parting.lt (h : Parting t u w a b) (ht : 0 ∉ t) (hu : 0 ∉ u)
    (hab : a.toNat < b.toNat) : unsigned t < unsigned u := by
  have hb : b ≠ 0 := by
    rintro rfl
    exact absurd hab (Nat.not_lt_zero _)
  obtain ⟨u', rfl⟩ := ((text_of_parting hu h.right).resolve_left fun hz => hb hz.1).2
  rcases text_of_parting ht h.left with ⟨_, rfl⟩ | ⟨_, t', rfl⟩
  · rw [unsigned_append_cons]
    exact lt_of_longer ..
  · exact unsigned_lt_of_parting hab ..

/-- The answer of a comparison of two texts. -/
def textOrder (charSigned : Bool) (t u : List UInt8) : Int :=
  match firstDifference (t ++ [0]) (u ++ [0]) with
  | none => 0
  | some (a, b) => charOrder charSigned a b

theorem Parting.firstDifference_eq (h : Parting t u w a b) (hab : a ≠ b) :
    firstDifference (t ++ [0]) (u ++ [0]) = some (a, b) := by
  obtain ⟨t', ht'⟩ := h.left
  obtain ⟨u', hu'⟩ := h.right
  rw [ht', hu', firstDifference_parting hab]

theorem Parting.textOrder_eq (h : Parting t u w a b) :
    textOrder charSigned t u = outcome charSigned a b := by
  rcases h.pair with ⟨rfl, rfl, rfl⟩ | ⟨hab, _⟩
  · rw [textOrder, firstDifference_self]
    rfl
  · rw [textOrder, h.firstDifference_eq hab, outcome_of_ne hab]

theorem textOrder_self (charSigned : Bool) (t : List UInt8) : textOrder charSigned t t = 0 := by
  rw [textOrder, firstDifference_self]

theorem signOf_textOrder_iff (ht : 0 ∉ t) (hu : 0 ∉ u) :
    SignOf (textOrder charSigned t u) (unsigned t) (unsigned u) ↔
      SameSide charSigned (t ++ [0]) (u ++ [0]) := by
  obtain ⟨a, b, h⟩ := exists_pair ht hu
  rcases h.pair with ⟨_, _, rfl⟩ | ⟨hab, _⟩
  · rw [textOrder_self]
    exact iff_of_true (signOf_zero _) (sameSide_of_none (firstDifference_self _))
  · rw [h.textOrder_eq, sameSide_of_some (h.firstDifference_eq hab)]
    exact signOf_outcome_iff hab (h.lt ht hu) (h.symm.lt hu ht)

end Order

section Calls

variable {charSigned : Bool} {mem : Mem} {lhs rhs count : UInt64} {t u w : List UInt8}
  {a b : UInt8}

/-- All that `strcmp` needs is the common prefix and the pair behind it. -/
theorem Parting.strcmp_eq (h : Parting t u w a b) (hl : Holds mem lhs (w ++ [a]))
    (hr : Holds mem rhs (w ++ [b])) :
    strcmp charSigned mem lhs rhs = some (textOrder charSigned t u) := by
  rw [h.textOrder_eq]
  exact strcmp_parting hl hr h.noZero (h.pair.elim (fun e => .inr ⟨e.1, e.2.1⟩) fun e => .inl e.1)

theorem strcmp_eq (ht : 0 ∉ t) (hu : 0 ∉ u) (hl : Holds mem lhs (t ++ [0]))
    (hr : Holds mem rhs (u ++ [0])) :
    strcmp charSigned mem lhs rhs = some (textOrder charSigned t u) := by
  obtain ⟨a, b, h⟩ := exists_pair ht hu
  obtain ⟨t', ht'⟩ := h.left
  obtain ⟨u', hu'⟩ := h.right
  exact h.strcmp_eq (ht' ▸ hl).upTo (hu' ▸ hr).upTo

theorem list_strcmp_skip (hz : 0 ∉ w) (xs ys : List UInt8) :
    CString.strcmp (w ++ xs) (w ++ ys) = CString.strcmp xs ys := by
  induction w with
  | nil => rfl
  | cons c w ih =>
    have hc : c ≠ 0 := fun h => hz (h ▸ List.mem_cons_self)
    rw [List.cons_append, List.cons_append, CString.strcmp, if_neg (not_not_intro rfl), if_neg hc,
      ih fun h => hz (List.mem_cons_of_mem c h)]

/-- On memory that holds the two strings it is the function on what their pointers see. -/
theorem strcmp_eq_list (ht : 0 ∉ t) (hu : 0 ∉ u) (hl : Holds mem lhs (t ++ [0]))
    (hr : Holds mem rhs (u ++ [0])) (xs ys : List UInt8) :
    strcmp true mem lhs rhs = CString.strcmp (t ++ 0 :: xs) (u ++ 0 :: ys) := by
  obtain ⟨a, b, h⟩ := exists_pair ht hu
  obtain ⟨t', ht'⟩ := h.left
  obtain ⟨u', hu'⟩ := h.right
  have hlist : ∀ {v : List UInt8} {c : UInt8} {v' : List UInt8} (zs : List UInt8),
      v ++ [0] = common t u ++ c :: v' → v ++ 0 :: zs = common t u ++ c :: (v' ++ zs) := by
    intro v c v' zs hv
    rw [List.append_cons, hv, List.append_assoc, List.cons_append]
  rw [strcmp_eq ht hu hl hr, h.textOrder_eq, hlist xs ht', hlist ys hu', list_strcmp_skip h.noZero,
    CString.strcmp, outcome]
  rcases h.pair with ⟨rfl, rfl, _⟩ | ⟨hab, _⟩
  · rfl
  · rw [if_neg hab, if_pos hab]
    rfl

/-- `strncmp` needs as much, or as much of it as the count goes. -/
theorem Parting.strncmp_eq (h : Parting t u w a b) (ht : 0 ∉ t) (hu : 0 ∉ u)
    (hl : Holds mem lhs ((w ++ [a]).take count.toNat))
    (hr : Holds mem rhs ((w ++ [b]).take count.toNat)) :
    strncmp charSigned mem lhs rhs count =
      some (textOrder charSigned (t.take count.toNat) (u.take count.toNat)) := by
  rcases Nat.lt_or_ge w.length count.toNat with hn | hn
  · have hall : ∀ c : UInt8, (w ++ [c]).take count.toNat = w ++ [c] := fun c =>
      List.take_of_length_le (by rw [List.length_append]; exact hn)
    rw [hall] at hl hr
    rw [(h.take ht hu hn).textOrder_eq]
    exact strncmp_parting hl hr h.noZero
      (h.pair.elim (fun e => .inr ⟨e.1, e.2.1⟩) fun e => .inl e.1) hn
  · rw [List.take_append_of_le_length hn] at hl hr
    rw [(take_within ht h.left hn).1, (take_within hu h.right hn).1, textOrder_self]
    exact strncmp_same hl hr (fun hmem => h.noZero (List.mem_of_mem_take hmem))
      (List.length_take_of_le hn)

theorem strncmp_eq (ht : 0 ∉ t) (hu : 0 ∉ u)
    (hl : Holds mem lhs ((t ++ [0]).take count.toNat))
    (hr : Holds mem rhs ((u ++ [0]).take count.toNat)) :
    strncmp charSigned mem lhs rhs count =
      some (textOrder charSigned (t.take count.toNat) (u.take count.toNat)) := by
  obtain ⟨a, b, h⟩ := exists_pair ht hu
  obtain ⟨t', ht'⟩ := h.left
  obtain ⟨u', hu'⟩ := h.right
  refine h.strncmp_eq ht hu ?_ ?_
  · rw [ht', List.append_cons, List.take_append] at hl
    exact (holds_append.mp hl).1
  · rw [hu', List.append_cons, List.take_append] at hr
    exact (holds_append.mp hr).1

theorem answer_iff {o : Option Int} {d : Int} {P : Int → Prop} (h : o = some d) :
    (∃ c, o = some c ∧ P c) ↔ P d := by
  simp [h]

theorem memcmp_order_iff {xs ys : List UInt8} (hx : xs.length = count.toNat)
    (hy : ys.length = count.toNat) (hl : Holds mem lhs xs) (hr : Holds mem rhs ys) :
    (∃ c, memcmp charSigned mem lhs rhs count = some c ∧ SignOf c (unsigned xs) (unsigned ys)) ↔
      SameSide charSigned xs ys := by
  cases hdiff : firstDifference xs ys with
  | none =>
    obtain rfl := eq_of_firstDifference_none hdiff (hx.trans hy.symm)
    rw [answer_iff (memcmp_same hl hr hx)]
    exact iff_of_true (signOf_zero _) (sameSide_of_none hdiff)
  | some p =>
    obtain ⟨a, b⟩ := p
    obtain ⟨hab, w, xs', ys', rfl, rfl⟩ := firstDifference_eq_some hdiff
    have hw : w.length < count.toNat := by
      rw [← hx, List.length_append, List.length_cons]
      omega
    rw [answer_iff (memcmp_parting hl.upTo hr.upTo hab hw), sameSide_of_some hdiff]
    exact signOf_outcome_iff hab (fun h => unsigned_lt_of_parting h ..)
      fun h => unsigned_lt_of_parting h ..

/-- The answers of the three comparisons are ordered as the bytes they compare, taken as
`unsigned char`, exactly when plain `char` is unsigned or the first two bytes that differ are
on one side of 128. Of `strncmp` neither string has to be terminated within the count. -/
theorem comparison_order_iff (charSigned : Bool) (mem : Mem) (lhs rhs : UInt64) :
    (∀ (count : UInt64) (xs ys : List UInt8), xs.length = count.toNat → ys.length = count.toNat →
      Holds mem lhs xs → Holds mem rhs ys →
      ((∃ c, memcmp charSigned mem lhs rhs count = some c ∧
        SignOf c (unsigned xs) (unsigned ys)) ↔ SameSide charSigned xs ys)) ∧
    (∀ t u : List UInt8, 0 ∉ t → 0 ∉ u → Holds mem lhs (t ++ [0]) → Holds mem rhs (u ++ [0]) →
      ((∃ c, strcmp charSigned mem lhs rhs = some c ∧ SignOf c (unsigned t) (unsigned u)) ↔
        SameSide charSigned (t ++ [0]) (u ++ [0]))) ∧
    ∀ (count : UInt64) (t u : List UInt8), 0 ∉ t → 0 ∉ u →
      Holds mem lhs ((t ++ [0]).take count.toNat) → Holds mem rhs ((u ++ [0]).take count.toNat) →
      ((∃ c, strncmp charSigned mem lhs rhs count = some c ∧
        SignOf c (unsigned (t.take count.toNat)) (unsigned (u.take count.toNat))) ↔
          SameSide charSigned (t.take count.toNat ++ [0]) (u.take count.toNat ++ [0])) := by
  refine ⟨fun count xs ys hx hy hl hr => memcmp_order_iff hx hy hl hr, ?_, ?_⟩
  · intro t u ht hu hl hr
    rw [answer_iff (strcmp_eq ht hu hl hr)]
    exact signOf_textOrder_iff ht hu
  · intro count t u ht hu hl hr
    rw [answer_iff (strncmp_eq ht hu hl hr)]
    exact signOf_textOrder_iff (fun h => ht (List.mem_of_mem_take h))
      fun h => hu (List.mem_of_mem_take h)

/-- `"a"` at 16 and `"a\x80"` at 32. -/
def shelf : Mem := fun p =>
  if p = 16 ∨ p = 32 then some 97 else if p = 33 then some 128 else if p = 17 ∨ p = 34 then some 0
  else none

/-- Where plain `char` is signed, a string may sort above its own extension. -/
theorem extension_sorts_below : ¬ ∀ (charSigned : Bool) (mem : Mem) (lhs rhs : UInt64)
    (t u : List UInt8), 0 ∉ t → 0 ∉ u → Holds mem lhs (t ++ [0]) → Holds mem rhs (u ++ [0]) →
      ∃ c, strcmp charSigned mem lhs rhs = some c ∧ SignOf c (unsigned t) (unsigned u) := by
  intro hall
  have hl : Holds shelf 16 ([97] ++ [0]) := by
    rw [holds_append, holds_singleton, holds_singleton]
    decide
  have hr : Holds shelf 32 ([97, 128] ++ [0]) := by
    rw [holds_append, holds_cons, holds_singleton, holds_singleton]
    decide
  obtain ⟨c, hc, hsign⟩ := hall true shelf 16 32 [97] [97, 128] (by decide) (by decide) hl hr
  rw [strcmp_eq (by decide) (by decide) hl hr] at hc
  have hone : c = 1 := (Option.some.inj hc).symm
  have hneg := hsign.neg.mpr (by decide)
  omega

end Calls

section Agreement

variable {charSigned : Bool} {mem : Mem} {lhs rhs : UInt64} {t u w : List UInt8} {a b : UInt8}

theorem charVal_inj (h : charVal charSigned a = charVal charSigned b) : a = b := by
  have ha := a.toNat_lt
  have hb := b.toNat_lt
  rw [charVal_eq, charVal_eq] at h
  rw [← UInt8.toNat_inj]
  cases charSigned with
  | false =>
    simp only [Bool.false_eq_true, false_and, if_false] at h
    omega
  | true =>
    simp only [true_and] at h
    split at h <;> split at h <;> omega

theorem charOrder_swap (hab : a ≠ b) :
    charOrder charSigned b a = -charOrder charSigned a b := by
  have hne : charVal charSigned a ≠ charVal charSigned b := fun h => hab (charVal_inj h)
  rw [charOrder, charOrder]
  split <;> split <;> omega

theorem textOrder_swap (ht : 0 ∉ t) (hu : 0 ∉ u) :
    textOrder charSigned u t = -textOrder charSigned t u := by
  obtain ⟨a, b, h⟩ := exists_pair ht hu
  rw [h.textOrder_eq, h.symm.textOrder_eq]
  rcases h.pair with ⟨rfl, rfl, _⟩ | ⟨hab, _⟩
  · rfl
  · rw [outcome_of_ne hab, outcome_of_ne hab.symm, charOrder_swap hab]

theorem textOrder_eq_zero_iff (ht : 0 ∉ t) (hu : 0 ∉ u) :
    textOrder charSigned t u = 0 ↔ t = u := by
  obtain ⟨a, b, h⟩ := exists_pair ht hu
  rcases h.pair with ⟨_, _, rfl⟩ | ⟨hab, htu⟩
  · exact iff_of_true (textOrder_self ..) rfl
  · rw [h.textOrder_eq, outcome_of_ne hab]
    exact iff_of_false (charOrder_ne_zero _ a b) htu

/-- The texts with their terminators, as the characters compare. -/
def keys (charSigned : Bool) (t : List UInt8) : List Int := (t ++ [0]).map (charVal charSigned)

/-- The answers are those of one linear order of the texts. -/
theorem signOf_keys (ht : 0 ∉ t) (hu : 0 ∉ u) :
    SignOf (textOrder charSigned t u) (keys charSigned t) (keys charSigned u) := by
  obtain ⟨a, b, h⟩ := exists_pair ht hu
  rcases h.pair with ⟨_, _, rfl⟩ | ⟨hab, _⟩
  · rw [textOrder_self]
    exact signOf_zero _
  · obtain ⟨t', ht'⟩ := h.left
    obtain ⟨u', hu'⟩ := h.right
    have hne : charVal charSigned a ≠ charVal charSigned b := fun h => hab (charVal_inj h)
    rw [h.textOrder_eq, outcome_of_ne hab, keys, keys, ht', hu', List.map_append, List.map_append,
      List.map_cons, List.map_cons]
    rcases lt_or_gt_of_ne hne with hlt | hgt
    · rw [signOf_iff_of_lt (charOrder_ne_zero _ a b) (lt_of_parting hlt ..)]
      exact charOrder_neg_iff.mpr hlt
    · rw [signOf_iff_of_gt (charOrder_ne_zero _ a b) (lt_of_parting hgt ..)]
      exact charOrder_pos_iff.mpr (not_lt.mpr hgt.le)

theorem textOrder_trans {v : List UInt8} (ht : 0 ∉ t) (hu : 0 ∉ u) (hv : 0 ∉ v)
    (htu : textOrder charSigned t u ≤ 0) (huv : textOrder charSigned u v ≤ 0) :
    textOrder charSigned t v ≤ 0 := by
  rw [(signOf_keys ht hu).le_zero_iff] at htu
  rw [(signOf_keys hu hv).le_zero_iff] at huv
  rw [(signOf_keys ht hv).le_zero_iff]
  exact le_trans htu huv

/-- The common prefix is no longer than either text. -/
theorem Parting.length_le (h : Parting t u w a b) : w.length ≤ min t.length u.length := by
  obtain ⟨t', ht'⟩ := h.left
  obtain ⟨u', hu'⟩ := h.right
  have hlt := congrArg List.length ht'
  have hlu := congrArg List.length hu'
  simp only [List.length_append, List.length_cons, List.length_nil] at hlt hlu
  omega

/-- `memcmp` over the shorter string and its terminator. -/
theorem Parting.memcmp_eq (h : Parting t u w a b) (ht : 0 ∉ t) (hl : Holds mem lhs (w ++ [a]))
    (hr : Holds mem rhs (w ++ [b])) (hshort : min t.length u.length + 1 < 2 ^ 64) :
    memcmp charSigned mem lhs rhs (.ofNat (min t.length u.length + 1)) =
      some (textOrder charSigned t u) := by
  have hcount : (UInt64.ofNat (min t.length u.length + 1)).toNat = min t.length u.length + 1 := by
    rw [UInt64.toNat_ofNat', Nat.mod_eq_of_lt hshort]
  rw [h.textOrder_eq]
  rcases h.pair with ⟨ha, hb, rfl⟩ | ⟨hab, _⟩
  · obtain ⟨_, rfl⟩ := (text_of_parting ht h.left).resolve_right fun hne => hne.1 ha
    subst ha hb
    exact memcmp_same hl hr (by rw [hcount, Nat.min_self, List.length_append]; rfl)
  · refine memcmp_parting hl hr hab ?_
    rw [hcount]
    exact Nat.lt_succ_of_le h.length_le

/-- The three comparisons give one answer, which orders the strings: it is 0 on equal strings
only, antisymmetric and transitive. The count of `strncmp` may be any, also one for which the
end pointer wraps. No byte is needed behind the first difference or the shared NUL. -/
theorem comparisons_agree (charSigned : Bool) (mem : Mem) (lhs rhs : UInt64) (t u : List UInt8)
    (hl : TextAt mem lhs t) (hr : TextAt mem rhs u) :
    ∃ c, strcmp charSigned mem lhs rhs = some c ∧
      memcmp charSigned mem lhs rhs (.ofNat (min t.length u.length + 1)) = some c ∧
      (c = 0 ↔ t = u) ∧ strcmp charSigned mem rhs lhs = some (-c) ∧
      (∀ third v, TextAt mem third v → ∀ d, strcmp charSigned mem rhs third = some d →
        c ≤ 0 → d ≤ 0 → ∃ e, strcmp charSigned mem lhs third = some e ∧ e ≤ 0) ∧
      (∀ (count : UInt64) (mem' : Mem) (lhs' rhs' : UInt64),
        TextAt mem' lhs' (t.take count.toNat) → TextAt mem' rhs' (u.take count.toNat) →
        strncmp charSigned mem lhs rhs count = strcmp charSigned mem' lhs' rhs') ∧
      ∀ mem₂ : Mem, (∀ i, i ≤ (common t u).length → mem₂ (lhs + .ofNat i) = mem (lhs + .ofNat i) ∧
          mem₂ (rhs + .ofNat i) = mem (rhs + .ofNat i)) →
        strcmp charSigned mem₂ lhs rhs = some c ∧
        memcmp charSigned mem₂ lhs rhs (.ofNat (min t.length u.length + 1)) = some c ∧
        ∀ count, strncmp charSigned mem₂ lhs rhs count =
          strncmp charSigned mem lhs rhs count := by
  have ht := hl.noZero
  have hu := hr.noZero
  have hshort : min t.length u.length + 1 < 2 ^ 64 := by
    have := hl.length_lt
    omega
  obtain ⟨a, b, h⟩ := exists_pair ht hu
  have hla : Holds mem lhs (common t u ++ [a]) := by
    obtain ⟨t', ht'⟩ := h.left
    exact (ht' ▸ hl.holds).upTo
  have hrb : Holds mem rhs (common t u ++ [b]) := by
    obtain ⟨u', hu'⟩ := h.right
    exact (hu' ▸ hr.holds).upTo
  have hn : ∀ {m : Mem} (count : UInt64), Holds m lhs (common t u ++ [a]) →
      Holds m rhs (common t u ++ [b]) → strncmp charSigned m lhs rhs count =
        some (textOrder charSigned (t.take count.toNat) (u.take count.toNat)) :=
    fun count hl hr => h.strncmp_eq ht hu (hl.take _) (hr.take _)
  refine ⟨textOrder charSigned t u, h.strcmp_eq hla hrb, h.memcmp_eq ht hla hrb hshort,
    textOrder_eq_zero_iff ht hu, ?_, ?_, ?_, ?_⟩
  · rw [strcmp_eq hu ht hr.holds hl.holds, textOrder_swap ht hu]
  · intro third v hv d hd hc hd0
    rw [strcmp_eq hu hv.noZero hr.holds hv.holds] at hd
    rw [← Option.some.inj hd] at hd0
    exact ⟨_, strcmp_eq ht hv.noZero hl.holds hv.holds, textOrder_trans ht hu hv.noZero hc hd0⟩
  · intro count mem' lhs' rhs' hl' hr'
    rw [hn count hla hrb, strcmp_eq hl'.noZero hr'.noZero hl'.holds hr'.holds]
  · intro mem₂ hsame
    have hla₂ : Holds mem₂ lhs (common t u ++ [a]) := hla.congr fun i hi =>
      (hsame i (by rw [List.length_append] at hi; exact Nat.le_of_lt_succ hi)).1
    have hrb₂ : Holds mem₂ rhs (common t u ++ [b]) := hrb.congr fun i hi =>
      (hsame i (by rw [List.length_append] at hi; exact Nat.le_of_lt_succ hi)).2
    refine ⟨h.strcmp_eq hla₂ hrb₂, h.memcmp_eq ht hla₂ hrb₂ hshort, fun count => ?_⟩
    rw [hn count hla₂ hrb₂, hn count hla hrb]

/-- `"a"` and `"a\x80"` once more, also with a count for which the end pointer wraps. -/
theorem comparisons_agree_shelf : ∃ c, strcmp true shelf 16 32 = some c ∧
    memcmp true shelf 16 32 2 = some c ∧ c ≠ 0 ∧
      strncmp true shelf 16 32 0xffffffffffffffff = some c := by
  have hl : TextAt shelf 16 [97] := by
    refine ⟨by decide, by decide, ?_, by decide⟩
    rw [holds_append, holds_singleton, holds_singleton]
    decide
  have hr : TextAt shelf 32 [97, 128] := by
    refine ⟨by decide, by decide, ?_, by decide⟩
    rw [holds_append, holds_cons, holds_singleton, holds_singleton]
    decide
  obtain ⟨c, hc, hmem, hzero, _, _, hcount, _⟩ :=
    comparisons_agree true shelf 16 32 [97] [97, 128] hl hr
  exact ⟨c, hc, hmem, fun h => absurd (hzero.mp h) (by decide),
    (hcount 0xffffffffffffffff shelf 16 32 hl hr).trans hc⟩

end Agreement

end StringCompare
