import Libdeepc.IntRendering
import Libdeepc.StrtolLaw

/-!
# Reading a rendered number back

A rendering is spaces, then a sign or base prefix, then zeros, digits and spaces
again. The subject sequence that a number reader finds in it denotes the number,
in the base of the conversion and, behind `#`, in base 0.
-/

namespace RenderingInverse

open CString Numerals StrtolLaw PrintfWrite IntRendering

/-- Zeros, the digits of `n` and trailing spaces. -/
def core (conv : VprintfConv) (j n k : Nat) : List UInt8 :=
  List.replicate j (byte '0') ++ (digits conv n ++ List.replicate k (byte ' '))

section Digits

theorem digitChar_spec (conv : VprintfConv) {d : Nat} (hd : d < baseOf conv) :
    isDigitOf (baseOf conv) (digitChar conv d) = true ∧ digitValue (digitChar conv d) = d ∧
      isSpaceByte (digitChar conv d) = false ∧
      digitChar conv d ∉ [byte '-', byte '+', byte 'x', byte 'X', 0] := by
  have hall : ∀ d < baseOf conv, isDigitOf (baseOf conv) (digitChar conv d) = true ∧
      digitValue (digitChar conv d) = d ∧ isSpaceByte (digitChar conv d) = false ∧
      digitChar conv d ∉ [byte '-', byte '+', byte 'x', byte 'X', 0] := by
    cases conv <;> decide
  exact hall d hd

theorem exists_of_mem_digits {conv : VprintfConv} {n : Nat} {c : UInt8}
    (h : c ∈ digits conv n) : ∃ d < baseOf conv, digitChar conv d = c := by
  obtain ⟨d, hd, hc⟩ := List.mem_map.mp h
  exact ⟨d, numeral_lt_base (baseOf_bounds conv).1 hd, hc⟩

theorem map_digitValue_digits (conv : VprintfConv) (n : Nat) :
    (digits conv n).map digitValue = numeral (baseOf conv) n := by
  rw [digits, List.map_map]
  refine (List.map_congr_left fun d hd => ?_).trans (List.map_id _)
  exact (digitChar_spec conv (numeral_lt_base (baseOf_bounds conv).1 hd)).2.1

theorem digits_zero (conv : VprintfConv) : digits conv 0 = [] := by
  simp [digits, numeral_zero]

end Digits

section Shape

/-- The bytes of a rendering that are neither sign nor prefix. -/
theorem notMem_core (conv : VprintfConv) (j n k : Nat) {c : UInt8} (h : c ∈ core conv j n k) :
    c ∉ [byte '-', byte '+', byte 'x', byte 'X', 0] := by
  rcases List.mem_append.mp h with hz | h
  · rw [List.eq_of_mem_replicate hz]
    decide
  · rcases List.mem_append.mp h with hd | hs
    · obtain ⟨d, hlt, rfl⟩ := exists_of_mem_digits hd
      exact (digitChar_spec conv hlt).2.2.2
    · rw [List.eq_of_mem_replicate hs]
      decide

theorem renderInt_shape (L : Layout) (conv : VprintfConv) (v : Int) :
    ∃ i j k, renderInt L conv v =
        List.replicate i (byte ' ') ++ (numberPrefix L conv v ++ core conv j v.natAbs k) ∧
      (conv = .o → L.number = true → 1 ≤ j) := by
  have hleast : conv = .o → L.number = true →
      1 ≤ leastDigits L conv (digits conv v.natAbs).length - (digits conv v.natAbs).length := by
    intro hc hn
    simp only [leastDigits, hc, hn, true_and]
    split <;> omega
  simp only [renderInt, zeroExtended, place, core]
  generalize leastDigits L conv (digits conv v.natAbs).length - (digits conv v.natAbs).length = j
    at hleast ⊢
  generalize digits conv v.natAbs = ds
  generalize numberPrefix L conv v = pre
  generalize L.width - (pre.length + (List.replicate j (byte '0') ++ ds).length) = fill
  by_cases hminus : L.minus = true
  · exact ⟨0, j, fill, by simp [hminus], hleast⟩
  · by_cases hzero : (L.zero && L.precision.isNone) = true
    · refine ⟨0, fill + j, 0, ?_, fun hc hn => (hleast hc hn).trans (Nat.le_add_left j fill)⟩
      simp only [hminus, hzero, Bool.false_eq_true, if_false, if_true, List.replicate_zero,
        List.nil_append, List.append_nil, List.append_assoc]
      rw [List.replicate_add, List.append_assoc]
    · exact ⟨fill, j, 0, by simp [hminus, hzero], hleast⟩

end Shape

section Subject

theorem dropWhile_spaces (i : Nat) (t : List UInt8) :
    (List.replicate i (byte ' ') ++ t).dropWhile isSpaceByte = t.dropWhile isSpaceByte := by
  have hspace : isSpaceByte (byte ' ') = true := by decide
  simp [hspace]

theorem hexPrefixed_false {p : List UInt8} (h : ∀ c ∈ p, c ∉ [byte 'x', byte 'X'])
    (rest : List UInt8) : hexPrefixed (p ++ 0 :: rest) = false := by
  have hnul : (0 : UInt8) ∉ [byte '0', byte 'x', byte 'X'] := by decide
  simp only [List.mem_cons, List.not_mem_nil, or_false, not_or] at hnul
  match p, h with
  | [], _ => simp [hexPrefixed, hnul]
  | [c], _ => simp [hexPrefixed, hnul]
  | c :: d :: p, h =>
    have hd := h d (by simp)
    simp only [List.mem_cons, List.not_mem_nil, or_false, not_or] at hd
    simp [hexPrefixed, hd]

theorem dropSign_plain {s : List UInt8} (h : ∀ c, s.head? = some c → c ∉ [byte '-', byte '+']) :
    dropSign s = s ∧ isNegative s = false := by
  cases s with
  | nil => simp [dropSign, isNegative]
  | cons c s =>
    have hc := h c rfl
    simp only [List.mem_cons, List.not_mem_nil, or_false, not_or] at hc
    simp [dropSign, isNegative, hc]

variable (conv : VprintfConv) (j n k : Nat) (rest : List UInt8)

theorem core_plain : hexPrefixed (core conv j n k ++ 0 :: rest) = false ∧
    dropSign (core conv j n k ++ 0 :: rest) = core conv j n k ++ 0 :: rest ∧
    isNegative (core conv j n k ++ 0 :: rest) = false := by
  have hmem := fun c => notMem_core conv j n k (c := c)
  simp only [List.mem_cons, List.not_mem_nil, or_false, not_or] at hmem
  refine ⟨hexPrefixed_false (fun c hc => by simp [hmem c hc]) rest, dropSign_plain ?_⟩
  intro c hc
  cases hcore : core conv j n k with
  | nil =>
    rw [hcore] at hc
    rw [← Option.some.inj hc]
    decide
  | cons d u =>
    rw [hcore] at hc hmem
    obtain rfl := Option.some.inj hc
    simp [hmem d]

/-- Spaces in front of the zeros and digits are the only ones the reader skips. -/
theorem dropWhile_core : ∃ k', (core conv j n k ++ 0 :: rest).dropWhile isSpaceByte =
    core conv j n k' ++ 0 :: rest := by
  by_cases h : j = 0 ∧ n = 0
  · refine ⟨0, ?_⟩
    simp only [core, h.1, h.2, digits_zero, List.replicate_zero, List.nil_append]
    rw [dropWhile_spaces]
    simp [isSpaceByte]
  · refine ⟨k, ?_⟩
    have hhead : ∃ c u, core conv j n k = c :: u ∧ isSpaceByte c = false := by
      cases j with
      | succ j => exact ⟨_, _, rfl, by decide⟩
      | zero =>
        cases hds : digits conv n with
        | nil =>
          rw [digits, List.map_eq_nil_iff, numeral_eq_nil_iff] at hds
          exact absurd ⟨rfl, hds⟩ h
        | cons c ds =>
          have hc : c ∈ digits conv n := by simp [hds]
          obtain ⟨d, hlt, rfl⟩ := exists_of_mem_digits hc
          exact ⟨_, ds ++ List.replicate k (byte ' '), by simp [core, hds],
            (digitChar_spec conv hlt).2.2.1⟩
    obtain ⟨c, u, hcore, hspace⟩ := hhead
    simp [hcore, hspace]

/-- The digit run of the zeros and digits has the value `n`. -/
theorem value_digitRun_core {b : Nat} (lo : 2 ≤ b) (hi : b ≤ 36)
    (h : b = baseOf conv ∨ n = 0) :
    value b (digitRun b (core conv j n k ++ 0 :: rest)) = n := by
  have hzero : isDigitOf b (byte '0') = true := isDigitOf_byte_zero (by omega)
  have hdigits : ∀ c ∈ digits conv n, isDigitOf b c = true := by
    intro c hc
    rcases h with rfl | rfl
    · obtain ⟨d, hlt, rfl⟩ := exists_of_mem_digits hc
      exact (digitChar_spec conv hlt).1
    · simp [digits_zero] at hc
  have hrun : digitRun b (List.replicate k (byte ' ') ++ 0 :: rest) = [] := by
    cases k with
    | zero => exact digitRun_cons_of_not (not_isDigitOf_zero hi) rest
    | succ k =>
      have hspace : digitValue (byte ' ') = 36 := by decide
      exact digitRun_cons_of_not (by simp [isDigitOf, hspace, hi]) _
  have hmap : value b ((digits conv n).map digitValue) = n := by
    rcases h with rfl | rfl
    · rw [map_digitValue_digits, value_numeral]
    · simp [digits_zero, value]
  rw [core, List.append_assoc, List.append_assoc,
    (digitRun_append (fun c hc => List.eq_of_mem_replicate hc ▸ hzero) _).1,
    (digitRun_append hdigits _).1, hrun, List.append_nil, List.map_replicate]
  exact (value_leadingZeros b j _).trans hmap

theorem value_core {base : Nat}
    (h : base = baseOf conv ∨ base = 0 ∧ (conv = .o ∧ 1 ≤ j ∨ n = 0)) :
    value (subjectBase (core conv j n k ++ 0 :: rest) base)
      (digitRun (subjectBase (core conv j n k ++ 0 :: rest) base)
        (core conv j n k ++ 0 :: rest)) = n := by
  have hbase := baseOf_bounds conv
  have hle : baseOf conv ≤ 36 := by cases conv <;> decide
  rcases h with rfl | ⟨rfl, h⟩
  · have hb : subjectBase (core conv j n k ++ 0 :: rest) (baseOf conv) = baseOf conv :=
      if_pos (by omega)
    rw [hb]
    exact value_digitRun_core conv j n k rest hbase.1 hle (Or.inl rfl)
  · have hhex := (core_plain conv j n k rest).1
    rcases h with ⟨rfl, hj⟩ | rfl
    · obtain ⟨j, rfl⟩ := Nat.exists_eq_succ_of_ne_zero (by omega : j ≠ 0)
      have hhead : (core .o (j + 1) n k ++ 0 :: rest).head? = some (byte '0') := rfl
      have hb : subjectBase (core .o (j + 1) n k ++ 0 :: rest) 0 = 8 := by
        simp [subjectBase, hhex, hhead]
      rw [hb]
      exact value_digitRun_core .o (j + 1) n k rest (by decide) (by decide) (Or.inl rfl)
    · have hb : 2 ≤ subjectBase (core conv j 0 k ++ 0 :: rest) 0 ∧
          subjectBase (core conv j 0 k ++ 0 :: rest) 0 ≤ 36 := by
        rw [subjectBase]
        split_ifs <;> omega
      exact value_digitRun_core conv j 0 k rest hb.1 hb.2 (Or.inr rfl)

/-- The subject behind skipped spaces, when no sign or base prefix stands in front. -/
theorem subject_core (i base : Nat) : ∃ k',
    subject (List.replicate i (byte ' ') ++ (core conv j n k ++ 0 :: rest)) base =
      ⟨false, subjectBase (core conv j n k' ++ 0 :: rest) base,
        digitRun (subjectBase (core conv j n k' ++ 0 :: rest) base)
          (core conv j n k' ++ 0 :: rest)⟩ := by
  obtain ⟨k', hdrop⟩ := dropWhile_core conv j n k rest
  obtain ⟨hhex, hsign, hneg⟩ := core_plain conv j n k' rest
  refine ⟨k', ?_⟩
  simp [subject, dropWhile_spaces, hdrop, hhex, hsign, hneg]

/-- The subject behind spaces and one of the signs. -/
theorem subject_signed {c : UInt8} (hc : c = byte '-' ∨ c = byte '+') (i base : Nat) :
    subject (List.replicate i (byte ' ') ++ (c :: (core conv j n k ++ 0 :: rest))) base =
      ⟨decide (c = byte '-'), subjectBase (core conv j n k ++ 0 :: rest) base,
        digitRun (subjectBase (core conv j n k ++ 0 :: rest) base)
          (core conv j n k ++ 0 :: rest)⟩ := by
  obtain ⟨hhex, _, _⟩ := core_plain conv j n k rest
  have hspace : isSpaceByte c = false := by rcases hc with rfl | rfl <;> decide
  have hsign : c = byte '-' ∨ c = byte '+' := hc
  simp [subject, dropWhile_spaces, hspace, dropSign, isNegative, hsign, hhex]

/-- The subject behind spaces and a hexadecimal prefix. -/
theorem subject_hex {c : UInt8} (hc : c = byte 'x' ∨ c = byte 'X') {base : Nat}
    (hbase : base = 0 ∨ base = 16) (i : Nat) :
    subject (List.replicate i (byte ' ') ++ (byte '0' :: c :: (core conv j n k ++ 0 :: rest)))
      base = ⟨false, 16, digitRun 16 (core conv j n k ++ 0 :: rest)⟩ := by
  have hhex : hexPrefixed (byte '0' :: c :: (core conv j n k ++ 0 :: rest)) = true := by
    rcases hc with rfl | rfl <;> simp [hexPrefixed]
  have hspace : isSpaceByte (byte '0') = false := by decide
  obtain ⟨hsign, hneg⟩ := dropSign_plain (s := byte '0' :: c :: (core conv j n k ++ 0 :: rest))
    fun d hd => by rw [← Option.some.inj hd]; decide
  have hb : subjectBase (byte '0' :: c :: (core conv j n k ++ 0 :: rest)) base = 16 := by
    rcases hbase with rfl | rfl <;> simp [subjectBase, hhex]
  simp [subject, dropWhile_spaces, hspace, hsign, hneg, hb, hhex, hbase]

end Subject

/-- The number a base reads back: the base of the conversion, or base 0 behind `#`. -/
def ReadsBack (L : Layout) (conv : VprintfConv) (base : Nat) : Prop :=
  base = baseOf conv ∨ base = 0 ∧ L.number = true ∧ (conv = .o ∨ conv = .x ∨ conv = .X)

theorem numberPrefix_cases {L : Layout} {conv : VprintfConv} {v : Int} (hc : IsInt conv)
    (hv : conv ≠ .d → 0 ≤ v) :
    (numberPrefix L conv v = [] ∧ 0 ≤ v ∧ (conv = .x ∨ conv = .X → L.number = true → v = 0)) ∨
    (numberPrefix L conv v = [byte ' '] ∧ 0 ≤ v ∧ conv = .d) ∨
    (∃ c, numberPrefix L conv v = [c] ∧ (c = byte '-' ∧ v < 0 ∨ c = byte '+' ∧ 0 ≤ v) ∧
      conv = .d) ∨
    ∃ c, numberPrefix L conv v = [byte '0', c] ∧ (c = byte 'x' ∨ c = byte 'X') ∧
      baseOf conv = 16 ∧ 0 ≤ v := by
  rcases hc with rfl | rfl | rfl | rfl | rfl
  · simp only [numberPrefix]
    split_ifs with hneg hplus hspace
    · exact Or.inr (Or.inr (Or.inl ⟨_, rfl, Or.inl ⟨rfl, hneg⟩, trivial⟩))
    · exact Or.inr (Or.inr (Or.inl ⟨_, rfl, Or.inr ⟨rfl, not_lt.mp hneg⟩, trivial⟩))
    · exact Or.inr (Or.inl ⟨rfl, not_lt.mp hneg, trivial⟩)
    · exact Or.inl ⟨rfl, not_lt.mp hneg, by simp⟩
  · exact Or.inl ⟨rfl, hv (by decide), by simp⟩
  · exact Or.inl ⟨rfl, hv (by decide), by simp⟩
  · have hpos := hv (by decide)
    simp only [numberPrefix]
    split_ifs with hn
    · exact Or.inr (Or.inr (Or.inr ⟨_, rfl, Or.inl rfl, rfl, hpos⟩))
    · exact Or.inl ⟨rfl, hpos, fun _ hnum => not_not.mp fun h0 => hn ⟨hnum, h0⟩⟩
  · have hpos := hv (by decide)
    simp only [numberPrefix]
    split_ifs with hn
    · exact Or.inr (Or.inr (Or.inr ⟨_, rfl, Or.inr rfl, rfl, hpos⟩))
    · exact Or.inl ⟨rfl, hpos, fun _ hnum => not_not.mp fun h0 => hn ⟨hnum, h0⟩⟩

theorem subject_renderInt {L : Layout} {conv : VprintfConv} {v : Int} {base : Nat}
    (hc : IsInt conv) (hv : conv ≠ .d → 0 ≤ v) (hbase : ReadsBack L conv base)
    (rest : List UInt8) :
    (subject (renderInt L conv v ++ 0 :: rest) base).negative = decide (v < 0) ∧
      (subject (renderInt L conv v ++ 0 :: rest) base).magnitude = v.natAbs := by
  obtain ⟨i, j, k, hshape, hj⟩ := renderInt_shape L conv v
  have hd10 : conv = .d → base = baseOf conv ∨
      base = 0 ∧ (conv = .o ∧ 1 ≤ j ∨ v.natAbs = 0) := by
    rintro rfl
    exact Or.inl (hbase.resolve_right fun h => by simp at h)
  simp only [hshape, List.append_assoc, Subject.magnitude]
  rcases numberPrefix_cases hc hv with
    ⟨hpre, hpos, hx⟩ | ⟨hpre, hpos, hd⟩ | ⟨c, hpre, hsign, hd⟩ | ⟨c, hpre, hx, hconv, hpos⟩
  · obtain ⟨k', hsubject⟩ := subject_core conv j v.natAbs k rest i base
    have hb : base = baseOf conv ∨ base = 0 ∧ (conv = .o ∧ 1 ≤ j ∨ v.natAbs = 0) := by
      rcases hbase with h | ⟨h0, hn, h | h⟩
      · exact Or.inl h
      · exact Or.inr ⟨h0, Or.inl ⟨h, hj h hn⟩⟩
      · exact Or.inr ⟨h0, Or.inr (by rw [hx h hn]; rfl)⟩
    have hval := value_core conv j v.natAbs k' rest hb
    rw [hpre, List.nil_append, hsubject]
    exact ⟨by simp [hpos], hval⟩
  · obtain ⟨k', hsubject⟩ := subject_core conv j v.natAbs k rest (i + 1) base
    have hval := value_core conv j v.natAbs k' rest (hd10 hd)
    rw [hpre, List.singleton_append, ← List.singleton_append, ← List.append_assoc,
      ← List.replicate_succ', hsubject]
    exact ⟨by simp [hpos], hval⟩
  · have hsubject := subject_signed conv j v.natAbs k rest (hsign.imp And.left And.left) i base
    have hval := value_core conv j v.natAbs k rest (hd10 hd)
    rw [hpre, List.singleton_append, hsubject]
    refine ⟨?_, hval⟩
    rcases hsign with ⟨rfl, hneg⟩ | ⟨rfl, hpos⟩
    · simp [hneg]
    · have hne : byte '+' ≠ byte '-' := by decide
      simp [hne, hpos]
  · have hbase16 : base = 0 ∨ base = 16 := by
      rcases hbase with h | ⟨h, _⟩
      · exact Or.inr (h.trans hconv)
      · exact Or.inl h
    have hsubject := subject_hex conv j v.natAbs k rest hx hbase16 i
    have hval := value_digitRun_core conv j v.natAbs k rest (b := 16) (by decide) (by decide)
      (Or.inl hconv.symm)
    rw [hpre, List.cons_append, List.singleton_append, hsubject]
    exact ⟨by simp [hpos], hval⟩

/-- Renderings of different numbers differ. -/
theorem renderInt_injective {L : Layout} {conv : VprintfConv} {v w : Int} (hc : IsInt conv)
    (hv : conv ≠ .d → 0 ≤ v) (hw : conv ≠ .d → 0 ≤ w)
    (h : renderInt L conv v = renderInt L conv w) : v = w := by
  obtain ⟨hvneg, hvmag⟩ := subject_renderInt hc hv (Or.inl rfl : ReadsBack L conv _) []
  obtain ⟨hwneg, hwmag⟩ := subject_renderInt hc hw (Or.inl rfl : ReadsBack L conv _) []
  rw [h, hwneg, decide_eq_decide] at hvneg
  rw [h, hwmag] at hvmag
  omega

theorem renderInt_length_le (L : Layout) (conv : VprintfConv) {v : Int} (hv : v.natAbs < 2 ^ 64) :
    (renderInt L conv v).length ≤ L.width + L.precision.getD 1 + 25 := by
  have hlen := digits_length_le conv hv
  have hpre := numberPrefix_length_le L conv v
  have hleast : leastDigits L conv (digits conv v.natAbs).length ≤ L.precision.getD 1 + 23 := by
    simp only [leastDigits]
    split <;> omega
  have hbody : (zeroExtended L conv v.natAbs).length ≤ L.precision.getD 1 + 23 := by
    simp only [zeroExtended, List.length_append, List.length_replicate]
    omega
  simp only [renderInt, place]
  split_ifs <;> simp only [List.length_append, List.length_replicate] <;> omega

/-- A rendering holds no NUL. -/
theorem zero_notMem_renderInt (L : Layout) (conv : VprintfConv) (v : Int) :
    0 ∉ renderInt L conv v := by
  obtain ⟨i, j, k, hshape, _⟩ := renderInt_shape L conv v
  have hpre : 0 ∉ numberPrefix L conv v := by
    cases conv <;> simp only [numberPrefix] <;> (try split_ifs) <;> decide
  rw [hshape]
  simp only [List.mem_append, not_or]
  exact ⟨fun h => absurd (List.eq_of_mem_replicate h) (by decide), hpre,
    fun h => notMem_core conv j _ k h (by simp)⟩

end RenderingInverse
