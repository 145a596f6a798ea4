import Libdeepc.StrtolLaw

/-!
# The end pointer of the strtol family

Where the C standard has the subject sequence end: after the longest prefix made of
white space, a sign, a base prefix and digits, and at the start when there is none.
The functions store where their readers have stopped instead.
-/

namespace EndPointer

open CString MachineInt NumberParsing StrtolLaw

/-- The base of digits without a prefix. -/
def plainBase (base : Nat) (s : List UInt8) : Nat :=
  if base ≠ 0 then base else if s.head? = some (byte '0') then 8 else 10

/-- One or more digits behind a base prefix, which may be missing. -/
def Digits (base : Nat) (pre ds : List UInt8) : Prop :=
  ds ≠ [] ∧ ((pre = [] ∧ ∀ c ∈ ds, isDigitOf (plainBase base ds) c = true) ∨
    ((base = 0 ∨ base = 16) ∧ (pre = [byte '0', byte 'x'] ∨ pre = [byte '0', byte 'X']) ∧
      ∀ c ∈ ds, isDigitOf 16 c = true))

/-- White space, an optional sign, an optional prefix and digits. -/
def Form (base : Nat) (p : List UInt8) : Prop :=
  ∃ space sign pre ds, p = space ++ (sign ++ (pre ++ ds)) ∧
    (∀ c ∈ space, isSpaceByte c = true) ∧
    (sign = [] ∨ sign = [byte '-'] ∨ sign = [byte '+']) ∧ Digits base pre ds

/-- `e` is what follows the longest prefix of that form, or the whole string when none has it. -/
def IsEnd (s : List UInt8) (base : Nat) (e : List UInt8) : Prop :=
  (∃ p, Form base p ∧ s = p ++ e ∧ ∀ q, Form base q → q <+: s → q.length ≤ p.length) ∨
    ((∀ q, Form base q → ¬q <+: s) ∧ e = s)

theorem IsEnd.unique {s : List UInt8} {base : Nat} {e e' : List UInt8} (h : IsEnd s base e)
    (h' : IsEnd s base e') : e = e' := by
  rcases h with ⟨p, hp, hs, hmax⟩ | ⟨hnone, rfl⟩
  · rcases h' with ⟨q, hq, hs', hmax'⟩ | ⟨hnone, _⟩
    · have hle := hmax q hq ⟨e', hs'.symm⟩
      have hge := hmax' p hp ⟨e, hs.symm⟩
      exact (List.append_inj (hs.symm.trans hs') (by omega)).2
    · exact absurd ⟨e, hs.symm⟩ (hnone p hp)
  · rcases h' with ⟨q, hq, hs', _⟩ | ⟨_, rfl⟩
    · exact absurd ⟨e', hs'.symm⟩ (hnone q hq)
    · rfl

/-- What follows white space and sign. -/
def body (s : List UInt8) : List UInt8 := dropSign (s.dropWhile isSpaceByte)

def HexPrefixed (base : Nat) (b : List UInt8) : Prop :=
  (base = 0 ∨ base = 16) ∧ hexPrefixed b = true

instance (base : Nat) (b : List UInt8) : Decidable (HexPrefixed base b) :=
  inferInstanceAs (Decidable (_ ∧ _))

/-- What follows the longest run of digits of a body, and its prefix, if there are digits. -/
def bodyEnd (base : Nat) (b : List UInt8) : Option (List UInt8) :=
  if HexPrefixed base b ∧ digitRun 16 (b.drop 2) ≠ [] then some (afterDigits 16 (b.drop 2))
  else if digitRun (plainBase base b) b ≠ [] then some (afterDigits (plainBase base b) b)
  else none

section Bytes

theorem plainBase_le {base : Nat} (hb : ValidBase base) (s : List UInt8) :
    2 ≤ plainBase base s ∧ plainBase base s ≤ 36 := by
  rw [plainBase]
  rcases hb with rfl | hb
  · split_ifs <;> omega
  · split_ifs <;> omega

/-- Neither white space nor a sign is a digit. -/
theorem digit_not_skipped {b : Nat} (hb : b ≤ 36) {c : UInt8} (h : isDigitOf b c = true) :
    isSpaceByte c = false ∧ c ≠ byte '-' ∧ c ≠ byte '+' := by
  have hlt := isDigitOf_lt h
  have hcases := digitValue_cases c
  have hbyte : ∀ x : UInt8, digitValue x = 36 → c ≠ x := by
    rintro x hx rfl
    omega
  refine ⟨?_, hbyte _ (by decide), hbyte _ (by decide)⟩
  rw [isSpaceByte, decide_eq_false_iff_not]
  omega

theorem digitRun_eq_nil_iff {b : Nat} {s : List UInt8} :
    digitRun b s = [] ↔ afterDigits b s = s := by
  cases s with
  | nil => simp [digitRun, afterDigits]
  | cons c s =>
    cases h : isDigitOf b c with
    | false => simp [digitRun, afterDigits, h]
    | true =>
      have hlen := (List.dropWhile_sublist (isDigitOf b) (l := s)).length_le
      simp only [digitRun_cons_of_digit h, List.cons_ne_nil, false_iff, afterDigits,
        List.dropWhile_cons_of_pos h]
      intro heq
      rw [heq, List.length_cons] at hlen
      omega

theorem afterDigits_length_le (b : Nat) (s : List UInt8) : (afterDigits b s).length ≤ s.length :=
  (List.dropWhile_sublist _).length_le

theorem afterDigits_append {b : Nat} {ds : List UInt8} (h : ∀ c ∈ ds, isDigitOf b c = true)
    (rest : List UInt8) : afterDigits b (ds ++ rest) = afterDigits b rest :=
  (digitRun_append h rest).2

theorem digitRun_append_ne_nil {b : Nat} {ds : List UInt8} (h : ∀ c ∈ ds, isDigitOf b c = true)
    (hne : ds ≠ []) (rest : List UInt8) : digitRun b (ds ++ rest) ≠ [] := by
  rw [(digitRun_append h rest).1]
  simp [hne]

/-- The `x` of a prefix is no digit, with or without it. -/
theorem x_not_digit {base : Nat} (h : base = 0 ∨ base = 16) {x : UInt8}
    (hx : x = byte 'x' ∨ x = byte 'X') (s : List UInt8) :
    isDigitOf (plainBase base (byte '0' :: s)) x = false := by
  rcases h with rfl | rfl <;> rcases hx with rfl | rfl <;> rfl

theorem exists_of_hexPrefixed {s : List UInt8} (h : hexPrefixed s = true) :
    ∃ x u, s = byte '0' :: x :: u ∧ (x = byte 'x' ∨ x = byte 'X') := by
  rw [hexPrefixed, decide_eq_true_eq] at h
  obtain ⟨hzero, hx⟩ := h
  cases s with
  | nil => cases hzero
  | cons z s =>
    cases s with
    | nil => rcases hx with hx | hx <;> cases hx
    | cons x u =>
      obtain rfl := Option.some.inj hzero
      exact ⟨x, u, rfl, hx.imp Option.some.inj Option.some.inj⟩

end Bytes

section Bodies

variable {base : Nat} {b s e : List UInt8}

theorem plainBase_append {ds : List UInt8} (hne : ds ≠ []) (rest : List UInt8) :
    plainBase base (ds ++ rest) = plainBase base ds := by
  obtain ⟨c, ds, rfl⟩ := List.exists_cons_of_ne_nil hne
  rfl

/-- The end of a body is behind digits. -/
theorem digits_of_bodyEnd (h : bodyEnd base b = some e) :
    ∃ pre ds, Digits base pre ds ∧ b = pre ++ (ds ++ e) := by
  have hsplit : ∀ k (u : List UInt8), digitRun k u ≠ [] →
      u.takeWhile (isDigitOf k) ≠ [] ∧ (∀ c ∈ u.takeWhile (isDigitOf k), isDigitOf k c = true) ∧
        u = u.takeWhile (isDigitOf k) ++ afterDigits k u := by
    intro k u hrun
    refine ⟨?_, fun c hc => List.mem_takeWhile_imp hc, List.takeWhile_append_dropWhile.symm⟩
    rintro hnil
    exact hrun (by rw [digitRun, hnil]; rfl)
  rw [bodyEnd] at h
  split at h
  · next hhex =>
    obtain ⟨⟨hbase, hpre⟩, hrun⟩ := hhex
    obtain rfl := Option.some.inj h
    obtain ⟨x, u, rfl, hx⟩ := exists_of_hexPrefixed hpre
    obtain ⟨hne, hall, hu⟩ := hsplit 16 _ hrun
    refine ⟨[byte '0', x], _, ⟨hne, .inr ⟨hbase, ?_, hall⟩⟩, ?_⟩
    · rcases hx with rfl | rfl
      · exact .inl rfl
      · exact .inr rfl
    · rw [← hu]
      rfl
  · split at h
    · next hrun =>
      obtain rfl := Option.some.inj h
      obtain ⟨hne, hall, hu⟩ := hsplit _ _ hrun
      refine ⟨[], _, ⟨hne, .inl ⟨rfl, ?_⟩⟩, hu⟩
      rw [← plainBase_append hne, ← hu]
      exact hall
    · cases h

/-- No digits of a body go further than its end. -/
theorem bodyEnd_of_digits {pre ds rest : List UInt8} (h : Digits base pre ds)
    (hb : b = pre ++ (ds ++ rest)) : ∃ e, bodyEnd base b = some e ∧ e.length ≤ rest.length := by
  obtain ⟨hne, ⟨rfl, hall⟩ | ⟨hbase, hpre, hall⟩⟩ := h
  · rw [List.nil_append] at hb
    rw [← plainBase_append hne rest, ← hb] at hall
    by_cases hhex : HexPrefixed base b ∧ digitRun 16 (b.drop 2) ≠ []
    · refine ⟨_, if_pos hhex, ?_⟩
      obtain ⟨x, u, hu, hx⟩ := exists_of_hexPrefixed hhex.1.2
      -- the only digit of the run is the `0` of the prefix
      have hone : ds.length ≤ 1 := by
        match ds, hb with
        | [], _ => exact Nat.zero_le 1
        | [_], _ => exact Nat.le_refl 1
        | _ :: y :: _, hb =>
          rw [hu] at hb hall
          obtain ⟨-, hb⟩ := List.cons.inj hb
          obtain ⟨rfl, -⟩ := List.cons.inj hb
          have hdigit := hall x (by simp)
          rw [x_not_digit hhex.1.1 hx] at hdigit
          cases hdigit
      have hlen := congrArg List.length (hu.symm.trans hb)
      have hle := afterDigits_length_le 16 u
      rw [hu]
      simp only [List.length_cons, List.length_append] at hlen
      simp only [List.drop_succ_cons, List.drop_zero]
      omega
    · have hrun : digitRun (plainBase base b) b ≠ [] := by
        rw [hb] at hall ⊢
        exact digitRun_append_ne_nil hall hne rest
      refine ⟨_, (if_neg hhex).trans (if_pos hrun), ?_⟩
      rw [hb] at hall ⊢
      rw [afterDigits_append hall]
      exact afterDigits_length_le _ rest
  · have hdrop : b.drop 2 = ds ++ rest := by
      rcases hpre with rfl | rfl <;> rw [hb] <;> rfl
    have hhex : HexPrefixed base b := by
      refine ⟨hbase, ?_⟩
      rcases hpre with rfl | rfl <;> rw [hb] <;> simp [hexPrefixed]
    have hrun : digitRun 16 (b.drop 2) ≠ [] := by
      rw [hdrop]
      exact digitRun_append_ne_nil hall hne rest
    refine ⟨_, if_pos ⟨hhex, hrun⟩, ?_⟩
    · rw [hdrop, afterDigits_append hall]
      exact afterDigits_length_le 16 rest

end Bodies

section Strings

variable {base : Nat} {s e : List UInt8}

/-- A sign, or none, is what `dropSign` takes off. -/
theorem exists_sign (s : List UInt8) :
    ∃ sign, s = sign ++ dropSign s ∧ (sign = [] ∨ sign = [byte '-'] ∨ sign = [byte '+']) := by
  by_cases h : s.head? = some (byte '-') ∨ s.head? = some (byte '+')
  · rw [dropSign, if_pos h]
    cases s with
    | nil => exact ⟨[], rfl, .inl rfl⟩
    | cons c s =>
      refine ⟨[c], rfl, .inr ?_⟩
      simpa using h
  · rw [dropSign, if_neg h]
    exact ⟨[], rfl, .inl rfl⟩

theorem form_of_body {pre ds : List UInt8} (h : Digits base pre ds)
    (hs : body s = pre ++ (ds ++ e)) : ∃ p, Form base p ∧ s = p ++ e := by
  obtain ⟨sign, hsign, hcases⟩ := exists_sign (s.dropWhile isSpaceByte)
  refine ⟨s.takeWhile isSpaceByte ++ (sign ++ (pre ++ ds)),
    ⟨_, sign, pre, ds, rfl, fun c hc => List.mem_takeWhile_imp hc, hcases, h⟩, ?_⟩
  calc s = s.takeWhile isSpaceByte ++ s.dropWhile isSpaceByte :=
        List.takeWhile_append_dropWhile.symm
    _ = s.takeWhile isSpaceByte ++ (sign ++ (pre ++ (ds ++ e))) := by
        rw [← hs]
        exact congrArg _ hsign
    _ = _ := by simp only [List.append_assoc]

theorem digits_head (hb : ValidBase base) {pre ds : List UInt8} (h : Digits base pre ds) :
    ∃ c t, pre ++ ds = c :: t ∧ isSpaceByte c = false ∧ c ≠ byte '-' ∧ c ≠ byte '+' := by
  obtain ⟨hne, ⟨rfl, hall⟩ | ⟨_, hpre, _⟩⟩ := h
  · obtain ⟨c, t, rfl⟩ := List.exists_cons_of_ne_nil hne
    exact ⟨c, t, rfl, digit_not_skipped (plainBase_le hb _).2 (hall c List.mem_cons_self)⟩
  · refine ⟨byte '0', (pre ++ ds).tail, ?_, by decide⟩
    rcases hpre with rfl | rfl <;> rfl

/-- What the form takes for digits begins where white space and sign end. -/
theorem body_of_form (hb : ValidBase base) {q : List UInt8} (hq : Form base q)
    (hs : s = q ++ e) : ∃ pre ds, Digits base pre ds ∧ body s = pre ++ (ds ++ e) := by
  obtain ⟨space, sign, pre, ds, rfl, hspace, hsign, hdigits⟩ := hq
  refine ⟨pre, ds, hdigits, ?_⟩
  obtain ⟨c, t, hct, hc, hminus, hplus⟩ := digits_head hb hdigits
  have htail : s = space ++ (sign ++ (c :: (t ++ e))) := by
    rw [hs]
    simp only [List.append_assoc, ← List.cons_append]
    rw [← hct, List.append_assoc]
  rw [← List.append_assoc, hct, List.cons_append, body, htail, List.dropWhile_append_of_pos hspace]
  rcases hsign with rfl | rfl | rfl
  · rw [List.nil_append, List.dropWhile_cons_of_neg (by rw [hc]; exact Bool.false_ne_true),
      dropSign, if_neg]
    simp [hminus, hplus]
  · have hspace' : isSpaceByte (byte '-') = false := by decide
    simp [hspace', dropSign]
  · have hspace' : isSpaceByte (byte '+') = false := by decide
    simp [hspace', dropSign]

/-- The end of the subject sequence, computed. -/
theorem isEnd_bodyEnd (hb : ValidBase base) (s : List UInt8) :
    IsEnd s base ((bodyEnd base (body s)).getD s) := by
  cases h : bodyEnd base (body s) with
  | none =>
    refine .inr ⟨?_, rfl⟩
    rintro q hq ⟨rest, hrest⟩
    obtain ⟨pre, ds, hdigits, hbody⟩ := body_of_form hb hq hrest.symm
    obtain ⟨e, he, _⟩ := bodyEnd_of_digits hdigits hbody
    rw [h] at he
    cases he
  | some e =>
    obtain ⟨pre, ds, hdigits, hbody⟩ := digits_of_bodyEnd h
    obtain ⟨p, hp, hs⟩ := form_of_body hdigits hbody
    refine .inl ⟨p, hp, hs, ?_⟩
    rintro q hq ⟨rest, hrest⟩
    obtain ⟨pre', ds', hdigits', hbody'⟩ := body_of_form hb hq hrest.symm
    obtain ⟨e', he', hle⟩ := bodyEnd_of_digits hdigits' hbody'
    obtain rfl := Option.some.inj (h.symm.trans he')
    have hlen := congrArg List.length (hrest.trans hs)
    rw [List.length_append, List.length_append] at hlen
    omega

theorem isEnd_iff (hb : ValidBase base) :
    IsEnd s base e ↔ e = (bodyEnd base (body s)).getD s := by
  constructor
  · exact fun h => h.unique (isEnd_bodyEnd hb s)
  · rintro rfl
    exact isEnd_bodyEnd hb s

/-- Where the readers stop: behind the digits, also where there are none. -/
def readersEnd (s : List UInt8) (base : Nat) : List UInt8 :=
  afterDigits (subject s base).base (subjectTail s base)

/-- The readers stop at the end of the subject sequence when it has digits. Without digits they
must not have passed anything. -/
theorem readersEnd_iff (hb : ValidBase base) :
    IsEnd s base (readersEnd s base) ↔
      (subject s base).digits ≠ [] ∨ body s = s ∧ ¬HexPrefixed base s := by
  rw [isEnd_iff hb]
  have hsub : (subject s base).base = subjectBase (body s) base := rfl
  by_cases hhex : HexPrefixed base (body s)
  · have h16 : subjectBase (body s) base = 16 := by
      rcases hhex with ⟨rfl | rfl, hpre⟩ <;> simp [subjectBase, hpre]
    have htail : subjectTail s base = (body s).drop 2 := if_pos hhex
    have hdigits : (subject s base).digits = digitRun 16 ((body s).drop 2) := by
      have : (subject s base).digits = digitRun (subjectBase (body s) base)
          (if HexPrefixed base (body s) then (body s).drop 2 else body s) := rfl
      rw [this, h16, if_pos hhex]
    have hnot : ¬(body s = s ∧ ¬HexPrefixed base s) := fun h => h.2 (h.1 ▸ hhex)
    rw [or_iff_left hnot, readersEnd, hsub, h16, htail, hdigits]
    by_cases hrun : digitRun 16 ((body s).drop 2) ≠ []
    · rw [bodyEnd, if_pos ⟨hhex, hrun⟩]
      exact iff_of_true rfl hrun
    · -- the subject sequence is the `0` alone, the readers have passed the `x`
      refine iff_of_false (fun heq => ?_) hrun
      obtain ⟨x, u, hbody, hx⟩ := exists_of_hexPrefixed hhex.2
      have hnil := not_not.mp hrun
      have hzero : isDigitOf (plainBase base (body s)) (byte '0') = true :=
        isDigitOf_byte_zero (plainBase_le hb _).1
      have hplain : bodyEnd base (body s) = some (x :: u) := by
        rw [bodyEnd, if_neg fun h => hrun h.2, hbody] at *
        have hnx := x_not_digit hhex.1 hx (x :: u)
        rw [if_pos (by simp [digitRun_cons_of_digit hzero])]
        simp [afterDigits, hzero, hnx]
      rw [digitRun_eq_nil_iff.mp hnil, hplain, hbody] at heq
      have := congrArg List.length heq
      simp at this
  · have hplain : subjectBase (body s) base = plainBase base (body s) := by
      rw [subjectBase, plainBase]
      by_cases h0 : base = 0
      · have hno : ¬hexPrefixed (body s) = true := fun h => hhex ⟨.inl h0, h⟩
        simp [h0, hno]
      · simp [h0]
    have htail : subjectTail s base = body s := if_neg hhex
    have hdigits : (subject s base).digits = digitRun (plainBase base (body s)) (body s) := by
      have : (subject s base).digits = digitRun (subjectBase (body s) base)
          (if HexPrefixed base (body s) then (body s).drop 2 else body s) := rfl
      rw [this, hplain, if_neg hhex]
    rw [readersEnd, hsub, hplain, htail, hdigits, bodyEnd, if_neg fun h => hhex h.1]
    by_cases hrun : digitRun (plainBase base (body s)) (body s) ≠ []
    · rw [if_pos hrun]
      exact iff_of_true rfl (.inl hrun)
    · rw [if_neg hrun, digitRun_eq_nil_iff.mp (not_not.mp hrun), or_iff_right hrun]
      constructor
      · intro heq
        have heq' : body s = s := heq
        exact ⟨heq', heq' ▸ hhex⟩
      · exact fun h => h.1

/-- The six functions. -/
def family : List (List UInt8 → Int → Int → Option StrtoResult) :=
  [strtol, strtoll, strtoimax, strtoul, strtoull, strtoumax]

/-- Each of them stores where its reader has stopped. -/
theorem family_strEnd {f : List UInt8 → Int → Int → Option StrtoResult} (hf : f ∈ family)
    {s : List UInt8} (h : Terminated s) (hb : ValidBase base) (errno : Int) :
    ∃ r, f s base errno = some r ∧ r.strEnd = some (readersEnd s base) := by
  have hsigned := @strtolBody_eq (2 ^ 63 - 1) (2 ^ 63) (by decide) (Nat.le_refl _) s h base hb
    errno
  have hunsigned := @strtoulBody_eq ulongMax (by decide) s h base hb errno
  simp only [family, List.mem_cons, List.not_mem_nil, or_false] at hf
  rcases hf with rfl | rfl | rfl | rfl | rfl | rfl
  · exact ⟨_, hsigned, rfl⟩
  · exact ⟨_, hsigned, rfl⟩
  · exact ⟨_, hsigned, rfl⟩
  · exact ⟨_, hunsigned, rfl⟩
  · exact ⟨_, hunsigned, rfl⟩
  · exact ⟨_, hunsigned, rfl⟩

/-- The end pointer is right where there are digits to read, or nothing at all was passed. -/
theorem str_end_iff (f : List UInt8 → Int → Int → Option StrtoResult) (hf : f ∈ family)
    (s : List UInt8) (h : Terminated s) (base : Nat) (hb : ValidBase base) (errno : Int) :
    (∃ r e, f s base errno = some r ∧ r.strEnd = some e ∧ IsEnd s base e) ↔
      (subject s base).digits ≠ [] ∨ body s = s ∧ ¬HexPrefixed base s := by
  obtain ⟨r, hr, hend⟩ := family_strEnd hf h hb errno
  rw [← readersEnd_iff hb]
  constructor
  · rintro ⟨r', e, hr', he, hisEnd⟩
    obtain rfl := Option.some.inj (hr.symm.trans hr')
    obtain rfl := Option.some.inj (hend.symm.trans he)
    exact hisEnd
  · intro hisEnd
    exact ⟨r, _, hr, hend, hisEnd⟩

/-- `strtol("  +", &end, 10)` and `strtol("0xg", &end, 16)`: the first has no digits and leaves
`end` behind the sign, the second has the digit 0 and leaves it behind the `x`. -/
theorem strtol_end_wrong :
    (¬∃ r e, strtol [32, 32, 43, 0] 10 0 = some r ∧ r.strEnd = some e ∧
      IsEnd [32, 32, 43, 0] 10 e) ∧
    ¬∃ r e, strtol [48, 120, 103, 0] 16 0 = some r ∧ r.strEnd = some e ∧
      IsEnd [48, 120, 103, 0] 16 e := by
  have hten : ValidBase 10 := .inr (by decide)
  have hsixteen : ValidBase 16 := .inr (by decide)
  constructor
  · rintro ⟨r, e, hr, he, hisEnd⟩
    rw [isEnd_iff hten] at hisEnd
    have hrun : (strtol [32, 32, 43, 0] 10 0).bind (fun r => r.strEnd) = some [0] := by decide
    rw [hr, Option.bind_some, he, hisEnd] at hrun
    exact absurd hrun (by decide)
  · rintro ⟨r, e, hr, he, hisEnd⟩
    rw [isEnd_iff hsixteen] at hisEnd
    have hrun : (strtol [48, 120, 103, 0] 16 0).bind (fun r => r.strEnd) = some [103, 0] := by
      decide
    rw [hr, Option.bind_some, he, hisEnd] at hrun
    exact absurd hrun (by decide)

/-- `strtoul(" -0x1fz", &end, 0)`. -/
theorem str_end_hex : ∃ r e, strtoul [32, 45, 48, 120, 49, 102, 122, 0] 0 0 = some r ∧
    r.strEnd = some e ∧ IsEnd [32, 45, 48, 120, 49, 102, 122, 0] 0 e :=
  (str_end_iff strtoul (by simp [family]) _ (by decide) 0 (.inl rfl) 0).mpr (.inl (by decide))

end Strings

end EndPointer
