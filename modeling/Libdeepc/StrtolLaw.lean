import Libdeepc.NumberParsing

/-!
# Value and errno of the strtol family

The subject sequence is read off the text independently of the code: leading
space, sign, base prefix, longest digit run. The readers then compute the
clamped value of that run, and no product or sum they form leaves 64 bits.
-/

namespace StrtolLaw

open CString MachineInt Numerals NumberParsing

def isSpaceByte (c : UInt8) : Bool := (9 ≤ c.toNat ∧ c.toNat ≤ 13) ∨ c.toNat = 32

/-- The digit a byte stands for; 36 for a byte that is no digit in any base. -/
def digitValue (c : UInt8) : Nat :=
  if 48 ≤ c.toNat ∧ c.toNat ≤ 57 then c.toNat - 48
  else if 97 ≤ c.toNat ∧ c.toNat ≤ 122 then c.toNat - 97 + 10
  else if 65 ≤ c.toNat ∧ c.toNat ≤ 90 then c.toNat - 65 + 10
  else 36

def isDigitOf (b : Nat) (c : UInt8) : Bool := digitValue c < b

/-- The longest run of digits valid in base `b`, as digit values. -/
def digitRun (b : Nat) (s : List UInt8) : List Nat :=
  (s.takeWhile (isDigitOf b)).map digitValue

def afterDigits (b : Nat) (s : List UInt8) : List UInt8 := s.dropWhile (isDigitOf b)

def isNegative (s : List UInt8) : Bool := s.head? = some (byte '-')

def dropSign (s : List UInt8) : List UInt8 :=
  if s.head? = some (byte '-') ∨ s.head? = some (byte '+') then s.tail else s

def hexPrefixed (s : List UInt8) : Bool :=
  s.head? = some (byte '0') ∧
    (s.tail.head? = some (byte 'x') ∨ s.tail.head? = some (byte 'X'))

def subjectBase (body : List UInt8) (base : Nat) : Nat :=
  if base ≠ 0 then base
  else if hexPrefixed body then 16
  else if body.head? = some (byte '0') then 8 else 10

structure Subject where
  negative : Bool
  base : Nat
  digits : List Nat

/-- The subject sequence of a string for the base argument `base`. -/
def subject (s : List UInt8) (base : Nat) : Subject :=
  let signed := s.dropWhile isSpaceByte
  let body := dropSign signed
  let hex := (base = 0 ∨ base = 16) ∧ hexPrefixed body
  let b := subjectBase body base
  ⟨isNegative signed, b, digitRun b (if hex then body.drop 2 else body)⟩

def Subject.magnitude (t : Subject) : Nat := value t.base t.digits

/-- The exact integer the subject sequence denotes. -/
def Subject.exact (t : Subject) : Int :=
  if t.negative then -(t.magnitude : Int) else t.magnitude

theorem isspace_charVal (c : UInt8) : isspace (charVal c) = isSpaceByte c := by
  have hc := c.toNat_lt
  rw [isspace, isSpaceByte, charVal_eq, decide_eq_decide]
  split <;> omega

theorem digitValue_cases (c : UInt8) :
    (48 ≤ c.toNat ∧ c.toNat ≤ 57 ∧ digitValue c = c.toNat - 48) ∨
    (97 ≤ c.toNat ∧ c.toNat ≤ 122 ∧ digitValue c = c.toNat - 87) ∨
    (65 ≤ c.toNat ∧ c.toNat ≤ 90 ∧ digitValue c = c.toNat - 55) ∨
    ((c.toNat < 48 ∨ 57 < c.toNat) ∧ (c.toNat < 97 ∨ 122 < c.toNat) ∧
      (c.toNat < 65 ∨ 90 < c.toNat) ∧ digitValue c = 36) := by
  rw [digitValue]
  split_ifs <;> omega

theorem toBaseN_charVal {b : Nat} (lo : 2 ≤ b) (hi : b ≤ 36) (c : UInt8) :
    toBaseN b (charVal c) = if isDigitOf b c then (digitValue c : Int) else -1 := by
  have hc := c.toNat_lt
  have hcases := digitValue_cases c
  simp only [toBaseN, isDigitOf, isdigit, charVal_eq, decide_eq_true_eq]
  generalize digitValue c = d at hcases ⊢
  rcases hcases with h | h | h | h <;> split_ifs <;> omega

theorem not_isDigitOf_zero {b : Nat} (hi : b ≤ 36) : isDigitOf b 0 = false := by
  have h : digitValue 0 = 36 := by decide
  simp [isDigitOf, h, hi]

theorem isDigitOf_lt {b : Nat} {c : UInt8} (h : isDigitOf b c = true) : digitValue c < b := by
  simpa [isDigitOf] using h

theorem digitRun_cons_of_digit {b : Nat} {c : UInt8} (h : isDigitOf b c = true)
    (s : List UInt8) : digitRun b (c :: s) = digitValue c :: digitRun b s := by
  simp [digitRun, h]

theorem digitRun_cons_of_not {b : Nat} {c : UInt8} (h : isDigitOf b c = false)
    (s : List UInt8) : digitRun b (c :: s) = [] := by
  simp [digitRun, h]

/-- Bytes valid in a base continue a digit run. -/
theorem digitRun_append {b : Nat} {cs : List UInt8} (h : ∀ c ∈ cs, isDigitOf b c = true)
    (u : List UInt8) : digitRun b (cs ++ u) = cs.map digitValue ++ digitRun b u ∧
      afterDigits b (cs ++ u) = afterDigits b u := by
  induction cs with
  | nil => simp
  | cons c cs ih =>
    have hc := h c List.mem_cons_self
    obtain ⟨hrun, hafter⟩ := ih fun x hx => h x (List.mem_cons_of_mem c hx)
    constructor
    · rw [List.cons_append, digitRun_cons_of_digit hc, hrun]
      rfl
    · rw [List.cons_append, afterDigits, List.dropWhile_cons_of_pos hc]
      exact hafter

theorem ne_zero_of_isDigitOf {b : Nat} (hi : b ≤ 36) {c : UInt8}
    (h : isDigitOf b c = true) : c ≠ 0 := by
  rintro rfl
  rw [not_isDigitOf_zero hi] at h
  cases h

theorem skipDigits_eq {b : Nat} (lo : 2 ≤ b) (hi : b ≤ 36) {s : List UInt8}
    (h : Terminated s) : skipDigits b s = some (afterDigits b s) := by
  induction s with
  | nil => simp [Terminated] at h
  | cons c s ih =>
    rw [skipDigits, toBaseN_charVal lo hi]
    cases hd : isDigitOf b c with
    | false => simp [afterDigits, hd]
    | true =>
      have hne : (digitValue c : Int) ≠ -1 := by omega
      simp only [if_true, ne_eq, hne, not_false_eq_true]
      rw [ih ((terminated_cons_of_ne (ne_zero_of_isDigitOf hi hd)).mp h)]
      simp [afterDigits, hd]

/-- The guard admits a digit exactly when the next value stays within `max`,
and neither the product nor the sum then wraps. -/
theorem posStep_eq {b max n d : Nat} (hmax : max < 2 ^ 64) (hd : d < b) :
    posStep max b n d = if n * b + d ≤ max then some (n * b + d) else none := by
  simp only [posStep, Int.toNat_natCast, cutoff_iff hd max n]
  split
  · next h =>
    rw [toU64_of_lt (by omega : n * b < 2 ^ 64), toU64_of_lt (by omega)]
  · rfl

theorem tdiv_neg_natCast (m b : Nat) : (-(m : Int)).tdiv b = -((m / b : Nat) : Int) := by
  rw [Int.neg_tdiv, Int.ofNat_tdiv]

theorem tmod_neg_natCast (m b : Nat) : (-(m : Int)).tmod b = -((m % b : Nat) : Int) := by
  rw [Int.neg_tmod, Int.ofNat_tmod]

/-- The downward accumulator mirrors the upward one on the negated values. -/
theorem negStep_eq {b max n d : Nat} (hmax : max ≤ 2 ^ 63) (hd : d < b) :
    negStep (-(max : Int)) b (-(n : Int)) d =
      if n * b + d ≤ max then some (-((n * b + d : Nat) : Int)) else none := by
  have hguard : (-(n : Int) > -((max / b : Nat) : Int) ∨
      -(n : Int) = -((max / b : Nat) : Int) ∧ (d : Int) ≤ -((max % b : Nat) : Int) * -1) ↔
      n * b + d ≤ max := by
    rw [← cutoff_iff hd max n]
    constructor
    · rintro (h | ⟨h, h'⟩) <;> omega
    · rintro (h | ⟨h, h'⟩) <;> omega
  simp only [negStep, tdiv_neg_natCast, tmod_neg_natCast, hguard]
  split
  · next h =>
    have hmul : -(n : Int) * b = -((n * b : Nat) : Int) := by push_cast; ring
    have hprod : toSigned 64 (-((n * b : Nat) : Int)) = -((n * b : Nat) : Int) :=
      toSigned_of_inSigned (by decide) ⟨by norm_num; omega, by norm_num; omega⟩
    have hsum : toSigned 64 (-((n * b + d : Nat) : Int)) = -((n * b + d : Nat) : Int) :=
      toSigned_of_inSigned (by decide) ⟨by norm_num; omega, by norm_num; omega⟩
    have hsub : -((n * b : Nat) : Int) - d = -((n * b + d : Nat) : Int) := by push_cast; ring
    rw [hmul, hprod, hsub, hsum]
  · rfl

/-- The clamped outcome of reading the digits `ds` after the accumulator `n`. -/
def clampedRead (b max n : Nat) (s : List UInt8) : ReadInt Nat :=
  let total := accumulate b n (digitRun b s)
  ⟨if total ≤ max then total else max, afterDigits b s, decide (max < total)⟩

theorem clampedRead_cons_of_not {b : Nat} {c : UInt8} (h : isDigitOf b c = false)
    {max n : Nat} (hn : n ≤ max) (s : List UInt8) :
    clampedRead b max n (c :: s) = ⟨n, c :: s, false⟩ := by
  simp [clampedRead, digitRun_cons_of_not h, afterDigits, h, hn]

theorem clampedRead_cons_of_le {b : Nat} {c : UInt8} (h : isDigitOf b c = true)
    (max n : Nat) (s : List UInt8) :
    clampedRead b max n (c :: s) = clampedRead b max (n * b + digitValue c) s := by
  simp [clampedRead, digitRun_cons_of_digit h, afterDigits, h]

theorem clampedRead_of_gt {b : Nat} (hb : 0 < b) {max n : Nat} (hn : max < n)
    (s : List UInt8) : clampedRead b max n s = ⟨max, afterDigits b s, true⟩ := by
  have hge := le_accumulate hb n (digitRun b s)
  simp only [clampedRead]
  rw [if_neg (by omega), decide_eq_true (by omega)]

/-- The loop invariant of `read_pos_int`: the accumulator is the exact value
of the digits read, as long as it is within the limit. -/
theorem readPosInt_eq {b max : Nat} (lo : 2 ≤ b) (hi : b ≤ 36) (hmax : max < 2 ^ 64)
    {s : List UInt8} (h : Terminated s) {n : Nat} (hn : n ≤ max) :
    readPosInt max b s n = some (clampedRead b max n s) := by
  induction s generalizing n with
  | nil => simp [Terminated] at h
  | cons c s ih =>
    simp only [readPosInt, toBaseN_charVal lo hi]
    cases hd : isDigitOf b c with
    | false => simp [clampedRead_cons_of_not hd hn]
    | true =>
      have hne : (digitValue c : Int) ≠ -1 := by omega
      have ht := (terminated_cons_of_ne (ne_zero_of_isDigitOf hi hd)).mp h
      simp only [if_true, hne, if_false, Int.toNat_natCast,
        posStep_eq hmax (isDigitOf_lt hd), clampedRead_cons_of_le hd]
      by_cases hle : n * b + digitValue c ≤ max
      · simp only [hle, if_true]
        exact ih ht hle
      · simp only [hle, if_false, skipDigits_eq lo hi ht, Option.map_some,
          clampedRead_of_gt (by omega : 0 < b) (Nat.lt_of_not_le hle)]

def negated (r : ReadInt Nat) : ReadInt Int := ⟨-(r.result : Int), r.str, r.overflow⟩

theorem readNegInt_eq {b max : Nat} (lo : 2 ≤ b) (hi : b ≤ 36) (hmax : max ≤ 2 ^ 63)
    {s : List UInt8} (h : Terminated s) {n : Nat} (hn : n ≤ max) :
    readNegInt (-(max : Int)) b s (-(n : Int)) = some (negated (clampedRead b max n s)) := by
  induction s generalizing n with
  | nil => simp [Terminated] at h
  | cons c s ih =>
    simp only [readNegInt, toBaseN_charVal lo hi]
    cases hd : isDigitOf b c with
    | false => simp [clampedRead_cons_of_not hd hn, negated]
    | true =>
      have hne : (digitValue c : Int) ≠ -1 := by omega
      have ht := (terminated_cons_of_ne (ne_zero_of_isDigitOf hi hd)).mp h
      simp only [if_true, hne, if_false,
        negStep_eq hmax (isDigitOf_lt hd), clampedRead_cons_of_le hd]
      by_cases hle : n * b + digitValue c ≤ max
      · simp only [hle, if_true]
        exact ih ht hle
      · simp only [hle, if_false, skipDigits_eq lo hi ht, Option.map_some,
          clampedRead_of_gt (by omega : 0 < b) (Nat.lt_of_not_le hle), negated]

theorem terminated_dropWhile {p : UInt8 → Bool} (hp : p 0 = false) {s : List UInt8}
    (h : Terminated s) : Terminated (s.dropWhile p) := by
  induction s with
  | nil => exact h
  | cons c s ih =>
    cases hc : p c with
    | false => simpa [hc] using h
    | true =>
      have hne : c ≠ 0 := by rintro rfl; rw [hp] at hc; cases hc
      simpa [hc] using ih ((terminated_cons_of_ne hne).mp h)

theorem skipSpace_eq {s : List UInt8} (h : Terminated s) :
    skipSpace s = some (s.dropWhile isSpaceByte) := by
  induction s with
  | nil => simp [Terminated] at h
  | cons c s ih =>
    rw [skipSpace, isspace_charVal]
    cases hc : isSpaceByte c with
    | false => simp [hc]
    | true =>
      have hne : c ≠ 0 := by rintro rfl; simp [isSpaceByte] at hc
      simp [hc, ih ((terminated_cons_of_ne hne).mp h)]

theorem exists_cons_of_terminated {s : List UInt8} (h : Terminated s) :
    ∃ c t, s = c :: t := by
  cases s with
  | nil => simp [Terminated] at h
  | cons c t => exact ⟨c, t, rfl⟩

theorem terminated_tail {s : List UInt8} (h : Terminated s) (hs : s.head? ≠ some 0) :
    Terminated s.tail := by
  obtain ⟨c, t, rfl⟩ := exists_cons_of_terminated h
  exact (terminated_cons_of_ne (by simpa using hs)).mp h

theorem terminated_dropSign {s : List UInt8} (h : Terminated s) :
    Terminated (dropSign s) := by
  rw [dropSign]
  split
  · next hsign =>
    apply terminated_tail h
    rcases hsign with hsign | hsign <;> rw [hsign] <;> decide
  · exact h

theorem atoiStart_eq {s : List UInt8} (h : Terminated s) :
    atoiStart s = some (if isNegative (s.dropWhile isSpaceByte) then .neg else .pos,
      dropSign (s.dropWhile isSpaceByte)) := by
  have ht : Terminated (s.dropWhile isSpaceByte) :=
    terminated_dropWhile (by decide) h
  obtain ⟨c, t, hct⟩ := exists_cons_of_terminated ht
  have hpm : byte '+' ≠ byte '-' := by decide
  simp only [atoiStart, skipSpace_eq h, hct, Option.bind_eq_bind, Option.bind_some,
    List.head?_cons, List.tail_cons, isNegative, dropSign, Option.some.injEq]
  by_cases hm : c = byte '-'
  · simp [hm]
  · by_cases hp : c = byte '+'
    · simp [hp, hpm]
    · simp [hm, hp]

/-- What the digits of the subject sequence are read from. -/
def subjectTail (s : List UInt8) (base : Nat) : List UInt8 :=
  let body := dropSign (s.dropWhile isSpaceByte)
  if (base = 0 ∨ base = 16) ∧ hexPrefixed body then body.drop 2 else body

theorem isDigitOf_byte_zero {b : Nat} (lo : 2 ≤ b) : isDigitOf b (byte '0') = true := by
  have h : digitValue (byte '0') = 0 := by decide
  simp [isDigitOf, h]
  omega

/-- A leading zero can be dropped before the digits are read. -/
theorem value_digitRun_zero {b : Nat} (lo : 2 ≤ b) (s : List UInt8) :
    value b (digitRun b (byte '0' :: s)) = value b (digitRun b s) ∧
      afterDigits b (byte '0' :: s) = afterDigits b s := by
  have h : digitValue (byte '0') = 0 := by decide
  have hd := isDigitOf_byte_zero lo
  constructor
  · rw [digitRun_cons_of_digit hd, h]
    simp [value]
  · simp [afterDigits, hd]

def ValidBase (base : Nat) : Prop := base = 0 ∨ 2 ≤ base ∧ base ≤ 36

theorem subject_base_bounds {s : List UInt8} {base : Nat} (hb : ValidBase base) :
    2 ≤ (subject s base).base ∧ (subject s base).base ≤ 36 := by
  simp only [subject, subjectBase]
  rcases hb with rfl | hb
  · split_ifs <;> omega
  · rw [if_pos (by omega)]
    exact hb

/-- The prefix stage leaves a text whose digit run has the same value and the
same end as the run it is called on. -/
theorem basePrefix_eq {body : List UInt8} (h : Terminated body) {base : Nat}
    (lo : 2 ≤ subjectBase body base) (ret : StrtoRet) (errno : Int) :
    ∃ str, basePrefix ret body base errno = some ⟨ret, str, subjectBase body base, errno⟩ ∧
      Terminated str ∧
      let b := subjectBase body base
      let tail := if (base = 0 ∨ base = 16) ∧ hexPrefixed body then body.drop 2 else body
      value b (digitRun b str) = value b (digitRun b tail) ∧
        afterDigits b str = afterDigits b tail := by
  obtain ⟨c, t, rfl⟩ := exists_cons_of_terminated h
  by_cases hc : c = byte '0'
  · subst hc
    have ht : Terminated t := (terminated_cons_of_ne (by decide)).mp h
    obtain ⟨x, u, rfl⟩ := exists_cons_of_terminated ht
    have hzero := value_digitRun_zero lo (x :: u)
    by_cases hbase : base = 0 ∨ base = 16
    · by_cases hx : x = byte 'x' ∨ x = byte 'X'
      · have hhex : hexPrefixed (byte '0' :: x :: u) = true := by simpa [hexPrefixed] using hx
        have h16 : subjectBase (byte '0' :: x :: u) base = 16 := by
          rcases hbase with rfl | rfl <;> simp [subjectBase, hhex]
        have hu : Terminated u := by
          refine (terminated_cons_of_ne ?_).mp ht
          rcases hx with rfl | rfl <;> decide
        refine ⟨u, ?_, hu, ?_⟩
        · rcases hbase with rfl | rfl <;> simp [basePrefix, hx, h16]
        · simp [hbase, hhex]
      · have hhex : hexPrefixed (byte '0' :: x :: u) = false := by simpa [hexPrefixed] using hx
        refine ⟨x :: u, ?_, ht, ?_⟩
        · rcases hbase with rfl | rfl <;> simp [basePrefix, hx, subjectBase, hhex]
        · simpa [hhex] using ⟨hzero.1.symm, hzero.2.symm⟩
    · have hne : base ≠ 0 := fun h => hbase (Or.inl h)
      have hne' : (base : Int) ≠ 16 := by omega
      refine ⟨x :: u, ?_, ht, ?_⟩
      · simp [basePrefix, hne', subjectBase, hne]
      · simpa [hbase] using ⟨hzero.1.symm, hzero.2.symm⟩
  · have hhex : hexPrefixed (c :: t) = false := by simp [hexPrefixed, hc]
    refine ⟨c :: t, ?_, h, ?_⟩
    · by_cases hbase : base = 0 <;> simp [basePrefix, hc, subjectBase, hhex, hbase]
    · simp [hhex]

/-- After `strto_start` on a valid base the digits to read have the value of
the subject sequence. -/
theorem strtoStart_valid {s : List UInt8} (h : Terminated s) {base : Nat}
    (hb : ValidBase base) (errno : Int) :
    ∃ str, strtoStart s base errno = some ⟨if (subject s base).negative then .neg else .pos,
        str, (subject s base).base, errno⟩ ∧ Terminated str ∧
      value (subject s base).base (digitRun (subject s base).base str) =
        (subject s base).magnitude ∧
      afterDigits (subject s base).base str =
        afterDigits (subject s base).base (subjectTail s base) := by
  have hvalid : ¬((base : Int) < 0 ∨ (base : Int) = 1 ∨ (base : Int) > 36) := by
    rcases hb with rfl | hb <;> omega
  have hbody := terminated_dropSign (terminated_dropWhile (p := isSpaceByte) (by decide) h)
  have hlo := (subject_base_bounds (s := s) hb).1
  obtain ⟨str, hstr, hterm, hval, hafter⟩ := basePrefix_eq hbody hlo
    (if isNegative (s.dropWhile isSpaceByte) then .neg else .pos) errno
  refine ⟨str, ?_, hterm, hval, hafter⟩
  rw [strtoStart, if_neg hvalid, atoiStart_eq h]
  exact hstr

/-- `n` is the accumulator of `read_neg_int` after the digits `ds`. -/
def NegReaches (max b : Nat) (ds : List Nat) (n : Int) : Prop :=
  ds.foldlM (fun n (d : Nat) => negStep (-(max : Int)) b n d) (0 : Int) = some n

theorem negFold_eq {max b : Nat} (hmax : max ≤ 2 ^ 63) {ds : List Nat}
    (hds : ∀ d ∈ ds, d < b) {n : Nat} (hn : n ≤ max) {m : Int}
    (h : ds.foldlM (fun n (d : Nat) => negStep (-(max : Int)) b n d) (-(n : Int)) = some m) :
    ∃ k : Nat, m = -(k : Int) ∧ k ≤ max := by
  induction ds generalizing n with
  | nil => exact ⟨n, by simpa using h.symm, hn⟩
  | cons d ds ih =>
    rw [List.foldlM_cons, negStep_eq hmax (hds d List.mem_cons_self)] at h
    by_cases hle : n * b + d ≤ max
    · simp only [hle, if_true] at h
      exact ih (fun e he => hds e (List.mem_cons_of_mem d he)) hle h
    · simp [hle] at h

/-- Whatever the accumulator, an admitted digit keeps product and sum within the limit. -/
theorem posStep_exact {max b n d : Nat} (hmax : max < 2 ^ 64) (hd : d < b)
    (hstep : (posStep max b n d).isSome) : n * b ≤ max ∧ n * b + d ≤ max := by
  have hle : n * b + d ≤ max := by
    by_contra hgt
    rw [posStep_eq hmax hd, if_neg hgt] at hstep
    cases hstep
  omega

theorem negStep_exact {max b : Nat} (hmax : max ≤ 2 ^ 63) {ds : List Nat} {d : Nat}
    (hds : ∀ e ∈ ds, e < b) (hd : d < b) {n : Int} (hn : NegReaches max b ds n)
    (hstep : (negStep (-(max : Int)) b n d).isSome) :
    InSigned 64 (n * b) ∧ InSigned 64 (n * b - d) := by
  have hfold : ds.foldlM (fun n (d : Nat) => negStep (-(max : Int)) b n d) (-((0 : Nat) : Int)) =
      some n := hn
  obtain ⟨k, rfl, _⟩ := negFold_eq hmax hds (Nat.zero_le max) hfold
  have hle : k * b + d ≤ max := by
    by_contra hgt
    rw [negStep_eq hmax hd, if_neg hgt] at hstep
    cases hstep
  have hmul : -(k : Int) * b = -((k * b : Nat) : Int) := by push_cast; ring
  rw [hmul]
  constructor <;> constructor <;> norm_num <;> omega

def InvalidBase (base : Int) : Prop := base < 0 ∨ base = 1 ∨ 36 < base

def clamp (max min v : Int) : Int := if max < v then max else if v < min then min else v

/-- The law of a signed member: clamped value, ERANGE exactly when clamping changed it. -/
def SignedLaw (f : List UInt8 → Int → Int → Option StrtoResult) (max min : Int) : Prop :=
  ∀ s base errno, Terminated s → ∃ r, f s base errno = some r ∧
    (InvalidBase base → r.value = 0 ∧ r.errno = einval) ∧
    (¬InvalidBase base →
      let v := (subject s base.toNat).exact
      r.value = clamp max min v ∧ r.errno = if clamp max min v ≠ v then erange else errno)

/-- The law of an unsigned member: magnitude, negated modulo `2 ^ 64` after `-`,
or the limit and ERANGE when the magnitude is beyond it. -/
def UnsignedLaw (f : List UInt8 → Int → Int → Option StrtoResult) (max : Nat) : Prop :=
  ∀ s base errno, Terminated s → ∃ r, f s base errno = some r ∧
    (InvalidBase base → r.value = 0 ∧ r.errno = einval) ∧
    (¬InvalidBase base →
      let t := subject s base.toNat
      (t.magnitude ≤ max → r.errno = errno ∧ r.value =
        if t.negative then -(t.magnitude : Int) % (2 ^ 64 : Int) else t.magnitude) ∧
      (max < t.magnitude → r.errno = erange ∧ r.value = max))

theorem strtoStart_invalid {base : Int} (hb : InvalidBase base) (s : List UInt8) (errno : Int) :
    strtoStart s base errno = some ⟨.err, s, base, einval⟩ := by
  rw [strtoStart, if_pos]
  rw [InvalidBase] at hb
  omega

theorem validBase_toNat {base : Int} (hb : ¬InvalidBase base) :
    ValidBase base.toNat ∧ (base.toNat : Int) = base := by
  rw [InvalidBase] at hb
  rw [ValidBase]
  omega

/-- What `strto_start` and the upward reader deliver together. -/
theorem readPosInt_subject {str : List UInt8} (h : Terminated str) {t : Subject}
    (hbounds : 2 ≤ t.base ∧ t.base ≤ 36) (hval : value t.base (digitRun t.base str) = t.magnitude)
    {max : Nat} (hmax : max < 2 ^ 64) :
    readPosInt max t.base str 0 =
      some ⟨if t.magnitude ≤ max then t.magnitude else max, afterDigits t.base str,
        decide (max < t.magnitude)⟩ := by
  rw [readPosInt_eq hbounds.1 hbounds.2 hmax h (Nat.zero_le max), clampedRead]
  have hacc : accumulate t.base 0 (digitRun t.base str) = t.magnitude := hval
  rw [hacc]

theorem readNegInt_subject {str : List UInt8} (h : Terminated str) {t : Subject}
    (hbounds : 2 ≤ t.base ∧ t.base ≤ 36) (hval : value t.base (digitRun t.base str) = t.magnitude)
    {max : Nat} (hmax : max ≤ 2 ^ 63) :
    readNegInt (-(max : Int)) t.base str 0 =
      some ⟨-((if t.magnitude ≤ max then t.magnitude else max : Nat) : Int),
        afterDigits t.base str, decide (max < t.magnitude)⟩ := by
  have hread := readNegInt_eq hbounds.1 hbounds.2 hmax h (Nat.zero_le max)
  have hacc : accumulate t.base 0 (digitRun t.base str) = t.magnitude := hval
  simp only [clampedRead, negated, hacc] at hread
  exact hread

/-- The result of a signed member on a valid base, with its end pointer. -/
theorem strtolBody_eq {pos neg : Nat} (hpos : pos < 2 ^ 63) (hneg : neg ≤ 2 ^ 63)
    {s : List UInt8} (h : Terminated s) {base : Nat} (hb : ValidBase base) (errno : Int) :
    strtolBody pos (-(neg : Int)) s base errno =
      let t := subject s base
      let limit := if t.negative then neg else pos
      let kept := if t.magnitude ≤ limit then t.magnitude else limit
      some ⟨if t.negative then -(kept : Int) else kept,
        some (afterDigits t.base (subjectTail s base)),
        if limit < t.magnitude then erange else errno⟩ := by
  obtain ⟨str, hstart, hterm, hval, hafter⟩ := strtoStart_valid h hb errno
  have hbounds := subject_base_bounds (s := s) hb
  generalize subject s base = t at hstart hval hafter hbounds ⊢
  cases hsign : t.negative with
  | false =>
    have hread := readPosInt_subject hterm hbounds hval (by omega : pos < 2 ^ 64)
    have hlt : (if t.magnitude ≤ pos then t.magnitude else pos) < 2 ^ 63 := by split <;> omega
    have hsigned : toSigned 64 ((if t.magnitude ≤ pos then t.magnitude else pos : Nat) : Int) =
        (if t.magnitude ≤ pos then t.magnitude else pos : Nat) :=
      toSigned_of_inSigned (by decide) ⟨by norm_num; omega, by norm_num; omega⟩
    simp only [strtolBody, hstart, hsign, Option.bind_eq_bind, Option.bind_some,
      Int.toNat_natCast, hread, hafter, hsigned, Bool.false_eq_true, if_false, decide_eq_true_eq]
  | true =>
    have hread := readNegInt_subject hterm hbounds hval hneg
    simp only [strtolBody, hstart, hsign, Option.bind_eq_bind, Option.bind_some, hread, hafter,
      if_true, decide_eq_true_eq]

theorem strtoulBody_eq {max : Nat} (hmax : max < 2 ^ 64)
    {s : List UInt8} (h : Terminated s) {base : Nat} (hb : ValidBase base) (errno : Int) :
    strtoulBody max s base errno =
      let t := subject s base
      some ⟨if max < t.magnitude then max
          else if t.negative then toU64 (2 ^ 64 - t.magnitude) else t.magnitude,
        some (afterDigits t.base (subjectTail s base)),
        if max < t.magnitude then erange else errno⟩ := by
  obtain ⟨str, hstart, hterm, hval, hafter⟩ := strtoStart_valid h hb errno
  have hbounds := subject_base_bounds (s := s) hb
  generalize subject s base = t at hstart hval hafter hbounds ⊢
  have hread := readPosInt_subject hterm hbounds hval hmax
  by_cases hgt : max < t.magnitude
  · have hnot : ¬t.magnitude ≤ max := by omega
    cases hsign : t.negative <;>
      simp [strtoulBody, hstart, hsign, hread, hafter, hgt, hnot]
  · have hle : t.magnitude ≤ max := by omega
    cases hsign : t.negative <;>
      simp [strtoulBody, hstart, hsign, hread, hafter, hgt, hle]

theorem strtolBody_law {pos neg : Nat} (hpos : pos < 2 ^ 63) (hneg : neg ≤ 2 ^ 63) :
    SignedLaw (strtolBody pos (-(neg : Int))) pos (-(neg : Int)) := by
  intro s base errno h
  by_cases hb : InvalidBase base
  · refine ⟨⟨0, none, einval⟩, ?_, fun _ => ⟨rfl, rfl⟩, fun hv => absurd hb hv⟩
    simp [strtolBody, strtoStart_invalid hb]
  · obtain ⟨hvalid, hcast⟩ := validBase_toNat hb
    have heq := strtolBody_eq hpos hneg h hvalid errno
    rw [hcast] at heq
    refine ⟨_, heq, fun hv => absurd hv hb, fun _ => ?_⟩
    simp only [Subject.exact, clamp]
    generalize subject s base.toNat = t
    by_cases hsign : t.negative = true
    · simp only [hsign, if_true]
      constructor <;> split_ifs <;> omega
    · simp only [hsign]
      constructor <;> split_ifs <;> omega

theorem strtoulBody_law {max : Nat} (hmax : max < 2 ^ 64) :
    UnsignedLaw (strtoulBody max) max := by
  intro s base errno h
  by_cases hb : InvalidBase base
  · refine ⟨⟨0, none, einval⟩, ?_, fun _ => ⟨rfl, rfl⟩, fun hv => absurd hb hv⟩
    simp [strtoulBody, strtoStart_invalid hb]
  · obtain ⟨hvalid, hcast⟩ := validBase_toNat hb
    have heq := strtoulBody_eq hmax h hvalid errno
    rw [hcast] at heq
    refine ⟨_, heq, fun hv => absurd hv hb, fun _ => ⟨fun hle => ?_, fun hgt => ?_⟩⟩
    · have hnot : ¬max < (subject s base.toNat).magnitude := by omega
      simp only [hnot, if_false, true_and]
      cases (subject s base.toNat).negative with
      | false => simp
      | true =>
        simp only [if_true, toU64]
        omega
    · simp only [hgt, if_true, and_self]

/-- The value and errno law of all six functions, with no intermediate product
or sum of either accumulator outside its 64-bit type. -/
theorem strtol_family_law :
    SignedLaw strtol longMax longMin ∧ SignedLaw strtoll longMax longMin ∧
    SignedLaw strtoimax longMax longMin ∧
    UnsignedLaw strtoul ulongMax ∧ UnsignedLaw strtoull ulongMax ∧
    UnsignedLaw strtoumax ulongMax ∧
    (∀ max b n d : Nat, max ≤ ulongMax → d < b → (posStep max b n d).isSome →
      n * b < 2 ^ 64 ∧ n * b + d < 2 ^ 64) ∧
    (∀ (max b : Nat) (ds : List Nat) (n : Int) (d : Nat), -(max : Int) ≥ longMin →
      (∀ e ∈ ds, e < b) → d < b → NegReaches max b ds n →
      (negStep (-(max : Int)) b n d).isSome → InSigned 64 (n * b) ∧ InSigned 64 (n * b - d)) := by
  have hsigned : SignedLaw (strtolBody longMax longMin) longMax longMin :=
    strtolBody_law (by decide : 2 ^ 63 - 1 < 2 ^ 63) (le_refl (2 ^ 63))
  have hunsigned : UnsignedLaw (strtoulBody ulongMax) ulongMax := strtoulBody_law (by decide)
  refine ⟨hsigned, hsigned, hsigned, hunsigned, hunsigned, hunsigned, ?_, ?_⟩
  · intro max b n d hmax hd hstep
    have hlt : max < 2 ^ 64 := by rw [ulongMax] at hmax; omega
    have := posStep_exact hlt hd hstep
    omega
  · intro max b ds n d hmax hds hd hreach hstep
    have hle : max ≤ 2 ^ 63 := by rw [longMin] at hmax; omega
    exact negStep_exact hle hds hd hreach hstep

/-- `" -0x1F"` in base 16, `"-1"` as an unsigned number, and the step from 5 to 53. -/
theorem strtol_family_law_hex :
    (∃ r, strtol [32, 45, 48, 120, 49, 70, 0] 16 7 = some r ∧ r.value = -31 ∧ r.errno = 7) ∧
    (∃ r, strtoul [45, 49, 0] 10 7 = some r ∧ r.value = 18446744073709551615 ∧ r.errno = 7) ∧
    5 * 10 + 3 < 2 ^ 64 ∧ InSigned 64 (-5 * 10 - 3) := by
  obtain ⟨hsigned, _, _, hunsigned, _, _, hpos, hneg⟩ := strtol_family_law
  refine ⟨?_, ?_, ?_, ?_⟩
  · obtain ⟨r, hr, _, hvalid⟩ := hsigned [32, 45, 48, 120, 49, 70, 0] 16 7 (by decide)
    have h := hvalid (by rw [InvalidBase]; decide)
    exact ⟨r, hr, h.1.trans (by decide), h.2.trans (by decide)⟩
  · obtain ⟨r, hr, _, hvalid⟩ := hunsigned [45, 49, 0] 10 7 (by decide)
    have h := (hvalid (by rw [InvalidBase]; decide)).1 (by decide)
    exact ⟨r, hr, h.2.trans (by decide), h.1⟩
  · exact (hpos ulongMax 10 5 3 (by decide) (by decide) (by decide)).2
  · exact (hneg (2 ^ 63) 10 [5] (-5) 3 (by decide) (by decide) (by decide)
      (by rw [NegReaches]; decide) (by decide)).2

end StrtolLaw
