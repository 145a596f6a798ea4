import Libdeepc.FormatGrammar

/-!
# The language of vprintf_parse_spec

Each stage of the parser is described on the text of its part. Together they
read the text of a valid directive to a spec with the layout the directive asks
for, and reject every text that does not begin with one.
-/

namespace FormatParser

open CString MachineInt Numerals NumberParsing StrtolLaw PrintfWrite PrintfShared IntRendering
open FormatGrammar

section Numbers

theorem isdigit_charVal (c : UInt8) : isdigit (charVal c) = isDigitOf 10 c := by
  have hc := c.toNat_lt
  have hcases := digitValue_cases c
  rw [isdigit, isDigitOf, charVal_eq, decide_eq_decide]
  split <;> omega

/-- A text that begins with neither space nor sign is its own subject sequence. -/
theorem subject_plain {c : UInt8} {s : List UInt8} (hspace : isSpaceByte c = false)
    (hminus : c ≠ byte '-') (hplus : c ≠ byte '+') :
    subject (c :: s) 10 = ⟨false, 10, digitRun 10 (c :: s)⟩ ∧ subjectTail (c :: s) 10 = c :: s := by
  simp [subject, subjectTail, subjectBase, dropSign, isNegative, hspace, hminus, hplus]

/-- `strtol` on a digit sequence, as the parser calls it. -/
theorem strtol_decimal {ds : List (Fin 10)} (hds : ds ≠ []) {u : List UInt8} (hu : Terminated u)
    (hnext : NoDigit u) (errno : Int) :
    strtol (ds.map decimal ++ u) 10 errno =
      some ⟨(if numberOf ds ≤ 2 ^ 63 - 1 then numberOf ds else 2 ^ 63 - 1 : Nat), some u,
        if 2 ^ 63 - 1 < numberOf ds then erange else errno⟩ := by
  obtain ⟨d, ds', rfl⟩ := List.exists_cons_of_ne_nil hds
  have hdig : ∀ c ∈ (d :: ds').map decimal, isDigitOf 10 c = true := by
    intro c hc
    obtain ⟨e, _, rfl⟩ := List.mem_map.mp hc
    exact (decimal_spec e).1
  have hval : ((d :: ds').map decimal).map digitValue = (d :: ds').map Fin.val := by
    rw [List.map_map]
    exact List.map_congr_left fun e _ => (decimal_spec e).2.1
  have hterm : Terminated ((d :: ds').map decimal ++ u) := List.mem_append_right _ hu
  obtain ⟨hspace, hminus, hplus, _⟩ := decimal_plain d
  obtain ⟨hrun, hafter⟩ := digitRun_append hdig u
  obtain ⟨hnil, hstay⟩ := digitRun_of_noDigit hnext
  rw [hnil, List.append_nil, hval] at hrun
  rw [hstay] at hafter
  obtain ⟨hsubject, htail⟩ := subject_plain (s := ds'.map decimal ++ u) hspace hminus hplus
  have heq := @strtolBody_eq (2 ^ 63 - 1) (2 ^ 63) (by decide) le_rfl _ hterm 10
    (Or.inr (by decide)) errno
  rw [List.map_cons, List.cons_append] at heq hrun hafter ⊢
  rw [hsubject, htail] at heq
  simp only [Subject.magnitude, hrun, hafter, Bool.false_eq_true, if_false] at heq
  exact heq

/-- A literal number is stored when it is at most `INT_MAX`, and an error otherwise. -/
theorem parseNumber_eq {ds : List (Fin 10)} (hds : ds ≠ []) {u : List UInt8} (hu : Terminated u)
    (hnext : NoDigit u) (p : ParseState) (set : VprintSpec → Int → VprintSpec)
    (stage : UInt8 → ParseState → Option ParseState) :
    parseNumber { p with format := ds.map decimal ++ u } set stage =
      if numberOf ds < 2 ^ 31 then
        nextChar { p with format := u, spec := set p.spec (numberOf ds) } stage
      else some ({ p with format := u }.fail erange) := by
  simp only [parseNumber, strtol_decimal hds hu hnext, Option.bind_eq_bind, Option.bind_some]
  by_cases hfit : numberOf ds < 2 ^ 31
  · have hle : numberOf ds ≤ 2 ^ 63 - 1 := by omega
    have hno : ¬2 ^ 63 - 1 < numberOf ds := by omega
    have hmax : ¬((numberOf ds : Nat) : Int) > intMax := by rw [intMax]; omega
    simp only [hle, hno, hmax, hfit, if_true, if_false]
  · have hmax : ((if numberOf ds ≤ 2 ^ 63 - 1 then numberOf ds else 2 ^ 63 - 1 : Nat) : Int) >
        intMax := by
      rw [intMax]
      split <;> omega
    simp only [hmax, hfit, if_true, if_false]
    rfl

end Numbers

section Stages

/-- Where a stage is skipped the next one sees the same character. -/
theorem nextChar_congr {p : ParseState} {stage stage' : UInt8 → ParseState → Option ParseState}
    (h : ∀ c u, p.format = c :: u → stage c { p with format := u } =
      stage' c { p with format := u }) : nextChar p stage = nextChar p stage' := by
  unfold nextChar
  cases hf : p.format with
  | nil => rfl
  | cons c u =>
    by_cases hc : c = 0
    · simp [hc]
    · simpa [hc] using h c u hf

theorem nextChar_cons {p : ParseState} {c : UInt8} (hc : c ≠ 0) (u : List UInt8)
    (stage : UInt8 → ParseState → Option ParseState) :
    nextChar { p with format := c :: u } stage = stage c { p with format := u } := by
  simp [nextChar, hc]

/-- How the code treats a modifier: only `hh` and `h` reach the length, the
others are lost in `conv`. -/
def setLength (spec : VprintSpec) : VprintfLength → VprintSpec
  | .none => spec
  | .hh => { spec with length := .hh }
  | .h => { spec with length := .h }
  | len => { spec with conv := convOfLength len }

theorem parseLength_eq (len : VprintfLength) {u : List UInt8} (hend : LengthEnd len u)
    (p : ParseState) :
    nextChar { p with format := lengthText len ++ u } parseLength =
      nextChar { p with format := u, spec := setLength p.spec len } parseConv := by
  cases len with
  | none =>
    refine nextChar_congr fun c v hv => ?_
    have hu : u = c :: v := hv
    have hc := hend c (by rw [hu]; rfl)
    simp only [List.mem_cons, List.not_mem_nil, or_false, not_or] at hc
    simp [parseLength, hc]
  | h =>
    cases u with
    | nil => rfl
    | cons c v =>
      have hc : c ≠ byte 'h' := by simpa using hend c rfl
      simp only [lengthText, List.singleton_append, nextChar_cons (by decide : byte 'h' ≠ 0)]
      simp [parseLength, hc, setLength]
  | l =>
    cases u with
    | nil => rfl
    | cons c v =>
      have hc : c ≠ byte 'l' := by simpa using hend c rfl
      have hl : byte 'l' ≠ byte 'h' := by decide
      simp only [lengthText, List.singleton_append, nextChar_cons (by decide : byte 'l' ≠ 0)]
      simp [parseLength, hc, hl, setLength]
  | hh => rfl
  | ll => rfl
  | j => rfl
  | z => rfl
  | t => rfl
  | L => rfl

def setPrecision (spec : VprintSpec) : Precision → List (BitVec 64) →
    Option (VprintSpec × List (BitVec 64))
  | .absent, args => some (spec, args)
  | .star, args => do
    let (a, args) ← vaArg args
    some ({ spec with precisionSet := decide (0 ≤ slotInt a), precision := slotInt a }, args)
  | .number ds, args =>
    some ({ spec with precisionSet := true, precision := numberOf ds }, args)

theorem parsePrecision_eq (pr : Precision) {u : List UInt8} (hu : Terminated u)
    (hend : PrecisionEnd pr u) (p : ParseState) :
    nextChar { p with format := pr.text ++ u } parsePrecision =
      if numberOf pr.digits < 2 ^ 31 then
        (setPrecision p.spec pr p.args).bind fun (spec, args) =>
          nextChar { p with format := u, spec := spec, args := args } parseLength
      else some ({ p with format := u, spec := { p.spec with precisionSet := true } }.fail
        erange) := by
  have hdot : byte '.' ≠ 0 := by decide
  cases pr with
  | absent =>
    refine nextChar_congr fun c v hv => ?_
    have hc : c ≠ byte '.' := by
      have hu : u = c :: v := hv
      simpa using hend c (by rw [hu]; rfl)
    simp [parsePrecision, hc]
  | star =>
    have hfit : numberOf (Precision.digits .star) < 2 ^ 31 := by decide
    simp only [Precision.text, List.cons_append, nextChar_cons hdot, List.nil_append, if_pos hfit]
    cases hargs : p.args with
    | nil => simp [parsePrecision, setPrecision, vaArg]
    | cons a args =>
      by_cases hneg : slotInt a < 0
      · have hpos : ¬0 ≤ slotInt a := by omega
        simp [parsePrecision, setPrecision, vaArg, hneg, hpos]
      · have hpos : 0 ≤ slotInt a := by omega
        simp [parsePrecision, setPrecision, vaArg, hneg, hpos]
  | number ds =>
    cases ds with
    | nil =>
      have hfit : numberOf (Precision.digits (.number [])) < 2 ^ 31 := by decide
      simp only [Precision.text, List.map_nil, List.cons_append, List.nil_append,
        nextChar_cons hdot, if_pos hfit]
      cases u with
      | nil => exact absurd hu not_terminated_nil
      | cons c v =>
        have hstar : c ≠ byte '*' := by simpa using hend.2 rfl c rfl
        have hdigit : isdigit (charVal c) = false := (isdigit_charVal c).trans (hend.1 c rfl)
        have hzero : numberOf [] = 0 := rfl
        simp [parsePrecision, setPrecision, hstar, hdigit, hzero]
    | cons d ds =>
      obtain ⟨_, _, hdigit, _⟩ := decimal_spec d
      have hstar := (decimal_plain d).2.2.2
      simp only [Precision.text, List.cons_append, nextChar_cons hdot]
      have hnumber := parseNumber_eq (List.cons_ne_nil d ds) hu hend.1
        { p with spec := { p.spec with precisionSet := true } }
        (fun spec n => { spec with precision := n }) parseLength
      simp only [List.map_cons, List.cons_append] at hnumber ⊢
      simp only [parsePrecision, if_true, List.head?_cons, Option.bind_eq_bind, Option.bind_some,
        hstar, if_false, hdigit, hnumber]
      rfl

def setWidth (spec : VprintSpec) : Width → List (BitVec 64) →
    Option (VprintSpec × List (BitVec 64))
  | .absent, args => some (spec, args)
  | .star, args => do
    let (a, args) ← vaArg args
    if slotInt a = intMin then none
    else some ({ spec with widthSet := true, width := (slotInt a).natAbs,
                           flagMinus := spec.flagMinus || decide (slotInt a < 0) }, args)
  | .number first rest, args =>
    some ({ spec with widthSet := true, width := numberOf (first.succ :: rest) }, args)

theorem slotInt_bounds (a : BitVec 64) : intMin ≤ slotInt a ∧ slotInt a ≤ intMax := by
  have hlo := (a.setWidth 32).le_toInt
  have hhi := (a.setWidth 32).toInt_lt
  rw [slotInt, intMin, intMax]
  omega

theorem decimal_succ (d : Fin 9) :
    decimal d.succ ≠ byte '*' ∧ byte '1' ≤ decimal d.succ ∧ decimal d.succ ≤ byte '9' := by
  revert d
  decide

theorem parseWidth_eq (w : Width) {u : List UInt8} (hu : Terminated u) (hend : WidthEnd w u)
    (p : ParseState) :
    nextChar { p with format := w.text ++ u } parseWidth =
      if numberOf w.digits < 2 ^ 31 then
        (setWidth p.spec w p.args).bind fun (spec, args) =>
          nextChar { p with format := u, spec := spec, args := args } parsePrecision
      else some ({ p with format := u, spec := { p.spec with widthSet := true } }.fail erange) := by
  cases w with
  | absent =>
    refine nextChar_congr fun c v hv => ?_
    have hc : c ≠ byte '*' ∧ ¬(byte '1' ≤ c ∧ c ≤ byte '9') := by
      have hu : u = c :: v := hv
      exact hend c (by rw [hu]; rfl)
    simp [parseWidth, hc]
  | star =>
    have hfit : numberOf (Width.digits .star) < 2 ^ 31 := by decide
    simp only [Width.text, List.cons_append, nextChar_cons (by decide : byte '*' ≠ 0),
      List.nil_append, if_pos hfit]
    cases hargs : p.args with
    | nil => simp [parseWidth, setWidth, vaArg]
    | cons a args =>
      obtain ⟨lo, hi⟩ := slotInt_bounds a
      by_cases hneg : slotInt a < 0
      · by_cases hmin : slotInt a = intMin
        · simp [parseWidth, setWidth, vaArg, hmin, checkedInt, intMin, intMax]
        · have hcheck : checkedInt (-slotInt a) = some (-slotInt a) :=
            checkedInt_of_le (by rw [intMin, intMax] at *; omega)
              (by rw [intMin, intMax] at *; omega)
          have habs : |slotInt a| = -slotInt a := abs_of_neg hneg
          simp [parseWidth, setWidth, vaArg, hneg, hmin, hcheck, habs]
      · have hmin : slotInt a ≠ intMin := by rw [intMin]; omega
        have habs : |slotInt a| = slotInt a := abs_of_nonneg (not_lt.mp hneg)
        simp [parseWidth, setWidth, vaArg, hneg, hmin, habs]
  | number first rest =>
    obtain ⟨hstar, lo, hi⟩ := decimal_succ first
    obtain ⟨_, _, _, hne⟩ := decimal_spec first.succ
    have hnumber := parseNumber_eq (List.cons_ne_nil first.succ rest) hu hend
      { p with spec := { p.spec with widthSet := true } }
      (fun spec n => { spec with width := n }) parsePrecision
    simp only [Width.text, List.map_cons, List.cons_append, nextChar_cons hne] at hnumber ⊢
    simp only [parseWidth, hstar, lo, hi, and_self, if_true, if_false, hnumber]
    rfl

def addFlag (spec : VprintSpec) : Flag → VprintSpec
  | .minus => { spec with flagMinus := true }
  | .plus => { spec with flagPlus := true }
  | .space => { spec with flagSpace := true }
  | .zero => { spec with flagZero := true }
  | .number => { spec with flagNumber := true }

theorem setFlag_eq (f : Flag) (spec : VprintSpec) :
    setFlag spec f.text = some (addFlag spec f) ∧ f.text ≠ 0 := by
  cases f <;> exact ⟨rfl, by decide⟩

theorem parseFlags_eq (flags : List Flag) {u : List UInt8} (hend : FlagsEnd u) (p : ParseState) :
    parseFlags p (flags.map Flag.text ++ u) =
      nextChar { p with format := u, spec := flags.foldl addFlag p.spec } parseWidth := by
  induction flags generalizing p with
  | nil =>
    cases u with
    | nil => rfl
    | cons c v =>
      have hc := hend c rfl
      simp only [List.mem_cons, List.not_mem_nil, or_false, not_or] at hc
      simp [parseFlags, nextChar, setFlag, hc]
  | cons f flags ih =>
    obtain ⟨hset, hne⟩ := setFlag_eq f p.spec
    simp only [List.map_cons, List.cons_append, parseFlags, hne, if_false, hset, ih,
      List.foldl_cons]

end Stages

section Parser

/-- The spec the parser builds before it reads the conversion. -/
def leadSpec (l : Lead) (args : List (BitVec 64)) : Option (VprintSpec × List (BitVec 64)) := do
  let (spec, args) ← setWidth (l.flags.foldl addFlag zeroSpec) l.width args
  let (spec, args) ← setPrecision spec l.precision args
  some (setLength spec l.length, args)

theorem terminated_append {u : List UInt8} (hu : Terminated u) (s : List UInt8) :
    Terminated (s ++ u) := List.mem_append_right s hu

/-- The parser in front of the conversion character. -/
theorem parse_lead {l : Lead} (hfits : l.Fits) {u : List UInt8} (hu : Terminated u)
    (hends : l.Ends u) (args : List (BitVec 64)) (errno : Int) :
    vprintfParseSpec ⟨l.text ++ u, zeroSpec, args, errno, .ok⟩ =
      (leadSpec l args).bind fun (spec, args) =>
        nextChar ⟨u, spec, args, errno, .ok⟩ parseConv := by
  have hlen := terminated_append hu (lengthText l.length)
  have hwidth := parseWidth_eq l.width (terminated_append hlen l.precision.text) hends.width
    ⟨[], l.flags.foldl addFlag zeroSpec, args, errno, .ok⟩
  simp only [vprintfParseSpec, Lead.text, List.append_assoc, parseFlags_eq l.flags hends.flags,
    hwidth, hfits.1, if_true, leadSpec, Option.bind_eq_bind, Option.bind_assoc]
  refine Option.bind_congr fun p _ => ?_
  have hprecision := parsePrecision_eq l.precision hlen hends.precision
    ⟨l.precision.text ++ (lengthText l.length ++ u), p.1, p.2, errno, .ok⟩
  simp only [hprecision, hfits.2, if_true, Option.bind_some]
  exact Option.bind_congr fun q _ =>
    parseLength_eq l.length hends.length ⟨lengthText l.length ++ u, q.1, q.2, errno, .ok⟩

/-- A failed parse: an error number is set and the format stays in its string. -/
structure Rejected (p : ParseState) : Prop where
  rc : p.rc = .err
  errno : p.errno = einval ∨ p.errno = erange
  inside : Terminated p.format

theorem rejected_range {format : List UInt8} (h : Terminated format) (spec : VprintSpec)
    (args : List (BitVec 64)) (errno : Int) (rc : VprintRet) :
    Rejected (ParseState.fail ⟨format, spec, args, errno, rc⟩ erange) :=
  ⟨rfl, Or.inr rfl, h⟩

theorem convOfChar_text (k : ConvChar) : convOfChar k.text = some k.conv ∧ k.text ≠ 0 := by
  cases k <;> decide

theorem parseConv_eq (k : ConvChar) (u : List UInt8) (p : ParseState) :
    nextChar { p with format := k.text :: u } parseConv =
      some { p with format := u, spec := { p.spec with conv := k.conv } } := by
  obtain ⟨hconv, hne⟩ := convOfChar_text k
  simp [nextChar_cons hne, parseConv, hconv]

theorem exists_conv_of_convOfChar {c : UInt8} {conv : VprintfConv}
    (h : convOfChar c = some conv) : ∃ k : ConvChar, k.text = c := by
  by_contra hno
  have hne : ∀ k : ConvChar, c ≠ k.text := fun k hk => hno ⟨k, hk.symm⟩
  rw [convOfChar, if_neg, if_neg, if_neg, if_neg, if_neg, if_neg, if_neg, if_neg, if_neg,
    if_neg] at h
  · cases h
  · exact hne .percent
  · exact hne .n
  · exact hne .p
  · exact hne .s
  · exact hne .c
  · exact hne .X
  · exact hne .x
  · exact hne .u
  · exact hne .o
  · exact not_or.mpr ⟨hne .d, hne .i⟩

/-- Without a conversion character the parser rejects. -/
theorem parseConv_rejected {u : List UInt8} (hu : Terminated u)
    (hno : ∀ k : ConvChar, u.head? ≠ some k.text) (p : ParseState) :
    ∃ p', nextChar { p with format := u } parseConv = some p' ∧ Rejected p' := by
  cases u with
  | nil => exact absurd hu not_terminated_nil
  | cons c v =>
    by_cases hc : c = 0
    · subst hc
      exact ⟨_, rfl, rfl, Or.inl rfl, hu⟩
    · rw [nextChar_cons hc]
      cases hconv : convOfChar c with
      | some conv =>
        obtain ⟨k, hk⟩ := exists_conv_of_convOfChar hconv
        exact absurd (by rw [hk]; rfl) (hno k)
      | none =>
        refine ⟨_, by simp only [parseConv, hconv]; rfl, rfl, Or.inl rfl, ?_⟩
        exact (terminated_cons_of_ne hc).mp hu

end Parser

section Layout

/-- The length the code acts on: all modifiers but `hh` and `h` are dropped. -/
def codeLength : VprintfLength → VprintfLength
  | .hh => .hh
  | .h => .h
  | _ => .none

theorem foldl_set_spec (flags : List Flag) (spec : VprintSpec) :
    flags.foldl addFlag spec = { spec with
      flagMinus := spec.flagMinus || decide (.minus ∈ flags)
      flagPlus := spec.flagPlus || decide (.plus ∈ flags)
      flagSpace := spec.flagSpace || decide (.space ∈ flags)
      flagZero := spec.flagZero || decide (.zero ∈ flags)
      flagNumber := spec.flagNumber || decide (.number ∈ flags) } := by
  induction flags generalizing spec with
  | nil => simp
  | cons f flags ih =>
    rw [List.foldl_cons, ih]
    cases f <;> simp [addFlag]

theorem layout_setLength (spec : VprintSpec) (len : VprintfLength) :
    layout (setLength spec len) = layout spec := by
  cases len <;> rfl

theorem length_setLength {spec : VprintSpec} (h : spec.length = .none) (len : VprintfLength) :
    (setLength spec len).length = codeLength len := by
  cases len <;> first | exact h | rfl

theorem width_set_eq (w : Width) (hfit : numberOf w.digits < 2 ^ 31) {spec : VprintSpec}
    (hw : spec.widthSet = false) (args : List (BitVec 64)) :
    (w.read args = none ∧ setWidth spec w args = none) ∨
    ∃ n neg b x args', w.read args = some ((n, neg), args') ∧
      setWidth spec w args = some ({ spec with
        widthSet := b, width := x, flagMinus := spec.flagMinus || neg }, args') ∧
      (if b then x.toNat else 0) = n ∧ (b = true → 0 ≤ x ∧ x ≤ intMax) := by
  cases w with
  | absent =>
    refine Or.inr ⟨0, false, false, spec.width, args, rfl, ?_, rfl, by simp⟩
    cases spec
    simp_all [setWidth]
  | star =>
    cases args with
    | nil => exact Or.inl ⟨rfl, rfl⟩
    | cons a args =>
      obtain ⟨lo, hi⟩ := slotInt_bounds a
      by_cases hmin : slotInt a = intMin
      · exact Or.inl ⟨by simp [Width.read, vaArg, hmin], by simp [setWidth, vaArg, hmin]⟩
      · refine Or.inr ⟨(slotInt a).natAbs, decide (slotInt a < 0), true, (slotInt a).natAbs, args,
          by simp [Width.read, vaArg, hmin], by simp [setWidth, vaArg, hmin],
          by rw [if_pos rfl, Int.toNat_natCast], fun _ => ?_⟩
        rw [intMin, intMax] at *
        omega
  | number first rest =>
    refine Or.inr ⟨_, false, true, (numberOf (first.succ :: rest) : Nat), args, rfl,
      by simp [setWidth], by simp, fun _ => ?_⟩
    have hlt : numberOf (first.succ :: rest) < 2 ^ 31 := hfit
    rw [intMax]
    omega

theorem precision_set_eq (pr : Precision) (hfit : numberOf pr.digits < 2 ^ 31)
    {spec : VprintSpec} (hp : spec.precisionSet = false) (args : List (BitVec 64)) :
    (pr.read args = none ∧ setPrecision spec pr args = none) ∨
    ∃ n b x args', pr.read args = some (n, args') ∧
      setPrecision spec pr args = some ({ spec with precisionSet := b, precision := x }, args') ∧
      (if b then some x.toNat else none) = n ∧ (b = true → 0 ≤ x ∧ x ≤ intMax) := by
  cases pr with
  | absent =>
    refine Or.inr ⟨none, false, spec.precision, args, rfl, ?_, rfl, by simp⟩
    rw [← hp]
    rfl
  | star =>
    cases args with
    | nil => exact Or.inl ⟨rfl, rfl⟩
    | cons a args =>
      refine Or.inr ⟨_, decide (0 ≤ slotInt a), slotInt a, args, rfl, rfl, ?_, fun h => ?_⟩
      · by_cases hneg : slotInt a < 0
        · have hpos : ¬0 ≤ slotInt a := by omega
          simp [hneg, hpos]
        · have hpos : 0 ≤ slotInt a := by omega
          simp [hneg, hpos]
      · exact ⟨of_decide_eq_true h, (slotInt_bounds a).2⟩
  | number ds =>
    refine Or.inr ⟨_, true, (numberOf ds : Nat), args, rfl, rfl, by simp, fun _ => ?_⟩
    have hlt : numberOf ds < 2 ^ 31 := hfit
    rw [intMax]
    omega

theorem ranged_setLength {spec : VprintSpec} (h : Ranged spec) (len : VprintfLength) :
    Ranged (setLength spec len) := by
  cases len <;> exact ⟨h.width, h.precision⟩

/-- The spec the parser builds has the layout the directive asks for, ranges
that an `int` can hold, and the length the code keeps. -/
theorem spec_layout {l : Lead} (hfits : l.Fits) (args : List (BitVec 64)) :
    (l.layout args = none ∧ leadSpec l args = none) ∨
    ∃ L args' spec, l.layout args = some (L, args') ∧ leadSpec l args = some (spec, args') ∧
      layout spec = L ∧ Ranged spec ∧ spec.length = codeLength l.length := by
  have hflags := foldl_set_spec l.flags zeroSpec
  generalize hspec₀ : l.flags.foldl addFlag zeroSpec = spec₀ at hflags
  have hfresh : spec₀.widthSet = false ∧ spec₀.precisionSet = false ∧ spec₀.length = .none := by
    simp [hflags, zeroSpec]
  rcases width_set_eq l.width hfits.1 hfresh.1 args with
    ⟨hread, hset⟩ | ⟨n, neg, b, x, args₁, hread, hset, hn, hb⟩
  · exact Or.inl ⟨by simp [Lead.layout, hread], by simp [leadSpec, hspec₀, hset]⟩
  generalize hspec₁ : ({ spec₀ with
    widthSet := b, width := x, flagMinus := spec₀.flagMinus || neg } : VprintSpec) = spec₁ at hset
  have hfresh₁ : spec₁.precisionSet = false := by
    rw [← hspec₁]
    exact hfresh.2.1
  rcases precision_set_eq l.precision hfits.2 hfresh₁ args₁ with
    ⟨hread', hset'⟩ | ⟨m, b', x', args₂, hread', hset', hm, hb'⟩
  · exact Or.inl ⟨by simp [Lead.layout, hread, hread'], by simp [leadSpec, hspec₀, hset, hset']⟩
  have hlayout : l.layout args = some (⟨decide (.minus ∈ l.flags) || neg, decide (.plus ∈ l.flags),
      decide (.space ∈ l.flags), decide (.zero ∈ l.flags), decide (.number ∈ l.flags), n, m⟩,
      args₂) := by simp [Lead.layout, hread, hread']
  have hspec : leadSpec l args = some (setLength { spec₁ with precisionSet := b', precision := x' }
      l.length, args₂) := by simp [leadSpec, hspec₀, hset, hset']
  refine Or.inr ⟨_, args₂, _, hlayout, hspec, ?_, ?_, ?_⟩
  · rw [layout_setLength, ← hspec₁, hflags]
    simp [layout, zeroSpec, hn, hm]
  · rw [← hspec₁]
    exact ranged_setLength ⟨hb, hb'⟩ _
  · rw [← hspec₁]
    refine length_setLength ?_ _
    exact hfresh.2.2

end Layout

section Language

/-- The parser reads a valid directive up to its last character. -/
theorem parse_directive (d : Directive) {u : List UInt8} (hu : Terminated u)
    (args : List (BitVec 64)) (errno : Int) {L : Layout} {args' : List (BitVec 64)}
    (hlayout : d.layout args = some (L, args')) :
    ∃ spec, vprintfParseSpec ⟨d.text ++ u, zeroSpec, args, errno, .ok⟩ =
        some ⟨u, spec, args', errno, .ok⟩ ∧
      layout spec = L ∧ Ranged spec ∧ spec.length = codeLength d.length ∧
      spec.conv = d.conv.conv := by
  have hterm : Terminated (d.conv.text :: u) :=
    (terminated_cons_of_ne (convOfChar_text d.conv).2).mpr hu
  have hparse := parse_lead d.fits hterm (ends_conv d.toLead d.conv u) args errno
  rcases spec_layout d.fits args with ⟨hnone, _⟩ | ⟨L', args'', spec, hsome, hspec, hL, hr, hlen⟩
  · rw [hnone] at hlayout
    cases hlayout
  · obtain ⟨rfl, rfl⟩ := Prod.mk.inj (Option.some.inj (hsome.symm.trans hlayout))
    refine ⟨{ spec with conv := d.conv.conv }, ?_, hL, ⟨hr.width, hr.precision⟩, hlen, rfl⟩
    rw [Directive.text, List.append_assoc, List.singleton_append, hparse, hspec, Option.bind_some]
    exact parseConv_eq d.conv u ⟨[], spec, args'', errno, .ok⟩

/-- A literal number above `INT_MAX` makes the parser reject the directive, unless the width in
front of it has no argument. -/
theorem parse_not_fits {l : Lead} (hfits : ¬l.Fits) {u : List UInt8} (hu : Terminated u)
    (hends : l.Ends u) (args : List (BitVec 64)) (errno : Int) :
    (l.layout args = none ∧
      vprintfParseSpec ⟨l.text ++ u, zeroSpec, args, errno, .ok⟩ = none) ∨
    ∃ p, vprintfParseSpec ⟨l.text ++ u, zeroSpec, args, errno, .ok⟩ = some p ∧ Rejected p := by
  have hlen := terminated_append hu (lengthText l.length)
  have hpre := terminated_append hlen l.precision.text
  have hwidth := parseWidth_eq l.width hpre hends.width
    ⟨[], l.flags.foldl addFlag zeroSpec, args, errno, .ok⟩
  simp only [vprintfParseSpec, Lead.text, List.append_assoc, parseFlags_eq l.flags hends.flags,
    hwidth]
  by_cases hw : numberOf l.width.digits < 2 ^ 31
  · have hp : ¬numberOf l.precision.digits < 2 ^ 31 := fun hp => hfits ⟨hw, hp⟩
    have hfresh : (l.flags.foldl addFlag zeroSpec).widthSet = false := by
      rw [foldl_set_spec]
      rfl
    rcases width_set_eq l.width hw hfresh args with
      ⟨hread, hset⟩ | ⟨_, _, _, _, args', _, hset, _⟩
    · left
      simp only [Lead.layout, hread, hw, if_true, hset, Option.bind_eq_bind, Option.bind_none,
        and_self]
    · right
      simp only [hw, if_true, hset, Option.bind_some,
        parsePrecision_eq l.precision hlen hends.precision ⟨[], _, args', errno, .ok⟩, hp, if_false]
      exact ⟨_, rfl, rejected_range hlen _ _ _ _⟩
  · right
    simp only [hw, if_false]
    exact ⟨_, rfl, rejected_range hpre _ _ _ _⟩

/-- The parser rejects every other text, once the `int` arguments for the stars
in it are there. -/
theorem parse_rejected {l : Lead} {u : List UInt8} (hu : Terminated u) (hends : l.Ends u)
    (hno : NoDirective (l.text ++ u)) {args : List (BitVec 64)}
    (hargs : (l.layout args).isSome) (errno : Int) :
    ∃ p, vprintfParseSpec ⟨l.text ++ u, zeroSpec, args, errno, .ok⟩ = some p ∧ Rejected p := by
  by_cases hfits : l.Fits
  · rcases spec_layout hfits args with ⟨hnone, _⟩ | ⟨_, args', spec, _, hspec, _⟩
    · simp [hnone] at hargs
    · rw [parse_lead hfits hu hends, hspec, Option.bind_some]
      refine parseConv_rejected hu (fun k hk => ?_) ⟨[], spec, args', errno, .ok⟩
      obtain ⟨v, rfl⟩ := List.head?_eq_some_iff.mp hk
      exact hno ⟨l, k, hfits⟩ v (by simp [Directive.text])
  · rcases parse_not_fits hfits hu hends args errno with ⟨hnone, _⟩ | hrejected
    · simp [hnone] at hargs
    · exact hrejected

end Language

end FormatParser
