import Libdeepc.FormatLaw

/-!
# The int arithmetic of printf.c

Lengths are `int`, then `size_t`, then `int` again. A second version of the
functions stops wherever an `int` result would leave its type; on the specs of
the parser it agrees with the first. Two places are left: the negation of a
width, and the count that becomes the result.
-/

namespace PrintfLimits

open CString MachineInt Memory NumberParsing PrintfWrite PrintfShared PrintfSink IntRendering
open FormatGrammar FormatParser FormatMeaning FormatLaw

/-- `LOG_T`, which counts in an `int`. -/
def logLoopStrict (base : Int) : Nat → Int → Int → Option Int
  | 0, _, l => some l
  | fuel + 1, n, l =>
    if n ≠ 0 then do
      let l ← checkedInt (l + 1)
      logLoopStrict base fuel (n.tdiv base) l
    else some l

def planNumberStrict (s : VprintSpec) (val : BitVec 64) : Option NumberPlan :=
  let minPrecision := if s.precisionSet then s.precision else 1
  match s.conv with
  | .d => do
    let numPrecision ← logLoopStrict 10 64 val.toInt 0
    let pre := if val.toInt < 0 then [byte '-'] else if s.flagPlus then [byte '+']
      else if s.flagSpace then [byte ' '] else []
    some ⟨numPrecision, minPrecision, pre⟩
  | .o => do
    let numPrecision ← logLoopStrict 8 64 val.toNat 0
    let minPrecision ← (if s.flagNumber ∧ minPrecision ≤ numPrecision then
      checkedInt (numPrecision + 1) else some minPrecision)
    some ⟨numPrecision, minPrecision, []⟩
  | .u => do
    let numPrecision ← logLoopStrict 10 64 val.toNat 0
    some ⟨numPrecision, minPrecision, []⟩
  | .x | .X => do
    let numPrecision ← logLoopStrict 16 64 val.toNat 0
    let pre := if s.flagNumber ∧ numPrecision ≠ 0 then
      (if s.conv = .x then [byte '0', byte 'x'] else [byte '0', byte 'X']) else []
    some ⟨numPrecision, minPrecision, pre⟩
  | _ => none

section Strict

variable {σ : Type} (write : WriteFn σ)

/-- A `size_t` that becomes an `int` must be one as well. -/
def vprintfOutputIntStrict (info : Info σ) (s : VprintSpec) (val : BitVec 64) :
    Option (Info σ) := do
  let plan ← planNumberStrict s val
  let minWidth := if s.widthSet then s.width else 0
  let prefixLen := plan.pre.length
  let precision := if plan.numPrecision > plan.minPrecision then plan.numPrecision
    else plan.minPrecision
  let precision ← (if (s.flagZero ∧ ¬s.precisionSet ∧ ¬s.flagMinus) ∧ minWidth > precision then
    checkedInt (minWidth - prefixLen) else some precision)
  let totalSize := toSize (precision + prefixLen)
  let spacePaddingLen ← checkedInt (if minWidth < 0 ∨ toSize minWidth ≤ totalSize then 0
    else toSize (minWidth - totalSize) : Nat)
  let padZeros ← checkedInt (precision - plan.numPrecision)
  let spaces := fun info => vprintfPadding write info (byte ' ') spacePaddingLen
  checked (¬s.flagMinus) info spaces fun info =>
  checked (prefixLen ≠ 0) info (write · plan.pre) fun info =>
  checked True info (vprintfPadding write · (byte '0') padZeros) fun info =>
  checked True info (writeNumber write · val s) fun info =>
  checked s.flagMinus info spaces some

def vprintfConvCStrict (info : Info σ) (spec : VprintSpec) (c : UInt8) : Option (Info σ) :=
  let hasPadding := spec.widthSet ∧ spec.width > 1
  if hasPadding then do
    let len ← checkedInt (spec.width - 1)
    padded write info spec len [c]
  else write info [c]

def vprintfConvSStrict (info : Info σ) (spec : VprintSpec) (str : Option (List UInt8)) :
    Option (Info σ) := do
  let str := str.getD (literal ['(', 'N', 'U', 'L', 'L', ')'])
  let strLen ← strlen str
  let len := if spec.precisionSet ∧ spec.precision ≥ 0 ∧ toSize spec.precision < strLen then
    toSize spec.precision else strLen
  let hasPadding := spec.widthSet ∧ spec.width ≥ 0 ∧ toSize spec.width > len
  if hasPadding then do
    let padding ← checkedInt (spec.width - len)
    padded write info spec padding (str.take len)
  else write info (str.take len)

end Strict

/-- No `int` result of the three functions leaves its type, whatever they write and to which
sink. -/
structure Exact (spec : VprintSpec) : Prop where
  outputInt : ∀ (σ : Type) (write : WriteFn σ) info val,
    vprintfOutputIntStrict write info spec val = vprintfOutputInt write info spec val
  convC : ∀ (σ : Type) (write : WriteFn σ) info c,
    vprintfConvCStrict write info spec c = vprintfConvC write info spec c
  convS : ∀ (σ : Type) (write : WriteFn σ) info str,
    vprintfConvSStrict write info spec str = vprintfConvS write info spec str

section Exactness

theorem logLoop_bounds (base : Int) (fuel : Nat) (n l : Int) :
    l ≤ logLoop base fuel n l ∧ logLoop base fuel n l ≤ l + fuel := by
  induction fuel generalizing n l with
  | zero => simp [logLoop]
  | succ fuel ih =>
    have hrec := ih (n.tdiv base) (l + 1)
    rw [logLoop]
    split <;> omega

/-- The logarithm of a 64-bit number is far from the end of `int`. -/
theorem logLoopStrict_eq (base : Int) {fuel : Nat} {l : Int} (lo : 0 ≤ l)
    (hi : l + fuel ≤ intMax) (n : Int) :
    logLoopStrict base fuel n l = some (logLoop base fuel n l) := by
  rw [intMax] at hi
  induction fuel generalizing n l with
  | zero => rfl
  | succ fuel ih =>
    have hnext : checkedInt (l + 1) = some (l + 1) := by
      apply checkedInt_of_le
      · rw [intMin]; omega
      · rw [intMax]; omega
    have hrec := ih (l := l + 1) (by omega) (by omega) (n.tdiv base)
    simp only [logLoopStrict, logLoop, hnext, hrec, Option.bind_eq_bind, Option.bind_some]
    split <;> rfl

theorem logT_strict (base n : Int) :
    logLoopStrict base 64 n 0 = some (logT base n) ∧ 0 ≤ logT base n ∧ logT base n ≤ 64 := by
  obtain ⟨lo, hi⟩ := logLoop_bounds base 64 n 0
  refine ⟨logLoopStrict_eq base le_rfl (by decide) n, lo, ?_⟩
  simpa [logT] using hi

theorem planNumberStrict_eq (s : VprintSpec) (val : BitVec 64) :
    planNumberStrict s val = planNumber s val := by
  have hd : logLoopStrict 10 64 val.toInt 0 = some (log10Intmax val.toInt) :=
    (logT_strict 10 val.toInt).1
  have hu : logLoopStrict 10 64 val.toNat 0 = some (log10Uintmax val.toNat) :=
    (logT_strict 10 val.toNat).1
  have hx : logLoopStrict 16 64 val.toNat 0 = some (log16Uintmax val.toNat) :=
    (logT_strict 16 val.toNat).1
  have ho : logLoopStrict 8 64 val.toNat 0 = some (log8Uintmax val.toNat) ∧
      0 ≤ log8Uintmax val.toNat ∧ log8Uintmax val.toNat ≤ 64 := logT_strict 8 val.toNat
  have hone : checkedInt (log8Uintmax val.toNat + 1) = some (log8Uintmax val.toNat + 1) := by
    apply checkedInt_of_le
    · rw [intMin]; omega
    · rw [intMax]; omega
  cases hconv : s.conv
  case o =>
    simp only [planNumberStrict, planNumber, hconv, ho, hone, Option.bind_eq_bind,
      Option.bind_some]
    generalize (if s.precisionSet then s.precision else 1) = least
    by_cases hle : s.flagNumber ∧ least ≤ log8Uintmax val.toNat
    · rw [if_pos hle, if_pos hle, Option.bind_some]
    · rw [if_neg hle, if_neg hle, Option.bind_some]
  all_goals
    simp only [planNumberStrict, planNumber, hconv, hd, hu, hx, Option.bind_eq_bind,
      Option.bind_some]

/-- What the plan of a number may hold. -/
theorem plan_bounds {s : VprintSpec} (hs : Ranged s) {val : BitVec 64} {plan : NumberPlan}
    (h : planNumber s val = some plan) :
    (0 ≤ plan.numPrecision ∧ plan.numPrecision ≤ 64) ∧
      (0 ≤ plan.minPrecision ∧ plan.minPrecision ≤ intMax) ∧ plan.pre.length ≤ 2 := by
  have hlog : ∀ base n : Int, 0 ≤ logT base n ∧ logT base n ≤ 64 :=
    fun base n => (logT_strict base n).2
  have hmin : 0 ≤ (if s.precisionSet then s.precision else 1) ∧
      (if s.precisionSet then s.precision else 1) ≤ intMax := by
    split
    · next hset => exact hs.precision hset
    · decide
  cases hconv : s.conv
  all_goals
    simp only [planNumber, hconv, Option.some.injEq, reduceCtorEq] at h
  case o =>
    subst h
    have ho : 0 ≤ log8Uintmax val.toNat ∧ log8Uintmax val.toNat ≤ 64 := hlog 8 val.toNat
    refine ⟨ho, ?_, Nat.zero_le 2⟩
    simp only
    generalize (if s.precisionSet then s.precision else 1) = least at hmin ⊢
    rw [intMax] at hmin ⊢
    by_cases hle : s.flagNumber ∧ least ≤ log8Uintmax val.toNat
    · rw [if_pos hle]
      omega
    · rw [if_neg hle]
      exact hmin
  case d =>
    subst h
    refine ⟨hlog _ _, hmin, ?_⟩
    simp only
    split_ifs <;> simp
  case u =>
    subst h
    exact ⟨hlog _ _, hmin, Nat.zero_le 2⟩
  all_goals
    subst h
    refine ⟨hlog _ _, hmin, ?_⟩
    simp only
    split_ifs <;> simp

/-- A number in the range of `int` passes the check, and the conversion keeps it. -/
theorem checkedInt_eq {x : Int} (lo : intMin ≤ x) (hi : x ≤ intMax) :
    checkedInt x = some x ∧ toSigned 32 x = x := by
  refine ⟨checkedInt_of_le lo hi, ?_⟩
  rw [intMin] at lo
  rw [intMax] at hi
  exact toSigned_of_inSigned (by decide) ⟨by norm_num; omega, by norm_num; omega⟩

theorem checkedInt_ite {c : Prop} [Decidable c] {x y : Int} (hx : c → intMin ≤ x ∧ x ≤ intMax) :
    (if c then checkedInt x else some y) = some (if c then toSigned 32 x else y) := by
  by_cases h : c
  · obtain ⟨hcheck, hsame⟩ := checkedInt_eq (hx h).1 (hx h).2
    rw [if_pos h, if_pos h, hcheck, hsame]
  · rw [if_neg h, if_neg h]

/-- The space padding is at most the width. -/
theorem spacePadding_le {W : Int} (lo : 0 ≤ W) (hi : W ≤ intMax) (T : Nat) :
    ((if W < 0 ∨ toSize W ≤ T then 0 else toSize (W - T) : Nat) : Int) ≤ intMax := by
  rw [intMax] at hi ⊢
  split
  · decide
  · next h =>
    rw [toSize_of_nonneg lo (by omega)] at h
    rw [toSize_of_nonneg (by omega) (by omega)]
    omega

theorem vprintfOutputIntStrict_eq {s : VprintSpec} (hs : Ranged s) {σ : Type} (write : WriteFn σ)
    (info : Info σ) (val : BitVec 64) :
    vprintfOutputIntStrict write info s val = vprintfOutputInt write info s val := by
  rw [vprintfOutputIntStrict, vprintfOutputInt, planNumberStrict_eq]
  cases hplan : planNumber s val with
  | none => rfl
  | some plan =>
  obtain ⟨⟨hnum, hnum'⟩, ⟨hmin, hmin'⟩, hpre⟩ := plan_bounds hs hplan
  have hwidth : 0 ≤ (if s.widthSet then s.width else 0) ∧
      (if s.widthSet then s.width else 0) ≤ intMax := by
    split
    · next hset => exact hs.width hset
    · decide
  simp only [Option.bind_eq_bind, Option.bind_some]
  generalize (if s.widthSet then s.width else 0) = W at hwidth ⊢
  have hmost : 0 ≤ (if plan.numPrecision > plan.minPrecision then plan.numPrecision
        else plan.minPrecision) ∧
      (if plan.numPrecision > plan.minPrecision then plan.numPrecision
        else plan.minPrecision) ≤ intMax := by
    rw [intMax] at *
    split <;> omega
  generalize (if plan.numPrecision > plan.minPrecision then plan.numPrecision
    else plan.minPrecision) = P at hmost ⊢
  have hfill : (s.flagZero ∧ ¬s.precisionSet ∧ ¬s.flagMinus) ∧ W > P →
      intMin ≤ W - plan.pre.length ∧ W - plan.pre.length ≤ intMax := by
    rintro ⟨_, hwide⟩
    rw [intMin, intMax] at *
    omega
  have hprecision := checkedInt_ite (y := P) hfill
  simp only [hprecision, Option.bind_some]
  have hreserved : -2 ≤ (if (s.flagZero ∧ ¬s.precisionSet ∧ ¬s.flagMinus) ∧ W > P then
        toSigned 32 (W - plan.pre.length) else P) ∧
      (if (s.flagZero ∧ ¬s.precisionSet ∧ ¬s.flagMinus) ∧ W > P then
        toSigned 32 (W - plan.pre.length) else P) ≤ intMax := by
    split
    · next h =>
      obtain ⟨lo, hi⟩ := hfill h
      rw [(checkedInt_eq lo hi).2]
      omega
    · omega
  generalize (if (s.flagZero ∧ ¬s.precisionSet ∧ ¬s.flagMinus) ∧ W > P then
    toSigned 32 (W - plan.pre.length) else P) = R at hreserved ⊢
  have hspaces := spacePadding_le hwidth.1 hwidth.2 (toSize (R + plan.pre.length))
  obtain ⟨hcheck, hsame⟩ := checkedInt_eq (by rw [intMin]; omega) hspaces
  have hzeros : checkedInt (R - plan.numPrecision) = some (R - plan.numPrecision) := by
    apply checkedInt_of_le
    · rw [intMin]; omega
    · omega
  simp only [hcheck, hzeros, hsame, Option.bind_some]

theorem vprintfConvCStrict_eq {s : VprintSpec} (hs : Ranged s) {σ : Type} (write : WriteFn σ)
    (info : Info σ) (c : UInt8) :
    vprintfConvCStrict write info s c = vprintfConvC write info s c := by
  simp only [vprintfConvCStrict, vprintfConvC]
  by_cases h : s.widthSet ∧ s.width > 1
  · obtain ⟨_, hi⟩ := hs.width h.1
    have hlen : checkedInt (s.width - 1) = some (s.width - 1) := by
      apply checkedInt_of_le
      · rw [intMin]; omega
      · omega
    simp only [if_pos h, hlen, Option.bind_eq_bind, Option.bind_some]
  · simp only [if_neg h]

theorem vprintfConvSStrict_eq {s : VprintSpec} (hs : Ranged s) {σ : Type} (write : WriteFn σ)
    (info : Info σ) (str : Option (List UInt8)) :
    vprintfConvSStrict write info s str = vprintfConvS write info s str := by
  simp only [vprintfConvSStrict, vprintfConvS, Option.bind_eq_bind]
  apply Option.bind_congr
  intro strLen _
  generalize (if s.precisionSet ∧ s.precision ≥ 0 ∧ toSize s.precision < strLen then
    toSize s.precision else strLen) = len
  by_cases h : s.widthSet ∧ s.width ≥ 0 ∧ toSize s.width > len
  · obtain ⟨lo, hi⟩ := hs.width h.1
    have hlt := h.2.2
    rw [toSize_of_nonneg lo (by rw [intMax] at hi; omega)] at hlt
    obtain ⟨hcheck, hsame⟩ := checkedInt_eq (x := s.width - len) (by rw [intMin]; omega) (by omega)
    simp only [if_pos h, hcheck, hsame, Option.bind_some]
  · simp only [if_neg h]

theorem exact_of_ranged {s : VprintSpec} (hs : Ranged s) : Exact s where
  outputInt _ write info val := vprintfOutputIntStrict_eq hs write info val
  convC _ write info c := vprintfConvCStrict_eq hs write info c
  convS _ write info str := vprintfConvSStrict_eq hs write info str

end Exactness

section Parser

/-- The numbers of every spec that the parser accepts are natural numbers up to `INT_MAX`. -/
theorem parse_ranged {t : List UInt8} (ht : Terminated t) {args : List (BitVec 64)} {errno : Int}
    {p : ParseState} (h : vprintfParseSpec ⟨t, zeroSpec, args, errno, .ok⟩ = some p)
    (hok : p.rc = .ok) : Ranged p.spec := by
  obtain ⟨l, u, rfl, hends⟩ := exists_lead t
  have hu : Terminated u := (List.mem_append.mp ht).resolve_left l.zero_notMem_text
  by_cases hfits : l.Fits
  · rw [parse_lead hfits hu hends] at h
    obtain ⟨⟨spec, args'⟩, hspec, h⟩ := Option.bind_eq_some_iff.mp h
    rcases spec_layout hfits args with ⟨_, hnone⟩ | ⟨_, _, spec', _, hspec', _, hranged, _⟩
    · rw [hnone] at hspec
      cases hspec
    · obtain ⟨rfl, rfl⟩ := Prod.mk.inj (Option.some.inj (hspec.symm.trans hspec'))
      cases u with
      | nil => exact absurd hu not_terminated_nil
      | cons c v =>
      by_cases hc : c = 0
      · simp only [nextChar, hc, if_true, Option.some.injEq] at h
        subst h
        cases hok
      · simp only [nextChar, hc, if_false, parseConv] at h
        split at h
        · obtain rfl := Option.some.inj h
          exact ⟨hranged.width, hranged.precision⟩
        · obtain rfl := Option.some.inj h
          cases hok
  · rcases parse_not_fits hfits hu hends args errno with ⟨_, hnone⟩ | ⟨p', hsome, hrejected⟩
    · rw [hnone] at h
      cases h
    · obtain rfl := Option.some.inj (h.symm.trans hsome)
      have hrc := hrejected.rc
      rw [hok] at hrc
      cases hrc

/-- The width is a star, and its argument `INT_MIN`. -/
def StarMin (l : Lead) (args : List (BitVec 64)) : Prop :=
  l.width = .star ∧ ∃ a rest, args = a :: rest ∧ slotInt a = intMin

theorem parse_starMin {l : Lead} {u : List UInt8} (hu : Terminated u) (hends : l.Ends u)
    {args : List (BitVec 64)} (hmin : StarMin l args) (errno : Int) :
    vprintfParseSpec ⟨l.text ++ u, zeroSpec, args, errno, .ok⟩ = none := by
  obtain ⟨hstar, a, rest, rfl, ha⟩ := hmin
  have hlen := terminated_append hu (lengthText l.length)
  have hwidth := parseWidth_eq l.width (terminated_append hlen l.precision.text) hends.width
    ⟨[], l.flags.foldl addFlag zeroSpec, a :: rest, errno, .ok⟩
  have hfit : numberOf l.width.digits < 2 ^ 31 := by
    rw [hstar]
    decide
  have hnone : setWidth (l.flags.foldl addFlag zeroSpec) l.width (a :: rest) = none := by
    simp [hstar, setWidth, vaArg, ha]
  rw [if_pos hfit, hnone, Option.bind_none] at hwidth
  simp only [vprintfParseSpec, Lead.text, List.append_assoc, parseFlags_eq l.flags hends.flags,
    hwidth]

end Parser

section Run

/-- The tail of a format can have a star as well. -/
def TailMin (args : List (BitVec 64)) : Tail → Prop
  | .stop _ => False
  | .invalid l _ _ _ _ => StarMin l args

def PieceMin (args : List (BitVec 64)) : Piece → Prop
  | .literal _ _ => False
  | .directive d => StarMin d.toLead args

/-- The pieces are passed up to one that takes its width from an `INT_MIN`. -/
def MeetsIntMin (env : Env) (tail : Tail) : List Piece → Prop
  | [] => TailMin env.args tail
  | pc :: ps => PieceMin env.args pc ∨
      ∃ env', runPiece codeLength env pc = some env' ∧ MeetsIntMin env' tail ps

/-- At an `INT_MIN` the negation overflows. -/
theorem sharedLoop_starMin {errno : Int} {env : Env} {l : Lead} {u : List UInt8}
    {s : SharedState (List UInt8)} (h : Window errno env (byte '%' :: (l.text ++ u)) s)
    (hu : Terminated u) (hends : l.Ends u) (hmin : StarMin l env.args) (fuel : Nat) :
    sharedLoop writeList fuel s = none := by
  cases fuel with
  | zero => rfl
  | succ fuel => rw [sharedLoop_percent h, parse_starMin hu hends hmin, Option.bind_none]

theorem sharedLoop_intMin {errno : Int} {env : Env} {ps : List Piece} {tail : Tail}
    {s : SharedState (List UInt8)} (h : Window errno env (piecesText ps ++ tail.text) s)
    (hmin : MeetsIntMin env tail ps) (fuel : Nat) : sharedLoop writeList fuel s = none := by
  induction ps generalizing env s fuel with
  | nil =>
    cases tail with
    | stop rest => exact absurd hmin id
    | invalid l u ends no inside => exact sharedLoop_starMin h inside ends hmin fuel
  | cons pc ps ih =>
    have hterm : Terminated (piecesText ps ++ tail.text) :=
      terminated_append (terminated_tail tail) _
    rw [piecesText, List.flatMap_cons, List.append_assoc] at h
    rcases hmin with hpiece | ⟨env', hrun, hrest⟩
    · cases pc with
      | literal c plain => exact absurd hpiece id
      | directive d =>
        have hconv : Terminated (d.conv.text :: (piecesText ps ++ tail.text)) :=
          (terminated_cons_of_ne (convOfChar_text d.conv).2).mpr hterm
        have hlead : Window errno env
            (byte '%' :: (d.toLead.text ++ d.conv.text :: (piecesText ps ++ tail.text))) s := by
          simpa [Piece.text, Directive.text, piecesText] using h
        exact sharedLoop_starMin hlead hconv (ends_conv d.toLead d.conv _) hpiece fuel
    · obtain ⟨s', hs', hloop⟩ := sharedLoop_piece h hterm hrun
      cases fuel with
      | zero => rfl
      | succ fuel => rw [hloop, ih hs' hrest]

end Run

section Law

/-- The lengths for which the result is the length or negative: the low half of the count, as an
`int`, is not another natural number. -/
def Reportable (n : Nat) : Prop := n < 2 ^ 31 ∨ 2 ^ 31 ≤ n % 2 ^ 32

instance (n : Nat) : Decidable (Reportable n) := inferInstanceAs (Decidable (_ ∨ _))

theorem reportable_iff (n : Nat) :
    (toSigned 32 (UInt64.ofNat n).toNat < 0 ∨ toSigned 32 (UInt64.ofNat n).toNat = n) ↔
      Reportable n := by
  rw [toSigned_count, Reportable]
  split <;> omega

/-- What a caller supplies: arguments for the pieces and the tail, as far as the code gets. -/
def Supplied (env : Env) (ps : List Piece) (tail : Tail) : Prop :=
  MeetsIntMin env tail ps ∨
    ∃ env', runPieces codeLength env ps = some env' ∧ tail.Matches env'.args

/-- The result of a call is negative or the length of the complete output. -/
def Reports (env : Env) (ps : List Piece) (r : Option StringResult) : Prop :=
  ∃ r', r = some r' ∧ (r'.ret < 0 ∨
    ∃ env', runPieces codeLength env ps = some env' ∧ r'.ret = env'.out.length)

theorem terminated_isSome {buffer : List UInt8} {bufSize : Nat} (h : bufSize ≤ buffer.length)
    (bytes : List UInt8) : ∃ b, terminated buffer bufSize bytes = some b := by
  by_cases h0 : bufSize = 0
  · exact ⟨buffer, if_pos h0⟩
  · have hlt : min bytes.length (bufSize - 1) < buffer.length := by omega
    exact ⟨_, (if_neg h0).trans (if_pos hlt)⟩

variable {env env' : Env} {ps : List Piece} {tail : Tail}

/-- No run meets an `INT_MIN` and the end. -/
theorem not_meetsIntMin (hrun : runPieces codeLength env ps = some env')
    (hmatch : tail.Matches env'.args) : ¬MeetsIntMin env tail ps := by
  have hlead : ∀ {l : Lead} {args : List (BitVec 64)}, StarMin l args → l.layout args = none := by
    rintro l _ ⟨hstar, a, rest, rfl, ha⟩
    simp [Lead.layout, hstar, Width.read, vaArg, ha]
  induction ps generalizing env with
  | nil =>
    obtain rfl := Option.some.inj hrun
    cases tail with
    | stop rest => exact id
    | invalid l u ends no inside =>
      intro hmin
      rw [Tail.Matches, hlead hmin] at hmatch
      cases hmatch
  | cons pc ps ih =>
    obtain ⟨env₁, hpiece, hrest⟩ := Option.bind_eq_some_iff.mp hrun
    rintro (hmin | ⟨env₂, hpiece', hmeets⟩)
    · cases pc with
      | literal c plain => exact hmin
      | directive d =>
        have hnone : d.layout env.args = none := hlead hmin
        simp [runPiece, runDirective, runDirectiveWith, hnone] at hpiece
    · obtain rfl := Option.some.inj (hpiece.symm.trans hpiece')
      exact ih hrest hmeets

theorem vsnprintf_reports_iff {args : List (BitVec 64)} {mem : Mem}
    (h : Supplied ⟨args, mem, []⟩ ps tail) {bufSize : Nat} (hsize : bufSize < 2 ^ 64)
    {buffer : List UInt8} (hbuffer : bufSize ≤ buffer.length) (errno : Int) :
    Reports ⟨args, mem, []⟩ ps
        (vsnprintf buffer bufSize (piecesText ps ++ tail.text) args mem errno) ↔
      ¬MeetsIntMin ⟨args, mem, []⟩ tail ps ∧ ∀ env' rest,
        runPieces codeLength ⟨args, mem, []⟩ ps = some env' → tail = .stop rest →
          Reportable env'.out.length := by
  rw [vsnprintf_list hsize, state_start]
  rcases h with hmin | ⟨env', hrun, hmatch⟩
  · have hnone : vprintfShared writeList (stateOf errno ⟨args, mem, []⟩)
        (piecesText ps ++ tail.text) = none := by
      rw [vprintfShared, sharedLoop_intMin (window_start errno _ _) hmin]
      rfl
    rw [hnone, Option.bind_none]
    constructor
    · rintro ⟨r, hr, _⟩
      cases hr
    · rintro ⟨hno, _⟩
      exact absurd hmin hno
  · have hno := not_meetsIntMin hrun hmatch
    cases tail with
    | stop rest =>
      obtain ⟨b, hb⟩ := terminated_isSome hbuffer env'.out
      have hsink : (stateOf errno env').info.sink = env'.out := rfl
      have hret := reportable_iff env'.out.length
      rw [Tail.text, vprintfShared_stop errno hrun, Option.bind_some]
      simp only [hsink, hb, Option.map_some]
      generalize toSigned 32 (UInt64.ofNat env'.out.length).toNat = ret at hret ⊢
      constructor
      · rintro ⟨r, hr, hreport⟩
        obtain rfl := Option.some.inj hr
        refine ⟨hno, fun env₂ _ hrun' _ => ?_⟩
        obtain rfl := Option.some.inj (hrun.symm.trans hrun')
        apply hret.mp
        rcases hreport with hneg | ⟨env₃, hrun₃, heq⟩
        · exact Or.inl hneg
        · obtain rfl := Option.some.inj (hrun.symm.trans hrun₃)
          exact Or.inr heq
      · rintro ⟨_, hlen⟩
        refine ⟨_, rfl, ?_⟩
        rcases hret.mpr (hlen env' rest hrun rfl) with hneg | heq
        · exact Or.inl hneg
        · exact Or.inr ⟨env', hrun, heq⟩
    | invalid l u ends no inside =>
      obtain ⟨args', errno', _, hbad⟩ := vprintfShared_invalid errno hrun ends no inside hmatch
      obtain ⟨b, hb⟩ := terminated_isSome hbuffer env'.out
      have hsink : (infoOf errno' env'.out).sink = env'.out := rfl
      rw [Tail.text, hbad, Option.bind_some]
      simp only [hsink, hb, Option.map_some]
      constructor
      · intro _
        refine ⟨hno, fun _ _ _ htail => ?_⟩
        cases htail
      · intro _
        exact ⟨_, rfl, Or.inl (Int.negSucc_lt_zero 0)⟩

/-- The parser hands on no number with which an `int` result could leave its type. A call returns
a negative number or the length of its output unless a width is `INT_MIN`, or the length has a low
half that is another natural number. -/
theorem printf_limits_iff (t : List UInt8) (ht : Terminated t) :
    (∃ (ps : List Piece) (tail : Tail), t = piecesText ps ++ tail.text) ∧
    (∀ args errno p, vprintfParseSpec ⟨t, zeroSpec, args, errno, .ok⟩ = some p → p.rc = .ok →
      Exact p.spec ∧ Exact { p.spec with flagNumber := true, conv := .x }) ∧
    ∀ (ps : List Piece) (tail : Tail) (args : List (BitVec 64)) (mem : Mem) (buffer : List UInt8)
      (bufSize : Nat) (errno : Int), t = piecesText ps ++ tail.text →
      Supplied ⟨args, mem, []⟩ ps tail → bufSize < 2 ^ 64 → bufSize ≤ buffer.length →
      (Reports ⟨args, mem, []⟩ ps (vsnprintf buffer bufSize t args mem errno) ↔
        ¬MeetsIntMin ⟨args, mem, []⟩ tail ps ∧ ∀ env' rest,
          runPieces codeLength ⟨args, mem, []⟩ ps = some env' → tail = .stop rest →
            Reportable env'.out.length) := by
  refine ⟨exists_pieces ht, ?_, ?_⟩
  · intro args errno p hparse hok
    have hs := parse_ranged ht hparse hok
    exact ⟨exact_of_ranged hs, exact_of_ranged ⟨hs.width, hs.precision⟩⟩
  · rintro ps tail args mem buffer bufSize errno rfl hsupplied hsize hbuffer
    exact vsnprintf_reports_iff hsupplied hsize hbuffer errno

/-- The directive `%*d`. -/
def starD : Directive where
  flags := []
  width := .star
  precision := .absent
  length := .none
  conv := .d
  fits := by decide

/-- `"%*d"` with the width -3 and the number 5. -/
theorem printf_limits_iff_three :
    (∃ p, vprintfParseSpec ⟨[42, 100, 0], zeroSpec, [-3, 5], 0, .ok⟩ = some p ∧ Exact p.spec) ∧
    ∃ r, vsnprintf [7, 7] 2 [37, 42, 100, 0] [-3, 5] (fun _ => none) 0 = some r ∧
      (r.ret < 0 ∨ ∃ env', runPieces codeLength ⟨[-3, 5], fun _ => none, []⟩ [.directive starD] =
        some env' ∧ r.ret = env'.out.length) := by
  have hrun : runPieces codeLength ⟨[-3, 5], fun _ => none, []⟩ [.directive starD] =
      some ⟨[], fun _ => none, [53, 32, 32]⟩ := rfl
  have hno : ¬MeetsIntMin ⟨[-3, 5], fun _ => none, []⟩ (.stop []) [.directive starD] :=
    not_meetsIntMin hrun trivial
  constructor
  · exact ⟨_, rfl, ((printf_limits_iff [42, 100, 0] (by decide)).2.1 [-3, 5] 0 _ rfl rfl).1⟩
  · refine ((printf_limits_iff [37, 42, 100, 0] (by decide)).2.2 [.directive starD] (.stop [])
      [-3, 5] (fun _ => none) [7, 7] 2 0 rfl (Or.inr ⟨_, hrun, trivial⟩) (by decide)
      (by decide)).mpr ⟨hno, ?_⟩
    intro env' rest hrun' _
    obtain rfl := Option.some.inj (hrun.symm.trans hrun')
    decide

/-- The directive `%*c`. -/
def starC : Directive where
  flags := []
  width := .star
  precision := .absent
  length := .none
  conv := .c
  fits := by decide

theorem length_place (L : Layout) (zeroFill : Bool) (pre body : List UInt8) :
    (place L zeroFill pre body).length = max L.width (pre.length + body.length) := by
  simp only [place]
  split_ifs <;> simp only [List.length_append, List.length_replicate] <;> omega

/-- A width of `INT_MIN` has no negation. Four GiB of output are reported as none. -/
theorem int_min_width_and_four_gib :
    vsnprintf [] 0 [37, 42, 100, 0] [0x80000000, 5] (fun _ => none) 0 = none ∧
    ∃ env' r, runPieces codeLength ⟨[0x7FFFFFFF, 97, 0x7FFFFFFF, 97], fun _ => none, []⟩
        [.directive starC, .directive starC, .literal 97 (by decide), .literal 97 (by decide)] =
          some env' ∧
      env'.out.length = 2 ^ 32 ∧
      vsnprintf [] 0 (literal ['%', '*', 'c', '%', '*', 'c', 'a', 'a'])
        [0x7FFFFFFF, 97, 0x7FFFFFFF, 97] (fun _ => none) 0 = some r ∧ r.ret = 0 := by
  refine ⟨rfl, ?_⟩
  have hrun : ∃ out, runPieces codeLength ⟨[0x7FFFFFFF, 97, 0x7FFFFFFF, 97], fun _ => none, []⟩
      [.directive starC, .directive starC, .literal 97 (by decide), .literal 97 (by decide)] =
        some ⟨[], fun _ => none, out⟩ ∧ out.length = 2 ^ 32 := by
    refine ⟨_, rfl, ?_⟩
    simp only [List.length_append, renderChar, length_place]
    rfl
  obtain ⟨out, hrun, hlen⟩ := hrun
  have htext : literal ['%', '*', 'c', '%', '*', 'c', 'a', 'a'] = piecesText
      [.directive starC, .directive starC, .literal 97 (by decide), .literal 97 (by decide)] ++
        [0] := by decide
  have hzero : toSigned 32 (UInt64.ofNat (2 ^ 32)).toNat = 0 := by decide
  have hend := vprintfShared_stop 0 hrun []
  rw [hlen, hzero, ← htext] at hend
  have hcall : vsnprintf [] 0 (literal ['%', '*', 'c', '%', '*', 'c', 'a', 'a'])
      [0x7FFFFFFF, 97, 0x7FFFFFFF, 97] (fun _ => none) 0 = some ⟨0, [], [], fun _ => none, 0⟩ := by
    rw [vsnprintf_list (by decide), state_start, hend]
    rfl
  exact ⟨_, _, hrun, hlen, hcall, rfl⟩

end Law

end PrintfLimits
