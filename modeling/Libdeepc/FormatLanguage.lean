import Libdeepc.FormatParser

/-!
# What the parser accepts

The stages of the parser put together to one statement about every text: a text
is accepted exactly when it begins with a directive, the spec then says what the
directive says, and the bytes behind the terminator play no part.
-/

namespace FormatLanguage

open CString MachineInt Numerals NumberParsing PrintfWrite PrintfShared IntRendering
open FormatGrammar FormatParser

section Spec

/-- The spec says what the flags, the width and the precision say. `n` and `neg` are the width,
`m` the precision, as they are read from the arguments where they are stars. -/
structure Exact (l : Lead) (n : Nat) (neg : Bool) (m : Option Nat) (spec : VprintSpec) : Prop where
  flagMinus : spec.flagMinus = true ↔ .minus ∈ l.flags ∨ neg = true
  flagPlus : spec.flagPlus = true ↔ .plus ∈ l.flags
  flagSpace : spec.flagSpace = true ↔ .space ∈ l.flags
  flagZero : spec.flagZero = true ↔ .zero ∈ l.flags
  flagNumber : spec.flagNumber = true ↔ .number ∈ l.flags
  widthSet : spec.widthSet = true ↔ l.width ≠ .absent
  width : l.width ≠ .absent → spec.width = n
  precisionSet : spec.precisionSet = true ↔ m.isSome = true
  precision : ∀ k, m = some k → spec.precision = k

/-- The arguments for the stars that the parser comes to are there, and a width is not `INT_MIN`.
Behind a width that does not fit it comes to no star. -/
def Served (l : Lead) (args : List (BitVec 64)) : Prop :=
  ∃ w rest, l.width.read args = some (w, rest) ∧
    (numberOf l.width.digits < 2 ^ 31 → (l.precision.read rest).isSome = true)

variable {l : Lead} {args args₁ args₂ : List (BitVec 64)} {spec : VprintSpec}

theorem setWidth_of_read {w : Width} {n : Nat} {neg : Bool}
    (h : w.read args = some ((n, neg), args₁)) (hfresh : spec.widthSet = false) :
    setWidth spec w args = some ({ spec with
      widthSet := decide (w ≠ .absent)
      width := if w = .absent then spec.width else n
      flagMinus := spec.flagMinus || neg }, args₁) := by
  cases w with
  | absent =>
    obtain ⟨⟨rfl, rfl⟩, rfl⟩ : (0 = n ∧ false = neg) ∧ args = args₁ := by
      simpa [Width.read] using h
    cases spec
    simp_all [setWidth]
  | star =>
    cases args with
    | nil => cases h
    | cons a args =>
      simp only [Width.read, vaArg, Option.bind_eq_bind, Option.bind_some] at h
      split at h
      · cases h
      · rename_i hmin
        cases h
        simp [setWidth, vaArg, hmin]
  | number first rest =>
    obtain ⟨⟨rfl, rfl⟩, rfl⟩ : (numberOf (first.succ :: rest) = n ∧ false = neg) ∧
        args = args₁ := by
      simpa [Width.read] using h
    simp [setWidth]

theorem setPrecision_of_read {pr : Precision} {m : Option Nat}
    (h : pr.read args = some (m, args₁)) (hfresh : spec.precisionSet = false) :
    ∃ x : Int, setPrecision spec pr args = some ({ spec with
      precisionSet := m.isSome, precision := x }, args₁) ∧ ∀ k, m = some k → x = k := by
  cases pr with
  | absent =>
    obtain ⟨rfl, rfl⟩ : none = m ∧ args = args₁ := by simpa [Precision.read] using h
    refine ⟨spec.precision, ?_, nofun⟩
    rw [show (none : Option Nat).isSome = spec.precisionSet from hfresh.symm]
    rfl
  | star =>
    cases args with
    | nil => cases h
    | cons a args =>
      obtain ⟨rfl, rfl⟩ : (if slotInt a < 0 then none else some (slotInt a).toNat) = m ∧
          args = args₁ := by simpa [Precision.read, vaArg] using h
      refine ⟨slotInt a, ?_, fun k hk => ?_⟩
      · by_cases hneg : slotInt a < 0
        · simp [setPrecision, vaArg, hneg]
        · simp [setPrecision, vaArg, hneg, not_lt.mp hneg]
      · split at hk
        · cases hk
        · cases hk
          omega
  | number ds =>
    obtain ⟨rfl, rfl⟩ : some (numberOf ds) = m ∧ args = args₁ := by
      simpa [Precision.read] using h
    exact ⟨numberOf ds, rfl, fun k hk => by rw [Option.some.inj hk]⟩

theorem exact_setLength {n : Nat} {neg : Bool} {m : Option Nat} (h : Exact l n neg m spec)
    (len : VprintfLength) : Exact l n neg m (setLength spec len) := by
  cases len <;>
  exact ⟨h.flagMinus, h.flagPlus, h.flagSpace, h.flagZero, h.flagNumber, h.widthSet, h.width,
    h.precisionSet, h.precision⟩

theorem leadSpec_exact {n : Nat} {neg : Bool} {m : Option Nat}
    (hw : l.width.read args = some ((n, neg), args₁))
    (hp : l.precision.read args₁ = some (m, args₂)) :
    ∃ spec, leadSpec l args = some (spec, args₂) ∧ Exact l n neg m spec := by
  have hflags := foldl_set_spec l.flags zeroSpec
  generalize hspec₀ : l.flags.foldl addFlag zeroSpec = spec₀ at hflags
  have hfresh : spec₀.widthSet = false := by
    rw [hflags]
    rfl
  have hwidth := setWidth_of_read hw hfresh
  generalize hspec₁ : ({ spec₀ with
    widthSet := decide (l.width ≠ .absent)
    width := if l.width = .absent then spec₀.width else n
    flagMinus := spec₀.flagMinus || neg } : VprintSpec) = spec₁ at hwidth
  have hfresh' : spec₁.precisionSet = false := by
    rw [← hspec₁, hflags]
    rfl
  obtain ⟨x, hprecision, hx⟩ := setPrecision_of_read hp hfresh'
  refine ⟨setLength { spec₁ with precisionSet := m.isSome, precision := x } l.length, ?_,
    exact_setLength ?_ l.length⟩
  · simp only [leadSpec, hspec₀, hwidth, hprecision, Option.bind_eq_bind, Option.bind_some]
  · rw [← hspec₁, hflags]
    constructor
    · simp [zeroSpec]
    · simp [zeroSpec]
    · simp [zeroSpec]
    · simp [zeroSpec]
    · simp [zeroSpec]
    · simp
    · intro hne
      simp [hne]
    · simp
    · exact hx

end Spec

section Rejection

variable {l : Lead} {args : List (BitVec 64)} {u : List UInt8}

/-- The terminator comes after whatever does not end a part. -/
theorem head_append_zero {P : UInt8 → Prop} (h : ∀ c, u.head? = some c → P c) (hzero : P 0)
    (rest : List UInt8) : ∀ c, (u ++ 0 :: rest).head? = some c → P c := by
  intro c hc
  cases u with
  | nil => exact Option.some.inj hc ▸ hzero
  | cons b u => exact h c hc

theorem ends_append_zero (h : l.Ends u) (rest : List UInt8) : l.Ends (u ++ 0 :: rest) where
  flags := by
    have hflags := head_append_zero h.flags (by decide) rest
    simp only [List.append_assoc] at hflags
    exact hflags
  width := by
    have hend := h.width
    rw [← List.append_assoc, ← List.append_assoc, List.append_assoc l.precision.text]
    cases hw : l.width with
    | absent =>
      rw [hw] at hend
      exact head_append_zero hend (by decide) rest
    | star => trivial
    | number first ds =>
      rw [hw] at hend
      exact head_append_zero hend (by decide) rest
  precision := by
    have hend := h.precision
    rw [← List.append_assoc]
    cases hp : l.precision with
    | absent =>
      rw [hp] at hend
      exact head_append_zero hend (by decide) rest
    | star => trivial
    | number ds =>
      rw [hp] at hend
      exact ⟨head_append_zero hend.1 (by decide) rest,
        fun hnil => head_append_zero (hend.2 hnil) (by decide) rest⟩
  length := by
    have hend := h.length
    cases hlen : l.length
    case none =>
      rw [hlen] at hend
      exact head_append_zero hend (by decide) rest
    case h =>
      rw [hlen] at hend
      exact head_append_zero hend (by decide) rest
    case l =>
      rw [hlen] at hend
      exact head_append_zero hend (by decide) rest
    all_goals trivial

theorem terminated_append_zero (s rest : List UInt8) : Terminated (s ++ 0 :: rest) :=
  terminated_append (terminated_zero rest) s

/-- A literal number that does not fit ends the parser behind that number. -/
theorem lead_rejected (hfits : ¬l.Fits) (hserved : Served l args) (errno : Int) :
    ∃ pre v spec args', l.text = pre ++ v ∧ ∀ u, Terminated u → l.Ends u →
      vprintfParseSpec ⟨l.text ++ u, zeroSpec, args, errno, .ok⟩ =
        some ⟨v ++ u, spec, args', erange, .err⟩ := by
  by_cases hw : numberOf l.width.digits < 2 ^ 31
  · have hp : ¬numberOf l.precision.digits < 2 ^ 31 := fun hp => hfits ⟨hw, hp⟩
    obtain ⟨⟨n, neg⟩, args', hread, _⟩ := hserved
    have hfresh : (l.flags.foldl addFlag zeroSpec).widthSet = false := by
      rw [foldl_set_spec]
      rfl
    have hset := setWidth_of_read hread hfresh
    generalize ({ l.flags.foldl addFlag zeroSpec with
      widthSet := decide (l.width ≠ .absent)
      width := if l.width = .absent then (l.flags.foldl addFlag zeroSpec).width else n
      flagMinus := (l.flags.foldl addFlag zeroSpec).flagMinus || neg } : VprintSpec) = spec at hset
    refine ⟨l.flags.map Flag.text ++ (l.width.text ++ l.precision.text), lengthText l.length,
      { spec with precisionSet := true }, args', by simp only [Lead.text, List.append_assoc],
      fun u hu hends => ?_⟩
    have hlen := terminated_append hu (lengthText l.length)
    have hwidth := parseWidth_eq l.width (terminated_append hlen l.precision.text) hends.width
      ⟨[], l.flags.foldl addFlag zeroSpec, args, errno, .ok⟩
    simp only [vprintfParseSpec, Lead.text, List.append_assoc, parseFlags_eq l.flags hends.flags,
      hwidth, hw, if_true, hset, Option.bind_some,
      parsePrecision_eq l.precision hlen hends.precision ⟨[], _, args', errno, .ok⟩, hp, if_false]
    rfl
  · refine ⟨l.flags.map Flag.text ++ l.width.text, l.precision.text ++ lengthText l.length,
      { l.flags.foldl addFlag zeroSpec with widthSet := true }, args,
      by simp only [Lead.text, List.append_assoc], fun u hu hends => ?_⟩
    have hlen := terminated_append hu (lengthText l.length)
    have hwidth := parseWidth_eq l.width (terminated_append hlen l.precision.text) hends.width
      ⟨[], l.flags.foldl addFlag zeroSpec, args, errno, .ok⟩
    simp only [vprintfParseSpec, Lead.text, List.append_assoc, parseFlags_eq l.flags hends.flags,
      hwidth, hw, if_false]
    rfl

/-- Anything but a conversion character ends the parser, the terminator where it stands. -/
theorem conv_rejected (hzero : 0 ∉ u) (hno : ∀ k : ConvChar, u.head? ≠ some k.text)
    (spec : VprintSpec) (args : List (BitVec 64)) (errno : Int) :
    ∃ n, n ≤ u.length ∧ ∀ rest, nextChar ⟨u ++ 0 :: rest, spec, args, errno, .ok⟩ parseConv =
      some ⟨u.drop n ++ 0 :: rest, spec, args, einval, .err⟩ := by
  cases u with
  | nil => exact ⟨0, Nat.le_refl 0, fun _ => rfl⟩
  | cons c v =>
    have hc : c ≠ 0 := fun h => hzero (h ▸ List.mem_cons_self)
    refine ⟨1, Nat.succ_le_succ (Nat.zero_le _), fun rest => ?_⟩
    cases hconv : convOfChar c with
    | some conv =>
      obtain ⟨k, hk⟩ := exists_conv_of_convOfChar hconv
      exact absurd (by rw [hk]; rfl) (hno k)
    | none =>
      have hnext := nextChar_cons (p := ⟨[], spec, args, errno, .ok⟩) hc (v ++ 0 :: rest) parseConv
      rw [List.cons_append, List.drop_succ_cons, List.drop_zero]
      exact hnext.trans (by simp only [parseConv, hconv]; rfl)

end Rejection

section Language

variable {x u : List UInt8} {args : List (BitVec 64)}

/-- However the text is read as the parts of a directive, the arguments for its stars are there. -/
def StarArgs (x : List UInt8) (args : List (BitVec 64)) : Prop :=
  ∀ (l : Lead) (u : List UInt8), x = l.text ++ u → l.Ends u → Served l args

/-- The spec says what the directive says, and `args'` are the arguments behind its stars. -/
def Denotes (d : Directive) (args : List (BitVec 64)) (spec : VprintSpec)
    (args' : List (BitVec 64)) : Prop :=
  ∃ n neg args₁ m, d.width.read args = some ((n, neg), args₁) ∧
    d.precision.read args₁ = some (m, args') ∧ Exact d.toLead n neg m spec ∧
    spec.conv = d.conv.conv

/-- Two arguments serve every text, when neither is `INT_MIN`. -/
theorem starArgs_of_args (hlen : 2 ≤ args.length) (hmin : ∀ a ∈ args, slotInt a ≠ intMin) :
    StarArgs x args := by
  intro l u _ _
  obtain ⟨a, b, rest, rfl⟩ : ∃ a b rest, args = a :: b :: rest := by
    obtain ⟨a, tail, rfl⟩ := List.exists_cons_of_length_pos (Nat.lt_of_lt_of_le Nat.two_pos hlen)
    obtain ⟨b, rest, rfl⟩ := List.exists_cons_of_length_pos (Nat.lt_of_succ_le
      (Nat.le_of_succ_le_succ hlen))
    exact ⟨a, b, rest, rfl⟩
  have hprecision : ∀ c cs, (l.precision.read (c :: cs)).isSome = true := by
    intro c cs
    cases l.precision <;> rfl
  cases hw : l.width with
  | absent => exact ⟨_, a :: b :: rest, by rw [hw]; rfl, fun _ => hprecision a (b :: rest)⟩
  | star =>
    have ha := hmin a List.mem_cons_self
    refine ⟨((slotInt a).natAbs, decide (slotInt a < 0)), b :: rest, ?_, fun _ => hprecision b rest⟩
    simp [hw, Width.read, vaArg, ha]
  | number first ds => exact ⟨_, a :: b :: rest, by rw [hw]; rfl, fun _ => hprecision a (b :: rest)⟩

theorem parse_of_lead {l : Lead} (hfits : l.Fits) (hserved : Served l args) :
    ∃ n neg args₁ m args' spec, l.width.read args = some ((n, neg), args₁) ∧
      l.precision.read args₁ = some (m, args') ∧ Exact l n neg m spec ∧
      ∀ u, Terminated u → l.Ends u → ∀ errno,
        vprintfParseSpec ⟨l.text ++ u, zeroSpec, args, errno, .ok⟩ =
          nextChar ⟨u, spec, args', errno, .ok⟩ parseConv := by
  obtain ⟨⟨n, neg⟩, args₁, hwidth, hrest⟩ := hserved
  obtain ⟨⟨m, args'⟩, hprecision⟩ := Option.isSome_iff_exists.mp (hrest hfits.1)
  obtain ⟨spec, hspec, hexact⟩ := leadSpec_exact hwidth hprecision
  refine ⟨n, neg, args₁, m, args', spec, hwidth, hprecision, hexact, fun u hu hends errno => ?_⟩
  rw [parse_lead hfits hu hends, hspec, Option.bind_some]

theorem parse_directive_exact (hstars : StarArgs x args) (errno : Int) {d : Directive}
    (hx : x = d.text ++ u) : ∃ spec args', Denotes d args spec args' ∧
      ∀ rest, vprintfParseSpec ⟨x ++ 0 :: rest, zeroSpec, args, errno, .ok⟩ =
        some ⟨u ++ 0 :: rest, spec, args', errno, .ok⟩ := by
  have hsplit : x = d.toLead.text ++ d.conv.text :: u := by
    rw [hx, Directive.text, List.append_assoc, List.singleton_append]
  have hserved := hstars d.toLead (d.conv.text :: u) hsplit (ends_conv d.toLead d.conv u)
  obtain ⟨n, neg, args₁, m, args', spec, hwidth, hprecision, hexact, hparse⟩ :=
    parse_of_lead d.fits hserved
  refine ⟨{ spec with conv := d.conv.conv }, args', ⟨n, neg, args₁, m, hwidth, hprecision,
    ⟨hexact.flagMinus, hexact.flagPlus, hexact.flagSpace, hexact.flagZero, hexact.flagNumber,
      hexact.widthSet, hexact.width, hexact.precisionSet, hexact.precision⟩, rfl⟩, fun rest => ?_⟩
  have hterm : Terminated (d.conv.text :: (u ++ 0 :: rest)) :=
    (terminated_cons_of_ne (convOfChar_text d.conv).2).mpr (terminated_append_zero u rest)
  rw [hsplit, List.append_assoc, List.cons_append, hparse _ hterm (ends_conv _ _ _)]
  exact parseConv_eq d.conv (u ++ 0 :: rest) ⟨[], spec, args', errno, .ok⟩

theorem parse_rejected_exact (hzero : 0 ∉ x) (hstars : StarArgs x args) (errno : Int)
    (hno : ¬∃ (d : Directive) (u : List UInt8), x = d.text ++ u) :
    ∃ n spec args' errno', n ≤ x.length ∧ (errno' = einval ∨ errno' = erange) ∧
      ∀ rest, vprintfParseSpec ⟨x ++ 0 :: rest, zeroSpec, args, errno, .ok⟩ =
        some ⟨x.drop n ++ 0 :: rest, spec, args', errno', .err⟩ := by
  obtain ⟨l, u, rfl, hends⟩ := exists_lead x
  have hserved := hstars l u rfl hends
  by_cases hfits : l.Fits
  · obtain ⟨_, _, _, _, args', spec, _, _, _, hparse⟩ := parse_of_lead hfits hserved
    have hzero' : 0 ∉ u := fun h => hzero (List.mem_append_right _ h)
    obtain ⟨n, hn, hconv⟩ := conv_rejected hzero' (fun k hk => by
      obtain ⟨v, rfl⟩ := List.head?_eq_some_iff.mp hk
      exact hno ⟨⟨l, k, hfits⟩, v, by simp [Directive.text]⟩) spec args' errno
    refine ⟨l.text.length + n, spec, args', einval, ?_, .inl rfl, fun rest => ?_⟩
    · rw [List.length_append]
      omega
    · rw [List.append_assoc, hparse _ (terminated_append_zero u rest)
        (ends_append_zero hends rest), hconv, List.drop_length_add_append]
  · obtain ⟨pre, v, spec, args', htext, hparse⟩ := lead_rejected hfits hserved errno
    refine ⟨pre.length, spec, args', erange, ?_, .inr rfl, fun rest => ?_⟩
    · rw [htext, List.length_append, List.length_append]
      omega
    · rw [List.append_assoc, hparse _ (terminated_append_zero u rest) (ends_append_zero hends rest),
        htext, List.append_assoc, List.drop_left, List.append_assoc]

/-- A text is accepted exactly when it begins with a directive: the parser then stands behind the
conversion character and has the spec of the directive. Otherwise it fails with an error number.
It stops at the terminator at the latest, and what is behind that makes no difference. -/
theorem parse_language (x : List UInt8) (hx : 0 ∉ x) (args : List (BitVec 64))
    (hstars : StarArgs x args) (errno : Int) :
    ∃ n spec args' errno' rc, n ≤ x.length ∧
      (∀ rest, vprintfParseSpec ⟨x ++ 0 :: rest, zeroSpec, args, errno, .ok⟩ =
        some ⟨x.drop n ++ 0 :: rest, spec, args', errno', rc⟩) ∧
      (rc = .ok ↔ ∃ (d : Directive) (u : List UInt8), x = d.text ++ u) ∧
      (∀ (d : Directive) (u : List UInt8), x = d.text ++ u →
        n = d.text.length ∧ errno' = errno ∧ Denotes d args spec args') ∧
      (rc ≠ .ok → rc = .err ∧ (errno' = einval ∨ errno' = erange)) := by
  by_cases hdir : ∃ (d : Directive) (u : List UInt8), x = d.text ++ u
  · obtain ⟨d, u, hd⟩ := hdir
    obtain ⟨spec, args', hdenotes, hparse⟩ := parse_directive_exact hstars errno hd
    have hdrop : x.drop d.text.length = u := by rw [hd, List.drop_left]
    refine ⟨d.text.length, spec, args', errno, .ok, ?_, fun rest => ?_, ?_, ?_, ?_⟩
    · rw [hd, List.length_append]
      exact Nat.le_add_right _ _
    · rw [hparse, hdrop]
    · exact ⟨fun _ => ⟨d, u, hd⟩, fun _ => rfl⟩
    · intro d' u' hd'
      obtain ⟨spec', args'', hdenotes', hparse'⟩ := parse_directive_exact hstars errno hd'
      have hsame := Option.some.inj ((hparse []).symm.trans (hparse' []))
      simp only [ParseState.mk.injEq, List.append_cancel_right_eq] at hsame
      obtain ⟨rfl, rfl, rfl, _⟩ := hsame
      refine ⟨?_, rfl, hdenotes'⟩
      have hlen := congrArg List.length (hd.symm.trans hd')
      simp only [List.length_append] at hlen
      omega
    · exact fun h => absurd rfl h
  · obtain ⟨n, spec, args', errno', hn, herrno, hparse⟩ :=
      parse_rejected_exact hx hstars errno hdir
    refine ⟨n, spec, args', errno', .err, hn, hparse, ⟨nofun, fun h => absurd h hdir⟩,
      fun d u hd => absurd ⟨d, u, hd⟩ hdir, fun _ => ⟨rfl, herrno⟩⟩

/-- `"%-*.5hd!"` behind its percent sign. -/
def starText : List UInt8 := [45, 42, 46, 53, 104, 100, 33]

def starDirective : Directive := ⟨⟨[.minus], .star, .number [5], .h⟩, .d, by decide⟩

/-- A width of -3. -/
def starArguments : List (BitVec 64) := [0xfffffffffffffffd#64, 7#64]

theorem parse_language_star : ∃ n spec args' errno' rc, n = 6 ∧ rc = .ok ∧ errno' = 0 ∧
    (∀ rest, vprintfParseSpec ⟨starText ++ 0 :: rest, zeroSpec, starArguments, 0, .ok⟩ =
      some ⟨starText.drop n ++ 0 :: rest, spec, args', errno', rc⟩) ∧
    Denotes starDirective starArguments spec args' := by
  have hmin : ∀ a ∈ starArguments, slotInt a ≠ intMin := by
    simp [starArguments, slotInt, intMin]
  obtain ⟨n, spec, args', errno', rc, _, hparse, hok, hdir, _⟩ :=
    parse_language starText (by decide) starArguments (starArgs_of_args (Nat.le_refl 2) hmin) 0
  have hx : starText = starDirective.text ++ [33] := by decide
  obtain ⟨hlen, herrno, hdenotes⟩ := hdir starDirective [33] hx
  exact ⟨n, spec, args', errno', rc, hlen, hok.mpr ⟨starDirective, [33], hx⟩, herrno, hparse,
    hdenotes⟩

end Language

end FormatLanguage
