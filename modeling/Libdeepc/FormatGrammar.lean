import Libdeepc.IntRendering
import Libdeepc.StrtolLaw

/-!
# The directives of a format

A directive is given by its parts, not by a parser: flags, width, precision,
length modifier and conversion character, with literal numbers as digit
sequences. Every text begins with the parts of a directive, each as long as can
be; the text of a directive is such a reading, as its conversion character ends
every part.
-/

namespace FormatGrammar

open CString MachineInt Numerals NumberParsing StrtolLaw PrintfWrite IntRendering

inductive Flag where
  | minus | plus | space | zero | number
  deriving DecidableEq

def Flag.text : Flag → UInt8
  | .minus => byte '-'
  | .plus => byte '+'
  | .space => byte ' '
  | .zero => byte '0'
  | .number => byte '#'

def decimal (d : Fin 10) : UInt8 := UInt8.ofNat (48 + d)

/-- A literal width begins with a digit from 1 to 9. -/
inductive Width where
  | absent
  | star
  | number (first : Fin 9) (rest : List (Fin 10))
  deriving DecidableEq

def Width.digits : Width → List (Fin 10)
  | .number first rest => first.succ :: rest
  | _ => []

/-- A period may stand alone. -/
inductive Precision where
  | absent
  | star
  | number (digits : List (Fin 10))
  deriving DecidableEq

def Precision.digits : Precision → List (Fin 10)
  | .number digits => digits
  | _ => []

def numberOf (ds : List (Fin 10)) : Nat := value 10 (ds.map Fin.val)

def Width.text : Width → List UInt8
  | .absent => []
  | .star => [byte '*']
  | .number first rest => (first.succ :: rest).map decimal

def Precision.text : Precision → List UInt8
  | .absent => []
  | .star => [byte '.', byte '*']
  | .number ds => byte '.' :: ds.map decimal

def lengthText : VprintfLength → List UInt8
  | .none => []
  | .hh => [byte 'h', byte 'h']
  | .h => [byte 'h']
  | .l => [byte 'l']
  | .ll => [byte 'l', byte 'l']
  | .j => [byte 'j']
  | .z => [byte 'z']
  | .t => [byte 't']
  | .L => [byte 'L']

inductive ConvChar where
  | d | i | o | u | x | X | c | s | p | n | percent
  deriving DecidableEq

def ConvChar.text : ConvChar → UInt8
  | .d => byte 'd'
  | .i => byte 'i'
  | .o => byte 'o'
  | .u => byte 'u'
  | .x => byte 'x'
  | .X => byte 'X'
  | .c => byte 'c'
  | .s => byte 's'
  | .p => byte 'p'
  | .n => byte 'n'
  | .percent => byte '%'

def ConvChar.conv : ConvChar → VprintfConv
  | .d | .i => .d
  | .o => .o
  | .u => .u
  | .x => .x
  | .X => .X
  | .c => .c
  | .s => .s
  | .p => .p
  | .n => .n
  | .percent => .percent

/-- A directive up to its conversion character. -/
structure Lead where
  flags : List Flag
  width : Width
  precision : Precision
  length : VprintfLength

def Lead.text (l : Lead) : List UInt8 :=
  l.flags.map Flag.text ++ (l.width.text ++ (l.precision.text ++ lengthText l.length))

/-- The literal numbers are at most `INT_MAX`. -/
def Lead.Fits (l : Lead) : Prop :=
  numberOf l.width.digits < 2 ^ 31 ∧ numberOf l.precision.digits < 2 ^ 31

instance (l : Lead) : Decidable l.Fits := inferInstanceAs (Decidable (_ ∧ _))

/-- A valid directive, what follows the `%`. -/
structure Directive extends Lead where
  conv : ConvChar
  fits : toLead.Fits

def Directive.text (d : Directive) : List UInt8 := d.toLead.text ++ [d.conv.text]

/-- An `int` argument, as the standard reads it for a width: a negative one is a
minus flag and its absolute value. There is none for `INT_MIN`. -/
def Width.read : Width → List (BitVec 64) → Option ((Nat × Bool) × List (BitVec 64))
  | .absent, args => some ((0, false), args)
  | .star, args => do
    let (a, args) ← vaArg args
    if slotInt a = intMin then none
    else some (((slotInt a).natAbs, decide (slotInt a < 0)), args)
  | .number first rest, args => some ((numberOf (first.succ :: rest), false), args)

/-- A negative `int` argument is a precision that is not there. -/
def Precision.read : Precision → List (BitVec 64) → Option (Option Nat × List (BitVec 64))
  | .absent, args => some (none, args)
  | .star, args => do
    let (a, args) ← vaArg args
    some (if slotInt a < 0 then none else some (slotInt a).toNat, args)
  | .number ds, args => some (some (numberOf ds), args)

/-- The layout a directive asks for, and the arguments left after its stars. -/
def Lead.layout (l : Lead) (args : List (BitVec 64)) : Option (Layout × List (BitVec 64)) := do
  let (width, args) ← l.width.read args
  let (precision, args) ← l.precision.read args
  some (⟨decide (.minus ∈ l.flags) || width.2, decide (.plus ∈ l.flags),
    decide (.space ∈ l.flags), decide (.zero ∈ l.flags), decide (.number ∈ l.flags),
    width.1, precision⟩, args)

section Numbers

theorem decimal_spec (d : Fin 10) :
    isDigitOf 10 (decimal d) = true ∧ digitValue (decimal d) = d ∧
      isdigit (charVal (decimal d)) = true ∧ decimal d ≠ 0 := by
  revert d
  decide

theorem decimal_plain (d : Fin 10) : isSpaceByte (decimal d) = false ∧
    decimal d ≠ byte '-' ∧ decimal d ≠ byte '+' ∧ decimal d ≠ byte '*' := by
  revert d
  decide

/-- The next byte does not continue the digit run. -/
def NoDigit (u : List UInt8) : Prop := ∀ c, u.head? = some c → isDigitOf 10 c = false

theorem digitRun_of_noDigit {u : List UInt8} (h : NoDigit u) :
    digitRun 10 u = [] ∧ afterDigits 10 u = u := by
  cases u with
  | nil => simp [digitRun, afterDigits]
  | cons c u =>
    have hc := h c rfl
    exact ⟨digitRun_cons_of_not hc u, by simp [afterDigits, hc]⟩

end Numbers

section Ends

/-- The next byte is none of these. -/
def HeadNot (cs : List UInt8) (u : List UInt8) : Prop := ∀ c, u.head? = some c → c ∉ cs

/-- What a maximal reading of the parts leaves behind. -/
def FlagsEnd (u : List UInt8) : Prop :=
  HeadNot [byte '-', byte '+', byte ' ', byte '0', byte '#'] u

def WidthEnd : Width → List UInt8 → Prop
  | .absent, u => ∀ c, u.head? = some c → c ≠ byte '*' ∧ ¬(byte '1' ≤ c ∧ c ≤ byte '9')
  | .star, _ => True
  | .number _ _, u => NoDigit u

def PrecisionEnd : Precision → List UInt8 → Prop
  | .absent, u => HeadNot [byte '.'] u
  | .star, _ => True
  | .number ds, u => NoDigit u ∧ (ds = [] → HeadNot [byte '*'] u)

def LengthEnd : VprintfLength → List UInt8 → Prop
  | .none, u => HeadNot [byte 'h', byte 'l', byte 'j', byte 'z', byte 't', byte 'L'] u
  | .h, u => HeadNot [byte 'h'] u
  | .l, u => HeadNot [byte 'l'] u
  | _, _ => True

/-- The parts of the lead end where they do in front of `u`. -/
structure Lead.Ends (l : Lead) (u : List UInt8) : Prop where
  flags : FlagsEnd (l.width.text ++ (l.precision.text ++ (lengthText l.length ++ u)))
  width : WidthEnd l.width (l.precision.text ++ (lengthText l.length ++ u))
  precision : PrecisionEnd l.precision (lengthText l.length ++ u)
  length : LengthEnd l.length u

/-- No valid directive stands at the beginning of the text. -/
def NoDirective (t : List UInt8) : Prop := ∀ (d : Directive) u, t ≠ d.text ++ u

end Ends

section Texts

theorem headNot_cons {cs : List UInt8} {c : UInt8} (h : c ∉ cs) (u : List UInt8) :
    HeadNot cs (c :: u) := by
  intro d hd
  rwa [← Option.some.inj hd]

/-- A byte that begins neither flags nor a width, and continues no number. -/
def PastWidth (c : UInt8) : Prop :=
  c ∉ [byte '-', byte '+', byte ' ', byte '0', byte '#'] ∧ c ≠ byte '*' ∧
    ¬(byte '1' ≤ c ∧ c ≤ byte '9') ∧ isDigitOf 10 c = false

instance (c : UInt8) : Decidable (PastWidth c) := inferInstanceAs (Decidable (_ ∧ _))

theorem conv_pastWidth (k : ConvChar) : PastWidth k.text ∧ k.text ≠ byte '.' ∧
    k.text ∉ [byte 'h', byte 'l', byte 'j', byte 'z', byte 't', byte 'L'] := by
  cases k <;> decide

theorem length_head (len : VprintfLength) (k : ConvChar) (u : List UInt8) :
    ∃ c v, lengthText len ++ k.text :: u = c :: v ∧ PastWidth c ∧ c ≠ byte '.' := by
  cases len
  case none => exact ⟨_, _, rfl, (conv_pastWidth k).1, (conv_pastWidth k).2.1⟩
  all_goals exact ⟨_, _, rfl, by decide, by decide⟩

theorem precision_head (pr : Precision) (len : VprintfLength) (k : ConvChar) (u : List UInt8) :
    ∃ c v, pr.text ++ (lengthText len ++ k.text :: u) = c :: v ∧ PastWidth c := by
  cases pr with
  | absent =>
    obtain ⟨c, v, hv, hc, _⟩ := length_head len k u
    exact ⟨c, v, hv, hc⟩
  | star => exact ⟨_, _, rfl, by decide⟩
  | number ds => exact ⟨_, _, rfl, by decide⟩

/-- A conversion character ends every part of a directive. -/
theorem ends_conv (l : Lead) (k : ConvChar) (u : List UInt8) : l.Ends (k.text :: u) where
  flags := by
    cases l.width with
    | absent =>
      obtain ⟨c, v, hv, hc⟩ := precision_head l.precision l.length k u
      rw [Width.text, List.nil_append, hv]
      exact headNot_cons hc.1 v
    | star => exact headNot_cons (by decide) _
    | number first rest =>
      refine headNot_cons ?_ _
      revert first
      decide
  width := by
    obtain ⟨c, v, hv, hc⟩ := precision_head l.precision l.length k u
    rw [hv]
    cases l.width with
    | absent =>
      intro d hd
      obtain rfl := Option.some.inj hd
      exact ⟨hc.2.1, hc.2.2.1⟩
    | star => trivial
    | number first rest =>
      intro d hd
      obtain rfl := Option.some.inj hd
      exact hc.2.2.2
  precision := by
    obtain ⟨c, v, hv, hc, hdot⟩ := length_head l.length k u
    rw [hv]
    cases l.precision with
    | absent => exact headNot_cons (by simpa using hdot) v
    | star => trivial
    | number ds =>
      refine ⟨fun d hd => ?_, fun _ => headNot_cons (by simpa using hc.2.1) v⟩
      obtain rfl := Option.some.inj hd
      exact hc.2.2.2
  length := by
    have hk := (conv_pastWidth k).2.2
    simp only [List.mem_cons, List.not_mem_nil, or_false, not_or] at hk
    cases l.length
    case none => exact headNot_cons (by simpa using hk) u
    case h => exact headNot_cons (by simpa using hk.1) u
    case l => exact headNot_cons (by simpa using hk.2.1) u
    all_goals trivial

theorem Lead.zero_notMem_text (l : Lead) : 0 ∉ l.text := by
  have hds : ∀ ds : List (Fin 10), 0 ∉ ds.map decimal := by
    intro ds h
    obtain ⟨d, _, hd⟩ := List.mem_map.mp h
    exact (decimal_spec d).2.2.2 hd
  have hflags : 0 ∉ l.flags.map Flag.text := by
    intro h
    obtain ⟨f, _, hf⟩ := List.mem_map.mp h
    cases f <;> exact absurd hf (by decide)
  have hwidth : 0 ∉ l.width.text := by
    cases l.width with
    | absent => exact List.not_mem_nil
    | star => decide
    | number first rest => exact hds _
  have hprecision : 0 ∉ l.precision.text := by
    cases l.precision with
    | absent => exact List.not_mem_nil
    | star => decide
    | number ds => exact fun h => (List.mem_cons.mp h).elim (by decide) (hds ds)
  have hlength : 0 ∉ lengthText l.length := by cases l.length <;> decide
  simp only [Lead.text, List.mem_append, not_or]
  exact ⟨hflags, hwidth, hprecision, hlength⟩

theorem Directive.zero_notMem_text (d : Directive) : 0 ∉ d.text := by
  have hconv : 0 ∉ [d.conv.text] := by cases d.conv <;> decide
  exact fun h => (List.mem_append.mp h).elim d.toLead.zero_notMem_text hconv

theorem exists_flags (t : List UInt8) :
    ∃ (flags : List Flag) (u : List UInt8), t = flags.map Flag.text ++ u ∧ FlagsEnd u := by
  induction t with
  | nil => exact ⟨[], [], rfl, fun c hc => by cases hc⟩
  | cons c t ih =>
    by_cases hflag : ∃ f : Flag, f.text = c
    · obtain ⟨f, rfl⟩ := hflag
      obtain ⟨flags, u, rfl, hend⟩ := ih
      exact ⟨f :: flags, u, rfl, hend⟩
    · refine ⟨[], c :: t, rfl, headNot_cons ?_ t⟩
      intro hmem
      simp only [List.mem_cons, List.not_mem_nil, or_false] at hmem
      rcases hmem with rfl | rfl | rfl | rfl | rfl
      · exact hflag ⟨.minus, rfl⟩
      · exact hflag ⟨.plus, rfl⟩
      · exact hflag ⟨.space, rfl⟩
      · exact hflag ⟨.zero, rfl⟩
      · exact hflag ⟨.number, rfl⟩

theorem exists_decimal_of_isDigitOf {c : UInt8} (h : isDigitOf 10 c = true) :
    ∃ d : Fin 10, decimal d = c := by
  have hlt := isDigitOf_lt h
  rcases digitValue_cases c with hc | hc | hc | hc
  · refine ⟨⟨c.toNat - 48, by omega⟩, UInt8.toNat_inj.mp ?_⟩
    simp only [decimal, UInt8.toNat_ofNat']
    omega
  all_goals omega

theorem exists_digits (t : List UInt8) :
    ∃ (ds : List (Fin 10)) (u : List UInt8), t = ds.map decimal ++ u ∧ NoDigit u := by
  induction t with
  | nil => exact ⟨[], [], rfl, fun c hc => by cases hc⟩
  | cons c t ih =>
    cases hc : isDigitOf 10 c with
    | true =>
      obtain ⟨d, rfl⟩ := exists_decimal_of_isDigitOf hc
      obtain ⟨ds, u, rfl, hend⟩ := ih
      exact ⟨d :: ds, u, rfl, hend⟩
    | false =>
      refine ⟨[], c :: t, rfl, fun d hd => ?_⟩
      rwa [← Option.some.inj hd]

theorem exists_width (t : List UInt8) :
    ∃ (w : Width) (u : List UInt8), t = w.text ++ u ∧ WidthEnd w u := by
  cases t with
  | nil => exact ⟨.absent, [], rfl, fun c hc => by cases hc⟩
  | cons c t =>
    by_cases hstar : c = byte '*'
    · exact ⟨.star, t, by rw [hstar]; rfl, trivial⟩
    · by_cases hdigit : byte '1' ≤ c ∧ c ≤ byte '9'
      · have hfirst : ∃ first : Fin 9, decimal first.succ = c := by
          have lo : 49 ≤ c.toNat := UInt8.le_iff_toNat_le.mp hdigit.1
          have hi : c.toNat ≤ 57 := UInt8.le_iff_toNat_le.mp hdigit.2
          refine ⟨⟨c.toNat - 49, by omega⟩, UInt8.toNat_inj.mp ?_⟩
          simp only [decimal, Fin.succ_mk, UInt8.toNat_ofNat']
          omega
        obtain ⟨first, rfl⟩ := hfirst
        obtain ⟨ds, u, rfl, hend⟩ := exists_digits t
        exact ⟨.number first ds, u, rfl, hend⟩
      · refine ⟨.absent, c :: t, rfl, fun d hd => ?_⟩
        obtain rfl := Option.some.inj hd
        exact ⟨hstar, hdigit⟩

theorem exists_precision (t : List UInt8) :
    ∃ (pr : Precision) (u : List UInt8), t = pr.text ++ u ∧ PrecisionEnd pr u := by
  by_cases hdot : t.head? = some (byte '.')
  · obtain ⟨t, rfl⟩ : ∃ v, t = byte '.' :: v := List.head?_eq_some_iff.mp hdot
    by_cases hstar : t.head? = some (byte '*')
    · obtain ⟨u, rfl⟩ : ∃ v, t = byte '*' :: v := List.head?_eq_some_iff.mp hstar
      exact ⟨.star, u, rfl, trivial⟩
    · obtain ⟨ds, u, rfl, hend⟩ := exists_digits t
      refine ⟨.number ds, u, rfl, hend, fun hnil c hc => ?_⟩
      rw [hnil] at hstar
      rintro hmem
      rw [List.mem_singleton.mp hmem] at hc
      exact hstar hc
  · refine ⟨.absent, t, rfl, fun c hc hmem => ?_⟩
    rw [List.mem_singleton.mp hmem] at hc
    exact hdot hc

theorem exists_length (t : List UInt8) :
    ∃ (len : VprintfLength) (u : List UInt8), t = lengthText len ++ u ∧ LengthEnd len u := by
  have hdouble : ∀ (c : UInt8) (u : List UInt8), (∃ v, u = c :: v) ∨ HeadNot [c] u := by
    intro c u
    by_cases h : u.head? = some c
    · exact Or.inl (List.head?_eq_some_iff.mp h)
    · refine Or.inr fun d hd hmem => h ?_
      rwa [List.mem_singleton.mp hmem] at hd
  cases t with
  | nil => exact ⟨.none, [], rfl, fun c hc => by cases hc⟩
  | cons c u =>
    by_cases hmem : c ∈ [byte 'h', byte 'l', byte 'j', byte 'z', byte 't', byte 'L']
    · simp only [List.mem_cons, List.not_mem_nil, or_false] at hmem
      rcases hmem with rfl | rfl | rfl | rfl | rfl | rfl
      · rcases hdouble (byte 'h') u with ⟨v, rfl⟩ | hend
        · exact ⟨.hh, v, rfl, trivial⟩
        · exact ⟨.h, u, rfl, hend⟩
      · rcases hdouble (byte 'l') u with ⟨v, rfl⟩ | hend
        · exact ⟨.ll, v, rfl, trivial⟩
        · exact ⟨.l, u, rfl, hend⟩
      · exact ⟨.j, u, rfl, trivial⟩
      · exact ⟨.z, u, rfl, trivial⟩
      · exact ⟨.t, u, rfl, trivial⟩
      · exact ⟨.L, u, rfl, trivial⟩
    · exact ⟨.none, c :: u, rfl, headNot_cons hmem u⟩

/-- Every text begins with the parts of a directive, each as long as can be. -/
theorem exists_lead (t : List UInt8) :
    ∃ (l : Lead) (u : List UInt8), t = l.text ++ u ∧ l.Ends u := by
  obtain ⟨flags, t₁, rfl, hflags⟩ := exists_flags t
  obtain ⟨w, t₂, rfl, hwidth⟩ := exists_width t₁
  obtain ⟨pr, t₃, rfl, hprecision⟩ := exists_precision t₂
  obtain ⟨len, u, rfl, hlength⟩ := exists_length t₃
  exact ⟨⟨flags, w, pr, len⟩, u, by simp [Lead.text], hflags, hwidth, hprecision, hlength⟩

end Texts

end FormatGrammar
