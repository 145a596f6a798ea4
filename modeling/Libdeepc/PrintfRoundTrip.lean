import Libdeepc.FormatLaw
import Libdeepc.RenderingInverse

/-!
# What sprintf writes, the number readers read

A directive that takes its width and precision from the format alone, and has no
length modifier, prints an `int` or an `unsigned int` so that the reader of the
same base gets it back.
-/

namespace PrintfRoundTrip

open CString MachineInt NumberParsing StrtolLaw PrintfWrite PrintfShared IntRendering
open FormatGrammar FormatParser FormatMeaning FormatLaw RenderingInverse

/-- No star and no length modifier: the value is the only argument. -/
def Literal (l : Lead) : Prop :=
  l.width ≠ .star ∧ l.precision ≠ .star ∧ l.length = .none

instance (l : Lead) : Decidable (Literal l) := inferInstanceAs (Decidable (_ ∧ _))

/-- The layout of a literal directive. -/
def literalLayout (l : Lead) : Layout where
  minus := .minus ∈ l.flags
  plus := .plus ∈ l.flags
  space := .space ∈ l.flags
  zero := .zero ∈ l.flags
  number := .number ∈ l.flags
  width := numberOf l.width.digits
  precision := match l.precision with
    | .number ds => some (numberOf ds)
    | _ => none

/-- The base `strtoul` reads the text of an unsigned conversion in. -/
def UnsignedBase (d : Directive) (base : Nat) : Prop :=
  (d.conv = .o ∨ d.conv = .u ∨ d.conv = .x ∨ d.conv = .X) ∧
    (base = baseOf d.conv.conv ∨ base = 0 ∧ .number ∈ d.flags ∧ d.conv ≠ .u)

instance (d : Directive) (base : Nat) : Decidable (UnsignedBase d base) :=
  inferInstanceAs (Decidable (_ ∧ _))

theorem UnsignedBase.readsBack {d : Directive} {base : Nat} (h : UnsignedBase d base) :
    ReadsBack (literalLayout d.toLead) d.conv.conv base := by
  rcases h with ⟨hconv, hbase | ⟨h0, hnumber, hu⟩⟩
  · exact Or.inl hbase
  · refine Or.inr ⟨h0, decide_eq_true hnumber, ?_⟩
    rcases hconv with hc | hc | hc | hc
    · exact Or.inl (by rw [hc]; rfl)
    · exact absurd hc hu
    · exact Or.inr (Or.inl (by rw [hc]; rfl))
    · exact Or.inr (Or.inr (by rw [hc]; rfl))

theorem UnsignedBase.valid {d : Directive} {base : Nat} (h : UnsignedBase d base) :
    ValidBase base := by
  have := baseOf_bounds d.conv.conv
  have hle : baseOf d.conv.conv ≤ 36 := by cases d.conv <;> decide
  rcases h.2 with rfl | ⟨rfl, _⟩
  · exact Or.inr ⟨by omega, hle⟩
  · exact Or.inl rfl

theorem layout_of_literal {l : Lead} (h : Literal l) (args : List (BitVec 64)) :
    l.layout args = some (literalLayout l, args) := by
  obtain ⟨flags, width, precision, length⟩ := l
  obtain ⟨hwidth, hprecision, _⟩ := h
  cases width with
  | star => exact absurd rfl hwidth
  | absent | number first rest =>
    cases precision with
    | star => exact absurd rfl hprecision
    | absent | number ds =>
      simp [Lead.layout, literalLayout, Width.read, Precision.read, Width.digits, numberOf,
        Numerals.value]

theorem literalLayout_bounds {l : Lead} (h : l.Fits) :
    (literalLayout l).width < 2 ^ 31 ∧ (literalLayout l).precision.getD 1 < 2 ^ 31 := by
  refine ⟨h.1, ?_⟩
  have hp := h.2
  cases hl : l.precision with
  | number ds => simpa [literalLayout, hl, Precision.digits] using hp
  | absent | star => simp [literalLayout, hl]

section Print

variable {d : Directive} (a : BitVec 64) (args : List (BitVec 64)) (mem : Memory.Mem)

theorem run_signed (h : Literal d.toLead) (hd : d.conv = .d ∨ d.conv = .i) :
    runPieces codeLength ⟨a :: args, mem, []⟩ [.directive d] =
      some ⟨args, mem, renderInt (literalLayout d.toLead) .d (slotInt a)⟩ := by
  have hlen : codeLength d.length = .none := by rw [h.2.2]; rfl
  rcases hd with hd | hd <;>
    simp [runPieces, runPiece, runDirective, runDirectiveWith, layout_of_literal h, hd, vaArg,
      ConvChar.conv, hlen, signedArg]

theorem run_unsigned (h : Literal d.toLead)
    (hd : d.conv = .o ∨ d.conv = .u ∨ d.conv = .x ∨ d.conv = .X) :
    runPieces codeLength ⟨a :: args, mem, []⟩ [.directive d] =
      some ⟨args, mem, renderInt (literalLayout d.toLead) d.conv.conv (slotUint a)⟩ := by
  have hlen : codeLength d.length = .none := by rw [h.2.2]; rfl
  rcases hd with hd | hd | hd | hd <;>
    simp [runPieces, runPiece, runDirective, runDirectiveWith, layout_of_literal h, hd, vaArg,
      ConvChar.conv, hlen, unsignedArg]

/-- `sprintf` of one directive leaves its rendering in the buffer. -/
theorem vsprintf_directive {conv : VprintfConv} {v : Int} (hv : v.natAbs < 2 ^ 64)
    (hrun : runPieces codeLength ⟨a :: args, mem, []⟩ [.directive d] =
      some ⟨args, mem, renderInt (literalLayout d.toLead) conv v⟩)
    {buffer : List UInt8}
    (hroom : (renderInt (literalLayout d.toLead) conv v).length < buffer.length)
    (rest : List UInt8) (errno : Int) :
    ∃ ret tail, vsprintf buffer (byte '%' :: (d.text ++ 0 :: rest)) (a :: args) mem errno =
      some ⟨ret, renderInt (literalLayout d.toLead) conv v ++ 0 :: tail, args, mem, errno⟩ := by
  have hlen := renderInt_length_le (literalLayout d.toLead) conv hv
  obtain ⟨hwidth, hprecision⟩ := literalLayout_bounds d.fits
  have hprint := vsnprintf_stop errno hrun (by decide : sizeMax < 2 ^ 64)
    (by simp only [sizeMax]; omega) hroom rest
  have htext : piecesText [.directive d] ++ 0 :: rest = byte '%' :: (d.text ++ 0 :: rest) := by
    simp [piecesText, Piece.text]
  rw [htext] at hprint
  exact ⟨_, _, hprint⟩

end Print

section Read

theorem terminated_render (out tail : List UInt8) : Terminated (out ++ 0 :: tail) := by
  simp [Terminated]

/-- `strtol` returns the number a subject sequence denotes when a `long` holds it. -/
theorem strtol_of_subject {s : List UInt8} (h : Terminated s) {v : Int} (lo : -2 ^ 63 ≤ v)
    (hi : v < 2 ^ 63)
    (hs : (subject s 10).negative = decide (v < 0) ∧ (subject s 10).magnitude = v.natAbs)
    (errno : Int) : ∃ p, strtol s 10 errno = some ⟨v, p, errno⟩ := by
  have heq := @strtolBody_eq (2 ^ 63 - 1) (2 ^ 63) (by decide) le_rfl _ h 10 (Or.inr (by decide))
    errno
  simp only [hs.1, hs.2, decide_eq_true_eq] at heq
  by_cases hneg : v < 0
  · have hle : v.natAbs ≤ 2 ^ 63 := by omega
    have hval : -(v.natAbs : Int) = v := by omega
    simp only [hneg, if_true, hle, hval, not_lt.mpr hle, if_false] at heq
    exact ⟨_, heq⟩
  · have hle : v.natAbs ≤ 2 ^ 63 - 1 := by omega
    have hval : (v.natAbs : Int) = v := by omega
    simp only [hneg, if_false, hle, if_true, hval, not_lt.mpr hle] at heq
    exact ⟨_, heq⟩

/-- `strtoul` returns the number an unsigned subject sequence denotes. -/
theorem strtoul_of_subject {s : List UInt8} (h : Terminated s) {base : Nat} (hb : ValidBase base)
    {n : Nat} (hi : n < 2 ^ 64)
    (hs : (subject s base).negative = false ∧ (subject s base).magnitude = n)
    (errno : Int) : ∃ p, strtoul s base errno = some ⟨n, p, errno⟩ := by
  have heq := strtoulBody_eq (by decide : ulongMax < 2 ^ 64) h hb errno
  have hle : ¬ulongMax < n := by rw [ulongMax]; omega
  simp only [hs.1, hs.2, hle, if_false, Bool.false_eq_true] at heq
  exact ⟨_, heq⟩

end Read

/-- Every `int` printed by `%d` or `%i`, and every `unsigned int` printed by
`%u`, `%o`, `%x` or `%X`, is what the reader returns on the text, without an error. -/
theorem sprintf_read_back :
    (∀ (d : Directive), Literal d.toLead → (d.conv = .d ∨ d.conv = .i) →
      ∀ (a : BitVec 64) (args : List (BitVec 64)) (mem : Memory.Mem) (buffer rest : List UInt8)
        (errno : Int),
      (renderInt (literalLayout d.toLead) .d (slotInt a)).length < buffer.length →
      ∃ r, vsprintf buffer (byte '%' :: (d.text ++ 0 :: rest)) (a :: args) mem errno = some r ∧
        ∀ errno', ∃ p, strtol r.buffer 10 errno' = some ⟨slotInt a, p, errno'⟩) ∧
    ∀ (d : Directive) (base : Nat), Literal d.toLead → UnsignedBase d base →
      ∀ (a : BitVec 64) (args : List (BitVec 64)) (mem : Memory.Mem) (buffer rest : List UInt8)
        (errno : Int),
      (renderInt (literalLayout d.toLead) d.conv.conv (slotUint a)).length < buffer.length →
      ∃ r, vsprintf buffer (byte '%' :: (d.text ++ 0 :: rest)) (a :: args) mem errno = some r ∧
        ∀ errno', ∃ p, strtoul r.buffer base errno' = some ⟨slotUint a, p, errno'⟩ := by
  constructor
  · intro d h hd a args mem buffer rest errno hroom
    obtain ⟨lo, hi⟩ := slotInt_bounds a
    rw [intMin] at lo
    rw [intMax] at hi
    obtain ⟨ret, tail, hprint⟩ := vsprintf_directive a args mem (by omega)
      (run_signed a args mem h hd) hroom rest errno
    have hsubject := subject_renderInt (L := literalLayout d.toLead) (Or.inl rfl) (by simp)
      (Or.inl rfl) tail (v := slotInt a)
    exact ⟨_, hprint, fun errno' => strtol_of_subject (terminated_render _ tail) (by omega)
      (by omega) hsubject errno'⟩
  · intro d base h hb a args mem buffer rest errno hroom
    have hslot : slotUint a < 2 ^ 32 := (a.setWidth 32).isLt
    obtain ⟨ret, tail, hprint⟩ := vsprintf_directive a args mem (by omega)
      (run_unsigned a args mem h hb.1) hroom rest errno
    have hc : IsInt d.conv.conv := by
      rcases hb.1 with h | h | h | h <;> simp [h, IsInt, ConvChar.conv]
    have hsubject := subject_renderInt hc (fun _ => Int.natCast_nonneg (slotUint a)) hb.readsBack
      tail
    rw [Int.natAbs_natCast, decide_eq_false (by omega)] at hsubject
    exact ⟨_, hprint, fun errno' => strtoul_of_subject (terminated_render _ tail) hb.valid
      (by omega) hsubject errno'⟩

/-- The directives `%+06d` and `%#x`. -/
def plusZeroD : Directive where
  flags := [.plus, .zero]
  width := .number 5 []
  precision := .absent
  length := .none
  conv := .d
  fits := by decide

def numberX : Directive where
  flags := [.number]
  width := .absent
  precision := .absent
  length := .none
  conv := .x
  fits := by decide

theorem sprintf_read_back_42 :
    (∃ r, vsprintf (List.replicate 8 7) [37, 43, 48, 54, 100, 0] [0xFFFFFFD6] (fun _ => none) 0 =
        some r ∧ ∀ errno', ∃ p, strtol r.buffer 10 errno' = some ⟨-42, p, errno'⟩) ∧
    ∃ r, vsprintf (List.replicate 8 7) [37, 35, 120, 0] [42] (fun _ => none) 0 = some r ∧
      ∀ errno', ∃ p, strtoul r.buffer 0 errno' = some ⟨42, p, errno'⟩ :=
  ⟨sprintf_read_back.1 plusZeroD (by decide) (Or.inl rfl) 0xFFFFFFD6 [] (fun _ => none)
      (List.replicate 8 7) [] 0 (by decide),
    sprintf_read_back.2 numberX 0 (by decide) (by decide) 42 [] (fun _ => none)
      (List.replicate 8 7) [] 0 (by decide)⟩

end PrintfRoundTrip
