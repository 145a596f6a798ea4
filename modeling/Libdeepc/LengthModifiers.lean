import Libdeepc.FormatLaw
import Libdeepc.RenderingInverse

/-!
# Length modifiers

A modifier names the type of the argument. The parser keeps `hh` and `h`; the
others it stores in `conv`, which the conversion character then overwrites, so
the argument is taken as an `int` and `%n` stores an `int`. What is printed is
then the argument of the named type exactly when an `int` holds it.
-/

namespace LengthModifiers

open CString MachineInt Memory PrintfWrite PrintfShared IntRendering
open FormatGrammar FormatParser FormatMeaning FormatLaw RenderingInverse

/-- A modifier that names an integer type. -/
def Sized (len : VprintfLength) : Prop := len ≠ .none ∧ len ≠ .L

def IsSigned (conv : ConvChar) : Prop := conv = .d ∨ conv = .i

def IsUnsigned (conv : ConvChar) : Prop := conv = .o ∨ conv = .u ∨ conv = .x ∨ conv = .X

/-- The argument as the type that conversion and modifier name. -/
def typedValue (conv : ConvChar) (len : VprintfLength) (a : BitVec 64) : Int :=
  match conv with
  | .d | .i => signedArg len a
  | _ => unsignedArg len a

/-- The modifier is kept, or the argument is one that an `int` holds too. -/
def ValueKept (conv : ConvChar) (len : VprintfLength) (a : BitVec 64) : Prop :=
  len = .hh ∨ len = .h ∨
    match conv with
    | .d | .i => InSigned 32 a.toInt
    | _ => a.toNat < 2 ^ 32

/-- The modifier is kept, or the upper half of the object holds that of the count already. -/
def CountKept (len : VprintfLength) (mem : Mem) (p count : Nat) : Prop :=
  len = .hh ∨ len = .h ∨ load mem (p + 4) 4 = some (leBytes 4 (count / 2 ^ 32 : Nat))

/-- The buffer holds the string `out`. -/
def Holds (buffer out : List UInt8) : Prop := ∃ tail, buffer = out ++ 0 :: tail

/-- Bytes that a format copies. -/
def PlainText (s : List UInt8) : Prop := ∀ c ∈ s, c ≠ 0 ∧ c ≠ byte '%'

section Values

theorem slotInt_eq_toInt_iff (a : BitVec 64) : slotInt a = a.toInt ↔ InSigned 32 a.toInt := by
  have hlt := a.isLt
  rw [slotInt, InSigned, BitVec.toInt_eq_toNat_cond, BitVec.toInt_eq_toNat_cond,
    BitVec.toNat_setWidth]
  norm_num
  split_ifs <;> omega

theorem slotUint_eq_toNat_iff (a : BitVec 64) : slotUint a = a.toNat ↔ a.toNat < 2 ^ 32 := by
  have hlt := a.isLt
  rw [slotUint, BitVec.toNat_setWidth]
  omega

theorem typedValue_kept_iff {conv : ConvChar} (hconv : IsSigned conv ∨ IsUnsigned conv)
    {len : VprintfLength} (hlen : Sized len) (a : BitVec 64) :
    typedValue conv (codeLength len) a = typedValue conv len a ↔ ValueKept conv len a := by
  have hs := slotInt_eq_toInt_iff a
  have hu := slotUint_eq_toNat_iff a
  cases len with
  | none => exact absurd rfl hlen.1
  | L => exact absurd rfl hlen.2
  | hh | h => simp [codeLength, ValueKept]
  | l | ll | j | z | t =>
    simp only [codeLength, ValueKept, reduceCtorEq, false_or]
    rcases hconv with (rfl | rfl) | (rfl | rfl | rfl | rfl)
    · exact hs
    · exact hs
    all_goals exact Int.natCast_inj.trans hu

theorem typedValue_nonneg {conv : ConvChar} (hconv : IsSigned conv ∨ IsUnsigned conv)
    (len : VprintfLength) (a : BitVec 64) (h : conv.conv ≠ .d) : 0 ≤ typedValue conv len a := by
  rcases hconv with (rfl | rfl) | (rfl | rfl | rfl | rfl)
  · exact absurd rfl h
  · exact absurd rfl h
  all_goals exact Int.natCast_nonneg _

end Values

section Print

theorem exists_literals {s : List UInt8} (h : PlainText s) :
    ∃ ps, piecesText ps = s ∧ ∀ keep env,
      runPieces keep env ps = some { env with out := env.out ++ s } := by
  induction s with
  | nil => exact ⟨[], rfl, fun keep env => by simp [runPieces]⟩
  | cons c s ih =>
    obtain ⟨ps, htext, hrun⟩ := ih fun d hd => h d (List.mem_cons_of_mem c hd)
    refine ⟨.literal c (h c List.mem_cons_self) :: ps, by simp [piecesText, Piece.text, ← htext],
      fun keep env => ?_⟩
    have hrest := hrun keep { env with out := env.out ++ [c] }
    simp only [runPieces] at hrest
    simp [runPieces, runPiece, hrest]

/-- A directive between two plain texts. -/
theorem runPieces_between {before after : List UInt8} (hb : PlainText before)
    (ha : PlainText after) (d : Directive) :
    ∃ ps, piecesText ps = before ++ (byte '%' :: (d.text ++ after)) ∧ ∀ keep args mem,
      runPieces keep ⟨args, mem, []⟩ ps = (runDirective keep d ⟨args, mem, before⟩).map
        fun env => { env with out := env.out ++ after } := by
  obtain ⟨ps, hps, hrunps⟩ := exists_literals hb
  obtain ⟨qs, hqs, hrunqs⟩ := exists_literals ha
  refine ⟨ps ++ .directive d :: qs, ?_, fun keep args mem => ?_⟩
  · simp only [piecesText] at hps hqs
    simp [piecesText, hps, hqs, Piece.text]
  · simp only [runPieces] at hrunps hrunqs
    simp only [runPieces, List.foldlM_append, List.foldlM_cons, hrunps, Option.bind_eq_bind,
      Option.bind_some, runPiece, hrunqs, List.nil_append]
    cases runDirective keep d ⟨args, mem, before⟩ <;> rfl

theorem runDirective_value {d : Directive} (hconv : IsSigned d.conv ∨ IsUnsigned d.conv)
    (keep : VprintfLength → VprintfLength) {env : Env} {L : Layout} {a : BitVec 64}
    {args : List (BitVec 64)} (hlayout : d.layout env.args = some (L, a :: args)) :
    runDirective keep d env = some { env with
      args := args
      out := env.out ++ renderInt L d.conv.conv (typedValue d.conv (keep d.length) a) } := by
  rcases hconv with (h | h) | (h | h | h | h) <;>
    simp [runDirective, runDirectiveWith, hlayout, h, vaArg, ConvChar.conv, typedValue]

theorem runDirective_count {d : Directive} (hconv : d.conv = .n)
    (keep : VprintfLength → VprintfLength) {env : Env} {L : Layout} {a : BitVec 64}
    {args : List (BitVec 64)} (hlayout : d.layout env.args = some (L, a :: args)) :
    runDirective keep d env =
      (store env.mem a.toNat (leBytes (storeSize (keep d.length)) env.out.length)).map
        fun mem => { env with args := args, mem := mem } := by
  simp [runDirective, runDirectiveWith, hlayout, hconv, vaArg, ConvChar.conv, Option.map_eq_bind]

theorem holds_iff {out out' : List UInt8} (h : 0 ∉ out) (h' : 0 ∉ out') (tail : List UInt8) :
    Holds (out' ++ 0 :: tail) out ↔ out' = out := by
  constructor
  · rintro ⟨tail', heq⟩
    have htext := congrArg text heq
    rwa [text_append_zero h', text_append_zero h] at htext
  · rintro rfl
    exact ⟨tail, rfl⟩

theorem zero_notMem_between {before out after : List UInt8} (hb : PlainText before)
    (ho : 0 ∉ out) (ha : PlainText after) : 0 ∉ before ++ out ++ after := by
  simp only [List.mem_append, not_or]
  exact ⟨⟨fun h => (hb 0 h).1 rfl, ho⟩, fun h => (ha 0 h).1 rfl⟩

end Print

/-- The object `%n` points to, after a store of what `codeLength` leaves of the modifier. -/
theorem count_kept_iff {len : VprintfLength} (hlen : Sized len) {mem mem' : Mem} {p count : Nat}
    (h : store mem p (leBytes (storeSize (codeLength len)) count) = some mem') :
    load mem' p (storeSize len) = some (leBytes (storeSize len) count) ↔
      CountKept len mem p count := by
  have hself := load_store_self h
  have hafter := load_store_after h
  rw [length_leBytes] at hself hafter
  cases len with
  | none => exact absurd rfl hlen.1
  | L => exact absurd rfl hlen.2
  | hh | h => simpa [CountKept, codeLength] using hself
  | l | ll | j | z | t =>
    have hdiv : (count : Int) / 256 ^ 4 = (count / 2 ^ 32 : Nat) := by norm_num
    have hsplit := leBytes_add 4 4 count
    simp only [codeLength, storeSize] at hself hafter
    rw [hdiv] at hsplit
    simp only [storeSize, CountKept, reduceCtorEq, false_or]
    rw [show 8 = 4 + 4 from rfl, hsplit, load_add, hself, Option.bind_some, hafter]
    cases load mem (p + 4) 4 with
    | none => simp
    | some cs => simp

theorem natAbs_typedValue_lt (conv : ConvChar) (len : VprintfLength) (a : BitVec 64) :
    (typedValue conv len a).natAbs < 2 ^ 64 := by
  obtain ⟨val, _, hsigned⟩ := vprintfConvSigned_eq len a []
  obtain ⟨val', _, hunsigned⟩ := vprintfConvUnsigned_eq len a []
  have hlo := val.le_toInt
  have hhi := val.toInt_lt
  have hlt := val'.isLt
  have hbound : (signedArg len a).natAbs < 2 ^ 64 ∧ unsignedArg len a < 2 ^ 64 := by omega
  cases conv with
  | d | i => exact hbound.1
  | _ => exact hbound.2

section Printed

variable {d : Directive} {before after : List UInt8} {args args' : List (BitVec 64)}
  {a : BitVec 64} {L : Layout} {mem : Mem} {bufSize : Nat} {buffer : List UInt8}

theorem printed_value_kept_iff (hlen : Sized d.length)
    (hconv : IsSigned d.conv ∨ IsUnsigned d.conv) (hb : PlainText before) (ha : PlainText after)
    (hlayout : d.layout args = some (L, a :: args'))
    (hroom : before.length + after.length + L.width + L.precision.getD 1 + 26 ≤ bufSize)
    (hsize : bufSize < 2 ^ 64) (hbuffer : bufSize ≤ buffer.length) (rest : List UInt8)
    (errno : Int) :
    ∃ r, vsnprintf buffer bufSize (before ++ byte '%' :: (d.text ++ after) ++ 0 :: rest)
        args mem errno = some r ∧
      (Holds r.buffer (before ++ renderInt L d.conv.conv (typedValue d.conv d.length a) ++
        after) ↔ ValueKept d.conv d.length a) := by
  obtain ⟨ps, htext, hps⟩ := runPieces_between hb ha d
  have hrun := hps codeLength args mem
  rw [runDirective_value hconv codeLength hlayout, Option.map_some] at hrun
  have hfits := renderInt_length_le L d.conv.conv
    (natAbs_typedValue_lt d.conv (codeLength d.length) a)
  have hlength : (before ++ renderInt L d.conv.conv
      (typedValue d.conv (codeLength d.length) a) ++ after).length < bufSize := by
    simp only [List.length_append]
    omega
  have hprint := vsnprintf_stop errno hrun hsize hlength (lt_of_lt_of_le hlength hbuffer) rest
  rw [htext] at hprint
  refine ⟨_, hprint, ?_⟩
  have hnul := fun v => zero_notMem_between hb (zero_notMem_renderInt L d.conv.conv v) ha
  have hint : IsInt d.conv.conv := by
    rcases hconv with (h | h) | (h | h | h | h) <;> simp [h, IsInt, ConvChar.conv]
  rw [holds_iff (hnul _) (hnul _), ← typedValue_kept_iff hconv hlen]
  simp only [List.append_cancel_right_eq, List.append_cancel_left_eq]
  have hpos := fun len => typedValue_nonneg hconv len a
  exact ⟨renderInt_injective hint (hpos _) (hpos _), fun h => by rw [h]⟩

theorem stored_count_kept_iff (hlen : Sized d.length) (hconv : d.conv = .n)
    (hb : PlainText before) (ha : PlainText after)
    (hlayout : d.layout args = some (L, a :: args'))
    (hobject : (load mem a.toNat (storeSize d.length)).isSome)
    (hroom : before.length + after.length < bufSize)
    (hsize : bufSize < 2 ^ 64) (hbuffer : bufSize ≤ buffer.length) (rest : List UInt8)
    (errno : Int) :
    ∃ r, vsnprintf buffer bufSize (before ++ byte '%' :: (d.text ++ after) ++ 0 :: rest)
        args mem errno = some r ∧
      (load r.mem a.toNat (storeSize d.length) =
          some (leBytes (storeSize d.length) before.length) ↔
        CountKept d.length mem a.toNat before.length) := by
  obtain ⟨ps, htext, hps⟩ := runPieces_between hb ha d
  have hrun := hps codeLength args mem
  have hle : storeSize (codeLength d.length) ≤ storeSize d.length := by
    cases d.length <;> decide
  have hbytes : (leBytes (storeSize (codeLength d.length)) before.length).length ≤
      storeSize d.length := by
    rw [length_leBytes]
    exact hle
  obtain ⟨mem', hstore⟩ := exists_store_of_load hobject hbytes
  rw [runDirective_count hconv codeLength hlayout, hstore, Option.map_some,
    Option.map_some] at hrun
  have hlength : (before ++ after).length < bufSize := by
    rw [List.length_append]
    exact hroom
  have hprint := vsnprintf_stop errno hrun hsize hlength (lt_of_lt_of_le hlength hbuffer) rest
  rw [htext] at hprint
  exact ⟨_, hprint, count_kept_iff hlen hstore⟩

end Printed

/-- With a modifier that names an integer type, in a text around the directive and
with any flags, width and precision. -/
theorem modifiers_kept_iff (d : Directive) (before after rest : List UInt8)
    (args args' : List (BitVec 64)) (a : BitVec 64) (L : Layout) (mem : Mem) (errno : Int)
    (bufSize : Nat) (buffer : List UInt8) (hlen : Sized d.length) (hb : PlainText before)
    (ha : PlainText after) (hlayout : d.layout args = some (L, a :: args'))
    (hsize : bufSize < 2 ^ 64) (hbuffer : bufSize ≤ buffer.length) :
    (IsSigned d.conv ∨ IsUnsigned d.conv →
      before.length + after.length + L.width + L.precision.getD 1 + 26 ≤ bufSize →
      ∃ r, vsnprintf buffer bufSize (before ++ byte '%' :: (d.text ++ after) ++ 0 :: rest)
          args mem errno = some r ∧
        (Holds r.buffer (before ++ renderInt L d.conv.conv (typedValue d.conv d.length a) ++
          after) ↔ ValueKept d.conv d.length a)) ∧
    (d.conv = .n → (load mem a.toNat (storeSize d.length)).isSome →
      before.length + after.length < bufSize →
      ∃ r, vsnprintf buffer bufSize (before ++ byte '%' :: (d.text ++ after) ++ 0 :: rest)
          args mem errno = some r ∧
        (load r.mem a.toNat (storeSize d.length) =
            some (leBytes (storeSize d.length) before.length) ↔
          CountKept d.length mem a.toNat before.length)) := by
  constructor
  · intro hconv hroom
    exact printed_value_kept_iff hlen hconv hb ha hlayout hroom hsize hbuffer rest errno
  · intro hconv hobject hroom
    exact stored_count_kept_iff hlen hconv hb ha hlayout hobject hroom hsize hbuffer rest errno

/-- The directives `%ld` and `%ln`. -/
def longD : Directive where
  flags := []
  width := .absent
  precision := .absent
  length := .l
  conv := .d
  fits := by decide

def longN : Directive := { longD with conv := .n }

theorem modifiers_kept_iff_42 :
    (∃ r, vsnprintf (List.replicate 40 7) 40 [37, 108, 100, 0] [42] (fun _ => none) 0 = some r ∧
      (Holds r.buffer (renderInt ⟨false, false, false, false, false, 0, none⟩ .d 42) ↔
        ValueKept .d .l 42)) ∧
    ∃ r, vsnprintf (List.replicate 8 7) 8 [97, 37, 108, 110, 0] [0] (fun _ => some 0) 0 =
        some r ∧
      (load r.mem 0 8 = some (leBytes 8 1) ↔ CountKept .l (fun _ => some 0) 0 1) :=
  ⟨(modifiers_kept_iff longD [] [] [] [42] [] 42 ⟨false, false, false, false, false, 0, none⟩
      (fun _ => none) 0 40 (List.replicate 40 7) ⟨by decide, by decide⟩
      (by simp [PlainText]) (by simp [PlainText]) rfl (by decide) (by decide)).1
      (Or.inl (Or.inl rfl)) (by decide),
    (modifiers_kept_iff longN [97] [] [] [0] [] 0 ⟨false, false, false, false, false, 0, none⟩
      (fun _ => some 0) 0 8 (List.replicate 8 7) ⟨by decide, by decide⟩
      (by simp [PlainText]; decide) (by simp [PlainText]) rfl (by decide) (by decide)).2
      rfl (by decide) (by decide)⟩

/-- `%ld` with 4294967297 prints 1. -/
theorem long_printed_as_int :
    ¬∃ r, vsnprintf (List.replicate 40 7) 40 [37, 108, 100, 0] [0x100000001] (fun _ => none) 0 =
        some r ∧
      Holds r.buffer (renderInt ⟨false, false, false, false, false, 0, none⟩ .d
        (typedValue .d .l 0x100000001)) := by
  rintro ⟨r, hr, tail, htail⟩
  have hbuffer : (vsnprintf (List.replicate 40 7) 40 [37, 108, 100, 0] [0x100000001]
      (fun _ => none) 0).map (fun r => r.buffer.take 2) = some [byte '1', 0] := by decide +kernel
  have hrender : renderInt ⟨false, false, false, false, false, 0, none⟩ .d
      (typedValue .d .l 0x100000001) = "4294967297".toList.map byte := by decide +kernel
  rw [hr, Option.map_some, htail, hrender] at hbuffer
  exact absurd hbuffer (by simp; decide)

end LengthModifiers
