import Libdeepc.FormatParser

/-!
# The meaning of a format

A format is a sequence of literal bytes and directives. Its meaning threads the
arguments, the memory and the output through these pieces, and names neither the
parser nor the write functions. What `vprintf_write_spec` emits for a spec the
parser has read is the meaning of the directive.
-/

namespace FormatMeaning

open CString MachineInt Memory PrintfWrite PrintfPlan PrintfShared PrintfSink IntRendering
open FormatGrammar FormatParser NumberParsing

def renderChar (L : Layout) (c : UInt8) : List UInt8 := place L false [] [c]

def renderString (L : Layout) (s : List UInt8) : List UInt8 :=
  place L false [] (match L.precision with
    | none => s
    | some n => s.take n)

def nilText : List UInt8 := [byte '(', byte 'n', byte 'i', byte 'l', byte ')']
def nullText : List UInt8 := [byte '(', byte 'N', byte 'U', byte 'L', byte 'L', byte ')']

def renderPointer (L : Layout) (a : BitVec 64) : List UInt8 :=
  if a = 0 then renderString L nilText else renderInt { L with number := true } .x a.toNat

/-- The value of an argument of the signed type a modifier names. -/
def signedArg (len : VprintfLength) (a : BitVec 64) : Int :=
  match len with
  | .hh => toSigned 8 (slotInt a)
  | .h => toSigned 16 (slotInt a)
  | .l | .ll | .j | .z | .t => a.toInt
  | .none | .L => slotInt a

/-- The value of an argument of the unsigned type a modifier names. -/
def unsignedArg (len : VprintfLength) (a : BitVec 64) : Nat :=
  match len with
  | .hh => slotUint a % 2 ^ 8
  | .h => slotUint a % 2 ^ 16
  | .l | .ll | .j | .z | .t => a.toNat
  | .none | .L => slotUint a

/-- The text of a string argument, if there is a terminated one. -/
def stringArg (mem : Mem) (a : BitVec 64) : Option (List UInt8) :=
  if a = 0 then some nullText
  else if Terminated (bytesAt mem a.toNat) then some (text (bytesAt mem a.toNat)) else none

/-- The text of a string argument, if the bytes that the layout prints are readable: under a
precision it need not be terminated. -/
def printedArg (L : Layout) (mem : Mem) (a : BitVec 64) : Option (List UInt8) :=
  if a = 0 then some nullText
  else
    let bytes := bytesAt mem a.toNat
    if Terminated bytes ∨ L.precision.any (· ≤ bytes.length) then some (text bytes) else none

structure Env where
  args : List (BitVec 64)
  mem : Mem
  out : List UInt8

/-- The meaning of a directive; there is none without matching arguments.
`keep` is what becomes of its length modifier, `strings` how its string argument is read. -/
def runDirectiveWith (strings : Layout → Mem → BitVec 64 → Option (List UInt8))
    (keep : VprintfLength → VprintfLength) (d : Directive) (env : Env) : Option Env := do
  let (L, args) ← d.layout env.args
  if d.conv = .percent then some { env with args := args, out := env.out ++ [byte '%'] }
  else
    let (a, args) ← vaArg args
    match d.conv.conv with
    | .d => some { env with
        args := args, out := env.out ++ renderInt L .d (signedArg (keep d.length) a) }
    | .c => some { env with args := args, out := env.out ++ renderChar L (toByte (slotInt a)) }
    | .s => do
      let s ← strings L env.mem a
      some { env with args := args, out := env.out ++ renderString L s }
    | .p => some { env with args := args, out := env.out ++ renderPointer L a }
    | .n => do
      let mem ← store env.mem a.toNat (leBytes (storeSize (keep d.length)) env.out.length)
      some { env with args := args, mem := mem }
    | conv => some { env with
        args := args, out := env.out ++ renderInt L conv (unsignedArg (keep d.length) a) }

/-- The meaning on terminated strings. -/
def runDirective (keep : VprintfLength → VprintfLength) (d : Directive) (env : Env) :
    Option Env :=
  runDirectiveWith (fun _ => stringArg) keep d env

inductive Piece where
  | literal (c : UInt8) (plain : c ≠ 0 ∧ c ≠ byte '%')
  | directive (d : Directive)

def Piece.text : Piece → List UInt8
  | .literal c _ => [c]
  | .directive d => byte '%' :: d.text

def runPiece (keep : VprintfLength → VprintfLength) (env : Env) : Piece → Option Env
  | .literal c _ => some { env with out := env.out ++ [c] }
  | .directive d => runDirective keep d env

def piecesText (ps : List Piece) : List UInt8 := ps.flatMap Piece.text

def runPieces (keep : VprintfLength → VprintfLength) (env : Env) (ps : List Piece) : Option Env :=
  ps.foldlM (runPiece keep) env

section Emission

/-- The bytes of a string that the precision admits. -/
def stringBody (L : Layout) (s : List UInt8) : List UInt8 :=
  match L.precision with
  | none => s
  | some n => s.take n

def textChunks (L : Layout) (bytes : List UInt8) : List Chunk :=
  paddedText L.minus (L.width - bytes.length) bytes

theorem bytesOf_textChunks (L : Layout) (bytes : List UInt8) :
    bytesOf (textChunks L bytes) = place L false [] bytes := by
  rw [textChunks, bytesOf_paddedText]
  simp [place]

variable {σ : Type} {write : WriteFn σ} (hw : StaysStopped write) {spec : VprintSpec}
  {info : Info σ}
include hw

/-- What `%c` and `%s` write, padded or not. -/
theorem padded_or_plain (hok : info.rc = .ok) {bytes : List UInt8} {len : Int} {c : Prop}
    [Decidable c] (hpad : c → len.toNat = (layout spec).width - bytes.length)
    (hplain : ¬c → (layout spec).width ≤ bytes.length) :
    (if c then padded write info spec len bytes else write info bytes) =
      runChunks write (textChunks (layout spec) bytes) info := by
  by_cases hc : c
  · have hlen : padded write info spec len bytes = padded write info spec len.toNat bytes := by
      simp only [padded, vprintfPadding_toNat write _ _ len]
    rw [if_pos hc, hlen, padded_chunks hw hok, hpad hc]
    rfl
  · have hnone : (layout spec).width - bytes.length = 0 := by have := hplain hc; omega
    rw [if_neg hc, textChunks, hnone]
    cases (layout spec).minus <;> exact (runChunks_tested hw bytes).symm

theorem vprintfConvC_chunks (hs : Ranged spec) (hok : info.rc = .ok) (c : UInt8) :
    vprintfConvC write info spec c = runChunks write (textChunks (layout spec) [c]) info := by
  obtain ⟨hwidth, _⟩ := width_eq hs
  refine padded_or_plain hw hok (fun h => ?_) (fun h => ?_)
  · rw [if_pos h.1] at hwidth
    simp only [List.length_singleton]
    omega
  · cases hset : spec.widthSet with
    | false => simp [layout, hset]
    | true =>
      have hle : ¬spec.width > 1 := fun hgt => h ⟨hset, hgt⟩
      rw [if_pos hset] at hwidth
      simp only [List.length_singleton]
      omega

theorem vprintfConvS_chunks (hs : Ranged spec) (hok : info.rc = .ok) {s : List UInt8}
    (h : Terminated s) :
    vprintfConvS write info spec (some s) =
      runChunks write (textChunks (layout spec) (stringBody (layout spec) (text s))) info := by
  obtain ⟨rest, hrest⟩ := exists_eq_text_append h
  obtain ⟨hwidth, hwmax⟩ := width_eq hs
  have hbody : ∃ len, (if spec.precisionSet ∧ spec.precision ≥ 0 ∧
        toSize spec.precision < (text s).length then toSize spec.precision
        else (text s).length) = len ∧ len ≤ (text s).length ∧
      s.take len = stringBody (layout spec) (text s) := by
    have htext : s.take (text s).length = text s :=
      (congrArg (List.take (text s).length) hrest).trans List.take_left
    cases hp : spec.precisionSet with
    | false => exact ⟨_, by simp, le_rfl, by simpa [stringBody, layout, hp] using htext⟩
    | true =>
      obtain ⟨lo, hi⟩ := hs.precision hp
      rw [intMax] at hi
      have hsize : toSize spec.precision = spec.precision.toNat :=
        toSize_of_nonneg lo (by omega)
      by_cases hlt : spec.precision.toNat < (text s).length
      · refine ⟨spec.precision.toNat, by simp [hsize, lo, hlt], hlt.le, ?_⟩
        simp only [stringBody, layout, hp, if_true]
        exact (congrArg (List.take _) hrest).trans (List.take_append_of_le_length hlt.le)
      · refine ⟨(text s).length, by simp [hsize, hlt], le_rfl, ?_⟩
        simp only [stringBody, layout, hp, if_true, htext]
        exact (List.take_of_length_le (not_lt.mp hlt)).symm
  obtain ⟨len, hlen, hle, htake⟩ := hbody
  have htaken : (s.take len).length = len := by
    rw [List.length_take, hrest]
    simp only [List.length_append]
    omega
  rw [intMax] at hwmax
  simp only [vprintfConvS, Option.getD_some, strlen_eq h, Option.bind_eq_bind, Option.bind_some,
    hlen, ← htake]
  refine padded_or_plain hw hok (fun hp => ?_) (fun hp => ?_)
  · obtain ⟨hset, lo, hgt⟩ := hp
    rw [if_pos hset] at hwidth
    rw [toSize_of_nonneg lo (by omega)] at hgt
    rw [toSigned_of_inSigned (by decide) (by constructor <;> norm_num <;> omega), htaken]
    omega
  · rw [htaken]
    by_contra hlt
    cases hset : spec.widthSet with
    | false => simp [layout, hset] at hlt
    | true =>
      rw [if_pos hset] at hwidth
      refine hp ⟨hset, by omega, ?_⟩
      rw [toSize_of_nonneg (by omega) (by omega)]
      omega

def pointerChunks (L : Layout) (a : BitVec 64) : List Chunk :=
  if a = 0 then textChunks L (stringBody L nilText)
  else intChunks { L with number := true } .x a.toNat

theorem vprintfConvP_chunks (hs : Ranged spec) (hok : info.rc = .ok) (a : BitVec 64) :
    vprintfConvP write info spec a = runChunks write (pointerChunks (layout spec) a) info := by
  by_cases h : a = 0
  · have htext : text (literal ['(', 'n', 'i', 'l', ')']) = nilText := by decide
    rw [vprintfConvP, if_pos h, vprintfConvS_chunks hw hs hok (terminated_literal _), htext,
      pointerChunks, if_pos h]
  · have hx := vprintfOutputInt_chunks hw (s := { spec with flagNumber := true, conv := .x })
      ⟨hs.width, hs.precision⟩ (by simp [IsInt]) hok a
    rw [vprintfConvP, if_neg h, hx, pointerChunks, if_neg h]
    rfl

theorem vprintfConvS_arg (hs : Ranged spec) {mem : Mem} {a : BitVec 64} {s : List UInt8}
    (h : stringArg mem a = some s) (hok : info.rc = .ok) :
    vprintfConvS write info spec (if a = 0 then none else some (bytesAt mem a.toNat)) =
      runChunks write (textChunks (layout spec) (stringBody (layout spec) s)) info := by
  by_cases ha : a = 0
  · rw [stringArg, if_pos ha] at h
    obtain rfl := Option.some.inj h
    have htext : text (literal ['(', 'N', 'U', 'L', 'L', ')']) = nullText := by decide
    have hnull := vprintfConvS_chunks hw hs hok
      (terminated_literal ['(', 'N', 'U', 'L', 'L', ')'])
    rw [htext] at hnull
    rwa [if_pos ha]
  · rw [stringArg, if_neg ha] at h
    split at h
    · next hterm =>
      obtain rfl := Option.some.inj h
      rw [if_neg ha, vprintfConvS_chunks hw hs hok hterm]
    · cases h

end Emission

theorem bytesOf_pointerChunks (L : Layout) (a : BitVec 64) :
    bytesOf (pointerChunks L a) = renderPointer L a := by
  rw [pointerChunks, renderPointer, apply_ite bytesOf, bytesOf_textChunks, bytesOf_intChunks]
  rfl

theorem vprintfConvS_list {spec : VprintSpec} {i : Info (List UInt8)} (hs : Ranged spec)
    (hok : i.rc = .ok) {s : List UInt8} (h : Terminated s) :
    vprintfConvS writeList i spec (some s) =
      some (emit i (renderString (layout spec) (text s))) := by
  rw [vprintfConvS_chunks staysStopped_list hs hok h, runChunks_list hok, bytesOf_textChunks]
  rfl

section Directives

/-- The state that has written `out`. -/
def infoOf (errno : Int) (out : List UInt8) : Info (List UInt8) :=
  ⟨UInt64.ofNat out.length, .ok, errno, out⟩

def stateOf (errno : Int) (env : Env) : PrintState (List UInt8) :=
  ⟨infoOf errno env.out, env.args, env.mem⟩

@[simp] theorem emit_infoOf (errno : Int) (out bytes : List UInt8) :
    emit (infoOf errno out) bytes = infoOf errno (out ++ bytes) := by
  simp [emit, infoOf, UInt64.ofNat_add]

theorem toInt_slotInt (a : BitVec 64) : (BitVec.ofInt 64 (slotInt a)).toInt = slotInt a := by
  obtain ⟨lo, hi⟩ := slotInt_bounds a
  rw [intMin] at lo
  rw [intMax] at hi
  rw [BitVec.toInt_ofInt]
  exact Int.bmod_eq_of_le (by norm_num; omega) (by norm_num; omega)

theorem vprintfConvSigned_eq (len : VprintfLength) (a : BitVec 64) (args : List (BitVec 64)) :
    ∃ val, vprintfConvSigned len (a :: args) = some (val, args) ∧
      val.toInt = signedArg len a := by
  have hsmall : ∀ w, 0 < w → w ≤ 32 → (BitVec.ofInt 64 (toSigned w (slotInt a))).toInt =
      toSigned w (slotInt a) := by
    intro w hpos hw
    have hpow : (2 : Int) ^ w ≤ 2 ^ 32 := pow_le_pow_right₀ (by decide) hw
    have lo := Int.le_bmod (x := slotInt a) (m := 2 ^ w) (by positivity)
    have hi := Int.bmod_lt (x := slotInt a) (m := 2 ^ w) (by positivity)
    push_cast at lo hi
    rw [BitVec.toInt_ofInt, toSigned]
    exact Int.bmod_eq_of_le (by norm_num; omega) (by norm_num; omega)
  cases len with
  | hh => exact ⟨_, rfl, hsmall 8 (by decide) (by decide)⟩
  | h => exact ⟨_, rfl, hsmall 16 (by decide) (by decide)⟩
  | none => exact ⟨_, rfl, toInt_slotInt a⟩
  | L => exact ⟨_, rfl, toInt_slotInt a⟩
  | _ => exact ⟨_, rfl, rfl⟩

theorem vprintfConvUnsigned_eq (len : VprintfLength) (a : BitVec 64) (args : List (BitVec 64)) :
    ∃ val, vprintfConvUnsigned len (a :: args) = some (val, args) ∧
      val.toNat = unsignedArg len a := by
  have hslot : slotUint a < 2 ^ 32 := (a.setWidth 32).isLt
  have hnat : ∀ n, n < 2 ^ 64 → (BitVec.ofNat 64 n).toNat = n := fun n hn =>
    Nat.mod_eq_of_lt hn
  cases len with
  | hh => exact ⟨_, rfl, hnat _ (by omega)⟩
  | h => exact ⟨_, rfl, hnat _ (by omega)⟩
  | none => exact ⟨_, rfl, hnat _ (by omega)⟩
  | L => exact ⟨_, rfl, hnat _ (by omega)⟩
  | _ => exact ⟨_, rfl, rfl⟩

/-- `%n` stores the count as its type holds it. -/
theorem vprintfConvN_eq (len : VprintfLength) (mem : Mem) (p : Nat) (out : List UInt8) :
    vprintfConvN len mem p (UInt64.ofNat out.length) =
      store mem p (leBytes (storeSize len) out.length) := by
  have hsize : storeSize len ≤ 8 := by cases len <;> decide
  have hmod := leBytes_emod hsize out.length
  have hnat : ((UInt64.ofNat out.length).toNat : Int) = (out.length : Int) % 256 ^ 8 := by
    rw [UInt64.toNat_ofNat']
    norm_num
  rw [vprintfConvN, hnat, hmod]

/-- The writes of a directive that takes an argument. -/
def argumentWrites (L : Layout) (len : VprintfLength) (mem : Mem) (a : BitVec 64) :
    VprintfConv → List Chunk
  | .d => intChunks L .d (signedArg len a)
  | .c => textChunks L [toByte (slotInt a)]
  | .s => textChunks L (stringBody L ((stringArg mem a).getD []))
  | .p => pointerChunks L a
  | .n => []
  | conv => intChunks L conv (unsignedArg len a)

def directiveWrites (d : Directive) (env : Env) : List Chunk :=
  match d.layout env.args with
  | none => []
  | some (L, args) =>
    if d.conv = .percent then [tested [byte '%']]
    else match args with
      | [] => []
      | a :: _ => argumentWrites L (codeLength d.length) env.mem a d.conv.conv

/-- Together the writes of a directive are its meaning. -/
theorem runDirective_out {d : Directive} {env env' : Env}
    (hrun : runDirective codeLength d env = some env') :
    env'.out = env.out ++ bytesOf (directiveWrites d env) := by
  obtain ⟨⟨L, args⟩, hlayout, hrun⟩ := Option.bind_eq_some_iff.mp hrun
  simp only [directiveWrites, hlayout]
  by_cases hpercent : d.conv = .percent
  · simp only [hpercent, if_true] at hrun ⊢
    obtain rfl := Option.some.inj hrun
    rfl
  · simp only [hpercent, if_false] at hrun ⊢
    cases args with
    | nil => cases hrun
    | cons a args =>
    simp only [vaArg, Option.bind_eq_bind, Option.bind_some] at hrun
    cases hk : d.conv.conv <;> simp only [hk] at hrun ⊢
    case s =>
      obtain ⟨s, hs, hrun⟩ := Option.bind_eq_some_iff.mp hrun
      obtain rfl := Option.some.inj hrun
      simp only [argumentWrites, hs, bytesOf_textChunks]
      rfl
    case n =>
      obtain ⟨mem, _, hrun⟩ := Option.bind_eq_some_iff.mp hrun
      obtain rfl := Option.some.inj hrun
      simp [argumentWrites]
    all_goals
      obtain rfl := Option.some.inj hrun
      simp only [argumentWrites, bytesOf_intChunks, bytesOf_textChunks, bytesOf_pointerChunks,
        renderChar]

/-- Into every sink the directive the parser has read is written as its meaning says. -/
theorem vprintfWriteSpec_chunks {σ : Type} {write : WriteFn σ} (hw : StaysStopped write)
    {d : Directive} {env env' : Env} (hrun : runDirective codeLength d env = some env')
    {L : Layout} {args : List (BitVec 64)} (hlayout : d.layout env.args = some (L, args))
    {spec : VprintSpec} (hspec : layout spec = L) (hs : Ranged spec)
    (hlen : spec.length = codeLength d.length) (hconv : spec.conv = d.conv.conv)
    {info : Info σ} (hok : info.rc = .ok)
    (hwritten : info.written = UInt64.ofNat env.out.length) :
    vprintfWriteSpec write ⟨info, args, env.mem⟩ spec =
      (runChunks write (directiveWrites d env) info).map fun i => ⟨i, env'.args, env'.mem⟩ := by
  subst hspec
  simp only [runDirective, runDirectiveWith, hlayout, Option.bind_eq_bind, Option.bind_some] at hrun
  simp only [directiveWrites, hlayout]
  by_cases hpercent : d.conv = .percent
  · rw [if_pos hpercent] at hrun ⊢
    obtain rfl := Option.some.inj hrun
    rw [hpercent] at hconv
    rw [runChunks_tested hw]
    simp [vprintfWriteSpec, hconv, ConvChar.conv, Option.map_eq_bind]
  rw [if_neg hpercent] at hrun ⊢
  cases args with
  | nil => simp [vaArg] at hrun
  | cons a args => ?_
  simp only [vaArg, Option.bind_some, ← hlen] at hrun ⊢
  have hnumber : ∀ conv, conv = .o ∨ conv = .u ∨ conv = .x ∨ conv = .X → spec.conv = conv →
      (do let (val, args) ← vprintfConvUnsigned spec.length (a :: args)
          let info ← vprintfOutputInt write info spec val
          some ⟨info, args, env.mem⟩ : Option (PrintState σ)) =
        (runChunks write (intChunks (layout spec) conv (unsignedArg spec.length a)) info).map
          fun i => ⟨i, args, env.mem⟩ := by
    rintro conv hc rfl
    obtain ⟨val, hfetch, hval⟩ := vprintfConvUnsigned_eq spec.length a args
    have hne : spec.conv ≠ .d := by rcases hc with h | h | h | h <;> simp [h]
    have hv : intValue spec.conv val = unsignedArg spec.length a := by simp [intValue, hne, hval]
    have hout := vprintfOutputInt_chunks hw hs (Or.inr hc) hok val
    simp only [hfetch, hout, hv, Option.bind_eq_bind, Option.bind_some, Option.map_eq_bind]
    rfl
  cases hk : d.conv
  all_goals
    rw [hk] at hconv hrun
    simp only [ConvChar.conv, Option.some.injEq] at hconv hrun ⊢
  case percent => exact absurd hk hpercent
  case o | u | x | X =>
    subst hrun
    rw [vprintfWriteSpec, hconv]
    exact hnumber _ (by simp) hconv
  case d | i =>
    subst hrun
    obtain ⟨val, hfetch, hval⟩ := vprintfConvSigned_eq spec.length a args
    have hout := vprintfOutputInt_chunks hw hs (Or.inl hconv) hok val
    have hv : intValue .d val = signedArg spec.length a := by simp [intValue, hval]
    rw [hconv, hv] at hout
    simp [vprintfWriteSpec, hconv, hfetch, hout, argumentWrites, Option.map_eq_bind]
  case c =>
    subst hrun
    have hout := vprintfConvC_chunks hw hs hok (toByte (slotInt a))
    simp [vprintfWriteSpec, hconv, vaArg, hout, argumentWrites, Option.map_eq_bind]
  case s =>
    obtain ⟨s, hs', hrun⟩ := Option.bind_eq_some_iff.mp hrun
    obtain rfl := Option.some.inj hrun
    have hout := vprintfConvS_arg hw hs hs' hok
    simp only [vprintfWriteSpec, hconv, vaArg, hout, argumentWrites, hs', Option.bind_eq_bind,
      Option.bind_some, Option.getD_some, Option.map_eq_bind]
    rfl
  case p =>
    subst hrun
    have hout := vprintfConvP_chunks hw hs hok a
    simp [vprintfWriteSpec, hconv, vaArg, hout, argumentWrites, Option.map_eq_bind]
  case n =>
    obtain ⟨mem, hmem, hrun⟩ := Option.bind_eq_some_iff.mp hrun
    obtain rfl := Option.some.inj hrun
    have hstore := vprintfConvN_eq spec.length env.mem a.toNat env.out
    simp [vprintfWriteSpec, hconv, vaArg, hwritten, hstore, hmem, argumentWrites, runChunks]

/-- The directive the parser has read is written as its meaning says. -/
theorem vprintfWriteSpec_list {d : Directive} {env env' : Env}
    (hrun : runDirective codeLength d env = some env') (errno : Int) {L : Layout}
    {args : List (BitVec 64)} (hlayout : d.layout env.args = some (L, args)) {spec : VprintSpec}
    (hspec : layout spec = L) (hs : Ranged spec) (hlen : spec.length = codeLength d.length)
    (hconv : spec.conv = d.conv.conv) :
    vprintfWriteSpec writeList (stateOf errno { env with args := args }) spec =
      some (stateOf errno env') := by
  have hok : (infoOf errno env.out).rc = .ok := rfl
  have hchunks := vprintfWriteSpec_chunks staysStopped_list hrun hlayout hspec hs hlen hconv hok rfl
  rw [runChunks_list hok, emit_infoOf, ← runDirective_out hrun] at hchunks
  exact hchunks

end Directives

end FormatMeaning
