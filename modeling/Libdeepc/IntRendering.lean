import Libdeepc.Numerals
import Libdeepc.PrintfPlan
import Libdeepc.PrintfSink

/-!
# Rendering of integers

The reference is the rendering the C standard describes: the digits without
leading zeros, extended to the precision, behind a sign or base prefix, placed
in the width. `vprintf_output_int` into a byte list emits exactly that.
-/

namespace IntRendering

open CString MachineInt Numerals PrintfWrite PrintfPlan PrintfSink

/-- What a directive asks of the shape of its output; no width is width 0. -/
structure Layout where
  minus : Bool
  plus : Bool
  space : Bool
  zero : Bool
  number : Bool
  width : Nat
  precision : Option Nat
  deriving DecidableEq

def baseOf : VprintfConv → Nat
  | .o => 8
  | .x | .X => 16
  | _ => 10

def digitChar (conv : VprintfConv) (d : Nat) : UInt8 :=
  if d < 10 then UInt8.ofNat (48 + d)
  else UInt8.ofNat ((if conv = .X then 65 else 97) + (d - 10))

/-- The digits of a number; none for 0. -/
def digits (conv : VprintfConv) (n : Nat) : List UInt8 :=
  (numeral (baseOf conv) n).map (digitChar conv)

/-- The precision, which `#` with `o` raises just enough for a leading 0. -/
def leastDigits (L : Layout) (conv : VprintfConv) (len : Nat) : Nat :=
  let least := L.precision.getD 1
  if conv = .o ∧ L.number ∧ least ≤ len then len + 1 else least

def zeroExtended (L : Layout) (conv : VprintfConv) (n : Nat) : List UInt8 :=
  let ds := digits conv n
  List.replicate (leastDigits L conv ds.length - ds.length) (byte '0') ++ ds

def numberPrefix (L : Layout) (conv : VprintfConv) (v : Int) : List UInt8 :=
  match conv with
  | .d => if v < 0 then [byte '-'] else if L.plus then [byte '+']
      else if L.space then [byte ' '] else []
  | .x => if L.number ∧ v ≠ 0 then [byte '0', byte 'x'] else []
  | .X => if L.number ∧ v ≠ 0 then [byte '0', byte 'X'] else []
  | _ => []

/-- Fill to the width: on the right after `-`, else with zeros behind the prefix
where that is asked for, else on the left. -/
def place (L : Layout) (zeroFill : Bool) (pre body : List UInt8) : List UInt8 :=
  let fill := L.width - (pre.length + body.length)
  if L.minus then pre ++ body ++ List.replicate fill (byte ' ')
  else if zeroFill then pre ++ List.replicate fill (byte '0') ++ body
  else List.replicate fill (byte ' ') ++ pre ++ body

def renderInt (L : Layout) (conv : VprintfConv) (v : Int) : List UInt8 :=
  place L (L.zero && L.precision.isNone) (numberPrefix L conv v) (zeroExtended L conv v.natAbs)

section Digits

theorem logLoop_eq {b : Nat} (hb : 1 < b) {fuel : Nat} {n : Int} (l : Int)
    (hfuel : (numeral b n.natAbs).length ≤ fuel) :
    logLoop b fuel n l = l + (numeral b n.natAbs).length := by
  induction fuel generalizing n l with
  | zero =>
    have : numeral b n.natAbs = [] := List.length_eq_zero_iff.mp (by omega)
    simp [logLoop, this]
  | succ fuel ih =>
    by_cases hn : n = 0
    · simp [logLoop, hn, numeral_zero]
    · have hlen := congrArg List.length (numeral_eq_concat hb (Int.natAbs_ne_zero.mpr hn))
      rw [List.length_append, List.length_singleton] at hlen
      have hdiv : (n.tdiv b).natAbs = n.natAbs / b := Int.natAbs_tdiv n b
      have hrec := ih (n := n.tdiv b) (l + 1) (by rw [hdiv]; omega)
      rw [logLoop, if_pos hn, hrec, hdiv, hlen]
      push_cast
      ring

theorem tdiv_tmod_unit {s : Int} (hs : s = 1 ∨ s = -1) (n b : Nat) :
    (s * n).tdiv b = s * (n / b : Nat) ∧ (s * n).tmod b = s * (n % b : Nat) := by
  have hmod : (n : Int).tmod b = (n % b : Nat) := Int.ofNat_tmod n b |>.symm
  rcases hs with rfl | rfl
  · simp [hmod]
  · simp [Int.neg_tdiv, Int.neg_tmod, hmod]

/-- The loop of `write_number` puts the digits of the magnitude into the buffer
and never leaves it, as long as there are at most 32 of them. -/
theorem tLoop_eq {b : Nat} (hb : 1 < b) {s : Int} (hs : s = 1 ∨ s = -1) {nFn : Int → Int}
    {char : Nat → UInt8} (hchar : ∀ d : Nat, d < b → toByte (nFn (s * d)) = char d)
    {fuel n : Nat} {buf : List UInt8} (hroom : (numeral b n).length + buf.length ≤ 32)
    (hfuel : (numeral b n).length < fuel) :
    tLoop b nFn fuel (s * n) buf = some ((numeral b n).map char ++ buf) := by
  induction fuel generalizing n buf with
  | zero => omega
  | succ fuel ih =>
    by_cases hn : n = 0
    · simp [tLoop, hn, numeral_zero]
    · have hcat := numeral_eq_concat hb hn
      have hlen := congrArg List.length hcat
      rw [List.length_append, List.length_singleton] at hlen
      obtain ⟨hdiv, hmod⟩ := tdiv_tmod_unit hs n b
      have hne : s * (n : Int) ≠ 0 := by
        rcases hs with rfl | rfl <;> omega
      have hbuf : buf.length < 32 := by omega
      have hdigit := hchar (n % b) (Nat.mod_lt n (by omega))
      rw [tLoop, if_pos hne, if_pos hbuf, hdiv, hmod, hdigit,
        ih (by simp only [List.length_cons]; omega) (by omega), hcat]
      simp

theorem baseOf_bounds (conv : VprintfConv) : 1 < baseOf conv ∧ 8 ≤ baseOf conv := by
  cases conv <;> decide

theorem digits_length_le (conv : VprintfConv) {n : Nat} (hn : n < 2 ^ 64) :
    (digits conv n).length ≤ 22 := by
  rw [digits, List.length_map]
  refine numeral_length_le (baseOf_bounds conv).1 ?_
  calc n < 2 ^ 64 := hn
    _ ≤ 8 ^ 22 := by norm_num
    _ ≤ baseOf conv ^ 22 := Nat.pow_le_pow_left (baseOf_bounds conv).2 22

/-- The argument as the conversion reads it: signed for `d`, unsigned otherwise. -/
def intValue (conv : VprintfConv) (val : BitVec 64) : Int :=
  if conv = .d then val.toInt else val.toNat

/-- The conversions of `vprintf_output_int`. -/
def IsInt (conv : VprintfConv) : Prop :=
  conv = .d ∨ conv = .o ∨ conv = .u ∨ conv = .x ∨ conv = .X

theorem natAbs_intValue_lt (conv : VprintfConv) (val : BitVec 64) :
    (intValue conv val).natAbs < 2 ^ 64 := by
  have hlo := val.le_toInt
  have hhi := val.toInt_lt
  have hlt := val.isLt
  rw [intValue]
  split <;> omega

theorem digitsOf_eq {conv : VprintfConv} (hc : IsInt conv) (val : BitVec 64) :
    digitsOf conv val = some (digits conv (intValue conv val).natAbs) := by
  have hlen := digits_length_le conv (natAbs_intValue_lt conv val)
  rw [digits, List.length_map] at hlen
  have hloop : ∀ {nFn : Int → Int} {s src : Int}, s = 1 ∨ s = -1 →
      (∀ d : Nat, d < baseOf conv → toByte (nFn (s * d)) = digitChar conv d) →
      src = s * (intValue conv val).natAbs →
      tLoop (baseOf conv : Nat) nFn 33 src [] = some (digits conv (intValue conv val).natAbs) := by
    intro nFn s src hs hchar hsrc
    rw [hsrc, tLoop_eq (baseOf_bounds conv).1 hs hchar (by simp; omega) (by omega)]
    simp [digits]
  have hnat : conv ≠ .d → (val.toNat : Int) = 1 * (intValue conv val).natAbs := by
    intro hne
    simp [intValue, hne]
  rcases hc with rfl | rfl | rfl | rfl | rfl
  · rcases Int.natAbs_eq val.toInt with hpos | hneg
    · exact hloop (Or.inl rfl) (by decide) (by simpa [intValue] using hpos)
    · exact hloop (Or.inr rfl) (by decide) (by simpa [intValue] using hneg)
  · exact hloop (Or.inl rfl) (by decide) (hnat (by decide))
  · exact hloop (Or.inl rfl) (by decide) (hnat (by decide))
  · exact hloop (Or.inl rfl) (by decide) (hnat (by decide))
  · exact hloop (Or.inl rfl) (by decide) (hnat (by decide))

theorem log_eq {k : VprintfConv} {v : Int} (hv : v.natAbs < 2 ^ 64) :
    logT (baseOf k : Nat) v = (digits k v.natAbs).length := by
  have hlen := digits_length_le k hv
  rw [digits, List.length_map] at hlen ⊢
  rw [logT, logLoop_eq (baseOf_bounds k).1 0 (by omega), Int.zero_add]

end Digits

section Emit

/-- The state after some output into a byte list. -/
def emit (i : Info (List UInt8)) (bytes : List UInt8) : Info (List UInt8) :=
  { i with written := i.written + UInt64.ofNat bytes.length, sink := i.sink ++ bytes }

@[simp] theorem emit_rc (i : Info (List UInt8)) (bytes : List UInt8) :
    (emit i bytes).rc = i.rc := rfl

@[simp] theorem emit_errno (i : Info (List UInt8)) (bytes : List UInt8) :
    (emit i bytes).errno = i.errno := rfl

@[simp] theorem emit_sink (i : Info (List UInt8)) (bytes : List UInt8) :
    (emit i bytes).sink = i.sink ++ bytes := rfl

@[simp] theorem emit_nil (i : Info (List UInt8)) : emit i [] = i := by simp [emit]

@[simp] theorem emit_emit (i : Info (List UInt8)) (as bs : List UInt8) :
    emit (emit i as) bs = emit i (as ++ bs) := by
  simp [emit, UInt64.ofNat_add, UInt64.add_assoc]

theorem writeList_eq (i : Info (List UInt8)) (bytes : List UInt8) :
    writeList i bytes = some (emit i bytes) := rfl

theorem staysStopped_list : StaysStopped writeList where
  empty info := by simp [writeList]
  stopped info buf info' hrc h := by
    obtain rfl := Option.some.inj h
    exact hrc

/-- Into a byte list all chunks go. -/
theorem runChunks_list {i : Info (List UInt8)} (hok : i.rc = .ok) (cs : List Chunk) :
    runChunks writeList cs i = some (emit i (bytesOf cs)) := by
  induction cs generalizing i with
  | nil => simp [runChunks]
  | cons c cs ih =>
    have hrest := ih (i := emit i c.bytes) hok
    simp [runChunks, writeList_eq, hok, hrest]

end Emit

section OutputInt

/-- The layout a spec asks for. -/
def layout (s : VprintSpec) : Layout where
  minus := s.flagMinus
  plus := s.flagPlus
  space := s.flagSpace
  zero := s.flagZero
  number := s.flagNumber
  width := if s.widthSet then s.width.toNat else 0
  precision := if s.precisionSet then some s.precision.toNat else none

@[simp] theorem layout_minus (s : VprintSpec) : (layout s).minus = s.flagMinus := rfl
@[simp] theorem layout_plus (s : VprintSpec) : (layout s).plus = s.flagPlus := rfl
@[simp] theorem layout_space (s : VprintSpec) : (layout s).space = s.flagSpace := rfl
@[simp] theorem layout_zero (s : VprintSpec) : (layout s).zero = s.flagZero := rfl
@[simp] theorem layout_number (s : VprintSpec) : (layout s).number = s.flagNumber := rfl

/-- Width and precision, where they are set, are what an `int` can hold. -/
structure Ranged (s : VprintSpec) : Prop where
  width : s.widthSet → 0 ≤ s.width ∧ s.width ≤ intMax
  precision : s.precisionSet → 0 ≤ s.precision ∧ s.precision ≤ intMax

theorem planNumber_eq {s : VprintSpec} (hs : Ranged s) (hc : IsInt s.conv) (val : BitVec 64) :
    planNumber s val =
      some ⟨(digits s.conv (intValue s.conv val).natAbs).length,
        leastDigits (layout s) s.conv (digits s.conv (intValue s.conv val).natAbs).length,
        numberPrefix (layout s) s.conv (intValue s.conv val)⟩ := by
  have hlog := log_eq (k := s.conv) (natAbs_intValue_lt s.conv val)
  have hleast : (if s.precisionSet then s.precision else 1) =
      (((layout s).precision.getD 1 : Nat) : Int) := by
    cases hp : s.precisionSet with
    | false => simp [layout, hp]
    | true =>
      have := (hs.precision hp).1
      simp [layout, hp, this]
  have hzero : logT (baseOf s.conv : Nat) (intValue s.conv val) ≠ 0 ↔ intValue s.conv val ≠ 0 := by
    rw [hlog, digits, List.length_map, Int.natCast_ne_zero, ne_eq, List.length_eq_zero_iff,
      numeral_eq_nil_iff, Int.natAbs_eq_zero]
  generalize hlen : (digits s.conv (intValue s.conv val).natAbs).length = len at hlog hzero
  rw [planNumber]
  rw [hleast]
  generalize hdef : (layout s).precision.getD 1 = least
  rcases hc with hc | hc | hc | hc | hc
  all_goals rw [hc] at hlog hzero ⊢
  · have hlog' : log10Intmax val.toInt = len := hlog
    simp only [hlog', leastDigits, hdef, numberPrefix, intValue, if_true, reduceCtorEq, false_and,
      if_false]
    rfl
  · have hlog' : log8Uintmax val.toNat = len := hlog
    by_cases hnum : s.flagNumber = true ∧ least ≤ len
    · simp [hlog', leastDigits, hdef, numberPrefix, hnum]
    · simp [hlog', leastDigits, hdef, numberPrefix, hnum]
  · have hlog' : log10Uintmax val.toNat = len := hlog
    simp [hlog', leastDigits, hdef, numberPrefix]
  · have hlog' : log16Uintmax val.toNat = len := hlog
    have hzero' : (len : Int) ≠ 0 ↔ intValue .x val ≠ 0 := hlog ▸ hzero
    simp only [hlog', hzero', leastDigits, hdef, numberPrefix, if_true, reduceCtorEq, false_and,
      if_false]
    rfl
  · have hlog' : log16Uintmax val.toNat = len := hlog
    have hzero' : (len : Int) ≠ 0 ↔ intValue .X val ≠ 0 := hlog ▸ hzero
    simp only [hlog', hzero', leastDigits, hdef, numberPrefix, reduceCtorEq, false_and, if_false]
    rfl

/-- The zeros behind the prefix are never too many: a prefix of two bytes comes
with a digit, and then the precision counts nothing but digits. -/
theorem prefix_fits {L : Layout} {conv : VprintfConv} {v : Int} (hp : L.precision = none) {W : Nat}
    (hW : max (digits conv v.natAbs).length
      (leastDigits L conv (digits conv v.natAbs).length) < W) :
    (numberPrefix L conv v).length +
        max (digits conv v.natAbs).length (leastDigits L conv (digits conv v.natAbs).length) ≤ W ∨
      leastDigits L conv (digits conv v.natAbs).length ≤ (digits conv v.natAbs).length := by
  have hdigit : v ≠ 0 → 1 ≤ (digits conv v.natAbs).length := by
    intro hv
    rw [digits, List.length_map, Nat.one_le_iff_ne_zero, ne_eq, List.length_eq_zero_iff,
      numeral_eq_nil_iff, Int.natAbs_eq_zero]
    exact hv
  generalize (digits conv v.natAbs).length = len at hW hdigit ⊢
  have hx : conv = .x ∨ conv = .X → v ≠ 0 → leastDigits L conv len ≤ len := by
    intro hc hv
    have := hdigit hv
    rcases hc with rfl | rfl <;> simp [leastDigits, hp] <;> omega
  by_cases hshort : (numberPrefix L conv v).length ≤ 1
  · left; omega
  · right
    cases conv <;> simp only [numberPrefix] at hshort
    case x =>
      split at hshort
      · next h => exact hx (Or.inl rfl) h.2
      · simp at hshort
    case X =>
      split at hshort
      · next h => exact hx (Or.inr rfl) h.2
      · simp at hshort
    case d => split_ifs at hshort <;> simp at hshort
    all_goals simp at hshort

theorem numberPrefix_length_le (L : Layout) (conv : VprintfConv) (v : Int) :
    (numberPrefix L conv v).length ≤ 2 := by
  cases conv <;> simp only [numberPrefix] <;> (try split_ifs) <;> simp

/-- The digits `vprintf_output_int` reserves: those of the precision, or the
width less the prefix where zeros fill it. -/
def reserved (L : Layout) (q len least : Nat) : Nat :=
  if (L.zero ∧ L.precision = none ∧ ¬L.minus) ∧ max len least < L.width then L.width - q
  else max len least

/-- The pieces in the order of the code are the number placed in its width. -/
theorem pieces_eq_place (L : Layout) (pre ds : List UInt8) (least : Nat)
    (hfits : L.precision = none → max ds.length least < L.width →
      pre.length + max ds.length least ≤ L.width ∨ least ≤ ds.length) :
    let P := reserved L pre.length ds.length least
    let spaces := List.replicate (L.width - (pre.length + P)) (byte ' ')
    (if ¬L.minus then spaces else []) ++ (pre ++ (List.replicate (P - ds.length) (byte '0') ++
        (ds ++ (if L.minus then spaces else [])))) =
      place L (L.zero && L.precision.isNone) pre
        (List.replicate (least - ds.length) (byte '0') ++ ds) := by
  have hbody : least - ds.length + ds.length = max ds.length least := by omega
  have hzeros : max ds.length least - ds.length = least - ds.length := by omega
  simp only [place, List.length_append, List.length_replicate, hbody]
  by_cases hminus : L.minus = true
  · simp [reserved, hminus, hzeros]
  · by_cases hz : L.zero = true ∧ L.precision = none
    · have hfill : (L.zero && L.precision.isNone) = true := by simp [hz.1, hz.2]
      by_cases hwide : max ds.length least < L.width
      · have hres : reserved L pre.length ds.length least = L.width - pre.length :=
          if_pos ⟨⟨hz.1, hz.2, hminus⟩, hwide⟩
        have hnone : L.width - (pre.length + (L.width - pre.length)) = 0 := by omega
        have hsplit : L.width - pre.length - ds.length =
            L.width - (pre.length + max ds.length least) + (least - ds.length) := by
          rcases hfits hz.2 hwide with h | h <;> omega
        simp only [hres, hnone, hsplit]
        simp [hminus, hfill]
        rw [← List.append_assoc, List.replicate_append_replicate]
      · have hres : reserved L pre.length ds.length least = max ds.length least :=
          if_neg fun h => hwide h.2
        have hnone : L.width - (pre.length + max ds.length least) = 0 := by omega
        simp [hres, hminus, hfill, hnone, hzeros]
    · have hfill : (L.zero && L.precision.isNone) = false := by
        rw [Bool.and_eq_false_iff, Option.isNone_eq_false_iff, ← Option.ne_none_iff_isSome,
          ← Bool.not_eq_true]
        exact not_and_or.mp hz
      have hres : reserved L pre.length ds.length least = max ds.length least :=
        if_neg fun h => hz ⟨h.1.1, h.1.2.1⟩
      simp [hres, hminus, hfill, hzeros]

/-- The width as the code reads it. -/
theorem width_eq {s : VprintSpec} (hs : Ranged s) :
    (if s.widthSet then s.width else 0) = ((layout s).width : Int) ∧
      ((layout s).width : Int) ≤ intMax := by
  cases hw : s.widthSet with
  | false => simp [layout, hw, intMax]
  | true =>
    obtain ⟨lo, hi⟩ := hs.width hw
    simp [layout, hw, lo, hi]

theorem precision_none_iff (s : VprintSpec) : (layout s).precision = none ↔ ¬s.precisionSet := by
  cases hp : s.precisionSet <;> simp [layout, hp]

/-- The two updates of `precision` in the code, as one number. -/
theorem precision_eq {s : VprintSpec} (hs : Ranged s) {q n least : Nat} (hq : q ≤ 2)
    (hleast : (layout s).precision = none → 1 ≤ least) :
    (if (s.flagZero ∧ ¬s.precisionSet ∧ ¬s.flagMinus) ∧
        (if s.widthSet then s.width else 0) >
          (if (n : Int) > least then (n : Int) else least) then
      toSigned 32 ((if s.widthSet then s.width else 0) - q)
    else if (n : Int) > least then (n : Int) else least) = reserved (layout s) q n least := by
  obtain ⟨hw, hwmax⟩ := width_eq hs
  have hmax : (if (n : Int) > least then (n : Int) else least) = (max n least : Nat) := by
    split <;> omega
  have hcond : ((s.flagZero ∧ ¬s.precisionSet ∧ ¬s.flagMinus) ∧
        ((layout s).width : Int) > (max n least : Nat)) ↔
      (((layout s).zero ∧ (layout s).precision = none ∧ ¬(layout s).minus) ∧
        max n least < (layout s).width) := by
    rw [precision_none_iff]
    simp
  rw [hw, hmax, reserved]
  by_cases h : ((layout s).zero ∧ (layout s).precision = none ∧ ¬(layout s).minus) ∧
      max n least < (layout s).width
  · have hl := hleast h.1.2.1
    have hwide := h.2
    rw [if_pos (hcond.mpr h), if_pos h]
    rw [intMax] at hwmax
    rw [toSigned_of_inSigned (by decide) ⟨by norm_num; omega, by norm_num; omega⟩]
    omega
  · rw [if_neg (mt hcond.mp h), if_neg h]

theorem leastDigits_pos {L : Layout} (hp : L.precision = none) (conv : VprintfConv) (len : Nat) :
    1 ≤ leastDigits L conv len := by
  simp only [leastDigits, hp, Option.getD_none]
  split <;> omega

theorem reserved_le {s : VprintSpec} (hs : Ranged s) {q len least : Nat} (hlen : len ≤ 22)
    (hleast : least ≤ 2 ^ 31) : reserved (layout s) q len least ≤ 2 ^ 31 := by
  obtain ⟨_, hw⟩ := width_eq hs
  rw [intMax] at hw
  rw [reserved]
  split <;> omega

theorem leastDigits_le {s : VprintSpec} (hs : Ranged s) {k : VprintfConv} {len : Nat}
    (hlen : len ≤ 22) : leastDigits (layout s) k len ≤ 2 ^ 31 := by
  have hp : (layout s).precision.getD 1 ≤ 2 ^ 31 := by
    cases hset : s.precisionSet with
    | false => simp [layout, hset]
    | true =>
      have := (hs.precision hset).2
      rw [intMax] at this
      simp only [layout, hset, if_true, Option.getD_some]
      omega
  simp only [leastDigits]
  split <;> omega

/-- The space padding in the unsigned arithmetic of the code. -/
theorem spacePadding_eq {W T : Nat} (hW : (W : Int) ≤ intMax) (hT : T < 2 ^ 64) :
    toSigned 32 ((if (W : Int) < 0 ∨ toSize (W : Int) ≤ toSize (T : Int) then 0
      else toSize ((W : Int) - toSize (T : Int)) : Nat) : Int) = (W - T : Nat) := by
  rw [intMax] at hW
  have hTsize : toSize (T : Int) = T := by rw [toSize_of_nonneg (by omega) (by omega)]; omega
  have hWsize : toSize (W : Int) = W := by rw [toSize_of_nonneg (by omega) (by omega)]; omega
  rw [hTsize, hWsize]
  by_cases hle : W ≤ T
  · rw [if_pos (Or.inr hle), Nat.sub_eq_zero_of_le hle]
    rfl
  · have hsub : toSize ((W : Int) - T) = W - T := by
      rw [toSize_of_nonneg (by omega) (by omega), Int.toNat_sub]
    have hrange : InSigned 32 ((W - T : Nat) : Int) := by
      constructor
      · norm_num
      · norm_num
        omega
    rw [if_neg (by omega), hsub, toSigned_of_inSigned (by decide) hrange]

theorem vprintfPadding_toNat {σ : Type} (write : WriteFn σ) (info : Info σ) (p : UInt8)
    (len : Int) : vprintfPadding write info p len = vprintfPadding write info p len.toNat := by
  rw [vprintfPadding, vprintfPadding, Int.toNat_natCast]
  by_cases hle : len ≤ 0
  · rw [if_pos hle, if_pos (by omega)]
  · rw [if_neg hle, if_neg (by omega)]

/-- The five parts that `vprintf_output_int` writes, in the terms of the reference. -/
theorem vprintfOutputInt_parts {σ : Type} (write : WriteFn σ) {s : VprintSpec} (hs : Ranged s)
    (hc : IsInt s.conv) (info : Info σ) (val : BitVec 64) {L : Layout} (hL : layout s = L) {v : Int}
    (hv : intValue s.conv val = v) {ds pre : List UInt8} (hds : digits s.conv v.natAbs = ds)
    (hpre : numberPrefix L s.conv v = pre) {P : Nat}
    (hP : reserved L pre.length ds.length (leastDigits L s.conv ds.length) = P) :
    vprintfOutputInt write info s val =
      checked (¬s.flagMinus) info
        (vprintfPadding write · (byte ' ') (L.width - (pre.length + P) : Nat)) fun info =>
      checked (pre.length ≠ 0) info (write · pre) fun info =>
      checked True info (vprintfPadding write · (byte '0') (P - ds.length : Nat)) fun info =>
      checked True info (write · ds) fun info =>
      checked s.flagMinus info
        (vprintfPadding write · (byte ' ') (L.width - (pre.length + P) : Nat)) some := by
  subst hL hv hds hpre hP
  have hv := natAbs_intValue_lt s.conv val
  have hnumber : ∀ j : Info σ, writeNumber write j val s =
      write j (digits s.conv (intValue s.conv val).natAbs) := by
    intro j
    rw [writeNumber, digitsOf_eq hc]
    rfl
  have hlen := digits_length_le s.conv hv
  have hq := numberPrefix_length_le (layout s) s.conv (intValue s.conv val)
  have hprecision := precision_eq hs hq (n := (digits s.conv (intValue s.conv val).natAbs).length)
    fun hp => leastDigits_pos hp s.conv (digits s.conv (intValue s.conv val).natAbs).length
  have hreserved := reserved_le hs (q := (numberPrefix (layout s) s.conv
    (intValue s.conv val)).length) hlen (leastDigits_le hs (k := s.conv) hlen)
  obtain ⟨hw, hwmax⟩ := width_eq hs
  rw [vprintfOutputInt, planNumber_eq hs hc]
  generalize digits s.conv (intValue s.conv val).natAbs = ds at *
  generalize leastDigits (layout s) s.conv ds.length = least at *
  generalize numberPrefix (layout s) s.conv (intValue s.conv val) = pre at *
  simp only [Option.bind_eq_bind, Option.bind_some]
  rw [hprecision]
  generalize reserved (layout s) pre.length ds.length least = P at *
  have htotal : (P : Int) + pre.length = (pre.length + P : Nat) := by push_cast; ring
  have hspaces := spacePadding_eq (T := pre.length + P) hwmax (by omega)
  have hzeros : ∀ j : Info σ, vprintfPadding write j (byte '0') ((P : Int) - ds.length) =
      vprintfPadding write j (byte '0') (P - ds.length : Nat) := by
    intro j
    have htoNat : ((P : Int) - ds.length).toNat = P - ds.length := by omega
    rw [vprintfPadding_toNat, htoNat]
  rw [hw, htotal, hspaces]
  simp only [hzeros, hnumber]

/-- The writes that make a number. -/
def intChunks (L : Layout) (conv : VprintfConv) (v : Int) : List Chunk :=
  let ds := digits conv v.natAbs
  let pre := numberPrefix L conv v
  let P := reserved L pre.length ds.length (leastDigits L conv ds.length)
  let spaces := (padding (byte ' ') (L.width - (pre.length + P))).map tested
  (if ¬L.minus then spaces else []) ++ ((if pre.length ≠ 0 then [tested pre] else []) ++
    ((padding (byte '0') (P - ds.length)).map tested ++ ([tested ds] ++
      if L.minus then spaces else [])))

theorem bytesOf_intChunks (L : Layout) (conv : VprintfConv) (v : Int) :
    bytesOf (intChunks L conv v) = renderInt L conv v := by
  have hfits := pieces_eq_place L (numberPrefix L conv v) (digits conv v.natAbs)
    (leastDigits L conv (digits conv v.natAbs).length) fun hp hW => prefix_fits hp hW
  rw [renderInt, zeroExtended, ← hfits, intChunks]
  generalize digits conv v.natAbs = ds
  generalize numberPrefix L conv v = pre
  have hpre : bytesOf (if pre.length ≠ 0 then [tested pre] else []) = pre := by
    cases pre <;> simp
  simp only [bytesOf_append, hpre, apply_ite bytesOf, bytesOf_tested, padding_flatten,
    bytesOf_cons, bytes_tested, bytesOf_nil, List.append_nil]

theorem vprintfOutputInt_chunks {σ : Type} {write : WriteFn σ} (hw : StaysStopped write)
    {s : VprintSpec} (hs : Ranged s) (hc : IsInt s.conv) {info : Info σ} (hok : info.rc = .ok)
    (val : BitVec 64) :
    vprintfOutputInt write info s val =
      runChunks write (intChunks (layout s) s.conv (intValue s.conv val)) info := by
  rw [vprintfOutputInt_parts write hs hc info val rfl rfl rfl rfl rfl, intChunks, layout_minus]
  apply checked_chunks hw hok (vprintfPadding_chunks hw hok _ _)
  intro i hi
  apply checked_chunks hw hi (runChunks_tested hw _).symm
  intro i hi
  apply checked_chunks (c := True) hw hi (vprintfPadding_chunks hw hi _ _)
  intro i hi
  apply checked_chunks (c := True) hw hi (runChunks_tested hw _).symm
  intro i hi
  refine Eq.trans ?_ (congrArg (runChunks write · i) (List.append_nil _))
  exact checked_chunks hw hi (vprintfPadding_chunks hw hi _ _) fun _ _ => rfl

/-- Into a byte list `vprintf_output_int` emits the reference rendering. -/
theorem vprintfOutputInt_list {s : VprintSpec} (hs : Ranged s) (hc : IsInt s.conv)
    {i : Info (List UInt8)} (hok : i.rc = .ok) (val : BitVec 64) :
    vprintfOutputInt writeList i s val =
      some (emit i (renderInt (layout s) s.conv (intValue s.conv val))) := by
  rw [vprintfOutputInt_chunks staysStopped_list hs hc hok, runChunks_list hok, bytesOf_intChunks]

end OutputInt

section AnySink

variable {σ : Type} {write : WriteFn σ} {out : σ → List UInt8}

/-- A sink that takes all bytes it is given; `out` is what it has got so far. -/
def NeverFails (write : WriteFn σ) (out : σ → List UInt8) : Prop :=
  ∀ info buf, ∃ sink, write info buf =
      some { info with written := info.written + UInt64.ofNat buf.length, sink := sink } ∧
    out sink = out info.sink ++ buf

theorem NeverFails.transfers (h : NeverFails write out) :
    Transfers (fun s => some (out s)) write writeList := by
  intro buf i
  obtain ⟨sink, hwrite, hout⟩ := h i buf
  simp [hwrite, mapInfo, writeList, hout]

theorem neverFails_fd :
    NeverFails (writeFd completeWrites) fun s : Fd => s.calls.flatten := by
  intro info buf
  by_cases h : buf.length = 0
  · refine ⟨info.sink, ?_, ?_⟩
    · simp [writeFd, h]
    · simp [List.length_eq_zero_iff.mp h]
  · exact ⟨⟨info.sink.calls ++ [buf]⟩, by simp [writeFd, completeWrites, h], by simp⟩

/-- What goes into a byte list goes into the sink. -/
theorem exists_of_comm {act : Info σ → Option (Info σ)}
    {act' : Info (List UInt8) → Option (Info (List UInt8))} {bytes : List UInt8} (info : Info σ)
    (hcomm : Comm (mapInfo fun s => some (out s)) (mapInfo fun s => some (out s)) act act')
    (hlist : ∀ i : Info (List UInt8), i.rc = info.rc → act' i = some (emit i bytes)) :
    ∃ info', act info = some info' ∧ info'.rc = info.rc ∧
      out info'.sink = out info.sink ++ bytes := by
  have hrun := hcomm info
  have hmap : mapInfo (fun s => some (out s)) info =
      some ⟨info.written, info.rc, info.errno, out info.sink⟩ := rfl
  rw [hmap, Option.bind_some, hlist _ rfl] at hrun
  obtain ⟨info', hact, hinfo⟩ := Option.bind_eq_some_iff.mp hrun
  obtain ⟨got, hgot, heq⟩ := Option.map_eq_some_iff.mp hinfo
  have hrc : info'.rc = info.rc := congrArg (fun i : Info (List UInt8) => i.rc) heq
  exact ⟨info', hact, hrc, (Option.some.inj hgot).trans (congrArg Info.sink heq)⟩

/-- Into every sink that does not fail goes the reference rendering. The digits fit the buffer of
32 bytes, and there are as many as the logarithm has counted. -/
theorem vprintfOutputInt_renders {σ : Type} (write : WriteFn σ) (out : σ → List UInt8)
    (hwrite : NeverFails write out) (s : VprintSpec) (hs : Ranged s) (hc : IsInt s.conv)
    (val : BitVec 64) (info : Info σ) (hok : info.rc = .ok) :
    (∃ info', vprintfOutputInt write info s val = some info' ∧ info'.rc = .ok ∧
      out info'.sink = out info.sink ++ renderInt (layout s) s.conv (intValue s.conv val)) ∧
    ∃ plan ds, planNumber s val = some plan ∧ digitsOf s.conv val = some ds ∧
      plan.numPrecision = ds.length ∧ ds.length ≤ 32 := by
  constructor
  · obtain ⟨info', hrun, hrc, hout⟩ := exists_of_comm info
      (vprintfOutputInt_comm hwrite.transfers s val)
      fun i hi => vprintfOutputInt_list hs hc (hi.trans hok) val
    exact ⟨info', hrun, hrc.trans hok, hout⟩
  · refine ⟨_, _, planNumber_eq hs hc val, digitsOf_eq hc val, rfl, ?_⟩
    exact (digits_length_le s.conv (natAbs_intValue_lt s.conv val)).trans (by decide)

/-- `%+024lld`. -/
def signedZeros : VprintSpec :=
  { zeroSpec with flagPlus := true, flagZero := true, widthSet := true, width := 24, length := .ll }

/-- The least number has no positive counterpart. -/
theorem vprintfOutputInt_renders_least :
    ∃ info', vprintfOutputInt (writeFd completeWrites) ⟨0, .ok, 0, ⟨[]⟩⟩ signedZeros
        (BitVec.intMin 64) = some info' ∧
      info'.sink.calls.flatten = "-00009223372036854775808".toList.map byte := by
  have hs : Ranged signedZeros :=
    ⟨fun _ => by decide, fun h => absurd h (by decide)⟩
  obtain ⟨⟨info', hrun, _, hout⟩, _⟩ := vprintfOutputInt_renders (writeFd completeWrites) _
    neverFails_fd signedZeros hs (.inl rfl) (BitVec.intMin 64) ⟨0, .ok, 0, ⟨[]⟩⟩ rfl
  exact ⟨info', hrun, hout.trans (by decide +kernel)⟩

end AnySink

end IntRendering
