import Libdeepc.CString
import Libdeepc.MachineInt
import Libdeepc.Numerals

/-!
# The strtol family

The reader of `atoi.c`: leading space and sign, base prefix, then guarded
accumulation, upward for a positive number and downward for a negative one.
The accumulators are reduced to 64 bits after each operation, as the machine
does; that the reduction never changes a value is a theorem. The result record
holds what is stored through a non-NULL `str_end`, and the final `errno`.
-/

namespace NumberParsing

open CString MachineInt Numerals

def einval : Int := 22
def erange : Int := 34

inductive StrtoRet where
  | neg
  | err
  | pos
  deriving DecidableEq

def isspace (ch : Int) : Bool := (9 ≤ ch ∧ ch ≤ 13) ∨ ch = 32

def isdigit (ch : Int) : Bool := 48 ≤ ch ∧ ch ≤ 57

def skipSpace : List UInt8 → Option (List UInt8)
  | [] => none
  | c :: s => if isspace (charVal c) then skipSpace s else some (c :: s)

def atoiStart (str : List UInt8) : Option (StrtoRet × List UInt8) := do
  let s ← skipSpace str
  let c ← s.head?
  if c = byte '-' then some (.neg, s.tail)
  else if c = byte '+' then some (.pos, s.tail)
  else some (.pos, s)

structure StrtoStart where
  ret : StrtoRet
  str : List UInt8
  base : Int
  errno : Int

/-- The second half of `strto_start`: a leading `0` and what it says about the base. -/
def basePrefix (ret : StrtoRet) (s : List UInt8) (base errno : Int) : Option StrtoStart := do
  let c ← s.head?
  if c = byte '0' then
    let s := s.tail
    if base = 0 ∨ base = 16 then
      let x ← s.head?
      if x = byte 'x' ∨ x = byte 'X' then some ⟨ret, s.tail, 16, errno⟩
      else if base = 0 then some ⟨ret, s, 8, errno⟩
      else some ⟨ret, s, base, errno⟩
    else some ⟨ret, s, base, errno⟩
  else if base = 0 then some ⟨ret, s, 10, errno⟩
  else some ⟨ret, s, base, errno⟩

def strtoStart (str : List UInt8) (base errno : Int) : Option StrtoStart :=
  if base < 0 ∨ base = 1 ∨ base > 36 then some ⟨.err, str, base, einval⟩
  else do
    let (ret, s) ← atoiStart str
    basePrefix ret s base errno

def toBaseN (base c : Int) : Int :=
  if base ≤ 10 then
    if c < 48 ∨ 48 + base ≤ c then -1 else c - 48
  else if isdigit c then c - 48
  else if 97 ≤ c ∧ c < 97 - 10 + base then c - 97 + 10
  else if 65 ≤ c ∧ c < 65 - 10 + base then c - 65 + 10
  else -1

/-- `while (to_base_n(base, *s) != -1) ++s;` -/
def skipDigits (base : Int) : List UInt8 → Option (List UInt8)
  | [] => none
  | c :: s => if toBaseN base (charVal c) ≠ -1 then skipDigits base s else some (c :: s)

/-- One round of `read_pos_int`: the guard of steps 1 and 2, then `n *= base`
and `n += d` in `uintmax_t`. -/
def posStep (max : Nat) (base : Int) (n d : Nat) : Option Nat :=
  let maxDiv := max / base.toNat
  let maxMod := max % base.toNat
  if n < maxDiv ∨ n = maxDiv ∧ d ≤ maxMod then some (toU64 (toU64 (n * base.toNat) + d))
  else none

/-- One round of `read_neg_int`, in `intmax_t` and with the truncating division of C. -/
def negStep (max base n d : Int) : Option Int :=
  let maxDiv := max.tdiv base
  let maxMod := max.tmod base * -1
  if n > maxDiv ∨ n = maxDiv ∧ d ≤ maxMod then
    some (toSigned 64 (toSigned 64 (n * base) - d))
  else none

structure ReadInt (α : Type) where
  result : α
  str : List UInt8
  overflow : Bool

def readPosInt (max : Nat) (base : Int) : List UInt8 → Nat → Option (ReadInt Nat)
  | [], _ => none
  | c :: s, n =>
    let d := toBaseN base (charVal c)
    if d = -1 then some ⟨n, c :: s, false⟩
    else match posStep max base n d.toNat with
      | some n => readPosInt max base s n
      | none => (skipDigits base s).map fun s => ⟨max, s, true⟩

def readNegInt (max base : Int) : List UInt8 → Int → Option (ReadInt Int)
  | [], _ => none
  | c :: s, n =>
    let d := toBaseN base (charVal c)
    if d = -1 then some ⟨n, c :: s, false⟩
    else match negStep max base n d with
      | some n => readNegInt max base s n
      | none => (skipDigits base s).map fun s => ⟨max, s, true⟩

structure StrtoResult where
  value : Int
  strEnd : Option (List UInt8)
  errno : Int

/-- The body the macro STRTOL gives to each signed function. -/
def strtolBody (max min : Int) (str : List UInt8) (base errno : Int) : Option StrtoResult := do
  let st ← strtoStart str base errno
  match st.ret with
  | .err => some ⟨0, none, st.errno⟩
  | .pos =>
    let r ← readPosInt max.toNat st.base st.str 0
    some ⟨toSigned 64 r.result, some r.str, if r.overflow then erange else st.errno⟩
  | .neg =>
    let r ← readNegInt min st.base st.str 0
    some ⟨r.result, some r.str, if r.overflow then erange else st.errno⟩

def strtol : List UInt8 → Int → Int → Option StrtoResult := strtolBody longMax longMin
def strtoll : List UInt8 → Int → Int → Option StrtoResult := strtolBody longMax longMin
def strtoimax : List UInt8 → Int → Int → Option StrtoResult := strtolBody longMax longMin

/-- The body the macro STRTOUL gives to each unsigned function. -/
def strtoulBody (max : Nat) (str : List UInt8) (base errno : Int) : Option StrtoResult := do
  let st ← strtoStart str base errno
  match st.ret with
  | .err => some ⟨0, none, st.errno⟩
  | ret =>
    let r ← readPosInt max st.base st.str 0
    if r.overflow then some ⟨r.result, some r.str, erange⟩
    else if ret = .neg then some ⟨toU64 (2 ^ 64 - r.result), some r.str, st.errno⟩
    else some ⟨r.result, some r.str, st.errno⟩

def strtoul : List UInt8 → Int → Int → Option StrtoResult := strtoulBody ulongMax
def strtoull : List UInt8 → Int → Int → Option StrtoResult := strtoulBody ulongMax
def strtoumax : List UInt8 → Int → Int → Option StrtoResult := strtoulBody ulongMax

/-- What is returned, and the final `errno`. -/
structure AtoiResult where
  value : Int
  errno : Int

/-- The body the macro ATOI gives to each function with a result of `width` bits. -/
def atoiBody (width : Nat) (max min : Int) (str : List UInt8) (errno : Int) :
    Option AtoiResult := do
  let (sign, s) ← atoiStart str
  if sign = .pos then
    let r ← readPosInt max.toNat 10 s 0
    if r.overflow then some ⟨0, errno⟩ else some ⟨toSigned width r.result, errno⟩
  else
    let r ← readNegInt min 10 s 0
    if r.overflow then some ⟨0, errno⟩ else some ⟨toSigned width r.result, errno⟩

def atoi : List UInt8 → Int → Option AtoiResult := atoiBody 32 intMax intMin
def atol : List UInt8 → Int → Option AtoiResult := atoiBody 64 longMax longMin
def atoll : List UInt8 → Int → Option AtoiResult := atoiBody 64 longMax longMin

end NumberParsing
