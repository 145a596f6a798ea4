import Libdeepc.ByteMemory
import Libdeepc.CString
import Libdeepc.MachineInt

/-!
# string.c on memory

Pointers are 64-bit words and 0 is NULL. An access to an address without a byte has
no outcome, nor has an `int` that overflows. Loops take fuel, one unit a round, and
are started with as much as there are addresses.
-/

namespace StringFunctions

open ByteMemory

def rounds : Nat := 2 ^ 64

section Compare

/-- Plain `char` is signed or not, as the platform has it. -/
def charVal (charSigned : Bool) (c : UInt8) : Int :=
  if charSigned then CString.charVal c else c.toNat

/-- What is returned for two characters that differ. -/
def charOrder (charSigned : Bool) (l r : UInt8) : Int :=
  if charVal charSigned l < charVal charSigned r then -1 else 1

/-- The loop of the three comparisons. It ends where `ends` says, and at a NUL on both sides
when `strings` says that these are strings. -/
def compareLoop (charSigned : Bool) (ends : UInt64 → Bool) (strings : Bool) (mem : Mem) :
    Nat → UInt64 → UInt64 → Option Int
  | 0, _, _ => none
  | fuel + 1, lhs, rhs =>
    if ends lhs then some 0
    else (mem lhs).bind fun l => (mem rhs).bind fun r =>
      if l ≠ r then some (charOrder charSigned l r)
      else if strings && l = 0 then some 0
      else compareLoop charSigned ends strings mem fuel (lhs + 1) (rhs + 1)

def memcmp (charSigned : Bool) (mem : Mem) (lhs rhs count : UInt64) : Option Int :=
  compareLoop charSigned (fun l => l = lhs + count) false mem rounds lhs rhs

def strcmp (charSigned : Bool) (mem : Mem) (lhs rhs : UInt64) : Option Int :=
  compareLoop charSigned (fun _ => false) true mem rounds lhs rhs

def strncmp (charSigned : Bool) (mem : Mem) (lhs rhs count : UInt64) : Option Int :=
  compareLoop charSigned (fun l => l = lhs + count) true mem rounds lhs rhs

end Compare

section Move

/-- `for (; d != end; ++d, ++s) *d = *s;` -/
def copyUp (e : UInt64) : Nat → Mem → UInt64 → UInt64 → Option Mem
  | 0, _, _, _ => none
  | fuel + 1, mem, d, s =>
    if d = e then some mem
    else (mem s).bind fun b => (put mem d b).bind fun mem => copyUp e fuel mem (d + 1) (s + 1)

/-- `for (d = end; d != start;) { --d; --s; *d = *s; }` -/
def copyDown (start : UInt64) : Nat → Mem → UInt64 → UInt64 → Option Mem
  | 0, _, _, _ => none
  | fuel + 1, mem, d, s =>
    if d = start then some mem
    else (mem (s - 1)).bind fun b => (put mem (d - 1) b).bind fun mem =>
      copyDown start fuel mem (d - 1) (s - 1)

/-- A call of `memcpy`. -/
structure CopyCall where
  dest : UInt64
  src : UInt64
  count : UInt64
  deriving DecidableEq

/-- What a copying function returns and leaves behind, and the calls of `memcpy` it made. -/
structure Copied where
  ret : UInt64
  mem : Mem
  memcpyCalls : List CopyCall

def memcpy (mem : Mem) (dest src count : UInt64) : Option (UInt64 × Mem) :=
  (copyUp (dest + count) rounds mem dest src).map fun mem => (dest, mem)

def memmove (mem : Mem) (dest src count : UInt64) : Option Copied :=
  let start := dest
  let e := start + count
  if e ≤ src ∨ src + count < dest then
    (memcpy mem dest src count).map fun r => ⟨r.1, r.2, [⟨dest, src, count⟩]⟩
  else if src < dest then
    (copyDown start rounds mem e (src + count)).map fun mem => ⟨dest, mem, []⟩
  else
    (copyUp e rounds mem dest src).map fun mem => ⟨dest, mem, []⟩

end Move

section Copy

/-- `++i` for an `int` index. -/
def nextIndex (i : Nat) : Option Nat :=
  if (i : Int) < MachineInt.intMax then some (i + 1) else none

/-- The loops that copy characters up to the NUL, as long as there are `more` to copy. -/
def copyWhile {σ : Type} (more : σ → Bool) (less : σ → σ) (dest src : UInt64) :
    Nat → Mem → Nat → σ → Option (Mem × Nat × σ)
  | 0, _, _, _ => none
  | fuel + 1, mem, i, count => (mem (src + .ofNat i)).bind fun c =>
    if c ≠ 0 ∧ more count then
      (put mem (dest + .ofNat i) c).bind fun mem =>
        (nextIndex i).bind fun i => copyWhile more less dest src fuel mem i (less count)
    else some (mem, i, count)

/-- `for (i = 0; src[i] != '\0'; ++i) dest[i] = src[i];` -/
def copyText (mem : Mem) (dest src : UInt64) : Option (Mem × Nat) :=
  (copyWhile (fun _ : Unit => true) id dest src rounds mem 0 ()).map fun (mem, i, _) => (mem, i)

/-- `for (i = 0; src[i] != '\0' && count > 0; ++i, --count) dest[i] = src[i];` -/
def copyBounded (mem : Mem) (dest src count : UInt64) : Option (Mem × Nat × UInt64) :=
  copyWhile (fun count : UInt64 => 0 < count) (fun count => count - 1) dest src rounds mem 0 count

def strcpy (mem : Mem) (dest src : UInt64) : Option (UInt64 × Mem) :=
  (copyText mem dest src).bind fun (mem, i) =>
    (put mem (dest + .ofNat i) 0).map fun mem => (dest, mem)

/-- `for (; count > 0; ++i, --count) dest[i] = '\0';` -/
def fillZero (dest : UInt64) : Nat → Mem → Nat → UInt64 → Option Mem
  | 0, _, _, _ => none
  | fuel + 1, mem, i, count =>
    if 0 < count then
      (put mem (dest + .ofNat i) 0).bind fun mem =>
        (nextIndex i).bind fun i => fillZero dest fuel mem i (count - 1)
    else some mem

def strncpy (mem : Mem) (dest src count : UInt64) : Option (UInt64 × Mem) :=
  (copyBounded mem dest src count).bind fun (mem, i, count) =>
    (fillZero dest rounds mem i count).map fun mem => (dest, mem)

def strlenLoop (mem : Mem) (str : UInt64) : Nat → UInt64 → Option UInt64
  | 0, _ => none
  | fuel + 1, len => (mem (str + len)).bind fun c =>
    if c ≠ 0 then strlenLoop mem str fuel (len + 1) else some len

def strlen (mem : Mem) (str : UInt64) : Option UInt64 := strlenLoop mem str rounds 0

def strncat (mem : Mem) (dest src count : UInt64) : Option (UInt64 × Mem) :=
  (strlen mem dest).bind fun origLen =>
    let dest := dest + origLen
    (copyBounded mem dest src count).bind fun (mem, i, _) =>
      (put mem (dest + .ofNat i) 0).map fun mem => (dest - origLen, mem)

end Copy

section Search

/-- `c` is `(char)ch`. -/
def strchrLoop (mem : Mem) (c : UInt8) : Nat → UInt64 → Option UInt64
  | 0, _ => none
  | fuel + 1, str => (mem str).bind fun d =>
    if d = c then some str
    else if d = 0 then some 0
    else strchrLoop mem c fuel (str + 1)

def strchr (mem : Mem) (str : UInt64) (c : UInt8) : Option UInt64 := strchrLoop mem c rounds str

/-- `while (s && str + str_size >= s + substr_size)` -/
def strstrLoop (charSigned : Bool) (mem : Mem) (strEnd substr substrSize : UInt64) :
    Nat → UInt64 → Option UInt64
  | 0, _ => none
  | fuel + 1, s =>
    if s ≠ 0 ∧ s + substrSize ≤ strEnd then
      let s := s + 1
      -- We have the first character. Check the rest of the string.
      (memcmp charSigned mem s (substr + 1) (substrSize - 1)).bind fun c =>
        if c = 0 then some (s - 1)
        else
          -- Didn't match, find the next candidate.
          (mem substr).bind fun first => (strchr mem s first).bind fun s =>
            strstrLoop charSigned mem strEnd substr substrSize fuel s
    else some 0

def strstr (charSigned : Bool) (mem : Mem) (str substr : UInt64) : Option UInt64 :=
  (strlen mem substr).bind fun substrSize =>
    if substrSize = 0 then some str
    else
      (strlen mem str).bind fun strSize =>
        (mem substr).bind fun first => (strchr mem str first).bind fun s =>
          strstrLoop charSigned mem (str + strSize) substr substrSize rounds s

end Search

end StringFunctions
