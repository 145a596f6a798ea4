import Libdeepc.CString
import Libdeepc.MachineInt
import Libdeepc.MaskedCycle
import Libdeepc.Runs

/-!
# The hash table of search.c

A pointer is its address, with 0 for NULL; a slot is empty when its `key` is
NULL. `str` gives the bytes readable at a key pointer, which stay the same
while the table is in use. What `item.data` points to may change between calls,
so a call carries the bytes readable there; there are none behind NULL. A read
outside an object has no outcome.
-/

namespace HashSearch

open CString MachineInt MaskedCycle

inductive Action where
  | find
  | enter
  deriving DecidableEq

structure Entry where
  key : Nat
  data : Nat
  deriving DecidableEq

/-- A zeroed slot. -/
def nullEntry : Entry := ⟨0, 0⟩

structure HsearchData where
  data : List Entry
  capacity : Nat
  size : Nat
  mask : Nat
  deriving DecidableEq

def isPow2 (n : Nat) : Bool := n &&& (n - 1) = 0

/-- `while (n != 0) { n >>= 1; r <<= 1; }`; a `size_t` is zero after 64 shifts. -/
def nextPow2Loop : Nat → Nat → Nat → Nat
  | 0, _, r => r
  | fuel + 1, n, r => if n = 0 then r else nextPow2Loop fuel (n >>> 1) (toU64 (r <<< 1))

def nextPow2 (n : Nat) : Nat := if isPow2 n then n else nextPow2Loop 64 n 1

/-- `calloc` as an array of entries, in a block whose memory held the entries
`old`. The product wraps and a zero size gives NULL. The `memset` at the end has
length 0, so the array is what the memory held before. -/
def callocEntries (mallocOk : Nat → Bool) (old : Nat → Entry) (num size : Nat) :
    Option (List Entry) :=
  let sz := toU64 (num * size)
  if sz = 0 ∨ mallocOk sz = false then none else some ((List.range (sz / 16)).map old)

structure HcreateResult where
  ret : Nat
  errno : Int
  htab : HsearchData

def hcreateR (mallocOk : Nat → Bool) (old : Nat → Entry) (nel : Nat) (htab : HsearchData)
    (errno : Int) : HcreateResult :=
  if nel = 0 then ⟨0, 22, htab⟩
  else match callocEntries mallocOk old 16 (nextPow2 (toU64 (nel * 2))) with
    | none => ⟨0, errno, { htab with data := [] }⟩
    | some data => ⟨1, errno, { data := data, capacity := nel, size := 0, mask := nel - 1 }⟩

def hasherLoop : List UInt8 → UInt64 → Option UInt64
  | [], _ => none
  | c :: str, hash =>
    if c = 0 then some hash
    else
      let hash := (hash <<< 3) ||| (hash >>> 61)
      let a := c.toUInt64
      let hash := hash ^^^ a
      match str with
      | [] => none
      | c :: str =>
        let b := c.toUInt64
        if c = 0 then some hash
        else
          let hash := hash ^^^ (b ^^^ ((a &&& b) <<< 2))
          match str with
          | [] => none
          | c :: str =>
            if c = 0 then some hash
            else
              let c := c.toUInt64
              hasherLoop str (hash ^^^ ((c ^^^ (~~~a &&& c)) <<< 1))

def hasher (str : List UInt8) : Option UInt64 :=
  (hasherLoop str 0x0123456789abcdef).map fun (hash : UInt64) => (hash >>> 2) ||| (hash <<< 62)

/-- How the probe loop ends: on an equal key, or on the index it breaks at. -/
inductive Probe where
  | found (i : Nat)
  | stopped (i : Nat)
  deriving DecidableEq

/-- The `for (;;)` of `hsearch_r`, entered at `i`; one unit of fuel a round. -/
def probeLoop (str : Nat → List UInt8) (htab : HsearchData) (key start : Nat) :
    Nat → Nat → Option Probe
  | 0, _ => none
  | fuel + 1, i => do
    let e ← htab.data[i]?
    if e.key = 0 then some (.stopped i)
    else
      let c ← strcmp (str e.key) (str key)
      if c = 0 then some (.found i)
      else
        let i := (i + 1) &&& htab.mask
        if i = start then some (.stopped i)
        else probeLoop str htab key start fuel i

structure HsearchResult where
  ret : Nat
  /-- The index of the slot `*retval` points to, or NULL. -/
  retval : Option Nat
  htab : HsearchData
  deriving DecidableEq

/-- `bytes` is what can be read at `item.data`, which is what the code hashes. -/
def hsearchR (str : Nat → List UInt8) (htab : HsearchData) (item : Entry)
    (bytes : List UInt8) (action : Action) : Option HsearchResult := do
  let hash ← hasher bytes
  let start := hash.toNat &&& htab.mask
  match ← probeLoop str htab item.key start (htab.mask + 1) start with
  | .found i => some ⟨1, some i, htab⟩
  | .stopped i =>
    if action = .find ∨ htab.size = htab.capacity then some ⟨0, none, htab⟩
    else if i < htab.data.length then
      some ⟨1, some i, { htab with size := htab.size + 1, data := htab.data.set i item }⟩
    else none

end HashSearch
