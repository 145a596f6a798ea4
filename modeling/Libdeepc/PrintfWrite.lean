import Libdeepc.CString
import Libdeepc.MachineInt
import Libdeepc.Memory

/-!
# The output side of printf.c

`vprintf_info` holds the bytes written so far, the return code and, with
`errno`, the sink behind its write function. The write function is a parameter,
as it is a function pointer in the source: `writeFd` hands the bytes to the
kernel, `writeStr` copies what fits into the buffer. An argument occupies one
64-bit slot, of which `va_arg` takes as many low bits as its type has.
`none` stands for undefined behaviour and for `abort`.
-/

namespace PrintfWrite

open CString MachineInt Memory

/-- OK, END and ERR. -/
inductive VprintRet where
  | ok
  | ended
  | err
  deriving DecidableEq

inductive VprintfLength where
  | none | hh | h | l | ll | j | z | t | L
  deriving DecidableEq

inductive VprintfConv where
  | d | o | u | x | X | c | s | p | n | percent
  deriving DecidableEq

structure Info (σ : Type) where
  written : UInt64
  rc : VprintRet
  errno : Int
  sink : σ

abbrev WriteFn (σ : Type) := Info σ → List UInt8 → Option (Info σ)

/-- What write(2) answers to some bytes after the earlier calls: how many of
them it took, or the error. -/
abbrev Kernel := List (List UInt8) → List UInt8 → Except Int Nat

/-- A kernel that takes all it is given. -/
def completeWrites : Kernel := fun _ bytes => .ok bytes.length

/-- The descriptor, as the bytes of the calls of write made on it. -/
structure Fd where
  calls : List (List UInt8)

def writeFd (kernel : Kernel) : WriteFn Fd := fun info buf =>
  if buf.length = 0 then some info
  else
    let sink : Fd := ⟨info.sink.calls ++ [buf]⟩
    match kernel info.sink.calls buf with
    | .error e => some { info with rc := .err, errno := e, sink := sink }
    | .ok written =>
      let info := { info with written := info.written + UInt64.ofNat written, sink := sink }
      if written < buf.length then some { info with rc := .ended } else some info

/-- The object `buffer` points into, the offset it has advanced to and what is left. -/
structure StrSink where
  buffer : List UInt8
  pos : Nat
  bufSize : Nat

def writeStr : WriteFn StrSink := fun info buf =>
  let info := { info with written := info.written + UInt64.ofNat buf.length }
  let s := info.sink
  if s.bufSize = 0 ∨ buf.length = 0 then some info
  else
    let copy := if buf.length < s.bufSize then buf.length else s.bufSize
    if s.pos + copy ≤ s.buffer.length then
      let buffer := s.buffer.take s.pos ++ buf.take copy ++ s.buffer.drop (s.pos + copy)
      some { info with sink := ⟨buffer, s.pos + copy, s.bufSize - copy⟩ }
    else none

structure VprintSpec where
  flagMinus : Bool
  flagPlus : Bool
  flagSpace : Bool
  flagZero : Bool
  flagNumber : Bool
  widthSet : Bool
  width : Int
  precisionSet : Bool
  precision : Int
  length : VprintfLength
  conv : VprintfConv
  deriving DecidableEq

/-- `vprint_spec spec = {0}`. -/
def zeroSpec : VprintSpec :=
  ⟨false, false, false, false, false, false, 0, false, 0, .none, .d⟩

/-- `LOG_T`; a 64-bit number is zero after 64 divisions. -/
def logLoop (base : Int) : Nat → Int → Int → Int
  | 0, _, l => l
  | fuel + 1, n, l => if n ≠ 0 then logLoop base fuel (n.tdiv base) (l + 1) else l

def logT (base n : Int) : Int := logLoop base 64 n 0

def log10Intmax (n : Int) : Int := logT 10 n
def log8Uintmax (n : Nat) : Int := logT 8 n
def log10Uintmax (n : Nat) : Int := logT 10 n
def log16Uintmax (n : Nat) : Int := logT 16 n

/-- Conversion of an `int` to `char`. -/
def toByte (x : Int) : UInt8 := UInt8.ofNat (x % 256).toNat

/-- `T_LOOP`: `buf` is what is filled of the 32 bytes, from `cur` on. -/
def tLoop (base : Int) (nFn : Int → Int) : Nat → Int → List UInt8 → Option (List UInt8)
  | 0, _, _ => none
  | fuel + 1, src, buf =>
    if src ≠ 0 then
      if buf.length < 32 then
        tLoop base nFn fuel (src.tdiv base) (toByte (nFn (src.tmod base)) :: buf)
      else none
    else some buf

def digitsOf (conv : VprintfConv) (val : BitVec 64) : Option (List UInt8) :=
  match conv with
  | .d => tLoop 10 (fun n => (if n < 0 then -n else n) + 48) 33 val.toInt []
  | .o => tLoop 8 (fun n => n + 48) 33 val.toNat []
  | .u => tLoop 10 (fun n => n + 48) 33 val.toNat []
  | .x => tLoop 16 (fun n => if n < 10 then n + 48 else n + 97 - 10) 33 val.toNat []
  | .X => tLoop 16 (fun n => if n < 10 then n + 48 else n + 65 - 10) 33 val.toNat []
  | _ => none

def vaArg (args : List (BitVec 64)) : Option (BitVec 64 × List (BitVec 64)) :=
  match args with
  | [] => none
  | a :: args => some (a, args)

/-- `va_arg(args, int)` and `va_arg(args, unsigned int)` take the low half of a slot. -/
def slotInt (a : BitVec 64) : Int := (a.setWidth 32).toInt
def slotUint (a : BitVec 64) : Nat := (a.setWidth 32).toNat

def vprintfConvSigned (len : VprintfLength) (args : List (BitVec 64)) :
    Option (BitVec 64 × List (BitVec 64)) := do
  let (a, args) ← vaArg args
  match len with
  | .hh => some (BitVec.ofInt 64 (toSigned 8 (slotInt a)), args)
  | .h => some (BitVec.ofInt 64 (toSigned 16 (slotInt a)), args)
  | .l | .ll | .j | .z | .t => some (a, args)
  | .none | .L => some (BitVec.ofInt 64 (slotInt a), args)

def vprintfConvUnsigned (len : VprintfLength) (args : List (BitVec 64)) :
    Option (BitVec 64 × List (BitVec 64)) := do
  let (a, args) ← vaArg args
  match len with
  | .hh => some (BitVec.ofNat 64 (slotUint a % 2 ^ 8), args)
  | .h => some (BitVec.ofNat 64 (slotUint a % 2 ^ 16), args)
  | .l | .ll | .j | .z | .t => some (a, args)
  | .none | .L => some (BitVec.ofNat 64 (slotUint a), args)

/-- How many bytes `vprintf_conv_n` stores. -/
def storeSize : VprintfLength → Nat
  | .hh => 1
  | .h => 2
  | .l | .ll | .j | .z | .t => 8
  | .none | .L => 4

def vprintfConvN (len : VprintfLength) (mem : Mem) (s : Nat) (written : UInt64) : Option Mem :=
  store mem s (leBytes (storeSize len) written.toNat)

section Write

variable {σ : Type} (write : WriteFn σ)

/-- `act` under a condition, and `return` when it leaves `rc` other than OK. -/
def checked (c : Prop) [Decidable c] (info : Info σ) (act k : Info σ → Option (Info σ)) :
    Option (Info σ) :=
  if c then do
    let info ← act info
    if info.rc = .ok then k info else some info
  else k info

/-- The loop of `vprintf_padding`, which ends after at most `len` rounds. -/
def paddingLoop (p : UInt8) : Nat → Nat → Info σ → Option (Info σ)
  | 0, _, info => some info
  | fuel + 1, len, info =>
    if len > 0 then do
      let l := if len ≥ 64 then 64 else len
      let info ← write info (List.replicate l p)
      if info.rc ≠ .ok then some info else paddingLoop p fuel (len - l) info
    else some info

def vprintfPadding (info : Info σ) (p : UInt8) (len : Int) : Option (Info σ) :=
  if len ≤ 0 then some info else paddingLoop write p len.toNat len.toNat info

def writeNumber (info : Info σ) (val : BitVec 64) (s : VprintSpec) : Option (Info σ) := do
  let buf ← digitsOf s.conv val
  write info buf

/-- What the first switch of `vprintf_output_int` settles. -/
structure NumberPlan where
  numPrecision : Int
  minPrecision : Int
  pre : List UInt8

def planNumber (s : VprintSpec) (val : BitVec 64) : Option NumberPlan :=
  let minPrecision := if s.precisionSet then s.precision else 1
  match s.conv with
  | .d =>
    let pre := if val.toInt < 0 then [byte '-'] else if s.flagPlus then [byte '+']
      else if s.flagSpace then [byte ' '] else []
    some ⟨log10Intmax val.toInt, minPrecision, pre⟩
  | .o =>
    let numPrecision := log8Uintmax val.toNat
    let minPrecision := if s.flagNumber ∧ minPrecision ≤ numPrecision then numPrecision + 1
      else minPrecision
    some ⟨numPrecision, minPrecision, []⟩
  | .u => some ⟨log10Uintmax val.toNat, minPrecision, []⟩
  | .x | .X =>
    let numPrecision := log16Uintmax val.toNat
    let pre := if s.flagNumber ∧ numPrecision ≠ 0 then
      (if s.conv = .x then [byte '0', byte 'x'] else [byte '0', byte 'X']) else []
    some ⟨numPrecision, minPrecision, pre⟩
  | _ => none

def vprintfOutputInt (info : Info σ) (s : VprintSpec) (val : BitVec 64) : Option (Info σ) := do
  let plan ← planNumber s val
  let minWidth := if s.widthSet then s.width else 0
  let prefixLen := plan.pre.length
  let precision := if plan.numPrecision > plan.minPrecision then plan.numPrecision
    else plan.minPrecision
  let precision :=
    if (s.flagZero ∧ ¬s.precisionSet ∧ ¬s.flagMinus) ∧ minWidth > precision then
      toSigned 32 (minWidth - prefixLen)
    else precision
  let totalSize := toSize (precision + prefixLen)
  let spacePaddingLen := if minWidth < 0 ∨ toSize minWidth ≤ totalSize then 0
    else toSize (minWidth - totalSize)
  let spaces := fun info => vprintfPadding write info (byte ' ') (toSigned 32 spacePaddingLen)
  checked (¬s.flagMinus) info spaces fun info =>
  checked (prefixLen ≠ 0) info (write · plan.pre) fun info =>
  checked True info (vprintfPadding write · (byte '0') (precision - plan.numPrecision)) fun info =>
  checked True info (writeNumber write · val s) fun info =>
  checked s.flagMinus info spaces some

/-- Padding on the side chosen by the flag, as `%c` and `%s` do it: without a
look at `rc` in between. -/
def padded (info : Info σ) (spec : VprintSpec) (len : Int) (bytes : List UInt8) :
    Option (Info σ) := do
  let info ← (if spec.flagMinus then some info else vprintfPadding write info (byte ' ') len)
  let info ← write info bytes
  if spec.flagMinus then vprintfPadding write info (byte ' ') len else some info

def vprintfConvC (info : Info σ) (spec : VprintSpec) (c : UInt8) : Option (Info σ) :=
  let hasPadding := spec.widthSet ∧ spec.width > 1
  if hasPadding then padded write info spec (spec.width - 1) [c] else write info [c]

/-- `str` is what can be read at the pointer, or NULL. -/
def vprintfConvS (info : Info σ) (spec : VprintSpec) (str : Option (List UInt8)) :
    Option (Info σ) := do
  let str := str.getD (literal ['(', 'N', 'U', 'L', 'L', ')'])
  let strLen ← strlen str
  let len := if spec.precisionSet ∧ spec.precision ≥ 0 ∧ toSize spec.precision < strLen then
    toSize spec.precision else strLen
  let hasPadding := spec.widthSet ∧ spec.width ≥ 0 ∧ toSize spec.width > len
  if hasPadding then padded write info spec (toSigned 32 (spec.width - len)) (str.take len)
  else write info (str.take len)

def vprintfConvP (info : Info σ) (spec : VprintSpec) (ptr : BitVec 64) : Option (Info σ) :=
  if ptr = 0 then vprintfConvS write info spec (some (literal ['(', 'n', 'i', 'l', ')']))
  else vprintfOutputInt write info { spec with flagNumber := true, conv := .x } ptr

/-- What a directive may change besides the spec. -/
structure PrintState (σ : Type) where
  info : Info σ
  args : List (BitVec 64)
  mem : Mem

def vprintfWriteSpec (st : PrintState σ) (spec : VprintSpec) : Option (PrintState σ) :=
  match spec.conv with
  | .percent => do
    let info ← write st.info [byte '%']
    some { st with info := info }
  | .c => do
    let (a, args) ← vaArg st.args
    let info ← vprintfConvC write st.info spec (toByte (slotInt a))
    some { st with info := info, args := args }
  | .s => do
    let (a, args) ← vaArg st.args
    let str := if a = 0 then none else some (bytesAt st.mem a.toNat)
    let info ← vprintfConvS write st.info spec str
    some { st with info := info, args := args }
  | .d => do
    let (val, args) ← vprintfConvSigned spec.length st.args
    let info ← vprintfOutputInt write st.info spec val
    some { st with info := info, args := args }
  | .o | .u | .x | .X => do
    let (val, args) ← vprintfConvUnsigned spec.length st.args
    let info ← vprintfOutputInt write st.info spec val
    some { st with info := info, args := args }
  | .p => do
    let (a, args) ← vaArg st.args
    let info ← vprintfConvP write st.info spec a
    some { st with info := info, args := args }
  | .n => do
    let (a, args) ← vaArg st.args
    let mem ← vprintfConvN spec.length st.mem a.toNat st.info.written
    some { st with args := args, mem := mem }

end Write

end PrintfWrite
