import Libdeepc.NumberParsing
import Libdeepc.PrintfWrite

/-!
# The format side of printf.c

`vprintf_parse_spec` reads a character, passes it through the stages it skips
and reads the next one after each stage it does not skip; here each stage is a
function of the character just read. The format pointer is what can be read from
it on. The loop of `vprintf_shared` moves on by a character in each round, so as
many rounds as there are characters are enough. The spinlock around it is left
out here: the module on the output lock has the driver with it.
-/

namespace PrintfShared

open CString MachineInt Memory NumberParsing PrintfWrite

structure ParseState where
  format : List UInt8
  spec : VprintSpec
  args : List (BitVec 64)
  errno : Int
  rc : VprintRet

def ParseState.fail (p : ParseState) (errno : Int) : ParseState :=
  { p with errno := errno, rc := .err }

/-- The top of the `for` loop: fetch `c`, or fail at the terminator. -/
def nextChar (p : ParseState) (stage : UInt8 → ParseState → Option ParseState) :
    Option ParseState :=
  match p.format with
  | [] => none
  | c :: format => if c = 0 then some (p.fail einval) else stage c { p with format := format }

/-- The enumerator of `VPRINTF_CONV` with the value of one of `VPRINTF_LENGTH`. -/
def convOfLength : VprintfLength → VprintfConv
  | .none => .d
  | .hh => .o
  | .h => .u
  | .l => .x
  | .ll => .X
  | .j => .c
  | .z => .s
  | .t => .p
  | .L => .n

def convOfChar (c : UInt8) : Option VprintfConv :=
  if c = byte 'd' ∨ c = byte 'i' then some .d
  else if c = byte 'o' then some .o
  else if c = byte 'u' then some .u
  else if c = byte 'x' then some .x
  else if c = byte 'X' then some .X
  else if c = byte 'c' then some .c
  else if c = byte 's' then some .s
  else if c = byte 'p' then some .p
  else if c = byte 'n' then some .n
  else if c = byte '%' then some .percent
  else none

def parseConv (c : UInt8) (p : ParseState) : Option ParseState :=
  match convOfChar c with
  | some conv => some { p with spec := { p.spec with conv := conv } }
  | none => some (p.fail einval)

def parseLength (c : UInt8) (p : ParseState) : Option ParseState :=
  if c = byte 'h' then do
    let next ← p.format.head?
    if next = byte 'h' then
      nextChar { p with format := p.format.tail, spec := { p.spec with length := .hh } } parseConv
    else nextChar { p with spec := { p.spec with length := .h } } parseConv
  else if c = byte 'l' then do
    let next ← p.format.head?
    if next = byte 'l' then
      nextChar { p with format := p.format.tail,
                        spec := { p.spec with conv := convOfLength .ll } } parseConv
    else nextChar { p with spec := { p.spec with conv := convOfLength .l } } parseConv
  else if c = byte 'j' then
    nextChar { p with spec := { p.spec with conv := convOfLength .j } } parseConv
  else if c = byte 'z' then
    nextChar { p with spec := { p.spec with conv := convOfLength .z } } parseConv
  else if c = byte 't' then
    nextChar { p with spec := { p.spec with conv := convOfLength .t } } parseConv
  else if c = byte 'L' then
    nextChar { p with spec := { p.spec with conv := convOfLength .L } } parseConv
  else parseConv c p

/-- `strtol(format, &r, 10)`, `*format = r`, and the range check; `set` stores the number. -/
def parseNumber (p : ParseState) (set : VprintSpec → Int → VprintSpec)
    (stage : UInt8 → ParseState → Option ParseState) : Option ParseState := do
  let r ← strtol p.format 10 p.errno
  let format ← r.strEnd
  let p := { p with format := format, errno := r.errno }
  if r.value > intMax then some (p.fail erange)
  else nextChar { p with spec := set p.spec r.value } stage

def parsePrecision (c : UInt8) (p : ParseState) : Option ParseState :=
  if c = byte '.' then do
    let spec := { p.spec with precisionSet := true }
    let next ← p.format.head?
    if next = byte '*' then
      let (a, args) ← vaArg p.args
      let spec := { spec with precision := slotInt a }
      let spec := if spec.precision < 0 then { spec with precisionSet := false } else spec
      nextChar { p with format := p.format.tail, spec := spec, args := args } parseLength
    else if isdigit (charVal next) then
      parseNumber { p with spec := spec } (fun spec n => { spec with precision := n }) parseLength
    else nextChar { p with spec := { spec with precision := 0 } } parseLength
  else parseLength c p

def parseWidth (c : UInt8) (p : ParseState) : Option ParseState :=
  if c = byte '*' then do
    let (a, args) ← vaArg p.args
    let spec := { p.spec with width := slotInt a, widthSet := true }
    if spec.width < 0 then
      let width ← checkedInt (-spec.width)
      nextChar { p with spec := { spec with flagMinus := true, width := width }, args := args }
        parsePrecision
    else nextChar { p with spec := spec, args := args } parsePrecision
  else if byte '1' ≤ c ∧ c ≤ byte '9' then
    parseNumber { p with format := c :: p.format, spec := { p.spec with widthSet := true } }
      (fun spec n => { spec with width := n }) parsePrecision
  else parsePrecision c p

def setFlag (spec : VprintSpec) (c : UInt8) : Option VprintSpec :=
  if c = byte '-' then some { spec with flagMinus := true }
  else if c = byte '+' then some { spec with flagPlus := true }
  else if c = byte ' ' then some { spec with flagSpace := true }
  else if c = byte '0' then some { spec with flagZero := true }
  else if c = byte '#' then some { spec with flagNumber := true }
  else none

/-- Stage 0 stays in the loop as long as it reads flags. -/
def parseFlags (p : ParseState) : List UInt8 → Option ParseState
  | [] => none
  | c :: format =>
    if c = 0 then some ({ p with format := c :: format }.fail einval)
    else match setFlag p.spec c with
      | some spec => parseFlags { p with spec := spec } format
      | none => parseWidth c { p with format := format }

def vprintfParseSpec (p : ParseState) : Option ParseState := parseFlags p p.format

section Shared

variable {σ : Type} (write : WriteFn σ)

/-- The locals of `vprintf_shared`, besides what the directives change. -/
structure SharedState (σ : Type) where
  st : PrintState σ
  startLiteral : List UInt8
  format : List UInt8

/-- `write_fn(info, start_literal, format - start_literal)` when there is anything. -/
def flushLiteral (s : SharedState σ) : Option (Info σ) :=
  let size := s.startLiteral.length - s.format.length
  if size ≠ 0 then write s.st.info (s.startLiteral.take size) else some s.st.info

/-- What `vprintf_shared` does with the outcome of the parser. -/
def writeDirective (st : PrintState σ) (startLiteral : List UInt8) (p : ParseState) :
    Option (SharedState σ) :=
  let st := { st with info := { st.info with rc := p.rc, errno := p.errno }, args := p.args }
  if p.rc ≠ .ok then some ⟨st, startLiteral, p.format⟩
  else do
    let st ← vprintfWriteSpec write st p.spec
    if st.info.rc ≠ .ok then some ⟨st, startLiteral, p.format⟩
    else some ⟨st, p.format, p.format⟩

/-- The `%` case of the loop body. -/
def directiveStep (s : SharedState σ) : Option (SharedState σ) := do
  let info ← flushLiteral write s
  let st := { s.st with info := info }
  if info.rc ≠ .ok then some { s with st := st }
  else do
    let p ← vprintfParseSpec ⟨s.format.tail, zeroSpec, st.args, info.errno, info.rc⟩
    writeDirective write st s.startLiteral p

def sharedLoop : Nat → SharedState σ → Option (SharedState σ)
  | 0, _ => none
  | fuel + 1, s =>
    if s.st.info.rc = .ok then do
      let c ← s.format.head?
      if c = 0 then some s
      else if c = byte '%' then do
        let s ← directiveStep write s
        sharedLoop fuel s
      else sharedLoop fuel { s with format := s.format.tail }
    else some s

structure PrintResult (σ : Type) where
  ret : Int
  st : PrintState σ

def vprintfShared (st : PrintState σ) (format : List UInt8) : Option (PrintResult σ) := do
  let s ← sharedLoop write (format.length + 1) ⟨st, format, format⟩
  let info ← (if s.st.info.rc = .ok then flushLiteral write s else some s.st.info)
  let ret := if info.rc = .err then -1 else toSigned 32 info.written.toNat
  some ⟨ret, { s.st with info := info }⟩

end Shared

def vfprintf (kernel : Kernel) (format : List UInt8) (args : List (BitVec 64)) (mem : Mem)
    (errno : Int) : Option (PrintResult Fd) :=
  vprintfShared (writeFd kernel) ⟨⟨0, .ok, errno, ⟨[]⟩⟩, args, mem⟩ format

structure StringResult where
  ret : Int
  buffer : List UInt8
  args : List (BitVec 64)
  mem : Mem
  errno : Int

/-- `buffer` is the object behind the pointer, the empty one for NULL. -/
def vsnprintf (buffer : List UInt8) (bufSize : Nat) (format : List UInt8)
    (args : List (BitVec 64)) (mem : Mem) (errno : Int) : Option StringResult := do
  let sink : StrSink := ⟨buffer, 0, if bufSize = 0 then 0 else bufSize - 1⟩
  let r ← vprintfShared writeStr ⟨⟨0, .ok, errno, sink⟩, args, mem⟩ format
  let s := r.st.info.sink
  if bufSize > 0 then
    let i := toSize ((bufSize : Int) - s.bufSize - 1)
    if i < s.buffer.length then
      some ⟨r.ret, s.buffer.set i 0, r.st.args, r.st.mem, r.st.info.errno⟩
    else none
  else some ⟨r.ret, s.buffer, r.st.args, r.st.mem, r.st.info.errno⟩

def vsprintf (buffer : List UInt8) : List UInt8 → List (BitVec 64) → Mem → Int →
    Option StringResult :=
  vsnprintf buffer sizeMax

end PrintfShared
