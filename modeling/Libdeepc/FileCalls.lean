import Libdeepc.CString
import Libdeepc.FileStreams

/-!
# Opening and closing a FILE

`file.c`, with `open` of `fcntl.c` and `close` of `unistd.c`. What malloc and the kernel
answer is an argument of each call, and the calls made to them are on record. A mode is
the list of the bytes that can be read from its pointer on.
-/

namespace FileCalls

open CString FileStreams

section Modes

inductive AccessMode
  | none
  | write
  | read
  | append
  deriving DecidableEq

structure ParseMode where
  flagB : Bool
  flagE : Bool
  flagU : Bool
  flagX : Bool
  plusFlag : Bool
  access : AccessMode
  deriving DecidableEq

/-- One character of the mode; `none` is `return false`. -/
def parseModeChar (autoUFlag : Bool) (info : ParseMode) (c : UInt8) : Option ParseMode :=
  if c = byte '+' then
    if info.plusFlag then none else some { info with plusFlag := true }
  else if c = byte 'b' then
    if info.flagB then none else some { info with flagB := true }
  else if c = byte 'e' then
    if info.flagE then none else some { info with flagE := true }
  else if c = byte 'u' then
    if info.flagU ∨ info.access = .read then none else some { info with flagU := true }
  else if c = byte 'x' then
    if info.flagX ∨ info.access ≠ .write then none else some { info with flagX := true }
  else if info.access ≠ .none then none
  else if c = byte 'r' then
    -- no "ru", unless the flag was injected
    if !autoUFlag && info.flagU then none else some { info with access := .read }
  else if c = byte 'w' then some { info with access := .write }
  else if c = byte 'a' then some { info with access := .append }
  else some info

/-- The loop of `parse_mode` and what comes behind it. `some none` is `return false`. -/
def parseModeLoop (autoUFlag : Bool) : ParseMode → List UInt8 → Option (Option ParseMode)
  | _, [] => none
  | info, c :: mode =>
    if c = 0 then some (if info.access = .none then none else some info)
    else match parseModeChar autoUFlag info c with
      | none => some none
      | some info => parseModeLoop autoUFlag info mode

def parseModeStart (autoUFlag : Bool) : ParseMode where
  flagB := false
  flagE := false
  flagU := autoUFlag
  flagX := false
  plusFlag := false
  access := .none

def parseMode (autoUFlag : Bool) (mode : List UInt8) : Option (Option ParseMode) :=
  parseModeLoop autoUFlag (parseModeStart autoUFlag) mode

def O_RDONLY : UInt32 := 0o0

def O_WRONLY : UInt32 := 0o1

def O_RDWR : UInt32 := 0o2

def O_CREAT : UInt32 := 0o100

def O_EXCL : UInt32 := 0o200

def O_TRUNC : UInt32 := 0o1000

def O_APPEND : UInt32 := 0o2000

def O_DIRECTORY : UInt32 := 0o200000

def O_CLOEXEC : UInt32 := 0o2000000

def O_TMPFILE : UInt32 := 0o20000000 ||| O_DIRECTORY

def S_IWOTH : UInt32 := 0o2

def S_IROTH : UInt32 := 0o4

def S_IWGRP : UInt32 := 0o20

def S_IRGRP : UInt32 := 0o40

def S_IWUSR : UInt32 := 0o200

def S_IRUSR : UInt32 := 0o400

def modeToFlags (info : ParseMode) : UInt32 :=
  (if info.flagE then O_CLOEXEC else 0) |||
  (if info.flagX then O_EXCL else 0) |||
  (if info.plusFlag then O_RDWR else if info.access = .read then O_RDONLY else O_WRONLY) |||
  (if info.access ≠ .read then O_CREAT ||| (if info.access = .append then O_APPEND else O_TRUNC)
    else 0)

def modeToModeT (info : ParseMode) : UInt32 :=
  let mode := S_IWUSR ||| S_IRUSR
  if info.flagU then mode ||| (S_IWOTH ||| S_IROTH ||| S_IWGRP ||| S_IRGRP) else mode

end Modes

section Calls

def ENOMEM : Int32 := 12

def EINVAL : Int32 := 22

/-- `sizeof(FILE)` -/
def sizeofFILE : UInt64 := 32

/-- What is asked of malloc and of the kernel, and the answer. -/
inductive Event
  | malloc (size ret : UInt64)
  | free (ptr : UInt64)
  | opened (pathname : UInt64) (flags mode : UInt32) (ret : Int32)
  | closed (fd ret : Int32)
  deriving DecidableEq

/-- The FILEs that are allocated, and the calls on record. -/
structure World where
  errno : Int32
  streams : UInt64 → Option File
  events : List Event

/-- What the kernel answers: an error number, or a result. -/
abbrev Answer := Except Int32 Int32

/-- `syscall_chk_err` -/
def checkErr (answer : Answer) (w : World) : Int32 × World :=
  match answer with
  | .error e => (-1, { w with errno := e })
  | .ok ret => (ret, w)

def World.record (w : World) (e : Event) : World := { w with events := w.events ++ [e] }

def malloc (size block : UInt64) (w : World) : UInt64 × World :=
  (block, w.record (.malloc size block))

def free (ptr : UInt64) (w : World) : World :=
  { w with streams := Function.update w.streams ptr none }.record (.free ptr)

/-- `open` of `fcntl.c`; its last argument is only looked at when a file may be created. -/
def openFile (pathname : UInt64) (flags mode : UInt32) (answer : Answer) (w : World) :
    Int32 × World :=
  let mode := if flags &&& (O_CREAT ||| O_TMPFILE) ≠ 0 then mode else 0
  let (ret, w) := checkErr answer w
  (ret, w.record (.opened pathname flags mode ret))

def close (fd : Int32) (answer : Answer) (w : World) : Int32 × World :=
  let (ret, w) := checkErr answer w
  (ret, w.record (.closed fd ret))

/-- `*f = file` -/
def World.store (w : World) (f : UInt64) (file : File) : World :=
  { w with streams := Function.update w.streams f (some file) }

def fopen (filename : UInt64) (mode : List UInt8) (block : UInt64) (answer : Answer) (w : World) :
    Option (UInt64 × World) :=
  (parseMode true mode).map fun
    | none => (0, { w with errno := EINVAL })
    | some info =>
      -- the structure comes first because `open` might create or truncate a file
      let (f, w) := malloc sizeofFILE block w
      if f = 0 then (0, { w with errno := ENOMEM })
      else
        let w := w.store f ⟨-1, 0, 0, 0, 0, 0⟩
        let flags := modeToFlags info
        let modeArg := modeToModeT info
        let (fd, w) := openFile filename flags modeArg answer w
        let w := w.store f ⟨fd, 0, 0, 0, 0, 0⟩
        if fd = -1 then (0, free f w) else (f, w)

/-- Nothing, until there are buffers. -/
def fflush (_stream : UInt64) (w : World) : Int × World := (0, w)

def fclose (stream : UInt64) (answer : Answer) (w : World) : Option (Int × World) :=
  let (flushed, w) := fflush stream w
  if flushed = EOF then some (EOF, w)
  else (w.streams stream).map fun file =>
    let (ret, w) := close file.fd answer w
    let success : Bool := ret = -1
    let w := free stream w
    if !success then (EOF, w) else (0, w)

end Calls

end FileCalls
