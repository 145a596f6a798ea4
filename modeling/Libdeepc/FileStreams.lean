import Libdeepc.StringFunctions
import Mathlib.Data.Stream.Defs

/-!
# Reading and writing a FILE

The functions of `stdio.c` that do not format. What the kernel has to say to the reads
and writes on the descriptor is a sequence of answers, one for each system call, and a
call that makes no system call takes none of it. Nothing is buffered.
-/

namespace FileStreams

open ByteMemory StringFunctions

/-- `struct FILE` -/
structure File where
  fd : Int32
  eof : UInt32
  err : UInt32
  pos : UInt64
  ungetcBufSize : UInt32
  ungetcBuf : UInt8
  deriving DecidableEq

def EOF : Int := -1

/-- Two of the streams as the program finds them. -/
def stdinObj : File := ⟨0, 0, 0, 0, 0, 0⟩

def stdoutObj : File := ⟨1, 0, 0, 0, 0, 0⟩

def feof (stream : File) : Bool := stream.eof ≠ 0

def ferror (stream : File) : Bool := stream.err ≠ 0

section Kernel

/-- The answers to the reads from now on: an error, or what there is to read, nothing at the end. -/
abbrev Reads := Stream' (Option (List UInt8))

/-- The answers to the writes from now on: an error, or how many bytes could be taken. -/
abbrev Writes := Stream' (Option Nat)

/-- The largest `ssize_t`. -/
def ssizeMax : Nat := 2 ^ 63 - 1

/-- A system call moves no more bytes than it was asked to, and no more than it can report. -/
def atMost (n : UInt64) : Nat := min n.toNat ssizeMax

/-- The result of `read`, and the bytes it has put into the buffer. -/
def read (n : UInt64) : Option (List UInt8) → Int × List UInt8
  | none => (-1, [])
  | some bs => ((bs.take (atMost n)).length, bs.take (atMost n))

/-- The result of `write`. -/
def write (n : UInt64) : Option Nat → Int
  | none => -1
  | some k => (min k (atMost n) : Nat)

end Kernel

section Direct

/-- `s` is not positive. -/
def File.stopped (stream : File) (s : Int) : File :=
  if s = 0 then { stream with eof := 1 } else { stream with err := .ofInt (-s) }

structure ReadCall where
  ret : UInt64
  buffer : List UInt8
  stream : File
  reads : Reads

def fread (size count : UInt64) (stream : File) (reads : Reads) : ReadCall :=
  if stream.eof ≠ 0 ∨ stream.err ≠ 0 then ⟨.ofInt EOF, [], stream, reads⟩
  else if size = 0 ∨ count = 0 then ⟨0, [], stream, reads⟩
  else
    let (s, bs) := read (size * count) reads.head
    if s ≤ 0 then ⟨0, bs, stream.stopped s, reads.tail⟩
    else ⟨count, bs, stream, reads.tail⟩

/-- `accepted` counts the bytes that `write` has taken. -/
structure WriteCall where
  ret : UInt64
  accepted : Nat
  stream : File
  writes : Writes

def fwrite (size count : UInt64) (stream : File) (writes : Writes) : WriteCall :=
  if stream.eof ≠ 0 ∨ stream.err ≠ 0 then ⟨0, 0, stream, writes⟩
  else if size = 0 ∨ count = 0 then ⟨0, 0, stream, writes⟩
  else
    let s := write (size * count) writes.head
    if s ≤ 0 then ⟨0, s.toNat, stream.stopped s, writes.tail⟩
    else ⟨count, s.toNat, stream, writes.tail⟩

end Direct

section Characters

structure CharCall where
  ret : Int
  stream : File
  reads : Reads

def fgetc (stream : File) (reads : Reads) : CharCall :=
  let r := fread 1 1 stream reads
  if r.ret ≠ 1 then ⟨EOF, r.stream, r.reads⟩
  else ⟨(r.buffer.headD 0).toNat, r.stream, r.reads⟩

/-- `line` holds the characters read. -/
structure LineCall where
  ret : UInt64
  mem : Mem
  line : List UInt8
  stream : File
  reads : Reads

/-- The loop of `fgets`. It counts `count` down too, but never looks at it. -/
def fgetsLoop (str strEnd : UInt64) :
    Nat → Mem → UInt64 → List UInt8 → File → Reads → Option LineCall
  | 0, _, _, _, _, _ => none
  | fuel + 1, mem, i, line, stream, reads =>
    if i = strEnd then (put mem i 0).map fun mem => ⟨str, mem, line, stream, reads⟩
    else
      let c := fgetc stream reads
      if ferror c.stream then (put mem str 0).map fun mem => ⟨0, mem, line, c.stream, c.reads⟩
      else if c.ret = EOF then (put mem i 0).map fun mem => ⟨str, mem, line, c.stream, c.reads⟩
      else
        let b := c.ret.toNat.toUInt8
        (put mem i b).bind fun mem =>
          if b = 10 then
            (put mem (i + 1) 0).map fun mem => ⟨str, mem, line ++ [b], c.stream, c.reads⟩
          else fgetsLoop str strEnd fuel mem (i + 1) (line ++ [b]) c.stream c.reads

def fgets (mem : Mem) (str : UInt64) (count : Int32) (stream : File) (reads : Reads) :
    Option LineCall :=
  if count < 0 then some ⟨str, mem, [], stream, reads⟩
  else if ferror stream then (put mem str 0).map fun mem => ⟨0, mem, [], stream, reads⟩
  else if feof stream then (put mem str 0).map fun mem => ⟨str, mem, [], stream, reads⟩
  else fgetsLoop str (str + .ofInt count.toInt - 1) rounds mem str [] stream reads

structure PutCall where
  ret : Int
  accepted : Nat
  stream : File
  writes : Writes

def fputc (ch : Int32) (stream : File) (writes : Writes) : PutCall :=
  let c := ch.toUInt32.toUInt8
  let r := fwrite 1 1 stream writes
  if r.ret ≠ 1 then ⟨EOF, r.accepted, r.stream, r.writes⟩
  else ⟨c.toNat, r.accepted, r.stream, r.writes⟩

def fputs (mem : Mem) (s : UInt64) (stream : File) (writes : Writes) : Option PutCall :=
  (strlen mem s).map fun len =>
    let r := fwrite 1 len stream writes
    if r.ret.toInt64 < 0 ∨ r.ret < len then ⟨EOF, r.accepted, r.stream, r.writes⟩
    else
      -- Output newline.
      let c := fputc 10 r.stream r.writes
      if c.ret ≠ 10 then ⟨EOF, r.accepted + c.accepted, c.stream, c.writes⟩
      else ⟨(len + 1).toUInt32.toInt32.toInt, r.accepted + c.accepted, c.stream, c.writes⟩

def puts (mem : Mem) (s : UInt64) (stdout : File) (writes : Writes) : Option PutCall :=
  fputs mem s stdout writes

end Characters

end FileStreams
