import Libdeepc.BreakHeap
import Libdeepc.Linearization

/-!
# `malloc` under threads

`malloc` with `init_malloc` and the lock around `sbrk`, one access to what the
threads share at a time. Every thread has its own `errno`. Between their calls
the threads write to memory. Which thread goes on, and what the kernel does with
a break it is asked to move, is part of the run.
-/

namespace MallocThreads

open BreakHeap

inductive Place
  | user
  -- malloc
  | testSize (size : UInt64)
  -- init_malloc
  | readInit (size : UInt64)
  | testAndSetFlag (size : UInt64)
  | initMtx (size : UInt64)
  | storeInit (size : UInt64)
  | clearFlag (size : UInt64)
  -- mtx_lock, sbrk and mtx_unlock
  | lockMtx (size : UInt64)
  | readBreak (size : UInt64)
  | moveBreak (size curBreak : UInt64)
  | unlockMtx (size ret : UInt64)
  -- the rest of malloc
  | storeSize (size ret : UInt64)
  deriving DecidableEq

/-- Between `mtx_lock(&malloc_mtx)` and the matching `mtx_unlock`. -/
def Place.inside : Place → Bool
  | readBreak _ | moveBreak _ _ | unlockMtx _ _ => true
  | user | testSize _ | readInit _ | testAndSetFlag _ | initMtx _ | storeInit _ | clearFlag _
  | lockMtx _ | storeSize _ _ => false

/-- The global variables, the break and the memory. -/
structure Shared where
  mallocMtxFlag : Bool
  mallocMtxInit : Bool
  mallocMtx : Bool
  brk : UInt64
  mem : UInt64 → UInt8

structure Thread where
  place : Place
  errno : Int32

def Thread.at (th : Thread) (p : Place) : Thread := { th with place := p }

/-- The process as the system calls of one thread find it. -/
def Shared.proc (g : Shared) (th : Thread) : Process := ⟨g.brk, g.mem, th.errno⟩

/-- The pointer that `malloc` makes of the answer of `sbrk`. -/
def answer (ret : UInt64) : UInt64 := if ret = -1 then 0 else getData ret

/-- What `sbrk` is asked to add, for the header and the block. -/
def increment (size : UInt64) : Int64 := (size + metadataSize).toInt64

universe u
variable {T : Type u} [DecidableEq T]

/-- An operation is the size asked for, and the choice is the kernel's. -/
abbrev Event (T : Type u) := Linearization.Event T UInt64 Bool UInt64

/-- One atomic step of thread `t`. What the kernel does is `grant`. -/
def advance (t : T) (grant : Bool) (g : Shared) (th : Thread) :
    Option (Shared × Thread × List (Event T)) :=
  match th.place with
  | .user => none
  | .testSize size =>
    if size = 0 then some (g, th.at .user, [.point t size grant 0, .ret t 0])
    else some (g, th.at (.readInit size), [])
  | .readInit size =>
    some (g, th.at (if g.mallocMtxInit then .lockMtx size else .testAndSetFlag size), [])
  | .testAndSetFlag size =>
    some ({ g with mallocMtxFlag := true },
      th.at (if g.mallocMtxFlag then .testAndSetFlag size else .initMtx size), [])
  | .initMtx size => some ({ g with mallocMtx := false }, th.at (.storeInit size), [])
  | .storeInit size => some ({ g with mallocMtxInit := true }, th.at (.clearFlag size), [])
  | .clearFlag size => some ({ g with mallocMtxFlag := false }, th.at (.lockMtx size), [])
  | .lockMtx size =>
    some ({ g with mallocMtx := true },
      th.at (if g.mallocMtx then .lockMtx size else .readBreak size), [])
  | .readBreak size =>
    let (curBreak, p) := syscall1Brk 0 false (g.proc th)
    -- sbrk(0): the break is the answer
    if increment size = 0 then
      some (g, ⟨.unlockMtx size curBreak, p.errno⟩, [.point t size grant (answer curBreak)])
    else some (g, ⟨.moveBreak size curBreak, p.errno⟩, [])
  | .moveBreak size curBreak =>
    let nextBreak := curBreak + (increment size).toUInt64
    let (actualNextBreak, p) := syscall1Brk nextBreak grant (g.proc th)
    let g' := { g with brk := p.brk }
    if nextBreak ≠ actualNextBreak then
      some (g', ⟨.unlockMtx size (-1), ENOMEM⟩, [.point t size grant (answer (-1))])
    else some (g', ⟨.unlockMtx size curBreak, p.errno⟩, [.point t size grant (answer curBreak)])
  | .unlockMtx size ret => some ({ g with mallocMtx := false }, th.at (.storeSize size ret), [])
  | .storeSize size ret =>
    if ret = -1 then some (g, th.at .user, [.ret t 0])
    else some ({ g with mem := BreakHeap.storeSize g.mem ret size }, th.at .user,
      [.ret t (getData ret)])

/-- `trace` holds the starts of the calls, the points at which `sbrk` was through, and the
returns. -/
structure State (T : Type u) where
  shared : Shared
  threads : T → Thread
  trace : List (Event T)

inductive Act (T : Type u)
  | call (t : T) (size : UInt64)
  | write (t : T) (addr : UInt64) (b : UInt8)
  | go (t : T) (grant : Bool)

def Act.thread : Act T → T
  | call t _ | write t _ _ | go t _ => t

/-- Thread `t` has gone on. -/
def moved (s : State T) (t : T) (g : Shared) (th : Thread) (es : List (Event T)) : State T where
  shared := g
  threads := Function.update s.threads t th
  trace := s.trace ++ es

def step (s : State T) : Act T → Option (State T)
  | .call t size => match (s.threads t).place with
    | .user => some (moved s t s.shared ((s.threads t).at (.testSize size)) [.call t size])
    | _ => none
  | .write t addr b => match (s.threads t).place with
    | .user =>
      some { s with shared := { s.shared with mem := setByte s.shared.mem addr b } }
    | _ => none
  | .go t grant => (advance t grant s.shared (s.threads t)).map fun (g, th, es) => moved s t g th es

/-- Nobody has called `malloc` yet. -/
def initial (T : Type u) (brk : UInt64) (mem : UInt64 → UInt8) : State T where
  shared :=
    { mallocMtxFlag := false, mallocMtxInit := false, mallocMtx := false, brk := brk, mem := mem }
  threads _ := { place := .user, errno := 0 }
  trace := []

end MallocThreads
