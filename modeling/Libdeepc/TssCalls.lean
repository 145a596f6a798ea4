import Mathlib.Tactic.Ring

/-!
# Thread-specific storage

The calls of `tls.c`, one atomic access to the shared variables at a time. Every
thread is at some place of the code. A destructor may make calls of its own:
the loop of `__run_tss_destructors` that called it is suspended meanwhile.
-/

namespace TssCalls

/-- What `tss_mtx` is locked for. -/
inductive Section
  | create (dtor : UInt64)
  | destructors (i : UInt64)
  | set (key val : UInt64)
  | delete (key : UInt64)

/-- Where a thread goes on after it has unlocked `tss_mtx`. -/
inductive Resume
  | done
  | callDtor (i : UInt64)
  | growData (key val newCapacity : UInt64)

inductive Place
  | user
  -- init_tss_mtx_flag
  | readInit (c : Section)
  | testAndSetFlag (c : Section)
  | initMtx (c : Section)
  | storeInit (c : Section)
  | clearFlag (c : Section)
  -- mtx_lock and mtx_unlock
  | lockMtx (c : Section)
  | unlockMtx (r : Resume)
  -- tss_create
  | testCapacity (dtor : UInt64)
  | allocMeta (dtor newCapacity : UInt64)
  | storeMeta (dtor newCapacity : UInt64) (newMeta : UInt64 → UInt64)
  | storeCapacity (dtor newCapacity : UInt64)
  | takeKey (dtor : UInt64)
  | loadNext (dtor key : UInt64)
  | storeNext (dtor key next : UInt64)
  | storeDtor (dtor key : UInt64)
  -- __run_tss_destructors
  | scan (i : UInt64)
  -- tss_set
  | testData (key val : UInt64)
  | readCapacity (key val : UInt64)
  | growData (key val newCapacity : UInt64)
  -- tss_delete
  | clearDtor (key : UInt64)

def Section.enter : Section → Place
  | create dtor => .testCapacity dtor
  | destructors i => .scan i
  | set key val => .readCapacity key val
  | delete key => .clearDtor key

/-- Between `mtx_lock(&tss_mtx)` and the matching `mtx_unlock`. -/
def Place.inside : Place → Bool
  | unlockMtx _ | testCapacity _ | allocMeta _ _ | storeMeta _ _ _ | storeCapacity _ _
  | takeKey _ | loadNext _ _ | storeNext _ _ _ | storeDtor _ _ | scan _ | readCapacity _ _
  | clearDtor _ => true
  | user | readInit _ | testAndSetFlag _ | initMtx _ | storeInit _ | clearFlag _ | lockMtx _
  | testData _ _ | growData _ _ _ => false

/-- The global variables. `tss_meta` is given by its `dtor` fields. -/
structure Shared where
  tssMtxFlag : Bool
  tssMtxInit : Bool
  tssMtx : Bool
  tssMeta : UInt64 → UInt64
  tssMetaCapacity : UInt64
  tssNext : UInt64

/-- `suspended` holds the index of each destructor that is running, the last one first. -/
structure Thread where
  place : Place
  suspended : List UInt64
  tssData : UInt64 → UInt64
  tssDataCapacity : UInt64

def Thread.at (th : Thread) (p : Place) : Thread := { th with place := p }

/-- What `malloc` or `calloc` answers: `NULL`, or memory with something in it. -/
abbrev Alloc := Option (UInt64 → UInt64)

def resume (th : Thread) : Resume → Thread
  | .done => th.at .user
  | .callDtor i => { th with place := .user, suspended := i :: th.suspended }
  | .growData key val newCapacity => th.at (.growData key val newCapacity)

/-- One atomic step of a thread, with the key it stores through `tss_key`, if it does. -/
def advance (alloc : Alloc) (g : Shared) (th : Thread) :
    Option (Shared × Thread × Option UInt64) :=
  match th.place with
  | .user => match th.suspended with
    | [] => none
    | i :: rest =>
      some (g, { th with place := .lockMtx (.destructors (i + 1)), suspended := rest }, none)
  | .readInit c =>
    some (g, th.at (if g.tssMtxInit then .lockMtx c else .testAndSetFlag c), none)
  | .testAndSetFlag c =>
    some ({ g with tssMtxFlag := true },
      th.at (if g.tssMtxFlag then .testAndSetFlag c else .initMtx c), none)
  | .initMtx c => some ({ g with tssMtx := false }, th.at (.storeInit c), none)
  | .storeInit c => some ({ g with tssMtxInit := true }, th.at (.clearFlag c), none)
  | .clearFlag c => some ({ g with tssMtxFlag := false }, th.at (.lockMtx c), none)
  | .lockMtx c =>
    some ({ g with tssMtx := true }, th.at (if g.tssMtx then .lockMtx c else c.enter), none)
  | .unlockMtx r => some ({ g with tssMtx := false }, resume th r, none)
  | .testCapacity dtor =>
    if g.tssMetaCapacity ≤ g.tssNext then
      let newCapacity := if g.tssMetaCapacity = 0 then 8 else g.tssMetaCapacity * 2
      some (g, th.at (.allocMeta dtor newCapacity), none)
    else some (g, th.at (.takeKey dtor), none)
  | .allocMeta dtor newCapacity =>
    -- malloc(0) is NULL
    match if newCapacity * 8 = 0 then none else alloc with
    | none => some (g, th.at (.unlockMtx .done), none)
    | some fresh =>
      let newMeta := fun i => if i < g.tssMetaCapacity then g.tssMeta i else fresh i
      some (g, th.at (.storeMeta dtor newCapacity newMeta), none)
  | .storeMeta dtor newCapacity newMeta =>
    some ({ g with tssMeta := newMeta }, th.at (.storeCapacity dtor newCapacity), none)
  | .storeCapacity dtor newCapacity =>
    some ({ g with tssMetaCapacity := newCapacity }, th.at (.takeKey dtor), none)
  | .takeKey dtor => some (g, th.at (.loadNext dtor g.tssNext), some g.tssNext)
  | .loadNext dtor key => some (g, th.at (.storeNext dtor key g.tssNext), none)
  | .storeNext dtor key next =>
    some ({ g with tssNext := next + 1 }, th.at (.storeDtor dtor key), none)
  | .storeDtor dtor key =>
    some ({ g with tssMeta := Function.update g.tssMeta key dtor }, th.at (.unlockMtx .done), none)
  | .scan i =>
    if i < th.tssDataCapacity then
      if g.tssMeta i ≠ 0 ∧ th.tssData i ≠ 0 then some (g, th.at (.unlockMtx (.callDtor i)), none)
      else some (g, th.at (.scan (i + 1)), none)
    else some (g, th.at (.unlockMtx .done), none)
  | .testData key val =>
    if th.tssDataCapacity ≤ key then some (g, th.at (.lockMtx (.set key val)), none)
    else some (g, { th with place := .user, tssData := Function.update th.tssData key val }, none)
  | .readCapacity key val =>
    some (g, th.at (.unlockMtx (.growData key val g.tssMetaCapacity)), none)
  | .growData key val newCapacity =>
    -- the assertion aborts the program
    if newCapacity ≤ key then none
    else match if newCapacity * 8 = 0 then none else alloc with
      | none => some (g, th.at .user, none)
      | some fresh =>
        let newData := fun i => if i < th.tssDataCapacity then th.tssData i else fresh i
        some (g, { th with
          place := .user
          tssData := Function.update newData key val
          tssDataCapacity := newCapacity }, none)
  | .clearDtor key =>
    some ({ g with tssMeta := Function.update g.tssMeta key 0 }, th.at (.unlockMtx .done), none)

inductive Op
  | tssCreate (dtor : UInt64)
  | runTssDestructors
  | tssSet (key val : UInt64)
  | tssDelete (key : UInt64)

def Op.start : Op → Place
  | tssCreate dtor => .readInit (.create dtor)
  | runTssDestructors => .readInit (.destructors 0)
  | tssSet key val => .testData key val
  | tssDelete key => .lockMtx (.delete key)

universe u
variable {T : Type u} [DecidableEq T]

/-- `handed` holds every key stored through `tss_key` so far. -/
structure State (T : Type u) where
  shared : Shared
  threads : T → Thread
  handed : List (T × UInt64)

/-- A thread that runs the program's own code makes a call, or a thread goes on by one step. -/
inductive Act (T : Type u)
  | call (t : T) (op : Op)
  | go (t : T) (alloc : Alloc)

def step (s : State T) : Act T → Option (State T)
  | .call t op => match (s.threads t).place with
    | .user => some { s with threads := Function.update s.threads t ((s.threads t).at op.start) }
    | _ => none
  | .go t alloc => (advance alloc s.shared (s.threads t)).map fun (g, th, key) =>
    { shared := g
      threads := Function.update s.threads t th
      handed := (key.map fun k => (t, k)).toList ++ s.handed }

/-- No thread has used thread-specific storage yet. -/
def initial (T : Type u) : State T where
  shared :=
    { tssMtxFlag := false, tssMtxInit := false, tssMtx := false
      tssMeta := fun _ => 0, tssMetaCapacity := 0, tssNext := 0 }
  threads _ := { place := .user, suspended := [], tssData := fun _ => 0, tssDataCapacity := 0 }
  handed := []

end TssCalls
