import Mathlib.Logic.Function.Basic

/-!
# Threads and their objects

`thrd_create`, `thrd_exit`, `thrd_join` and `thrd_detach` of `threads.c`, one
atomic access to a thread object at a time. Every thread is at some place of the
code. An access to an object that has been freed is undefined, and so is what
comes after an assertion that does not hold.
-/

namespace ThreadCalls

/-- The fields of `struct __thrd_t_object` that two threads use. -/
structure Object where
  spin : Bool
  refs : Int8
  result : Int32

/-- `thrd_exit_with_thr` after the destructors, which `thrd_exit` and the return from the function
of a thread lead to. -/
inductive ExitPlace
  | lock (ret : Int32)
  | testRefs (ret : Int32)
  | assertRefs (ret : Int32)
  | storeResult (ret : Int32)
  | loadRefs
  | storeRefs (refs : Int8)
  | unlock
  | freeObject
  | sysExit
  | gone
  deriving DecidableEq

/-- How `thrd_join` or `thrd_detach` returns: `res` says whether the pointer `res` is not `NULL`,
and `value` is what has been stored through it. -/
inductive Ret
  | joined (res : Bool) (value : Option Int32)
  | detached
  deriving DecidableEq

/-- `thrd_join` and `thrd_detach`. Both end in `free_thrd_t(thr, true)`. -/
inductive ClaimPlace
  | lockJoin (res : Bool)
  | testJoin (res : Bool)
  | unlockJoin (res : Bool)
  | yieldJoin (res : Bool)
  | assertJoin (res : Bool)
  | readResult (res : Bool)
  | lockDetach
  | loadDetach
  | storeDetach (refs : Int8)
  | testDetach
  | assertDetach
  | unlockDetach
  | freeStack (r : Ret)
  | freeObject (r : Ret)
  deriving DecidableEq

/-- The thread itself, and the one that joins or detaches it. -/
inductive Party
  | exiter | claimer
  deriving DecidableEq

def Party.other : Party → Party
  | exiter => claimer
  | claimer => exiter

/-- What happens to a thread. A party drops its reference when it gives back the lock and leaves the
object to the other one. -/
inductive Event
  | exits (ret : Int32)
  | stored (ret : Int32)
  | dropped (p : Party)
  | freed (p : Party)
  | exited
  | stackFreed
  | returned (r : Ret)
  deriving DecidableEq

/-- The object after a step, the place where the thread is then, and what happened. -/
def advanceExit (object : Option Object) :
    ExitPlace → Option (Option Object × ExitPlace × List Event)
  | .lock ret => object.bind fun thr =>
    some (some { thr with spin := true }, if thr.spin then .lock ret else .testRefs ret, [])
  | .testRefs ret => object.bind fun thr =>
    some (some thr, if thr.refs = 1 then .freeObject else .assertRefs ret, [])
  | .assertRefs ret => object.bind fun thr =>
    if thr.refs = 2 then some (some thr, .storeResult ret, []) else none
  | .storeResult ret => object.bind fun thr =>
    some (some { thr with result := ret }, .loadRefs, [.stored ret])
  | .loadRefs => object.bind fun thr => some (some thr, .storeRefs thr.refs, [])
  | .storeRefs refs => object.bind fun thr =>
    some (some { thr with refs := refs - 1 }, .unlock, [])
  | .unlock => object.bind fun thr =>
    some (some { thr with spin := false }, .sysExit, [.dropped .exiter])
  | .freeObject => object.bind fun _ => some (none, .sysExit, [.freed .exiter])
  | .sysExit => some (object, .gone, [.exited])
  | .gone => none

/-- The same for the other party, which has no place in the code any more when it returns. -/
def advanceClaim (object : Option Object) :
    ClaimPlace → Option (Option Object × Option ClaimPlace × List Event)
  | .lockJoin res => object.bind fun thr =>
    some (some { thr with spin := true },
      some (if thr.spin then .lockJoin res else .testJoin res), [])
  | .testJoin res => object.bind fun thr =>
    some (some thr, some (if thr.refs = 2 then .unlockJoin res else .assertJoin res), [])
  | .unlockJoin res => object.bind fun thr =>
    some (some { thr with spin := false }, some (.yieldJoin res), [])
  | .yieldJoin res => some (object, some (.lockJoin res), [])
  | .assertJoin res => object.bind fun thr =>
    if thr.refs = 1 then some (some thr, some (.readResult res), []) else none
  | .readResult res => object.bind fun thr =>
    let value := if res then some thr.result else none
    some (some thr, some (.freeStack (.joined res value)), [])
  | .lockDetach => object.bind fun thr =>
    some (some { thr with spin := true }, some (if thr.spin then .lockDetach else .loadDetach), [])
  | .loadDetach => object.bind fun thr => some (some thr, some (.storeDetach thr.refs), [])
  | .storeDetach refs => object.bind fun thr =>
    some (some { thr with refs := refs - 1 }, some .testDetach, [])
  | .testDetach => object.bind fun thr =>
    some (some thr, some (if thr.refs = 0 then .freeStack .detached else .assertDetach), [])
  | .assertDetach => object.bind fun thr =>
    if thr.refs = 1 then some (some thr, some .unlockDetach, []) else none
  | .unlockDetach => object.bind fun thr =>
    some (some { thr with spin := false }, none, [.dropped .claimer, .returned .detached])
  | .freeStack r => object.bind fun thr => some (some thr, some (.freeObject r), [.stackFreed])
  | .freeObject r => object.bind fun _ => some (none, none, [.freed .claimer, .returned r])

universe u
variable {T : Type u} [DecidableEq T]

/-- A thread runs the program's own code, or it is in one of the calls. -/
inductive Place (T : Type u)
  | absent
  | user
  | exit (e : ExitPlace)
  | claim (thr : T) (c : ClaimPlace)
  deriving DecidableEq

/-- `claimer` says which thread has called `thrd_join` or `thrd_detach` on a thread. -/
structure State (T : Type u) where
  place : T → Place T
  object : T → Option Object
  claimer : T → Option T
  history : T → List Event

inductive Act (T : Type u)
  | create (t u : T) (garbage : Int32)
  | exit (t : T) (ret : Int32)
  | join (t u : T) (res : Bool)
  | detach (t u : T)
  | go (t : T)

/-- Thread `t` has gone on, and the object of `u` has changed. -/
def touch (s : State T) (t u : T) (place : Place T) (object : Option Object)
    (events : List Event) : State T where
  place := Function.update s.place t place
  object := Function.update s.object u object
  claimer := s.claimer
  history := Function.update s.history u (s.history u ++ events)

section Touch

variable {s : State T} {t u : T} {place : Place T} {object : Option Object} {events : List Event}

@[simp] theorem touch_place : (touch s t u place object events).place t = place :=
  Function.update_self ..

@[simp] theorem touch_object : (touch s t u place object events).object u = object :=
  Function.update_self ..

@[simp] theorem touch_history :
    (touch s t u place object events).history u = s.history u ++ events :=
  Function.update_self ..

end Touch

/-- A call on the object of `u`. -/
def startClaim (s : State T) (t u : T) (c : ClaimPlace) : Option (State T) :=
  if s.place t = .user then some { s with
    place := Function.update s.place t (.claim u c)
    claimer := Function.update s.claimer u (some t) }
  else none

/-- `thrd_create` writes the object before any other thread can see it. The memory for `result` is
not initialised. -/
def step (s : State T) : Act T → Option (State T)
  | .create t u garbage =>
    if s.place t = .user ∧ s.place u = .absent then
      some (touch s u u .user (some { spin := false, refs := 2, result := garbage }) [])
    else none
  | .exit t ret =>
    if s.place t = .user then some (touch s t t (.exit (.lock ret)) (s.object t) [.exits ret])
    else none
  | .join t u res => startClaim s t u (.lockJoin res)
  | .detach t u => startClaim s t u .lockDetach
  | .go t => match s.place t with
    | .absent | .user => none
    | .exit e => (advanceExit (s.object t) e).map fun (object, e', events) =>
      touch s t t (.exit e') object events
    | .claim u c => (advanceClaim (s.object u) c).map fun (object, c', events) =>
      touch s t u (c'.elim .user fun c' => .claim u c') object events

/-- One thread runs, with an object of its own. -/
def initial (main : T) : State T where
  place := Function.update (fun _ => .absent) main .user
  object := Function.update (fun _ => none) main (some { spin := false, refs := 2, result := 0 })
  claimer _ := none
  history _ := []

end ThreadCalls
