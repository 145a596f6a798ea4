import Libdeepc.LockDiscipline
import Libdeepc.PrintfSink
import Libdeepc.Runs

/-!
# The lock around the output

`vprintf_shared` with its flag `f`: what one call does is a sequence of atomic
operations, and threads that print take them in turn.
-/

namespace OutputLock

open LockDiscipline Runs MachineInt Memory PrintfWrite PrintfShared PrintfSink

section Call

/-- An atomic operation. `takeFlag` is the loop around `atomic_flag_test_and_set`. -/
inductive Op
  | takeFlag
  | write (buf : List UInt8)
  | clearFlag
  deriving DecidableEq

/-- The sink of a call, as the operations made so far. -/
structure Ops where
  ops : List Op

def Ops.push (s : Ops) (op : Op) : Ops := ⟨s.ops ++ [op]⟩

/-- The buffers handed to write(2). -/
def Ops.writes (s : Ops) : List (List UInt8) := s.ops.filterMap fun
  | .write buf => some buf
  | .takeFlag | .clearFlag => none

/-- `write_fd` -/
def writeOps (kernel : Kernel) : WriteFn Ops := fun info buf =>
  if buf.length = 0 then some info
  else
    let sink := info.sink.push (.write buf)
    match kernel info.sink.writes buf with
    | .error e => some { info with rc := .err, errno := e, sink := sink }
    | .ok written =>
      let info := { info with written := info.written + UInt64.ofNat written, sink := sink }
      if written < buf.length then some { info with rc := .ended } else some info

def push (info : Info Ops) (op : Op) : Info Ops := { info with sink := info.sink.push op }

/-- All of `vprintf_shared`, with each of its returns. -/
def lockedShared (write : WriteFn Ops) (st : PrintState Ops) (format : List UInt8) :
    Option (PrintResult Ops) := do
  let st := { st with info := push st.info .takeFlag }
  let s ← sharedLoop write (format.length + 1) ⟨st, format, format⟩
  let info ← (if s.st.info.rc = .ok then flushLiteral write s else some s.st.info)
  match info.rc with
  | .err => some ⟨-1, { s.st with info := push info .clearFlag }⟩
  | .ended | .ok =>
    let info := push info .clearFlag
    some ⟨toSigned 32 info.written.toNat, { s.st with info := info }⟩

/-- A descriptor, as the operations of the call that writes to it. -/
def begun (fd : Fd) : Option Ops := some ⟨.takeFlag :: fd.calls.map .write⟩

/-- From the first operation to the last one. -/
def callShape (bufs : List (List UInt8)) : List Op :=
  .takeFlag :: bufs.map .write ++ [.clearFlag]

theorem transfers_ops (kernel : Kernel) : Transfers begun (writeFd kernel) (writeOps kernel) := by
  intro buf i
  by_cases h : buf.length = 0
  · simp [writeFd, writeOps, mapInfo, h, begun]
  · have hwrites : ∀ calls : List (List UInt8),
        Ops.writes ⟨.takeFlag :: calls.map Op.write⟩ = calls := by
      intro calls
      simp [Ops.writes, List.filterMap_map]
    cases hk : kernel i.sink.calls buf with
    | error e => simp [writeFd, writeOps, mapInfo, h, begun, hwrites, hk, Ops.push]
    | ok written =>
      by_cases hshort : written < buf.length
      · simp [writeFd, writeOps, mapInfo, h, begun, hwrites, hk, Ops.push, hshort]
      · simp [writeFd, writeOps, mapInfo, h, begun, hwrites, hk, Ops.push, hshort]

/-- Each return of the driver gives the lock back. -/
theorem lockedShared_end (write : WriteFn Ops) (st : PrintState Ops) (format : List UInt8) :
    lockedShared write st format =
      (vprintfShared write { st with info := push st.info .takeFlag } format).map fun r =>
        ⟨r.ret, { r.st with info := push r.st.info .clearFlag }⟩ := by
  simp only [lockedShared, vprintfShared, Option.bind_eq_bind, Option.map_bind,
    Function.comp_def, Option.map_some]
  refine Option.bind_congr fun s _ => Option.bind_congr fun info _ => ?_
  cases hrc : info.rc with
  | err => simp
  | ended => simp [push]
  | ok => simp [push]

/-- The lock is taken and given back once, on every path through the driver. -/
theorem lockedShared_eq (kernel : Kernel) (format : List UInt8) (args : List (BitVec 64))
    (mem : Mem) (errno : Int) :
    lockedShared (writeOps kernel) ⟨⟨0, .ok, errno, ⟨[]⟩⟩, args, mem⟩ format =
      (vfprintf kernel format args mem errno).map fun r =>
        ⟨r.ret, ⟨⟨r.st.info.written, r.st.info.rc, r.st.info.errno,
          ⟨callShape r.st.info.sink.calls⟩⟩, r.st.args, r.st.mem⟩⟩ := by
  have hcomm := vprintfShared_comm (transfers_ops kernel) format args mem ⟨0, .ok, errno, ⟨[]⟩⟩
  have hstart : mapInfo begun (⟨0, .ok, errno, ⟨[]⟩⟩ : Info Fd) =
      some (push ⟨0, .ok, errno, ⟨[]⟩⟩ .takeFlag) := rfl
  rw [hstart, Option.bind_some] at hcomm
  rw [lockedShared_end, ← hcomm, vfprintf, Option.map_bind, Option.map_eq_bind]
  exact Option.bind_congr fun r _ => rfl

/-- A call of `printf`, `fprintf`, `vprintf` or `vfprintf`, which all end in `vfprintf`. `kernel` is
what its writes come to, and `mem` the memory as it reads it. -/
structure Printing where
  kernel : Kernel
  format : List UInt8
  args : List (BitVec 64)
  mem : Mem
  errno : Int

/-- What the call does, unless it is undefined. -/
def Printing.ops (c : Printing) : Option (List Op) :=
  (lockedShared (writeOps c.kernel) ⟨⟨0, .ok, c.errno, ⟨[]⟩⟩, c.args, c.mem⟩ c.format).map
    fun r => r.st.info.sink.ops

theorem Printing.ops_shape {c : Printing} {ops : List Op} (h : c.ops = some ops) :
    ∃ bufs, ops = callShape bufs := by
  rw [Printing.ops, lockedShared_eq, Option.map_map] at h
  obtain ⟨r, -, rfl⟩ := Option.map_eq_some_iff.mp h
  exact ⟨r.st.info.sink.calls, rfl⟩

end Call

section Shape

variable {pre rest : List Op} {op : Op} {bufs : List (List UInt8)}

/-- The lock has been taken and not given back yet. -/
def insideOps : List Op → Bool
  | .write _ :: _ | .clearFlag :: _ => true
  | .takeFlag :: _ | [] => false

theorem insideOps_tail (bufs : List (List UInt8)) :
    insideOps (bufs.map .write ++ [.clearFlag]) = true := by
  cases bufs <;> rfl

theorem tail_cases (h : pre ++ op :: rest = bufs.map .write ++ [.clearFlag]) :
    (∃ buf, op = .write buf ∧ insideOps rest = true) ∨ (op = .clearFlag ∧ rest = []) := by
  induction bufs generalizing pre with
  | nil =>
    cases pre with
    | nil =>
      obtain ⟨rfl, rfl⟩ := List.cons.inj h
      exact .inr ⟨rfl, rfl⟩
    | cons p pre => simp at h
  | cons buf bufs ih =>
    cases pre with
    | nil =>
      obtain ⟨rfl, rfl⟩ := List.cons.inj h
      exact .inl ⟨buf, rfl, insideOps_tail bufs⟩
    | cons p pre => exact ih (List.cons.inj h).2

/-- What a call has done says where it is. -/
theorem shape_cases (h : pre ++ op :: rest = callShape bufs) :
    (op = .takeFlag ∧ pre = [] ∧ insideOps rest = true) ∨
      (∃ buf, op = .write buf ∧ insideOps rest = true) ∨ (op = .clearFlag ∧ rest = []) := by
  cases pre with
  | nil =>
    obtain ⟨rfl, rfl⟩ := List.cons.inj h
    exact .inl ⟨rfl, rfl, insideOps_tail bufs⟩
  | cons p pre => exact .inr (tail_cases (List.cons.inj h).2)

end Shape

universe u
variable {T : Type u} [DecidableEq T]

section Threads

/-- The calls of a thread are numbered. `pending` is what is left of the call that it is in. -/
structure State (T : Type u) where
  flag : Bool
  pending : T → Option (List Op)
  count : T → Nat
  log : List ((T × Nat) × Op)

inductive Act (T : Type u)
  | call (t : T) (c : Printing)
  | go (t : T)

/-- Thread `t` has made its next operation. -/
def State.made (s : State T) (t : T) (op : Op) (rest : List Op) (flag : Bool) : State T where
  flag := flag
  pending := Function.update s.pending t (some rest)
  count := s.count
  log := s.log ++ [((t, s.count t), op)]

def step (s : State T) : Act T → Option (State T)
  | .call t c => match s.pending t with
    | some _ => none
    | none => c.ops.map fun ops => { s with
      pending := Function.update s.pending t (some ops)
      count := Function.update s.count t (s.count t + 1) }
  | .go t => match s.pending t with
    | none => none
    | some [] => some { s with pending := Function.update s.pending t none }
    | some (.takeFlag :: rest) =>
      -- the flag is set before the thread knows whether it was
      if s.flag then some { s with flag := true } else some (s.made t .takeFlag rest true)
    | some (.write buf :: rest) => some (s.made t (.write buf) rest s.flag)
    | some (.clearFlag :: rest) => some (s.made t .clearFlag rest false)

def initial (T : Type u) : State T where
  flag := false
  pending _ := none
  count _ := 0
  log := []

/-- A thread begins a call that is defined, or goes on with one. -/
def Allowed (s : State T) : Act T → Prop
  | .call t c => s.pending t = none ∧ c.ops.isSome = true
  | .go t => s.pending t ≠ none

def opsOf (id : T × Nat) (log : List ((T × Nat) × Op)) : List Op :=
  (log.filter fun e => e.1 = id).map Prod.snd

def Op.isWrite : Op → Bool
  | .write _ => true
  | .takeFlag | .clearFlag => false

/-- The calls that the writes belong to, in the order of the writes. -/
def writers (log : List ((T × Nat) × Op)) : List (T × Nat) :=
  (log.filter fun e => e.2.isWrite).map Prod.fst

/-- The call has begun and returned. -/
def Over (s : State T) (t : T) (n : Nat) : Prop :=
  0 < n ∧ (n < s.count t ∨ n = s.count t ∧ s.pending t = none)

structure Atomic (s : State T) : Prop where
  contiguous : Contiguous (writers s.log)
  free : (∀ t, s.pending t = none) → s.flag = false
  once : ∀ t n, Over s t n → ∃ bufs, opsOf (t, n) s.log = callShape bufs

end Threads

section Log

variable {log : List ((T × Nat) × Op)} {id id' : T × Nat} {op : Op}

theorem opsOf_self (log : List ((T × Nat) × Op)) (id : T × Nat) (op : Op) :
    opsOf id (log ++ [(id, op)]) = opsOf id log ++ [op] := by
  simp [opsOf]

theorem opsOf_other (h : id' ≠ id) : opsOf id (log ++ [(id', op)]) = opsOf id log := by
  simp [opsOf, h]

omit [DecidableEq T] in
theorem writers_append (log : List ((T × Nat) × Op)) (id : T × Nat) (op : Op) :
    writers (log ++ [(id, op)]) = writers log ++ if op.isWrite then [id] else [] := by
  cases hop : op.isWrite <;> simp [writers, hop]

theorem opsOf_ne_nil_of_mem (h : id ∈ writers log) : opsOf id log ≠ [] := by
  obtain ⟨e, he, rfl⟩ := List.mem_map.mp h
  have hmem : e ∈ log.filter fun d => d.1 = e.1 :=
    List.mem_filter.mpr ⟨(List.mem_filter.mp he).1, decide_eq_true rfl⟩
  exact List.ne_nil_of_mem (List.mem_map_of_mem hmem)

end Log

section Invariant

def view (s : State T) : View T where
  locked := s.flag
  inside t := (s.pending t).any insideOps

structure Inv (s : State T) : Prop where
  guarded : Guarded (view s)
  held : s.flag = true → ∃ t, (view s).inside t = true
  begun : ∀ t ops, s.pending t = some ops →
    0 < s.count t ∧ ∃ bufs, opsOf (t, s.count t) s.log ++ ops = callShape bufs
  once : ∀ t n, Over s t n → ∃ bufs, opsOf (t, n) s.log = callShape bufs
  fresh : ∀ t n, s.count t < n → opsOf (t, n) s.log = []
  contiguous : Contiguous (writers s.log)
  last : ∀ t, (view s).inside t = true →
    (t, s.count t) ∉ writers s.log ∨ (writers s.log).getLast? = some (t, s.count t)

variable {s s' : State T} {t u : T} {op : Op} {rest pre : List Op} {bufs : List (List UInt8)}
  {flag : Bool} {n : Nat} {a : Act T}

def flagAfter (flag : Bool) : Op → Bool
  | .takeFlag => true
  | .write _ => flag
  | .clearFlag => false

theorem turn_made (hshape : pre ++ op :: rest = callShape bufs)
    (hfree : op = .takeFlag → flag = false) : ∃ k, k ≠ .reset ∧
      Turn flag (insideOps (op :: rest)) (flagAfter flag op) (insideOps rest) k ∧
      (flagAfter flag op = true → insideOps rest = true) := by
  rcases shape_cases hshape with ⟨rfl, -, hin⟩ | ⟨buf, rfl, hin⟩ | ⟨rfl, rfl⟩
  · exact ⟨.acquire, nofun, .acquire (hfree rfl) rfl, fun _ => hin⟩
  · exact ⟨.stay, nofun, .stay rfl hin, fun _ => hin⟩
  · exact ⟨.release, nofun, .release rfl rfl, nofun⟩

theorem made_other {t' : T} (htu : t' ≠ t) : (s.made t op rest flag).pending t' = s.pending t' :=
  Function.update_of_ne htu ..

theorem made_self : (s.made t op rest flag).pending t = some rest := Function.update_self ..

omit [DecidableEq T] in
/-- The number of a call that is over is not that of one still going on. -/
theorem Over.ne (h : Over s u n) (hp : s.pending t = some rest) : (t, s.count t) ≠ (u, n) := by
  intro heq
  obtain ⟨rfl, rfl⟩ := Prod.mk.inj heq
  rcases h.2 with hlt | ⟨-, hnone⟩
  · exact absurd hlt (Nat.lt_irrefl _)
  · cases hp.symm.trans hnone

theorem over_of_made (h : Over (s.made t op rest flag) u n) : Over s u n := by
  refine ⟨h.1, h.2.imp_right fun hlast => ⟨hlast.1, ?_⟩⟩
  have hnone := hlast.2
  have hut : u ≠ t := by
    rintro rfl
    rw [made_self] at hnone
    cases hnone
  rwa [made_other hut] at hnone

/-- A call that has the lock goes on behind its own writes, or it has not written yet. -/
theorem written_made (flag : Bool) (hi : Inv s) (hp : s.pending t = some (op :: rest))
    (hshape : opsOf (t, s.count t) s.log ++ op :: rest = callShape bufs) :
    Contiguous (writers (s.made t op rest flag).log) ∧
      ∀ u, ((s.made t op rest flag).pending u).any insideOps = true →
        (u, s.count u) ∉ writers (s.made t op rest flag).log ∨
          (writers (s.made t op rest flag).log).getLast? = some (u, s.count u) := by
  have hlog : writers (s.made t op rest flag).log = _ := writers_append s.log (t, s.count t) op
  have hinside : (view s).inside t = insideOps (op :: rest) := by
    simp only [view, hp, Option.any_some]
  rw [hlog]
  rcases shape_cases hshape with ⟨rfl, hnil, -⟩ | ⟨buf, rfl, -⟩ | ⟨rfl, rfl⟩
  · have hsame : writers s.log ++ (if Op.takeFlag.isWrite then [(t, s.count t)] else []) =
        writers s.log := List.append_nil _
    rw [hsame]
    refine ⟨hi.contiguous, fun u hu => ?_⟩
    by_cases hut : u = t
    · rw [hut]
      exact .inl fun hmem => opsOf_ne_nil_of_mem hmem hnil
    · rw [made_other hut] at hu
      exact hi.last u hu
  · refine ⟨hi.contiguous.concat (hi.last t hinside), fun u hu => .inr ?_⟩
    obtain rfl : u = t := by
      by_contra hut
      rw [made_other hut] at hu
      exact hut (hi.guarded.exclusive u t hu hinside)
    exact List.getLast?_concat
  · have hsame : writers s.log ++ (if Op.clearFlag.isWrite then [(t, s.count t)] else []) =
        writers s.log := List.append_nil _
    rw [hsame]
    refine ⟨hi.contiguous, fun u hu => ?_⟩
    by_cases hut : u = t
    · rw [hut, made_self] at hu
      cases hu
    · rw [made_other hut] at hu
      exact hi.last u hu

theorem inv_made (hi : Inv s) (hp : s.pending t = some (op :: rest))
    (hfree : op = .takeFlag → s.flag = false) :
    Inv (s.made t op rest (flagAfter s.flag op)) := by
  obtain ⟨hpos, bufs, hshape⟩ := hi.begun t _ hp
  obtain ⟨k, hk, hturn, hheld⟩ := turn_made hshape hfree
  obtain ⟨hcontiguous, hlast⟩ := written_made (flagAfter s.flag op) hi hp hshape
  have hinside : (view s).inside t = insideOps (op :: rest) := by
    simp only [view, hp, Option.any_some]
  have hinside' : (view (s.made t op rest (flagAfter s.flag op))).inside t = insideOps rest := by
    simp only [view, made_self, Option.any_some]
  have hmoves : Moves t k (view s) (view (s.made t op rest (flagAfter s.flag op))) := by
    refine ⟨?_, fun w hw => ?_⟩
    · rw [hinside, hinside']
      exact hturn
    · simp only [view, made_other hw]
  refine ⟨hi.guarded.step hmoves fun hreset => absurd hreset hk, fun hflag => ?_,
    fun w ops hw => ?_, fun w n hover => ?_, fun w n hn => ?_, hcontiguous, hlast⟩
  · exact ⟨t, hinside'.trans (hheld hflag)⟩
  · by_cases hwt : w = t
    · subst hwt
      rw [made_self] at hw
      obtain rfl := Option.some.inj hw
      refine ⟨hpos, bufs, ?_⟩
      change opsOf (w, s.count w) (s.log ++ [((w, s.count w), op)]) ++ rest = _
      rw [opsOf_self, List.append_assoc]
      exact hshape
    · rw [made_other hwt] at hw
      obtain ⟨hpos', bufs', hshape'⟩ := hi.begun w ops hw
      refine ⟨hpos', bufs', ?_⟩
      change opsOf (w, s.count w) (s.log ++ [((t, s.count t), op)]) ++ ops = _
      rw [opsOf_other fun heq => hwt (Prod.mk.inj heq).1.symm]
      exact hshape'
  · have hover' := over_of_made hover
    obtain ⟨bufs', hops⟩ := hi.once w n hover'
    exact ⟨bufs', (opsOf_other (hover'.ne hp)).trans hops⟩
  · refine (opsOf_other fun heq => ?_).trans (hi.fresh w n hn)
    obtain ⟨rfl, rfl⟩ := Prod.mk.inj heq
    exact absurd hn (Nat.lt_irrefl _)

/-- Thread `t` has begun a call or returned from one. -/
def State.turned (s : State T) (t : T) (p : Option (List Op)) (count : Nat) : State T :=
  { s with
    pending := Function.update s.pending t p
    count := Function.update s.count t count }

/-- That leaves the lock and the other threads alone. -/
theorem inv_turned (hi : Inv s) {p : Option (List Op)} {count : Nat}
    (hout : (s.pending t).any insideOps = false) (hout' : p.any insideOps = false)
    (hcount : s.count t ≤ count)
    (hbegun : ∀ ops, p = some ops →
      0 < count ∧ ∃ bufs, opsOf (t, count) s.log ++ ops = callShape bufs)
    (honce : ∀ n, 0 < n → n < count ∨ n = count ∧ p = none →
      ∃ bufs, opsOf (t, n) s.log = callShape bufs) :
    Inv (s.turned t p count) := by
  have hself : (view (s.turned t p count)).inside t = false := by
    simpa only [view, State.turned, Function.update_self] using hout'
  have hother : ∀ w, w ≠ t → (view (s.turned t p count)).inside w = (view s).inside w := by
    intro w hw
    simp only [view, State.turned, Function.update_of_ne hw]
  have hmoves : Moves t .stay (view s) (view (s.turned t p count)) :=
    ⟨.stay rfl (hself.trans hout.symm), hother⟩
  refine ⟨hi.guarded.step hmoves nofun, fun hflag => ?_, fun w ops hw => ?_, fun w n hover => ?_,
    fun w n hn => ?_, hi.contiguous, fun w hw => ?_⟩
  · obtain ⟨w, hw⟩ := hi.held hflag
    have hwt : w ≠ t := by
      rintro rfl
      cases hout.symm.trans hw
    exact ⟨w, (hother w hwt).trans hw⟩
  · by_cases hwt : w = t
    · subst hwt
      simp only [State.turned, Function.update_self] at hw ⊢
      exact hbegun ops hw
    · simp only [State.turned, Function.update_of_ne hwt] at hw ⊢
      exact hi.begun w ops hw
  · by_cases hwt : w = t
    · subst hwt
      simp only [Over, State.turned, Function.update_self] at hover
      exact honce n hover.1 hover.2
    · simp only [Over, State.turned, Function.update_of_ne hwt] at hover
      exact hi.once w n hover
  · by_cases hwt : w = t
    · subst hwt
      simp only [State.turned, Function.update_self] at hn
      exact hi.fresh w n (Nat.lt_of_le_of_lt hcount hn)
    · simp only [State.turned, Function.update_of_ne hwt] at hn
      exact hi.fresh w n hn
  · have hwt : w ≠ t := by
      rintro rfl
      cases hself.symm.trans hw
    simp only [State.turned, Function.update_of_ne hwt]
    exact hi.last w ((hother w hwt).symm.trans hw)

theorem progress : Progress step Allowed (Inv : State T → Prop) := by
  intro s a hi ha
  cases a with
  | call t c =>
    obtain ⟨hnone, hops⟩ := ha
    obtain ⟨ops, hops⟩ := Option.isSome_iff_exists.mp hops
    obtain ⟨bufs, rfl⟩ := c.ops_shape hops
    have hstep : step s (.call t c) =
        some (s.turned t (some (callShape bufs)) (s.count t + 1)) := by
      simp only [step, hnone, hops, Option.map_some, State.turned]
    refine ⟨_, hstep, inv_turned hi (by rw [hnone]; rfl) rfl (Nat.le_succ _)
      (fun ops hops => ?_) fun n hpos hn => ?_⟩
    · obtain rfl := Option.some.inj hops
      refine ⟨Nat.succ_pos _, bufs, ?_⟩
      rw [hi.fresh t _ (Nat.lt_succ_self _)]
      rfl
    · refine hi.once t n ⟨hpos, ?_⟩
      rcases hn with hlt | ⟨-, hnone'⟩
      · exact (Nat.lt_or_eq_of_le (Nat.le_of_lt_succ hlt)).imp_right fun heq => ⟨heq, hnone⟩
      · cases hnone'
  | go t =>
    cases hp : s.pending t with
    | none => exact absurd hp ha
    | some ops =>
      cases ops with
      | nil =>
        have hstep : step s (.go t) = some (s.turned t none (s.count t)) := by
          simp only [step, hp, State.turned, Function.update_eq_self]
        obtain ⟨-, bufs, hshape⟩ := hi.begun t [] hp
        rw [List.append_nil] at hshape
        refine ⟨_, hstep, inv_turned hi (by rw [hp]; rfl) rfl (Nat.le_refl _) nofun
          fun n hpos hn => ?_⟩
        rcases hn with hlt | ⟨rfl, -⟩
        · exact hi.once t n ⟨hpos, .inl hlt⟩
        · exact ⟨bufs, hshape⟩
      | cons op rest =>
        cases op with
        | takeFlag =>
          cases hflag : s.flag with
          | true =>
            refine ⟨s, ?_, hi⟩
            simp only [step, hp, hflag, if_true]
            rw [← hflag]
          | false =>
            refine ⟨s.made t .takeFlag rest true, ?_, inv_made hi hp fun _ => hflag⟩
            simp only [step, hp, hflag, Bool.false_eq_true, if_false]
        | write buf =>
          exact ⟨_, by simp only [step, hp]; rfl, inv_made hi hp nofun⟩
        | clearFlag =>
          exact ⟨_, by simp only [step, hp]; rfl, inv_made hi hp nofun⟩

theorem inv_initial : Inv (initial T) where
  guarded := guarded_of_vacant fun _ => rfl
  held := nofun
  begun := nofun
  once t n h := by
    rcases h.2 with hlt | ⟨heq, -⟩
    · exact absurd hlt (Nat.not_lt_zero n)
    · exact absurd heq (Nat.ne_of_gt h.1)
  fresh _ _ _ := rfl
  contiguous := contiguous_nil
  last := nofun

theorem atomic_of_inv (hi : Inv s) : Atomic s where
  contiguous := hi.contiguous
  free hidle := by
    by_contra hflag
    obtain ⟨t, ht⟩ := hi.held (by simpa using hflag)
    simp [view, hidle t] at ht
  once := hi.once

end Invariant

/-- In every run of threads that print, the writes of one call are not interleaved with those of
another, and each call takes the lock and gives it back once. -/
theorem output_atomic (as : List (Act T)) (hallowed : Along step Allowed (initial T) as) :
    Along step (fun s a => ∃ s', step s a = some s' ∧ Atomic s') (initial T) as :=
  Along.of_progress progress (fun _ => atomic_of_inv) inv_initial hallowed

instance (s : State T) : ∀ a, Decidable (Allowed s a)
  | .call t c => inferInstanceAs (Decidable (s.pending t = none ∧ c.ops.isSome = true))
  | .go t => inferInstanceAs (Decidable (s.pending t ≠ none))

/-- A descriptor that takes one byte at a time. -/
def shortWrites : Kernel := fun _ _ => .ok 1

/-- Thread 0 prints two bytes and comes to a short write; thread 1, which waits meanwhile, comes to
an invalid directive. -/
def shortAndInvalid : List (Act Nat) :=
  [.call 0 ⟨shortWrites, CString.literal ['a', 'b'], [], fun _ => none, 0⟩,
    .call 1 ⟨completeWrites, CString.literal ['c', '%'], [], fun _ => none, 0⟩,
    .go 0, .go 1, .go 0, .go 1, .go 0, .go 1, .go 0, .go 1, .go 1, .go 1]

theorem output_atomic_shortAndInvalid :
    Along step (fun s a => ∃ s', step s a = some s' ∧ Atomic s') (initial Nat)
      shortAndInvalid :=
  output_atomic shortAndInvalid (by decide)

end OutputLock
