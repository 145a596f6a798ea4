import Libdeepc.Runs
import Mathlib.Logic.Function.Basic

/-!
# Exit handlers

`atexit`, `at_quick_exit` and the functions that end the process. A handler is
known by its pointer and by the registrations that it makes when it is called;
which these are may be different for every call. What happens is written down as
a sequence of events, and the law of the handlers is a reader of that sequence.
-/

namespace ExitHandlers

open Runs

variable {F : Type}

section Code

inductive Kind
  | atExit | atQuickExit
  deriving DecidableEq

/-- One of the two static arrays with its counter. -/
structure Handlers (F : Type) where
  cur : Nat
  funcs : Nat → Option F

def Handlers.push (h : Handlers F) (f : F) : Handlers F where
  cur := h.cur + 1
  funcs := Function.update h.funcs h.cur (some f)

inductive Event (F : Type)
  | registered (k : Kind) (f : F) (ret : Int)
  | called (k : Kind) (f : F)
  | terminated (status : Int)
  deriving DecidableEq

/-- `calls` counts the handlers called so far. -/
structure State (F : Type) where
  handlers : Kind → Handlers F
  calls : Nat
  trace : List (Event F)

def State.log (s : State F) (e : Event F) : State F := { s with trace := s.trace ++ [e] }

/-- `AT_EXIT_FUNCS` -/
def atExitFuncs : Nat := 32

/-- The body of `atexit` and of `at_quick_exit`. -/
def register (k : Kind) (s : State F) (f : F) : State F :=
  if (s.handlers k).cur = atExitFuncs then s.log (.registered k f 1)
  else
    let handlers := Function.update s.handlers k ((s.handlers k).push f)
    State.log { s with handlers } (.registered k f 0)

def atexit (s : State F) (f : F) : State F := register .atExit s f

def atQuickExit (s : State F) (f : F) : State F := register .atQuickExit s f

/-- A registration that the program makes, by itself or in a handler. -/
abbrev Call (F : Type) := Kind × F

def perform (s : State F) (c : Call F) : State F :=
  match c.1 with
  | .atExit => atexit s c.2
  | .atQuickExit => atQuickExit s c.2

/-- `script n` are the registrations that the handler called as number `n` makes. -/
def callHandler (script : Nat → List (Call F)) (k : Kind) (f : F) (s : State F) : State F :=
  (script s.calls).foldl perform { s.log (.called k f) with calls := s.calls + 1 }

/-- The loop of `run_exit_funcs` from `i` down. A call through `NULL` is undefined. -/
def runExitFuncs (script : Nat → List (Call F)) (k : Kind) : Nat → State F → Option (State F)
  | 0, s => some s
  | i + 1, s => ((s.handlers k).funcs i).bind fun f =>
    runExitFuncs script k i (callHandler script k f s)

def _Exit (ret : Int) (s : State F) : State F := s.log (.terminated ret)

def exit (script : Nat → List (Call F)) (ret : Int) (s : State F) : Option (State F) :=
  (runExitFuncs script .atExit (s.handlers .atExit).cur s).map (_Exit ret)

def quickExit (script : Nat → List (Call F)) (ret : Int) (s : State F) : Option (State F) :=
  (runExitFuncs script .atQuickExit (s.handlers .atQuickExit).cur s).bind (exit script ret)

/-- The program has made these registrations, and no handler has been called. -/
def started (before : List (Call F)) : State F :=
  before.foldl perform
    { handlers := fun _ => { cur := 0, funcs := fun _ => none }, calls := 0, trace := [] }

end Code

section Law

variable [DecidableEq F]

/-- The handlers registered and not called yet, the last one first, and how many were registered
in all. -/
structure Watch (F : Type) where
  pending : List F
  registered : Nat

/-- A handler is accepted as long as fewer than 32 were, only the last one pending is called, and
the process ends with none pending. -/
def watch (k : Kind) (w : Watch F) : Event F → Option (Watch F)
  | .registered k' f ret =>
    if k' ≠ k then some w
    else if w.registered < atExitFuncs then
      if ret = 0 then some ⟨f :: w.pending, w.registered + 1⟩ else none
    else if ret = 0 then none else some w
  | .called k' f =>
    if k' ≠ k then some w
    else if w.pending.head? = some f then some { w with pending := w.pending.tail } else none
  | .terminated _ => if w.pending = [] then some w else none

/-- Every handler registered is called once, in reverse order, before the process ends. -/
def InReverse (k : Kind) (trace : List (Event F)) : Prop :=
  (exec (watch k) ⟨[], 0⟩ trace).isSome = true

instance (k : Kind) (trace : List (Event F)) : Decidable (InReverse k trace) :=
  inferInstanceAs (Decidable (_ = true))

/-- The process ends once, with this status, and nothing happens afterwards. -/
def Ends (ret : Int) (trace : List (Event F)) : Prop :=
  ∃ es, trace = es ++ [.terminated ret] ∧ ∀ status, .terminated status ∉ es

def registrations (k : Kind) (cs : List (Call F)) : Nat := cs.countP fun c => c.1 = k

end Law

section Counts

def Event.isAccepted (k : Kind) : Event F → Bool
  | .registered k' _ ret => k' = k && ret = 0
  | _ => false

def Event.isCalled (k : Kind) : Event F → Bool
  | .called k' _ => k' = k
  | _ => false

def accepted (k : Kind) (trace : List (Event F)) : Nat := trace.countP (Event.isAccepted k)

def called (k : Kind) (trace : List (Event F)) : Nat := trace.countP (Event.isCalled k)

variable {k : Kind} {w w' : Watch F} {trace : List (Event F)}

theorem called_eq_zero_iff : called k trace = 0 ↔ ∀ f, .called k f ∉ trace := by
  rw [called, List.countP_eq_zero]
  constructor
  · intro h f hmem
    exact h _ hmem (decide_eq_true rfl)
  · intro h e hmem hcalled
    cases e with
    | registered k' f ret => cases hcalled
    | called k' f =>
      obtain rfl : k' = k := of_decide_eq_true hcalled
      exact h f hmem
    | terminated status => cases hcalled

theorem called_append (es es' : List (Event F)) :
    called k (es ++ es') = called k es + called k es' :=
  List.countP_append

theorem accepted_append (es es' : List (Event F)) :
    accepted k (es ++ es') = accepted k es + accepted k es' :=
  List.countP_append

variable [DecidableEq F]

/-- What the reader has pending is what was accepted less what was called. -/
theorem pending_of_watch {e : Event F} (h : watch k w e = some w') :
    w'.pending.length + called k [e] = w.pending.length + accepted k [e] := by
  cases e with
  | registered k' f ret =>
    by_cases hk : k' = k
    · by_cases hlt : w.registered < atExitFuncs
      · by_cases hret : ret = 0
        · obtain rfl : _ = w' := by simpa [watch, hk, hlt, hret] using h
          simp [called, accepted, Event.isCalled, Event.isAccepted, hk, hret]
        · simp [watch, hk, hlt, hret] at h
      · by_cases hret : ret = 0
        · simp [watch, hk, hlt, hret] at h
        · obtain rfl : w = w' := by simpa [watch, hk, hlt, hret] using h
          simp [called, accepted, Event.isCalled, Event.isAccepted, hret]
    · obtain rfl : w = w' := by simpa [watch, hk] using h
      simp [called, accepted, Event.isCalled, Event.isAccepted, hk]
  | called k' f =>
    by_cases hk : k' = k
    · obtain ⟨pending, registered⟩ := w
      cases pending with
      | nil => simp [watch, hk] at h
      | cons g pending =>
        obtain ⟨-, rfl⟩ : g = f ∧ _ = w' := by simpa [watch, hk] using h
        simp [called, accepted, Event.isCalled, Event.isAccepted, hk]
    · obtain rfl : w = w' := by simpa [watch, hk] using h
      simp [called, accepted, Event.isCalled, Event.isAccepted, hk]
  | terminated status =>
    obtain ⟨-, rfl⟩ : w.pending = [] ∧ w = w' := by simpa [watch] using h
    simp [called, accepted, Event.isCalled, Event.isAccepted]

theorem pending_of_exec (h : exec (watch k) w trace = some w') :
    w'.pending.length + called k trace = w.pending.length + accepted k trace := by
  induction trace generalizing w with
  | nil =>
    obtain rfl := Option.some.inj h
    rfl
  | cons e trace ih =>
    rw [exec_cons] at h
    obtain ⟨m, hm, h⟩ := Option.bind_eq_some_iff.mp h
    have hone := pending_of_watch hm
    have hrest := ih h
    have hcalled : called k (e :: trace) = called k [e] + called k trace :=
      called_append [e] trace
    have haccepted : accepted k (e :: trace) = accepted k [e] + accepted k trace :=
      accepted_append [e] trace
    omega

end Counts

section Tables

/-- The table holds these handlers, the first one registered first, and they are the ones that the
trace tells of. The process has not ended. -/
structure Agrees (q : Kind) (s : State F) (es : List F) : Prop where
  cur : (s.handlers q).cur = es.length
  funcs : ∀ i, i < es.length → (s.handlers q).funcs i = es[i]?
  le : es.length ≤ atExitFuncs
  accepted : accepted q s.trace = es.length
  running : ∀ status, .terminated status ∉ s.trace

variable [DecidableEq F]

def watched (k : Kind) (s : State F) : Option (Watch F) := exec (watch k) ⟨[], 0⟩ s.trace

/-- From `s` to `s'` the program made `n` registrations for this table, of which `new` were
accepted, and called no handler. -/
structure Grown (q : Kind) (s s' : State F) (es new : List F) (n : Nat) : Prop where
  agrees : Agrees q s' (es ++ new)
  length : (es ++ new).length = min atExitFuncs (es.length + n)
  calls : s'.calls = s.calls
  called : called q s'.trace = called q s.trace
  pending : ∀ p, watched q s = some ⟨p, es.length⟩ →
    watched q s' = some ⟨new.reverse ++ p, (es ++ new).length⟩

variable {k q : Kind} {s s' s'' : State F} {es new new' : List F} {n n' : Nat} {f : F} {ret : Int}

omit [DecidableEq F] in
theorem perform_eq (s : State F) (c : Call F) : perform s c = register c.1 s c.2 := by
  obtain ⟨k, f⟩ := c
  cases k <;> rfl

omit [DecidableEq F] in
theorem register_trace (k : Kind) (s : State F) (f : F) :
    ∃ ret, (register k s f).trace = s.trace ++ [.registered k f ret] := by
  rw [register]
  split
  · exact ⟨1, rfl⟩
  · exact ⟨0, rfl⟩

omit [DecidableEq F] in
theorem register_calls (k : Kind) (s : State F) (f : F) : (register k s f).calls = s.calls := by
  rw [register]
  split <;> rfl

omit [DecidableEq F] in
theorem register_other (hk : k ≠ q) (s : State F) (f : F) :
    (register k s f).handlers q = s.handlers q := by
  rw [register]
  split
  · rfl
  · exact Function.update_of_ne (Ne.symm hk) ..

theorem watched_log (k : Kind) (s : State F) (e : Event F) :
    watched k (s.log e) = (watched k s).bind fun w => watch k w e := by
  rw [watched, State.log, exec_append]
  refine Option.bind_congr fun w _ => ?_
  rw [exec_cons]
  cases watch k w e <;> rfl

theorem Grown.refl (h : Agrees q s es) : Grown q s s es [] 0 where
  agrees := by rwa [List.append_nil]
  length := by rw [List.append_nil, Nat.add_zero, Nat.min_eq_right h.le]
  calls := rfl
  called := rfl
  pending p hp := by
    rw [hp, List.append_nil]
    rfl

theorem Grown.trans (h : Grown q s s' es new n) (h' : Grown q s' s'' (es ++ new) new' n') :
    Grown q s s'' es (new ++ new') (n + n') where
  agrees := by
    rw [← List.append_assoc]
    exact h'.agrees
  length := by
    have hfirst := h.length
    have hrest := h'.length
    rw [← List.append_assoc]
    omega
  calls := h'.calls.trans h.calls
  called := h'.called.trans h.called
  pending p hp := by
    rw [h'.pending _ (h.pending p hp), List.reverse_append, List.append_assoc, List.append_assoc]

/-- Nothing new: the table was full, or nobody asked. -/
theorem Grown.nil_iff (h : Grown q s s' es new n) (hle : es.length ≤ atExitFuncs) :
    new = [] ↔ es.length = atExitFuncs ∨ n = 0 := by
  have hlength := h.length
  rw [List.length_append] at hlength
  rw [← List.length_eq_zero_iff]
  omega

/-- A registration that this table does not accept. -/
theorem grown_refused (h : Agrees q s es) (hsame : s'.handlers q = s.handlers q)
    (hcalls : s'.calls = s.calls) (htrace : s'.trace = s.trace ++ [.registered k f ret])
    (hret : k = q → es.length = atExitFuncs ∧ ret ≠ 0) :
    Grown q s s' es [] (if k = q then 1 else 0) where
  agrees := by
    rw [List.append_nil]
    refine ⟨hsame ▸ h.cur, hsame ▸ h.funcs, h.le, ?_, fun status hmem => ?_⟩
    · have hnone : ExitHandlers.accepted q [Event.registered k f ret] = 0 := by
        by_cases hk : k = q
        · simp [ExitHandlers.accepted, Event.isAccepted, (hret hk).2]
        · simp [ExitHandlers.accepted, Event.isAccepted, hk]
      rw [htrace, accepted_append, hnone, Nat.add_zero, h.accepted]
    · rw [htrace] at hmem
      exact h.running status (by simpa using hmem)
  length := by
    rw [List.append_nil]
    have hle := h.le
    split
    · rename_i hk
      have := (hret hk).1
      omega
    · omega
  calls := hcalls
  called := by rw [htrace, called_append]; rfl
  pending p hp := by
    have hlog : watched q s' = watched q (s.log (.registered k f ret)) := by
      rw [watched, htrace]
      rfl
    rw [hlog, watched_log, hp, Option.bind_some, List.append_nil]
    by_cases hk : k = q
    · obtain ⟨hfull, hne⟩ := hret hk
      simp [watch, hk, hfull, hne]
    · simp [watch, hk]

theorem grown_accepted (h : Agrees q s es) (hlt : es.length < atExitFuncs) (f : F) :
    Grown q s (register q s f) es [f] 1 where
  agrees := by
    have hne : (s.handlers q).cur ≠ atExitFuncs := by
      rw [h.cur]
      exact Nat.ne_of_lt hlt
    rw [register, if_neg hne]
    refine ⟨?_, fun i hi => ?_, ?_, ?_, fun status hmem => ?_⟩
    · simp [State.log, Handlers.push, h.cur]
    · rw [List.length_append, List.length_singleton] at hi
      simp only [State.log, Handlers.push, h.cur, Function.update_self, Function.update_apply]
      split
      · rename_i heq
        rw [heq, List.getElem?_concat_length]
      · rename_i hne
        have hlt' : i < es.length := by omega
        rw [h.funcs i hlt', List.getElem?_append_left hlt']
    · rw [List.length_append, List.length_singleton]
      exact hlt
    · simp only [State.log, accepted_append, h.accepted, List.length_append, List.length_singleton]
      simp [ExitHandlers.accepted, Event.isAccepted]
    · exact h.running status (by simpa [State.log] using hmem)
  length := by
    rw [List.length_append, List.length_singleton, Nat.min_eq_right hlt]
  calls := register_calls q s f
  called := by
    obtain ⟨ret, htrace⟩ := register_trace q s f
    rw [htrace, called_append]
    rfl
  pending p hp := by
    have hne : (s.handlers q).cur ≠ atExitFuncs := by
      rw [h.cur]
      exact Nat.ne_of_lt hlt
    rw [register, if_neg hne, watched_log]
    change (watched q s).bind _ = _
    rw [hp]
    simp [watch, hlt]

theorem grown_perform (h : Agrees q s es) (c : Call F) :
    ∃ new, Grown q s (perform s c) es new (if c.1 = q then 1 else 0) := by
  obtain ⟨k, f⟩ := c
  rw [perform_eq]
  by_cases hk : k = q
  · subst hk
    rcases Nat.lt_or_eq_of_le h.le with hlt | hfull
    · rw [if_pos rfl]
      exact ⟨[f], grown_accepted h hlt f⟩
    · have hreg : register k s f = s.log (.registered k f 1) := if_pos (h.cur.trans hfull)
      rw [hreg]
      exact ⟨[], grown_refused h rfl rfl rfl fun _ => ⟨hfull, by decide⟩⟩
  · obtain ⟨ret, htrace⟩ := register_trace k s f
    exact ⟨[], grown_refused h (register_other hk s f) (register_calls k s f) htrace
      fun heq => absurd heq hk⟩

theorem grown_calls (h : Agrees q s es) (cs : List (Call F)) :
    ∃ new, Grown q s (cs.foldl perform s) es new (registrations q cs) := by
  induction cs generalizing s es with
  | nil => exact ⟨[], Grown.refl h⟩
  | cons c cs ih =>
    obtain ⟨new, hgrown⟩ := grown_perform h c
    obtain ⟨new', hgrown'⟩ := ih hgrown.agrees
    have hcount : registrations q (c :: cs) = (if c.1 = q then 1 else 0) + registrations q cs := by
      rw [registrations, List.countP_cons, Nat.add_comm]
      simp [registrations]
    rw [hcount]
    exact ⟨new ++ new', hgrown.trans hgrown'⟩

end Tables

section Walk

/-- From `s` to `s'` the first `i` handlers of a walk over the table `k` were called, and meanwhile
`new` were accepted in the table `q`. -/
structure Ran (script : Nat → List (Call F)) (k q : Kind) (i : Nat) (s s' : State F)
    (es new : List F) : Prop where
  agrees : Agrees q s' (es ++ new)
  calls : s'.calls = s.calls + i
  called : called q s'.trace = called q s.trace + if k = q then i else 0
  nil_iff : new = [] ↔ es.length = atExitFuncs ∨
    ∀ j, j < i → registrations q (script (s.calls + j)) = 0

variable {script : Nat → List (Call F)} {k q : Kind} {i m : Nat} {s s' s'' : State F}
  {es fs new new' p : List F} {f : F}

theorem Ran.zero (h : Agrees q s es) : Ran script k q 0 s s es [] where
  agrees := by rwa [List.append_nil]
  calls := rfl
  called := by rw [ite_self, Nat.add_zero]
  nil_iff := iff_of_true rfl (.inr fun j hj => absurd hj (Nat.not_lt_zero j))

theorem Ran.trans (h : Ran script k q i s s' es new)
    (h' : Ran script k q m s' s'' (es ++ new) new') :
    Ran script k q (i + m) s s'' es (new ++ new') where
  agrees := by
    rw [← List.append_assoc]
    exact h'.agrees
  calls := by rw [h'.calls, h.calls, Nat.add_assoc]
  called := by
    rw [h'.called, h.called]
    split <;> omega
  nil_iff := by
    rw [List.append_eq_nil_iff]
    constructor
    · rintro ⟨rfl, rfl⟩
      have hfirst := h.nil_iff.mp rfl
      have hrest := h'.nil_iff.mp rfl
      rw [List.append_nil] at hrest
      rcases hfirst with hfull | hfirst
      · exact .inl hfull
      refine hrest.imp_right fun hrest j hj => ?_
      rcases Nat.lt_or_ge j i with hlt | hge
      · exact hfirst j hlt
      · have hlater := hrest (j - i) (by omega)
        rwa [h.calls, Nat.add_assoc, Nat.add_sub_cancel' hge] at hlater
    · intro hall
      obtain rfl := h.nil_iff.mpr (hall.imp_right fun hall j hj => hall j (by omega))
      refine ⟨rfl, h'.nil_iff.mpr ?_⟩
      rw [List.append_nil]
      refine hall.imp_right fun hall j hj => ?_
      rw [h.calls, Nat.add_assoc]
      exact hall (i + j) (by omega)

/-- The state in which a handler begins. -/
theorem Agrees.called (h : Agrees q s es) (k : Kind) (f : F) (calls : Nat) :
    Agrees q { s.log (.called k f) with calls } es where
  cur := h.cur
  funcs := h.funcs
  le := h.le
  accepted := (accepted_append _ _).trans h.accepted
  running status hmem := h.running status (by simpa [State.log] using hmem)

variable [DecidableEq F]

theorem ran_callHandler (script : Nat → List (Call F)) (h : Agrees q s es) (k : Kind) (f : F) :
    ∃ new, Ran script k q 1 s (callHandler script k f s) es new := by
  obtain ⟨new, hgrown⟩ := grown_calls (h.called k f (s.calls + 1)) (script s.calls)
  refine ⟨new, hgrown.agrees, hgrown.calls, ?_, ?_⟩
  · have hone : ExitHandlers.called q [Event.called k f] = if k = q then 1 else 0 := by
      simp [ExitHandlers.called, Event.isCalled, List.countP_cons]
    rw [callHandler, hgrown.called, ← hone]
    exact called_append _ _
  · rw [hgrown.nil_iff h.le]
    refine or_congr_right ⟨fun hnone j hj => ?_, fun hnone => hnone 0 Nat.one_pos⟩
    obtain rfl := Nat.lt_one_iff.mp hj
    exact hnone

/-- The walk comes back: an entry that was there at the start is never written again. -/
theorem ran_runExitFuncs (script : Nat → List (Call F)) (hk : Agrees k s es)
    (hq : Agrees q s fs) (hi : i ≤ es.length) :
    ∃ s' new, runExitFuncs script k i s = some s' ∧ Ran script k q i s s' fs new := by
  induction i generalizing s es fs with
  | zero => exact ⟨s, [], rfl, Ran.zero hq⟩
  | succ i ih =>
    have hfunc : (s.handlers k).funcs i = some es[i] := by
      rw [hk.funcs i hi, List.getElem?_eq_getElem hi]
    obtain ⟨newk, hfirstk⟩ := ran_callHandler script hk k es[i]
    obtain ⟨newq, hfirstq⟩ := ran_callHandler script hq k es[i]
    have hi' : i ≤ (es ++ newk).length := by
      rw [List.length_append]
      omega
    obtain ⟨s', new, hrun, hran⟩ := ih hfirstk.agrees hfirstq.agrees hi'
    refine ⟨s', newq ++ new, ?_, ?_⟩
    · rw [runExitFuncs, hfunc, Option.bind_some, hrun]
    · rw [Nat.add_comm i 1]
      exact hfirstq.trans hran

theorem watched_callHandler (h : Agrees k s es)
    (hquiet : es.length = atExitFuncs ∨ registrations k (script s.calls) = 0)
    (hp : watched k s = some ⟨f :: p, es.length⟩) :
    watched k (callHandler script k f s) = some ⟨p, es.length⟩ := by
  obtain ⟨new, hgrown⟩ := grown_calls (h.called k f (s.calls + 1)) (script s.calls)
  obtain rfl := (hgrown.nil_iff h.le).mpr hquiet
  have hbegin : watched k { s.log (.called k f) with calls := s.calls + 1 } =
      some ⟨p, es.length⟩ := by
    change watched k (s.log (.called k f)) = _
    rw [watched_log, hp]
    simp [watch]
  have hend := hgrown.pending p hbegin
  rwa [List.append_nil] at hend

/-- Without new handlers the walk goes through the pending ones from the last to the first. -/
theorem watched_runExitFuncs (h : Agrees k s es) (hi : i ≤ es.length)
    (hquiet : es.length = atExitFuncs ∨
      ∀ j, j < i → registrations k (script (s.calls + j)) = 0)
    (hp : watched k s = some ⟨(es.take i).reverse, es.length⟩) :
    ∃ s', runExitFuncs script k i s = some s' ∧ watched k s' = some ⟨[], es.length⟩ := by
  induction i generalizing s with
  | zero => exact ⟨s, rfl, hp⟩
  | succ i ih =>
    have hfunc : (s.handlers k).funcs i = some es[i] := by
      rw [h.funcs i hi, List.getElem?_eq_getElem hi]
    rw [List.take_succ_eq_append_getElem hi, List.reverse_append] at hp
    have hfirst : es.length = atExitFuncs ∨ registrations k (script s.calls) = 0 :=
      hquiet.imp_right fun hquiet => hquiet 0 (Nat.succ_pos i)
    obtain ⟨new, hran⟩ := ran_callHandler script h k es[i]
    obtain rfl : new = [] := by
      refine hran.nil_iff.mpr (hfirst.imp_right fun hfirst j hj => ?_)
      obtain rfl := Nat.lt_one_iff.mp hj
      exact hfirst
    have hagrees := hran.agrees
    rw [List.append_nil] at hagrees
    have hrest : es.length = atExitFuncs ∨
        ∀ j, j < i → registrations k (script ((callHandler script k es[i] s).calls + j)) = 0 := by
      refine hquiet.imp_right fun hquiet j hj => ?_
      rw [hran.calls, Nat.add_assoc]
      exact hquiet (1 + j) (by omega)
    obtain ⟨s', hrun, hwatched⟩ :=
      ih hagrees (Nat.le_of_succ_le hi) hrest (watched_callHandler h hfirst hp)
    exact ⟨s', by rw [runExitFuncs, hfunc, Option.bind_some, hrun], hwatched⟩

end Walk

section Exit

variable [DecidableEq F] {script : Nat → List (Call F)} {k q : Kind} {s : State F}
  {es fs : List F} {n : Nat}

/-- The table before the process begins to end. -/
theorem started_spec (before : List (Call F)) (q : Kind) :
    ∃ es, Agrees q (started before) es ∧
      es.length = min atExitFuncs (registrations q before) ∧ (started before).calls = 0 ∧
      called q (started before).trace = 0 ∧
      watched q (started before) = some ⟨(es.take es.length).reverse, es.length⟩ := by
  have hempty : Agrees (F := F) q ⟨fun _ => ⟨0, fun _ => none⟩, 0, []⟩ [] :=
    ⟨rfl, fun i hi => absurd hi (Nat.not_lt_zero i), Nat.zero_le _, rfl,
      fun _ => List.not_mem_nil⟩
  obtain ⟨es, hgrown⟩ := grown_calls hempty before
  refine ⟨es, hgrown.agrees, ?_, hgrown.calls, hgrown.called, ?_⟩
  · have hlength := hgrown.length
    rwa [List.length_nil, Nat.zero_add] at hlength
  · have hpending := hgrown.pending [] rfl
    rw [List.append_nil] at hpending
    rwa [List.take_length]

omit [DecidableEq F] in
theorem quiet_iff (hlength : es.length = min atExitFuncs n) (P : Nat → Prop) :
    (es.length = atExitFuncs ∨ ∀ j, j < es.length → P j) ↔
      atExitFuncs ≤ n ∨ ∀ j, j < n → P j := by
  rcases Nat.lt_or_ge n atExitFuncs with hlt | hge
  · rw [hlength, Nat.min_eq_right (Nat.le_of_lt hlt)]
    exact or_congr_left (by omega)
  · exact iff_of_true (.inl (by omega)) (.inl hge)

omit [DecidableEq F] in
theorem called_Exit (k : Kind) (ret : Int) (s : State F) :
    called k (_Exit ret s).trace = called k s.trace :=
  called_append s.trace [.terminated ret]

omit [DecidableEq F] in
theorem ends_of_agrees (h : Agrees k s es) (ret : Int) : Ends ret (_Exit ret s).trace :=
  ⟨s.trace, rfl, h.running⟩

/-- When the process ends with nothing pending, as many were called as were accepted. -/
theorem called_of_inReverse (h : Agrees k s es) {ret : Int}
    (hrev : InReverse k (_Exit ret s).trace) : called k s.trace = es.length := by
  obtain ⟨w, hw⟩ := Option.isSome_iff_exists.mp hrev
  have hlog := watched_log k s (.terminated ret)
  rw [watched] at hlog
  obtain ⟨w', hw', hend⟩ := Option.bind_eq_some_iff.mp (hlog.symm.trans hw)
  have hnil : w'.pending = [] := by
    by_contra hne
    simp [watch, hne] at hend
  have hcount := pending_of_exec hw'
  rw [hnil, h.accepted] at hcount
  simpa using hcount

theorem inReverse_of_watched (hw : watched k s = some ⟨[], n⟩) (ret : Int) :
    InReverse k (_Exit ret s).trace := by
  have hlog := watched_log k s (.terminated ret)
  rw [hw] at hlog
  exact Option.isSome_iff_exists.mpr ⟨_, hlog⟩

theorem exit_spec (script : Nat → List (Call F)) (ret : Int) (h : Agrees .atExit s fs)
    (hq : Agrees q s es) :
    ∃ s' new, exit script ret s = some (_Exit ret s') ∧
      runExitFuncs script .atExit fs.length s = some s' ∧
      Ran script .atExit q fs.length s s' es new := by
  obtain ⟨s', new, hrun, hran⟩ := ran_runExitFuncs script h hq (Nat.le_refl fs.length)
  exact ⟨s', new, by rw [exit, h.cur, hrun, Option.map_some], hrun, hran⟩

/-- The walk of `exit` starts at the number of handlers registered by then: what a handler
registers afterwards is never called. -/
theorem exit_in_reverse_iff (before : List (Call F)) (script : Nat → List (Call F)) (ret : Int) :
    (∃ s', exit script ret (started before) = some s' ∧ Ends ret s'.trace ∧
      InReverse .atExit s'.trace) ↔
    atExitFuncs ≤ registrations .atExit before ∨
      ∀ j, j < registrations .atExit before → registrations .atExit (script j) = 0 := by
  obtain ⟨es, hstart, hlength, hcalls, hcalled, hwatched⟩ := started_spec before .atExit
  have hquiet := quiet_iff hlength fun j => registrations .atExit (script j) = 0
  obtain ⟨s', new, hexit, hrun, hran⟩ := exit_spec script ret hstart hstart
  have hnil := hran.nil_iff
  simp only [hcalls, Nat.zero_add] at hnil
  rw [← hquiet, ← hnil]
  constructor
  · rintro ⟨t, ht, -, hrev⟩
    obtain rfl := Option.some.inj (hexit.symm.trans ht)
    have hall := called_of_inReverse hran.agrees hrev
    rw [hran.called, hcalled, if_pos rfl, List.length_append] at hall
    exact List.length_eq_zero_iff.mp (by omega)
  · intro hnew
    have hquiet' := hran.nil_iff.mp hnew
    obtain ⟨t, hrun', hdone⟩ := watched_runExitFuncs hstart (Nat.le_refl es.length) hquiet' hwatched
    obtain rfl := Option.some.inj (hrun.symm.trans hrun')
    exact ⟨_, hexit, ends_of_agrees hran.agrees ret, inReverse_of_watched hdone ret⟩

/-- The first handler called registers another one. -/
def registersAnother (n : Nat) : List (Call Nat) := if n = 0 then [(.atExit, 2)] else []

theorem late_handler_skipped :
    ¬∃ s', exit registersAnother 0 (started [(.atExit, 1)]) = some s' ∧ Ends 0 s'.trace ∧
      InReverse .atExit s'.trace := by
  rintro ⟨s', hexit, -, hrev⟩
  have hskipped : (exit registersAnother 0 (started [(.atExit, 1)])).map
      (fun s' => decide (InReverse .atExit s'.trace)) = some false := by decide
  rw [hexit] at hskipped
  exact of_decide_eq_false (Option.some.inj hskipped) hrev

/-- What `quick_exit` calls: the handlers of its own table, then those of the other one. -/
theorem quickExit_spec (script : Nat → List (Call F)) (ret : Int)
    (hq : Agrees .atQuickExit s es) (ha : Agrees .atExit s fs) :
    ∃ s₁ s₂ new new' late, quickExit script ret s = some (_Exit ret s₂) ∧
      runExitFuncs script .atQuickExit es.length s = some s₁ ∧
      runExitFuncs script .atExit (fs ++ new').length s₁ = some s₂ ∧
      Ran script .atQuickExit .atQuickExit es.length s s₁ es new ∧
      Ran script .atQuickExit .atExit es.length s s₁ fs new' ∧
      Agrees .atQuickExit s₂ (es ++ new ++ late) ∧
      called .atQuickExit s₂.trace = called .atQuickExit s.trace + es.length ∧
      called .atExit s₂.trace = called .atExit s.trace + (fs ++ new').length := by
  obtain ⟨s₁, new, hrun, hran⟩ := ran_runExitFuncs script hq hq (Nat.le_refl es.length)
  obtain ⟨t, new', hrun', hran'⟩ := ran_runExitFuncs script hq ha (Nat.le_refl es.length)
  obtain rfl := Option.some.inj (hrun.symm.trans hrun')
  obtain ⟨s₂, late, hexit, hrun₂, hran₂⟩ := exit_spec script ret hran'.agrees hran.agrees
  obtain ⟨t, late', -, hrun₂', hran₂'⟩ := exit_spec script ret hran'.agrees hran'.agrees
  obtain rfl := Option.some.inj (hrun₂.symm.trans hrun₂')
  refine ⟨s₁, s₂, new, new', late, ?_, hrun, hrun₂, hran, hran', hran₂.agrees, ?_, ?_⟩
  · rw [quickExit, hq.cur, hrun, Option.bind_some, hexit]
  · rw [hran₂.called, hran.called, if_pos rfl, if_neg (by decide), Nat.add_zero]
  · rw [hran₂'.called, hran'.called, if_neg (by decide), if_pos rfl, Nat.add_zero]

theorem exit_calls_no_quick (before : List (Call F)) (script : Nat → List (Call F)) (ret : Int) :
    ∃ s', exit script ret (started before) = some s' ∧ ∀ f, .called .atQuickExit f ∉ s'.trace := by
  obtain ⟨es, hstart, -, -, hcalled, -⟩ := started_spec before .atQuickExit
  obtain ⟨fs, hstart', -, -, -, -⟩ := started_spec before .atExit
  obtain ⟨s', new, hexit, -, hran⟩ := exit_spec script ret hstart' hstart
  refine ⟨_Exit ret s', hexit, ?_⟩
  rw [← called_eq_zero_iff, called_Exit, hran.called, hcalled, if_neg (by decide)]

/-- `quick_exit` ends through `exit`, which walks over the other table. -/
theorem quick_exit_separate_iff (before : List (Call F)) (script : Nat → List (Call F))
    (ret : Int) :
    ((∃ s', quickExit script ret (started before) = some s' ∧ Ends ret s'.trace ∧
        InReverse .atQuickExit s'.trace ∧ ∀ f, .called .atExit f ∉ s'.trace) ∧
      ∃ s', exit script ret (started before) = some s' ∧ ∀ f, .called .atQuickExit f ∉ s'.trace) ↔
    registrations .atExit before = 0 ∧
      (∀ j, j < min atExitFuncs (registrations .atQuickExit before) →
        registrations .atExit (script j) = 0) ∧
      (atExitFuncs ≤ registrations .atQuickExit before ∨
        ∀ j, j < registrations .atQuickExit before →
          registrations .atQuickExit (script j) = 0) := by
  obtain ⟨es, hstart, hlength, hcalls, hcalled, hwatched⟩ := started_spec before .atQuickExit
  obtain ⟨fs, hstart', hlength', -, hcalled', -⟩ := started_spec before .atExit
  obtain ⟨s₁, s₂, new, new', late, hquick, hrun, hrun₂, hran, hran', hagrees, hown, hother⟩ :=
    quickExit_spec script ret hstart hstart'
  have hquiet := quiet_iff hlength fun j => registrations .atQuickExit (script j) = 0
  have hnil := hran.nil_iff
  have hnil' := hran'.nil_iff
  simp only [hcalls, Nat.zero_add] at hnil hnil'
  have hnone : fs = [] ↔ registrations .atExit before = 0 := by
    rw [← List.length_eq_zero_iff, hlength']
    simp [atExitFuncs]
  rw [← hquiet, ← hnil, ← hlength, ← hnone, and_iff_left (exit_calls_no_quick before script ret)]
  constructor
  · rintro ⟨t, ht, -, hrev, hno⟩
    obtain rfl := Option.some.inj (hquick.symm.trans ht)
    rw [← called_eq_zero_iff, called_Exit, hother, hcalled', Nat.zero_add] at hno
    obtain ⟨rfl, rfl⟩ := List.append_eq_nil_iff.mp (List.length_eq_zero_iff.mp hno)
    have hall := called_of_inReverse hagrees hrev
    rw [hown, hcalled, List.length_append, List.length_append] at hall
    have hscripts := (hnil'.mp rfl).resolve_left (by simp [atExitFuncs])
    exact ⟨rfl, hscripts, List.length_eq_zero_iff.mp (by omega)⟩
  · rintro ⟨rfl, hscripts, hnew⟩
    obtain rfl := hnil'.mpr (.inr hscripts)
    -- nothing is left for the walk of `exit`
    obtain rfl : s₁ = s₂ := Option.some.inj hrun₂
    obtain ⟨t, hrun', hdone⟩ :=
      watched_runExitFuncs hstart (Nat.le_refl es.length) (hran.nil_iff.mp hnew) hwatched
    obtain rfl := Option.some.inj (hrun.symm.trans hrun')
    refine ⟨_, hquick, ends_of_agrees hagrees ret, inReverse_of_watched hdone ret, ?_⟩
    rw [← called_eq_zero_iff, called_Exit, hother, hcalled']
    rfl

theorem quick_exit_runs_atexit :
    ¬((∃ s', quickExit (fun _ => []) 0 (started [(.atExit, 1)]) = some s' ∧ Ends 0 s'.trace ∧
        InReverse .atQuickExit s'.trace ∧ ∀ f : Nat, .called .atExit f ∉ s'.trace) ∧
      ∃ s', exit (fun _ => []) 0 (started [(.atExit, 1)]) = some s' ∧
        ∀ f : Nat, .called .atQuickExit f ∉ s'.trace) := by
  rintro ⟨⟨s', hexit, -, -, hno⟩, -⟩
  have hcalled : (quickExit (fun _ => []) 0 (started [(.atExit, 1)])).map
      (fun s' => decide (.called .atExit 1 ∈ s'.trace)) = some true := by decide
  rw [hexit] at hcalled
  exact hno 1 (of_decide_eq_true (Option.some.inj hcalled))

end Exit

end ExitHandlers
