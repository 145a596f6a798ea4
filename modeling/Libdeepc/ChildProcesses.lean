import Libdeepc.Runs
import Mathlib.Data.List.AList

/-!
# `system` and the children of a process

`system` of `stdlib.c` with `fork` and `waitpid` of `unistd.c`, in several threads
of one process whose children end when they like. The kernel keeps a child until
its status has been asked for, unless the program ignores `SIGCHLD`; then there is
no status. The program may also ask for any child, whoever has made it. A status is
read with the macros of `sys/wait.h`.
-/

namespace ChildProcesses

open Runs

section Status

/-- How a child ends. A signal that ends it is one of 1 to 126. -/
inductive Outcome
  | exited (code : Int32)
  | signaled (sig : Fin 126) (coreDump : Bool)
  deriving DecidableEq

/-- `RRRRRRRRCSSSSSSS` -/
def Outcome.status : Outcome → Int32
  | exited code => (code &&& 0xff) <<< 8
  | signaled sig coreDump => Int32.ofNat (sig.val + 1) ||| if coreDump then 0x80 else 0

def WEXITSTATUS (stat : Int32) : Int32 := (stat >>> 8) &&& 0xff

def WTERMSIG (stat : Int32) : Int32 := stat &&& 0x7f

def WIFEXITED (stat : Int32) : Bool := WTERMSIG stat = 0

def WIFSIGNALED (stat : Int32) : Bool := (WTERMSIG stat + 1) &&& 0x7e ≠ 0

def WCOREDUMP (stat : Int32) : Bool := stat &&& 0x80 ≠ 0

def WIFSTOPPED (stat : Int32) : Bool := stat &&& 0xff = 0x7f

/-- What the macros make of the status of a child that has ended so. -/
def Outcome.Read (stat : Int32) : Outcome → Prop
  | exited code => WIFEXITED stat ∧ ¬WIFSIGNALED stat ∧ ¬WIFSTOPPED stat ∧
    (WEXITSTATUS stat).toInt = code.toInt % 256
  | signaled sig coreDump => ¬WIFEXITED stat ∧ WIFSIGNALED stat ∧ ¬WIFSTOPPED stat ∧
    (WTERMSIG stat).toInt = sig.val + 1 ∧ WCOREDUMP stat = coreDump

/-- The mask keeps the low byte. -/
theorem and_ff (code : Int32) :
    ∃ n : Fin 256, code &&& 0xff = Int32.ofNat n ∧ (n.val : Int) = code.toInt % 256 := by
  have hlt : code.toBitVec.toNat % 256 < 256 := Nat.mod_lt _ (by decide)
  refine ⟨⟨code.toBitVec.toNat % 256, hlt⟩, ?_, ?_⟩
  · apply Int32.toBitVec_inj.mp
    apply BitVec.eq_of_toNat_eq
    have hmask : (0xff : Int32).toBitVec.toNat = 2 ^ 8 - 1 := rfl
    rw [Int32.toBitVec_and, BitVec.toNat_and, hmask, Nat.and_two_pow_sub_one_eq_mod]
    change code.toBitVec.toNat % 2 ^ 8 = (BitVec.ofNat 32 (code.toBitVec.toNat % 256)).toNat
    rw [BitVec.toNat_ofNat]
    omega
  · have hcode : code.toInt = code.toBitVec.toInt := rfl
    have hbits := code.toBitVec.isLt
    change ((code.toBitVec.toNat % 256 : Nat) : Int) = _
    rw [hcode, BitVec.toInt_eq_toNat_cond]
    split <;> omega

theorem read_status (o : Outcome) : o.Read o.status := by
  cases o with
  | exited code =>
    obtain ⟨n, hcode, hn⟩ := and_ff code
    have hall : ∀ n : Fin 256, WIFEXITED (Int32.ofNat n <<< 8) ∧
        ¬WIFSIGNALED (Int32.ofNat n <<< 8) ∧ ¬WIFSTOPPED (Int32.ofNat n <<< 8) ∧
        (WEXITSTATUS (Int32.ofNat n <<< 8)).toInt = n.val := by decide +kernel
    rw [Outcome.Read, Outcome.status, hcode, ← hn]
    exact hall n
  | signaled sig coreDump =>
    revert sig coreDump
    unfold Outcome.Read
    decide +kernel

end Status

universe u
variable {T : Type u}

/-- The thread in whose `system` the child has been made, if any. -/
structure Child (T : Type u) where
  owner : Option T
  ended : Option Outcome

/-- Where a thread is in `system`. It waits for a child, or for any when `fork` has failed. -/
inductive Place
  | user
  | fork
  | wait (pid : Option Nat)
  deriving DecidableEq

/-- `rc` is `none` when `waitpid` has failed and nothing has been stored to it. -/
inductive Event
  | forked
  | ended (o : Outcome)
  | returned (rc : Option Int32)
  deriving DecidableEq

structure State (T : Type u) where
  place : T → Place
  children : AList fun _ : Nat => Child T
  history : T → List Event

inductive Act (T : Type u)
  | system (t : T)
  | fork (t : T) (pid : Option Nat)
  | ends (pid : Nat) (o : Outcome)
  | wait (t : T) (pid : Nat)
  | waitFails (t : T)
  | forkOther (pid : Nat)
  | waitOther (pid : Nat)
  | waitAnyOther (pid : Nat)
  | endsIgnored (pid : Nat) (o : Outcome)
  deriving DecidableEq

/-- No `fork` of a `system` fails, the program waits for its own children by their numbers, and
`SIGCHLD` is not ignored. -/
def Careful : Act T → Prop
  | .fork _ none | .waitAnyOther _ | .endsIgnored _ _ => False
  | _ => True

instance : DecidablePred (Careful (T := T))
  | .fork _ none | .waitAnyOther _ | .endsIgnored _ _ => isFalse not_false
  | .fork _ (some _) | .system _ | .ends _ _ | .wait _ _ | .waitFails _ | .forkOther _
  | .waitOther _ => isTrue trivial

def State.setChild (s : State T) (pid : Nat) (c : Child T) : State T :=
  { s with children := s.children.insert pid c }

def State.reap (s : State T) (pid : Nat) : State T :=
  { s with children := s.children.erase pid }

section Run

variable [DecidableEq T]

def State.setPlace (s : State T) (t : T) (p : Place) : State T :=
  { s with place := Function.update s.place t p }

def State.log (s : State T) (t : T) (e : Event) : State T :=
  { s with history := Function.update s.history t (s.history t ++ [e]) }

/-- The program also makes children of its own. -/
def step (s : State T) : Act T → Option (State T)
  | .system t => if s.place t = .user then some (s.setPlace t .fork) else none
  | .fork t none => if s.place t = .fork then some (s.setPlace t (.wait none)) else none
  | .fork t (some pid) =>
    if s.place t = .fork ∧ s.children.lookup pid = none then
      some (((s.setPlace t (.wait (some pid))).setChild pid ⟨some t, none⟩).log t .forked)
    else none
  | .ends pid o => match s.children.lookup pid with
    | some ⟨none, none⟩ => some (s.setChild pid ⟨none, some o⟩)
    | some ⟨some t, none⟩ => some ((s.setChild pid ⟨some t, some o⟩).log t (.ended o))
    | _ => none
  | .wait t pid => match s.children.lookup pid with
    | some ⟨_, some o⟩ =>
      if s.place t = .wait (some pid) ∨ s.place t = .wait none then
        some (((s.setPlace t .user).reap pid).log t (.returned (some o.status)))
      else none
    | _ => none
  | .waitFails t => match s.place t with
    | .wait (some pid) =>
      if s.children.lookup pid = none then some ((s.setPlace t .user).log t (.returned none))
      else none
    | .wait none =>
      if s.children.entries = [] then some ((s.setPlace t .user).log t (.returned none)) else none
    | _ => none
  | .forkOther pid =>
    if s.children.lookup pid = none then some (s.setChild pid ⟨none, none⟩) else none
  | .waitOther pid => match s.children.lookup pid with
    | some ⟨none, some _⟩ => some (s.reap pid)
    | _ => none
  | .waitAnyOther pid => match s.children.lookup pid with
    | some ⟨_, some _⟩ => some (s.reap pid)
    | _ => none
  | .endsIgnored pid o => match s.children.lookup pid with
    | some ⟨none, none⟩ => some (s.reap pid)
    | some ⟨some t, none⟩ => some ((s.reap pid).log t (.ended o))
    | _ => none

end Run

def initial (T : Type u) : State T where
  place _ := .user
  children := ∅
  history _ := []

section Threads

variable {s s' : State T} {t w : T} {pid : Nat} {o : Outcome}

/-- A status, and what the macros make of it. -/
def Tells (rc : Int32) (o : Outcome) : Prop := rc = o.status ∧ o.Read rc

/-- A thread has been told of each child of its own how that child ended. -/
inductive Rounds : List Event → Prop
  | nil : Rounds []
  | round {h : List Event} {o : Outcome} {rc : Int32} :
    Rounds h → Tells rc o → Rounds (h ++ [.forked, .ended o, .returned (some rc)])

/-- A thread outside of `waitpid` has no child, and one that waits has the one that it waits for. -/
def Stands (s : State T) (t : T) : Place → Prop
  | .user | .fork =>
    Rounds (s.history t) ∧ ∀ pid e, s.children.lookup pid ≠ some ⟨some t, e⟩
  | .wait (some pid) =>
    (∃ h e, Rounds h ∧ s.children.lookup pid = some ⟨some t, e⟩ ∧
      s.history t = h ++ .forked :: (e.map .ended).toList) ∧
    ∀ pid' e, s.children.lookup pid' = some ⟨some t, e⟩ → pid' = pid
  | .wait none => False

/-- A step that is not about a thread leaves it where it stands. -/
theorem Stands.frame {p : Place} (h : Stands s w p) (hhistory : s'.history w = s.history w)
    (hchildren : ∀ pid e, s'.children.lookup pid = some ⟨some w, e⟩ ↔
      s.children.lookup pid = some ⟨some w, e⟩) : Stands s' w p := by
  cases p with
  | user | fork =>
    refine ⟨hhistory ▸ h.1, fun pid e hc => h.2 pid e ((hchildren pid e).mp hc)⟩
  | wait pid =>
    cases pid with
    | none => exact h
    | some pid =>
      obtain ⟨⟨past, e, hrounds, hchild, hhist⟩, honly⟩ := h
      refine ⟨⟨past, e, hrounds, (hchildren pid e).mpr hchild, hhistory.trans hhist⟩, ?_⟩
      exact fun pid' e hc => honly pid' e ((hchildren pid' e).mp hc)

variable {c : Child T} {e : Option Outcome}

/-- The children of others are another matter. -/
theorem lookup_setChild_iff (hold : ∀ c', s.children.lookup pid = some c' → c'.owner ≠ some w)
    (hc : c.owner ≠ some w) (pid' : Nat) :
    (s.setChild pid c).children.lookup pid' = some ⟨some w, e⟩ ↔
      s.children.lookup pid' = some ⟨some w, e⟩ := by
  by_cases hp : pid' = pid
  · subst hp
    rw [State.setChild, AList.lookup_insert]
    constructor
    · intro h
      cases h
      exact absurd rfl hc
    · intro h
      exact absurd rfl (hold _ h)
  · rw [State.setChild, AList.lookup_insert_ne hp]

theorem lookup_reap_iff (hold : ∀ c', s.children.lookup pid = some c' → c'.owner ≠ some w)
    (pid' : Nat) : (s.reap pid).children.lookup pid' = some ⟨some w, e⟩ ↔
      s.children.lookup pid' = some ⟨some w, e⟩ := by
  by_cases hp : pid' = pid
  · subst hp
    rw [State.reap, AList.lookup_erase]
    constructor
    · intro h
      cases h
    · intro h
      exact absurd rfl (hold _ h)
  · rw [State.reap, AList.lookup_erase_ne hp]

/-- As long as all is done with care. -/
def Inv (s : State T) : Prop := ∀ t, Stands s t (s.place t)

theorem inv_initial : Inv (initial T) :=
  fun _ => ⟨.nil, fun _ _ h => by cases h⟩

/-- What a step does to the threads that it is not about. -/
theorem Inv.others (h : Inv s) (hplace : s'.place w = s.place w)
    (hhistory : s'.history w = s.history w)
    (hchildren : ∀ pid e, s'.children.lookup pid = some ⟨some w, e⟩ ↔
      s.children.lookup pid = some ⟨some w, e⟩) : Stands s' w (s'.place w) :=
  hplace ▸ (h w).frame hhistory hchildren

theorem inv_ends_other (h : Inv s) (hc : s.children.lookup pid = some ⟨none, none⟩) (o : Outcome) :
    Inv (s.setChild pid ⟨none, some o⟩) := by
  intro w
  refine h.others rfl rfl fun pid' e => lookup_setChild_iff (fun c' hc' => ?_) (by simp) pid'
  rw [hc] at hc'
  cases hc'
  simp

theorem inv_forkOther (h : Inv s) (hfresh : s.children.lookup pid = none) :
    Inv (s.setChild pid ⟨none, none⟩) := by
  intro w
  refine h.others rfl rfl fun pid' e => lookup_setChild_iff (fun c' hc' => ?_) (by simp) pid'
  rw [hfresh] at hc'
  cases hc'

theorem inv_waitOther (h : Inv s) {e : Option Outcome}
    (hc : s.children.lookup pid = some ⟨none, e⟩) : Inv (s.reap pid) := by
  intro w
  refine h.others rfl rfl fun pid' e => lookup_reap_iff (fun c' hc' => ?_) pid'
  rw [hc] at hc'
  cases hc'
  simp

end Threads

section Steps

variable [DecidableEq T] {s s' : State T} {t w : T} {pid : Nat} {o : Outcome}

theorem inv_system (h : Inv s) (ht : s.place t = .user) : Inv (s.setPlace t .fork) := by
  intro w
  by_cases hwt : w = t
  · subst hwt
    have hw := h w
    rw [ht] at hw
    have hplace : (s.setPlace w .fork).place w = .fork := Function.update_self ..
    rw [hplace]
    exact hw
  · exact h.others (Function.update_of_ne hwt ..) rfl fun _ _ => Iff.rfl

theorem inv_fork (h : Inv s) (ht : s.place t = .fork) (hfresh : s.children.lookup pid = none) :
    Inv (((s.setPlace t (.wait (some pid))).setChild pid ⟨some t, none⟩).log t .forked) := by
  intro w
  by_cases hwt : w = t
  · subst hwt
    have hw := h w
    rw [ht] at hw
    obtain ⟨hrounds, hnone⟩ := hw
    have hplace : (((s.setPlace w (.wait (some pid))).setChild pid ⟨some w, none⟩).log w
        .forked).place w = .wait (some pid) := Function.update_self ..
    rw [hplace]
    refine ⟨⟨s.history w, none, hrounds, AList.lookup_insert _, Function.update_self ..⟩, ?_⟩
    intro pid' e hc
    by_contra hne
    have hold : s.children.lookup pid' = some ⟨some w, e⟩ := by
      rw [← hc]
      exact (AList.lookup_insert_ne hne).symm
    exact hnone pid' e hold
  · refine h.others (Function.update_of_ne hwt ..) (Function.update_of_ne hwt ..) fun pid' e => ?_
    refine lookup_setChild_iff (s := s.setPlace t (.wait (some pid))) ?_ ?_ pid'
    · intro c' hc'
      have hnone : some c' = none := hc'.symm.trans hfresh
      cases hnone
    · intro hsame
      exact hwt (Option.some.inj hsame).symm

/-- A child of a `system` ends: the thread waits for it. -/
theorem inv_ends (h : Inv s) (hc : s.children.lookup pid = some ⟨some t, none⟩) (o : Outcome) :
    Inv ((s.setChild pid ⟨some t, some o⟩).log t (.ended o)) := by
  intro w
  by_cases hwt : w = t
  · subst hwt
    have hw := h w
    have hplace : ((s.setChild pid ⟨some w, some o⟩).log w (.ended o)).place w = s.place w := rfl
    rw [hplace]
    cases hp : s.place w with
    | user | fork =>
      rw [hp] at hw
      exact absurd hc (hw.2 pid none)
    | wait q =>
      cases q with
      | none =>
        rw [hp] at hw
        exact hw.elim
      | some q =>
        rw [hp] at hw
        obtain ⟨⟨past, e, hrounds, hchild, hhist⟩, honly⟩ := hw
        obtain rfl := honly pid none hc
        rw [hc] at hchild
        cases hchild
        have hlog : ((s.setChild pid ⟨some w, some o⟩).log w (.ended o)).history w =
            s.history w ++ [.ended o] := Function.update_self ..
        refine ⟨⟨past, some o, hrounds, AList.lookup_insert _, ?_⟩, fun pid' e hc' => ?_⟩
        · rw [hlog, hhist]
          simp
        · by_contra hne
          have hold : s.children.lookup pid' = some ⟨some w, e⟩ := by
            rw [← hc']
            exact (AList.lookup_insert_ne hne).symm
          exact hne (honly pid' e hold)
  · have hne : some t ≠ some w := fun hsame => hwt (Option.some.inj hsame).symm
    refine h.others rfl (Function.update_of_ne hwt ..) fun pid' e => ?_
    refine lookup_setChild_iff (fun c' hc' => ?_) hne pid'
    rw [hc] at hc'
    cases hc'
    exact hne

/-- A thread is told of its child. -/
theorem inv_wait (h : Inv s) {owner : Option T} (hc : s.children.lookup pid = some ⟨owner, some o⟩)
    (ht : s.place t = .wait (some pid) ∨ s.place t = .wait none) :
    Inv (((s.setPlace t .user).reap pid).log t (.returned (some o.status))) := by
  have hst := h t
  rcases ht with ht | ht
  · rw [ht] at hst
    obtain ⟨⟨past, e, hrounds, hchild, hhist⟩, honly⟩ := hst
    rw [hc] at hchild
    cases hchild
    intro w
    by_cases hwt : w = t
    · subst hwt
      have hplace : (((s.setPlace w .user).reap pid).log w (.returned (some o.status))).place w =
          .user := Function.update_self ..
      have hlog : (((s.setPlace w .user).reap pid).log w (.returned (some o.status))).history w =
          past ++ [.forked, .ended o, .returned (some o.status)] := by
        refine (Function.update_self ..).trans ?_
        change s.history w ++ _ = _
        rw [hhist]
        simp
      rw [hplace]
      refine ⟨hlog ▸ hrounds.round ⟨rfl, read_status o⟩, fun pid' e hc' => ?_⟩
      by_cases hp : pid' = pid
      · subst hp
        have hgone : (s.children.erase pid').lookup pid' = none := AList.lookup_erase ..
        cases hgone.symm.trans hc'
      · have hold : s.children.lookup pid' = some ⟨some w, e⟩ := by
          rw [← hc']
          exact (AList.lookup_erase_ne hp).symm
        exact hp (honly pid' e hold)
    · have hne : some t ≠ some w := fun hsame => hwt (Option.some.inj hsame).symm
      refine h.others (Function.update_of_ne hwt ..) (Function.update_of_ne hwt ..)
        fun pid' e => lookup_reap_iff (s := s.setPlace t .user) (fun c' hc' => ?_) pid'
      have hsame : some c' = some ⟨some t, some o⟩ := hc'.symm.trans hc
      cases hsame
      exact hne
  · rw [ht] at hst
    exact hst.elim

theorem step_inv {a : Act T} (h : Inv s) (ha : Careful a) (hs : step s a = some s') :
    Inv s' := by
  cases a with
  | system t =>
    obtain ⟨ht, hs⟩ := Option.ite_none_right_eq_some.mp hs
    obtain rfl := Option.some.inj hs
    exact inv_system h ht
  | fork t pid =>
    cases pid with
    | none => exact ha.elim
    | some pid =>
      obtain ⟨⟨ht, hfresh⟩, hs⟩ := Option.ite_none_right_eq_some.mp hs
      obtain rfl := Option.some.inj hs
      exact inv_fork h ht hfresh
  | ends pid o =>
    simp only [step] at hs
    split at hs
    · next hc =>
      obtain rfl := Option.some.inj hs
      exact inv_ends_other h hc o
    · next t hc =>
      obtain rfl := Option.some.inj hs
      exact inv_ends h hc o
    · cases hs
  | wait t pid =>
    simp only [step] at hs
    split at hs
    · next owner o hc =>
      obtain ⟨ht, hs⟩ := Option.ite_none_right_eq_some.mp hs
      obtain rfl := Option.some.inj hs
      exact inv_wait h hc ht
    · cases hs
  | waitFails t =>
    have hst := h t
    simp only [step] at hs
    split at hs
    · next pid hp =>
      rw [hp] at hst
      obtain ⟨hnone, _⟩ := Option.ite_none_right_eq_some.mp hs
      obtain ⟨⟨past, e, _, hchild, _⟩, _⟩ := hst
      cases hnone.symm.trans hchild
    · next hp =>
      rw [hp] at hst
      exact hst.elim
    · cases hs
  | forkOther pid =>
    obtain ⟨hfresh, hs⟩ := Option.ite_none_right_eq_some.mp hs
    obtain rfl := Option.some.inj hs
    exact inv_forkOther h hfresh
  | waitOther pid =>
    simp only [step] at hs
    split at hs
    · next hc =>
      obtain rfl := Option.some.inj hs
      exact inv_waitOther h hc
    · cases hs
  | waitAnyOther pid => exact ha.elim
  | endsIgnored pid o => exact ha.elim

theorem inv_of_run (acts : List (Act T)) (s : State T) (hcareful : ∀ a ∈ acts, Careful a)
    (h : exec step (initial T) acts = some s) : Inv s :=
  inv_of_exec (fun _ _ _ hi ha hs => step_inv hi ha hs) inv_initial
    (along_of_forall hcareful (initial T)) h

/-- Where all is done with care, every `system` of every thread returns the status with which its
own child has ended. None of these children is left behind. -/
theorem system_own (acts : List (Act T)) (s : State T) (hcareful : ∀ a ∈ acts, Careful a)
    (h : exec step (initial T) acts = some s) (t : T) : Stands s t (s.place t) :=
  inv_of_run acts s hcareful h t

/-- Two threads and a child of the program's own. -/
def twoCommands (t u : Fin 2) : List (Act (Fin 2)) :=
  [.system t, .forkOther 12, .fork t (some 10), .system u, .fork u (some 11),
    .ends 11 (.exited 259), .ends 12 (.exited 0), .wait u 11, .waitOther 12, .system u]

theorem system_own_two : ∃ s : State (Fin 2),
    s.history 1 = [.forked, .ended (.exited 259), .returned (some 0x300)] ∧
      s.place 0 = .wait (some 10) ∧ Stands s 0 (s.place 0) := by
  have hrun : (exec step (initial (Fin 2)) (twoCommands 0 1)).map
      (fun s => (s.history 1, s.place 0)) =
      some ([.forked, .ended (.exited 259), .returned (some 0x300)], .wait (some 10)) := by
    decide +kernel
  obtain ⟨s, hexec, hs⟩ := Option.map_eq_some_iff.mp hrun
  obtain ⟨hhist, hplace⟩ := Prod.mk.injEq .. ▸ hs
  exact ⟨s, hhist, hplace, system_own (twoCommands 0 1) s (by decide) hexec 0⟩

theorem exec_takes {u : T} (hne : t ≠ u) (ht : s.place t = .wait (some pid))
    (hu : s.place u = .fork) (hc : s.children.lookup pid = some ⟨some t, some o⟩) :
    ∃ s', exec step s [.fork u none, .wait u pid, .waitFails t] = some s' ∧
      s'.history u = s.history u ++ [.returned (some o.status)] ∧
      s'.history t = s.history t ++ [.returned none] := by
  have hfork : step s (.fork u none) = some (s.setPlace u (.wait none)) := if_pos hu
  have hwait : step (s.setPlace u (.wait none)) (.wait u pid) =
      some ((((s.setPlace u (.wait none)).setPlace u .user).reap pid).log u
        (.returned (some o.status))) := by
    have hlookup : (s.setPlace u (.wait none)).children.lookup pid = some ⟨some t, some o⟩ := hc
    simp only [step, hlookup]
    exact if_pos (.inr (Function.update_self ..))
  have hplace : ((((s.setPlace u (.wait none)).setPlace u .user).reap pid).log u
      (.returned (some o.status))).place t = .wait (some pid) := by
    refine (Function.update_of_ne hne ..).trans ?_
    exact (Function.update_of_ne hne ..).trans ht
  have hfails : ∃ s', step ((((s.setPlace u (.wait none)).setPlace u .user).reap pid).log u
      (.returned (some o.status))) (.waitFails t) = some s' ∧
      s'.history u = s.history u ++ [.returned (some o.status)] ∧
      s'.history t = s.history t ++ [.returned none] := by
    have hgone : ((((s.setPlace u (.wait none)).setPlace u .user).reap pid).log u
        (.returned (some o.status))).children.lookup pid = none := AList.lookup_erase ..
    simp only [step, hplace, hgone, if_true]
    refine ⟨_, rfl, ?_, ?_⟩
    · exact (Function.update_of_ne hne.symm ..).trans (Function.update_self ..)
    · refine (Function.update_self ..).trans ?_
      exact congrArg (· ++ _) (Function.update_of_ne hne ..)
  obtain ⟨s', hstep, hhist⟩ := hfails
  refine ⟨s', ?_, hhist⟩
  rw [exec_cons, hfork, Option.bind_some, exec_cons, hwait, Option.bind_some, exec_cons, hstep]
  rfl

/-- Why `system` should look at what `fork` returns: wherever one thread waits for its child and
another one is about to fork, a first `fork` that fails can cost the waiting one the status of this
child. -/
theorem failed_fork_takes (acts : List (Act T)) (s : State T) (hcareful : ∀ a ∈ acts, Careful a)
    (h : exec step (initial T) acts = some s) (t u : T) (pid : Nat)
    (ht : s.place t = .wait (some pid)) (hu : s.place u = .fork) :
    ∃ more s' past o, exec step s more = some s' ∧ .fork u none ∈ more ∧
      s'.history u = s.history u ++ [.returned (some o.status)] ∧ Rounds past ∧
      s'.history t = past ++ [.forked, .ended o, .returned none] := by
  have hne : t ≠ u := by
    rintro rfl
    rw [ht] at hu
    cases hu
  have hst := inv_of_run acts s hcareful h t
  rw [ht] at hst
  obtain ⟨⟨past, e, hrounds, hchild, hhist⟩, _⟩ := hst
  cases e with
  | some o =>
    obtain ⟨s', hexec, hu', ht'⟩ := exec_takes hne ht hu hchild
    refine ⟨_, s', past, o, hexec, List.mem_cons_self, hu', hrounds, ?_⟩
    rw [ht', hhist]
    simp
  | none =>
    -- the child ends first
    have hends : step s (.ends pid (.exited 0)) =
        some ((s.setChild pid ⟨some t, some (.exited 0)⟩).log t (.ended (.exited 0))) := by
      simp only [step, hchild]
    obtain ⟨s', hexec, hu', ht'⟩ := exec_takes
      (s := (s.setChild pid ⟨some t, some (.exited 0)⟩).log t (.ended (.exited 0)))
      (o := .exited 0) hne ht hu (AList.lookup_insert _)
    refine ⟨.ends pid (.exited 0) :: [.fork u none, .wait u pid, .waitFails t], s', past,
      .exited 0, ?_, ?_, ?_, hrounds, ?_⟩
    · rw [exec_cons, hends]
      exact hexec
    · simp
    · rw [hu']
      exact congrArg (· ++ _) (Function.update_of_ne hne.symm ..)
    · rw [ht']
      have hlog : ((s.setChild pid ⟨some t, some (.exited 0)⟩).log t
          (.ended (.exited 0))).history t = s.history t ++ [.ended (.exited 0)] :=
        Function.update_self ..
      rw [hlog, hhist]
      simp

/-- Thread 1 is about to fork while thread 0 waits. -/
theorem failed_fork_takes_two : ∃ s : State (Fin 2), s.place 1 = .fork ∧
    ∃ more s' past o, exec step s more = some s' ∧ .fork 1 none ∈ more ∧
      s'.history 1 = s.history 1 ++ [.returned (some o.status)] ∧ Rounds past ∧
      s'.history 0 = past ++ [.forked, .ended o, .returned none] := by
  have hrun : (exec step (initial (Fin 2)) ((twoCommands 0 1).take 4)).map
      (fun s => (s.place 0, s.place 1)) = some (.wait (some 10), .fork) := by decide +kernel
  obtain ⟨s, hexec, hs⟩ := Option.map_eq_some_iff.mp hrun
  obtain ⟨h₀, h₁⟩ := Prod.mk.injEq .. ▸ hs
  exact ⟨s, h₁, failed_fork_takes ((twoCommands 0 1).take 4) s (by decide) hexec 0 1 10 h₀ h₁⟩

end Steps

end ChildProcesses
