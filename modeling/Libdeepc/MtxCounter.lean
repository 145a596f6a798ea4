import Libdeepc.LockDiscipline
import Libdeepc.Runs
import Mathlib.Algebra.BigOperators.Group.Finset.Basic
import Mathlib.Data.Fintype.Card
import Mathlib.Logic.Function.Iterate

/-!
# A counter behind a mutex

`mtx_lock` spins on a flag that one exchange tests and sets, and `mtx_unlock`
clears it. The threads of `threads2-test.c` go through a loop in which they read a
variable and write it back between the two. `work` is what they compute.
-/

namespace MtxCounter

open LockDiscipline Runs

universe u v
variable {T : Type u} [DecidableEq T] {α : Type v}

/-- Where a thread is in `adder`. -/
inductive Place (α : Type v)
  | testCount
  -- __spinlock_lock, by mtx_lock and mtx_trylock
  | testAndSet
  | load
  | store (b : α)
  -- __spinlock_unlock, by mtx_unlock
  | clear
  | done

structure Thread (α : Type v) where
  place : Place α
  i : Nat

structure State (T : Type u) (α : Type v) where
  spin : Bool
  a : α
  threads : T → Thread α

/-- One access of a thread to what the threads share. -/
def advance (work : α → α) (count : Nat) (spin : Bool) (a : α) (th : Thread α) :
    Option (Bool × α × Thread α) :=
  match th.place with
  | .testCount => some (spin, a, { th with place := if th.i < count then .testAndSet else .done })
  | .testAndSet => some (true, a, { th with place := if spin then .testAndSet else .load })
  | .load => some (spin, a, { th with place := .store a })
  | .store b => some (spin, work b, { th with place := .clear })
  | .clear => some (false, a, ⟨.testCount, th.i + 1⟩)
  | .done => none

/-- Thread `t` has gone on. -/
def moved (s : State T α) (t : T) (spin : Bool) (a : α) (th : Thread α) : State T α :=
  ⟨spin, a, Function.update s.threads t th⟩

def step (work : α → α) (count : Nat) (s : State T α) (t : T) : Option (State T α) :=
  (advance work count s.spin s.a (s.threads t)).map fun (spin, a, th) => moved s t spin a th

/-- The mutex is initialized, and all threads begin. -/
def initial (T : Type u) (a : α) : State T α := ⟨false, a, fun _ => ⟨.testCount, 0⟩⟩

/-- Between `mtx_lock` and the end of `mtx_unlock`. -/
def Place.inside : Place α → Bool
  | load | store _ | clear => true
  | testCount | testAndSet | done => false

/-- What the function of `threads2-test.c` writes back. -/
def adder (b : Int32) : Int32 :=
  if b = -1 then b + 3 else if b = -2 then b + 2 else b + 1

/-- The rounds in which this thread has written. -/
def Thread.written (th : Thread α) : Nat := match th.place with
  | .clear => th.i + 1
  | _ => th.i

def view (s : State T α) : View T := ⟨s.spin, fun t => (s.threads t).place.inside⟩

def lockKind (spin : Bool) : Place α → Kind
  | .testAndSet => if spin then .stay else .acquire
  | .clear => .release
  | _ => .stay

/-- What a thread relies on: the value that it has read is still there, and the rounds are
counted. -/
def Ready (count : Nat) (a : α) (th : Thread α) : Prop := match th.place with
  | .testCount => th.i ≤ count
  | .testAndSet | .load | .clear => th.i < count
  | .store b => b = a ∧ th.i < count
  | .done => th.i = count

section Advance

variable {work : α → α} {count : Nat} {spin spin' : Bool} {a a' : α} {th th' : Thread α}

theorem advance_turn (h : advance work count spin a th = some (spin', a', th')) :
    Turn spin th.place.inside spin' th'.place.inside (lockKind spin th.place) := by
  cases hp : th.place with
  | testAndSet =>
    simp only [advance, hp] at h
    cases h
    cases spin with
    | true => exact .stay rfl rfl
    | false => exact .acquire rfl rfl
  | clear =>
    simp only [advance, hp] at h
    cases h
    exact .release rfl rfl
  | testCount =>
    simp only [advance, hp] at h
    cases h
    refine .stay rfl ?_
    split <;> rfl
  | load | store b =>
    simp only [advance, hp] at h
    cases h
    exact .stay rfl rfl
  | done =>
    simp only [advance, hp] at h
    cases h

/-- A step does not write, or it is the one write of a round, by a thread inside. -/
theorem advance_written (h : advance work count spin a th = some (spin', a', th'))
    (hr : Ready count a th) : Ready count a' th' ∧
      (a' = a ∧ th'.written = th.written ∨
        th.place.inside = true ∧ a' = work a ∧ th'.written = th.written + 1) := by
  cases hp : th.place with
  | testCount =>
    simp only [Ready, hp] at hr
    simp only [advance, hp] at h
    cases h
    split
    · rename_i hmore
      refine ⟨hmore, .inl ⟨rfl, ?_⟩⟩
      simp only [Thread.written, hp]
    · rename_i hlast
      refine ⟨Nat.le_antisymm hr (Nat.not_lt.mp hlast), .inl ⟨rfl, ?_⟩⟩
      simp only [Thread.written, hp]
  | testAndSet =>
    simp only [Ready, hp] at hr
    simp only [advance, hp] at h
    cases h
    cases spin with
    | true =>
      refine ⟨hr, .inl ⟨rfl, ?_⟩⟩
      simp only [Thread.written, hp, if_true]
    | false =>
      refine ⟨hr, .inl ⟨rfl, ?_⟩⟩
      simp only [Thread.written, hp, Bool.false_eq_true, if_false]
  | load =>
    simp only [Ready, hp] at hr
    simp only [advance, hp] at h
    cases h
    refine ⟨⟨rfl, hr⟩, .inl ⟨rfl, ?_⟩⟩
    simp only [Thread.written, hp]
  | store b =>
    simp only [Ready, hp] at hr
    simp only [advance, hp] at h
    cases h
    obtain ⟨rfl, hmore⟩ := hr
    refine ⟨hmore, .inr ⟨rfl, rfl, ?_⟩⟩
    simp only [Thread.written, hp]
  | clear =>
    simp only [Ready, hp] at hr
    simp only [advance, hp] at h
    cases h
    refine ⟨hr, .inl ⟨rfl, ?_⟩⟩
    simp only [Thread.written, hp]
  | done =>
    simp only [advance, hp] at h
    cases h

end Advance

/-- `writes` lists the threads in the order in which they have written. -/
structure Inv (work : α → α) (count : Nat) (a₀ : α) (s : State T α) (writes : List T) : Prop where
  guarded : Guarded (view s)
  ready : ∀ t, Ready count s.a (s.threads t)
  value : s.a = work^[writes.length] a₀
  counted : ∀ t, writes.count t = (s.threads t).written

section Step

variable {work : α → α} {count : Nat} {a₀ : α} {s s' : State T α} {t : T} {writes : List T}

theorem step_advance (h : step work count s t = some s') : ∃ spin a th,
    advance work count s.spin s.a (s.threads t) = some (spin, a, th) ∧
      s' = moved s t spin a th := by
  obtain ⟨⟨spin, a, th⟩, hadv, hs'⟩ := Option.map_eq_some_iff.mp h
  exact ⟨spin, a, th, hadv, hs'.symm⟩

/-- The mutex is not initialized again. -/
theorem lockKind_ne_reset (spin : Bool) (p : Place α) : lockKind spin p ≠ .reset := by
  intro h
  cases p with
  | testAndSet => cases spin <;> cases h
  | _ => cases h

theorem inv_step (hi : Inv work count a₀ s writes) (h : step work count s t = some s') :
    ∃ writes', Inv work count a₀ s' writes' := by
  obtain ⟨spin, a, th, hadv, rfl⟩ := step_advance h
  have hself : (moved s t spin a th).threads t = th := Function.update_self ..
  have hother : ∀ u, u ≠ t → (moved s t spin a th).threads u = s.threads u :=
    fun u hu => Function.update_of_ne hu ..
  have hmoves : Moves t (lockKind s.spin (s.threads t).place) (view s)
      (view (moved s t spin a th)) := by
    refine ⟨?_, fun u hu => ?_⟩
    · simp only [view, hself]
      exact advance_turn hadv
    · simp only [view, hother u hu]
  have hguarded := hi.guarded.step hmoves fun hreset => absurd hreset (lockKind_ne_reset _ _)
  obtain ⟨hready, hwrite⟩ := advance_written hadv (hi.ready t)
  rcases hwrite with ⟨rfl, hsame⟩ | ⟨hin, rfl, hmore⟩
  · refine ⟨writes, hguarded, fun u => ?_, hi.value, fun u => ?_⟩
    · by_cases hu : u = t
      · subst hu
        rwa [hself]
      · rw [hother u hu]
        exact hi.ready u
    · by_cases hu : u = t
      · subst hu
        rw [hself, hsame]
        exact hi.counted u
      · rw [hother u hu]
        exact hi.counted u
  · refine ⟨t :: writes, hguarded, fun u => ?_, ?_, fun u => ?_⟩
    · by_cases hu : u = t
      · subst hu
        rwa [hself]
      · -- a thread outside relies on no value
        have hout : (s.threads u).place.inside = false := hi.guarded.others_out hin hu
        have hready' := hi.ready u
        rw [hother u hu]
        revert hready' hout
        cases hp : (s.threads u).place with
        | load | store b | clear => exact nofun
        | testCount | testAndSet | done =>
          intro _ hready'
          simp only [Ready, hp] at hready' ⊢
          exact hready'
    · rw [List.length_cons, Function.iterate_succ_apply', ← hi.value]
      rfl
    · by_cases hu : u = t
      · subst hu
        rw [hself, hmore, List.count_cons_self, hi.counted u]
      · rw [hother u hu, List.count_cons_of_ne (Ne.symm hu), hi.counted u]

theorem inv_initial (work : α → α) (count : Nat) (a₀ : α) :
    Inv work count a₀ (initial T a₀) [] where
  guarded := guarded_of_vacant fun _ => rfl
  ready _ := Nat.zero_le count
  value := rfl
  counted _ := List.count_nil

theorem inv_of_run {acts : List T} (h : exec (step work count) (initial T a₀) acts = some s) :
    ∃ writes, Inv work count a₀ s writes := by
  refine inv_of_exec (I := fun s => ∃ writes, Inv work count a₀ s writes) (Q := fun _ _ => True)
    (fun s t s' hi _ hs => ?_) ⟨[], inv_initial work count a₀⟩
    (along_of_forall (p := fun _ => True) (fun _ _ => trivial) _) h
  obtain ⟨writes, hi⟩ := hi
  exact inv_step hi hs

end Step

section Counted

variable [Fintype T] {work : α → α} {count : Nat} {a₀ : α} {s : State T α} {writes : List T}

theorem sum_written (hi : Inv work count a₀ s writes) :
    ∑ t, (s.threads t).written = writes.length := by
  have hcard : ∑ t : T, Multiset.count t writes = Multiset.card (writes : Multiset T) :=
    Multiset.sum_count_eq_card fun t _ => Finset.mem_univ t
  simpa only [Multiset.coe_count, hi.counted, Multiset.coe_card] using hcard

theorem value_of_done (hi : Inv work count a₀ s writes)
    (hdone : ∀ t, (s.threads t).place = .done) : s.a = work^[Fintype.card T * count] a₀ := by
  have hrounds : ∀ t ∈ Finset.univ, (s.threads t).written = count := by
    intro t _
    have hready := hi.ready t
    rw [Ready, hdone t] at hready
    rw [Thread.written, hdone t]
    exact hready
  rw [hi.value, ← sum_written hi, Finset.sum_const_nat hrounds]
  rfl

end Counted

/-- From 0 on, below the end of `int`, the function counts. -/
theorem adder_iterate {n : Nat} (hn : n < 2 ^ 31) : adder^[n] 0 = Int32.ofNat n := by
  induction n with
  | zero => rfl
  | succ n ih =>
    have hnat : (Int32.ofNat n).toInt = n := Int32.toInt_ofNat_of_lt (by omega)
    have hne : ∀ x : Int32, x.toInt < 0 → Int32.ofNat n ≠ x := by
      rintro x hx rfl
      omega
    rw [Function.iterate_succ_apply', ih (by omega), adder, if_neg (hne _ (by decide)),
      if_neg (hne _ (by decide)), Int32.ofNat_add]
    rfl

/-- However the threads interleave: one at a time is between `mtx_lock` and `mtx_unlock`, and no
write is lost on the way. When all threads are done, the variable has been counted up once for
each round of each thread. -/
theorem no_write_lost [Fintype T] (count : Nat) (acts : List T) (s : State T Int32)
    (hroom : Fintype.card T * count < 2 ^ 31)
    (h : exec (step adder count) (initial T 0) acts = some s) :
    Exclusive (view s) ∧ s.a = adder^[∑ t, (s.threads t).written] 0 ∧
      ((∀ t, (s.threads t).place = .done) → s.a = Int32.ofNat (Fintype.card T * count)) := by
  obtain ⟨writes, hi⟩ := inv_of_run h
  refine ⟨hi.guarded.exclusive, (sum_written hi).symm ▸ hi.value, fun hdone => ?_⟩
  rw [value_of_done hi hdone, adder_iterate hroom]

/-- Thread `u` comes to the lock while thread `t` holds it. -/
def bothAdd (t u : Fin 2) : List (Fin 2) :=
  [t, t, t, u, u, u, t, t, t] ++ List.replicate 5 u

theorem no_write_lost_two : ∃ s : State (Fin 2) Int32,
    s.a = 2 ∧ Exclusive (view s) ∧ s.a = adder^[∑ t, (s.threads t).written] 0 ∧
      ((∀ t, (s.threads t).place = .done) → s.a = Int32.ofNat (Fintype.card (Fin 2) * 1)) := by
  have hvalue : (exec (step adder 1) (initial (Fin 2) 0) (bothAdd 0 1)).map (fun s => s.a) =
      some 2 := by decide +kernel
  obtain ⟨s, hexec, hs⟩ := Option.map_eq_some_iff.mp hvalue
  exact ⟨s, hs, no_write_lost 1 (bothAdd 0 1) s (by decide) hexec⟩

end MtxCounter
