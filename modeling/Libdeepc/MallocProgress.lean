import Libdeepc.MallocLinear

/-!
# Every call of `malloc` can come back

The lock of `malloc` is a flag that the threads spin on. Whoever holds it needs
nobody else to give it back, and then the others need nobody else either.
-/

namespace MallocProgress

open BreakHeap MallocLinear MallocThreads Runs

universe u
variable {T : Type u}

/-- A bound on the steps back to the program, for a thread that finds the lock initialized and
free. -/
def stepsLeft : Place → Nat
  | .user => 0
  | .storeSize _ _ => 1
  | .unlockMtx _ _ => 2
  | .moveBreak _ _ => 3
  | .readBreak _ => 4
  | .lockMtx _ => 5
  | .readInit _ | .clearFlag _ => 6
  | .testSize _ | .storeInit _ => 7
  | .initMtx _ => 8
  | .testAndSetFlag _ => 9

/-- Nobody but this thread can hold the lock. -/
def Unhindered (locked : Bool) (p : Place) : Prop := locked = false ∨ p.inside = true

/-- The lock is only taken while somebody is inside. -/
def Occupied (s : State T) : Prop :=
  s.shared.mallocMtx = true → ∃ t, (s.threads t).place.inside = true

section Advance

variable {t : T} {grant : Bool} {g g' : Shared} {th th' : Thread}
  {es : List (MallocThreads.Event T)}

theorem advance_unhindered (hinit : g.mallocMtxInit = true) (hp : initializing th.place = false)
    (hfree : Unhindered g.mallocMtx th.place) (hbusy : th.place ≠ .user) :
    ∃ g' th' es, advance t true g th = some (g', th', es) ∧
      stepsLeft th'.place < stepsLeft th.place ∧ Unhindered g'.mallocMtx th'.place := by
  cases hplace : th.place with
  | user => exact absurd hplace hbusy
  | testAndSetFlag size | initMtx size | storeInit size =>
    rw [hplace] at hp
    cases hp
  | lockMtx size =>
    rw [hplace] at hfree
    have hlock : g.mallocMtx = false := hfree.resolve_right Bool.false_ne_true
    simp only [advance, hplace, hlock]
    exact ⟨_, _, _, rfl, Nat.lt_succ_self 4, .inr rfl⟩
  | readInit size =>
    rw [hplace] at hfree
    simp only [advance, hplace, if_pos hinit]
    exact ⟨_, _, _, rfl, Nat.lt_succ_self 5, hfree⟩
  | testSize size =>
    rw [hplace] at hfree
    simp only [advance, hplace]
    split
    · exact ⟨_, _, _, rfl, Nat.succ_pos 6, hfree⟩
    · exact ⟨_, _, _, rfl, Nat.lt_succ_self 6, hfree⟩
  | readBreak size =>
    simp only [advance, hplace]
    split
    · exact ⟨_, _, _, rfl, Nat.le_succ 3, .inr rfl⟩
    · exact ⟨_, _, _, rfl, Nat.lt_succ_self 3, .inr rfl⟩
  | moveBreak size curBreak =>
    simp only [advance, hplace]
    split
    · exact ⟨_, _, _, rfl, Nat.lt_succ_self 2, .inr rfl⟩
    · exact ⟨_, _, _, rfl, Nat.lt_succ_self 2, .inr rfl⟩
  | unlockMtx size ret =>
    simp only [advance, hplace]
    exact ⟨_, _, _, rfl, Nat.lt_succ_self 1, .inl rfl⟩
  | storeSize size ret =>
    rw [hplace] at hfree
    have hlock : g.mallocMtx = false := hfree.resolve_right Bool.false_ne_true
    simp only [advance, hplace]
    split
    · exact ⟨_, _, _, rfl, Nat.lt_succ_self 0, .inl hlock⟩
    · exact ⟨_, _, _, rfl, Nat.lt_succ_self 0, .inl hlock⟩
  | clearFlag size =>
    rw [hplace] at hfree
    simp only [advance, hplace]
    exact ⟨_, _, _, rfl, Nat.lt_succ_self 5, hfree⟩

/-- A step that leaves the lock taken has taken it, or is that of a thread outside. -/
theorem advance_occupied (h : advance t grant g th = some (g', th', es))
    (hlock : g'.mallocMtx = true) :
    th'.place.inside = true ∨ g.mallocMtx = true ∧ th.place.inside = false := by
  cases hplace : th.place with
  | lockMtx size =>
    simp only [advance, hplace] at h
    cases h
    cases hfree : g.mallocMtx with
    | true => exact .inr ⟨rfl, rfl⟩
    | false => exact .inl rfl
  | initMtx size | unlockMtx size ret =>
    simp only [advance, hplace] at h
    cases h
    cases hlock
  | _ =>
    simp only [advance, hplace] at h
    repeat' split at h
    all_goals cases h
    all_goals first | exact .inr ⟨hlock, rfl⟩ | exact .inl rfl

end Advance

variable [DecidableEq T] {s s' : State T} {t : T}

theorem occupied_step {a : Act T} (ho : Occupied s) (h : step s a = some s') : Occupied s' := by
  intro hlock
  cases a with
  | call t size =>
    obtain ⟨huser, rfl⟩ := step_call h
    obtain ⟨u, hu⟩ := ho hlock
    have hut : u ≠ t := by
      rintro rfl
      rw [huser] at hu
      cases hu
    exact ⟨u, by rwa [moved_of_ne hut]⟩
  | write t addr b =>
    obtain ⟨_, rfl⟩ := step_write h
    exact ho hlock
  | go t grant =>
    obtain ⟨g, th, es, hadv, rfl⟩ := step_go h
    rcases advance_occupied hadv hlock with hin | ⟨hlocked, hout⟩
    · exact ⟨t, by rwa [moved_self]⟩
    · obtain ⟨u, hu⟩ := ho hlocked
      have hut : u ≠ t := by
        rintro rfl
        rw [hout] at hu
        cases hu
      exact ⟨u, by rwa [moved_of_ne hut]⟩

/-- A thread that nobody hinders goes on alone until it is back in the program. -/
theorem comes_back (n : Nat) (hn : stepsLeft (s.threads t).place ≤ n) (hs : Started s)
    (hfree : Unhindered s.shared.mallocMtx (s.threads t).place) :
    ∃ acts s', exec step s acts = some s' ∧ Started s' ∧ s'.shared.mallocMtx = false ∧
      (s'.threads t).place = .user ∧ ∀ u, u ≠ t → s'.threads u = s.threads u := by
  induction n generalizing s with
  | zero =>
    have huser : (s.threads t).place = .user := by
      cases hp : (s.threads t).place
      all_goals rw [hp] at hn
      all_goals first | rfl | cases hn
    rw [huser] at hfree
    exact ⟨[], s, rfl, hs, hfree.resolve_right Bool.false_ne_true, huser, fun _ _ => rfl⟩
  | succ n ih =>
    by_cases huser : (s.threads t).place = .user
    · rw [huser] at hfree
      exact ⟨[], s, rfl, hs, hfree.resolve_right Bool.false_ne_true, huser, fun _ _ => rfl⟩
    obtain ⟨g, th, es, hadv, hless, hfree'⟩ := advance_unhindered hs.1 (hs.2 t) hfree huser
    have hstep : step s (.go t true) = some (moved s t g th es) := by
      rw [step, hadv]
      rfl
    have hs' := started_step hs hstep
    obtain ⟨acts, s', hrun, hstarted, hlock, hback, hsame⟩ := ih (s := moved s t g th es)
      (by rw [moved_self]; omega) hs' (by rwa [moved_self])
    refine ⟨.go t true :: acts, s', ?_, hstarted, hlock, hback, fun u hu => ?_⟩
    · rw [exec_cons, hstep]
      exact hrun
    · rw [hsame u hu, moved_of_ne hu]

theorem all_come_back (ts : List T) (hs : Started s) (hfree : s.shared.mallocMtx = false) :
    ∃ acts s', exec step s acts = some s' ∧
      (∀ u, (s.threads u).place = .user → (s'.threads u).place = .user) ∧
      ∀ t ∈ ts, (s'.threads t).place = .user := by
  induction ts generalizing s with
  | nil => exact ⟨[], s, rfl, fun _ hu => hu, fun t ht => absurd ht List.not_mem_nil⟩
  | cons t ts ih =>
    obtain ⟨acts, m, hrun, hm, hlock, hback, hsame⟩ :=
      comes_back (t := t) _ (Nat.le_refl _) hs (.inl hfree)
    obtain ⟨acts', s', hrun', hstay, hall⟩ := ih hm hlock
    refine ⟨acts ++ acts', s', ?_, fun u hu => hstay u ?_, fun u hu => ?_⟩
    · rw [exec_append, hrun]
      exact hrun'
    · by_cases hut : u = t
      · rwa [hut]
      · rwa [hsame u hut]
    · rcases List.mem_cons.mp hu with rfl | hu
      · exact hstay u hback
      · exact hall u hu

/-- Wherever the threads are in `malloc`, the run can go on so that all of them come back. -/
theorem malloc_comes_back (brk : UInt64) (mem : UInt64 → UInt8) (boot acts : List (Act T))
    (s₀ s : State T) (hup : StartsUp brk mem boot s₀) (h : exec step s₀ acts = some s)
    (ts : List T) :
    ∃ more s', exec step s more = some s' ∧ ∀ t ∈ ts, (s'.threads t).place = .user := by
  have hs : Started s :=
    inv_of_exec (fun _ _ _ hs _ h => started_step hs h) hup.started
      (along_of_forall (p := fun _ => True) (fun _ _ => trivial) s₀) h
  have ho : Occupied s := by
    obtain ⟨_, _, _, _, _, _, hexec, _⟩ := hup
    have ho₀ : Occupied s₀ :=
      inv_of_exec (I := Occupied) (fun _ _ _ ho _ h => occupied_step ho h)
        (fun hlock => absurd hlock Bool.false_ne_true)
        (along_of_forall (p := fun _ => True) (fun _ _ => trivial) _) hexec
    exact inv_of_exec (fun _ _ _ ho _ h => occupied_step ho h) ho₀
      (along_of_forall (p := fun _ => True) (fun _ _ => trivial) s₀) h
  cases hlock : s.shared.mallocMtx with
  | false =>
    obtain ⟨more, s', hrun, _, hall⟩ := all_come_back ts hs hlock
    exact ⟨more, s', hrun, hall⟩
  | true =>
    -- the holder goes first
    obtain ⟨u, hu⟩ := ho hlock
    obtain ⟨more, m, hrun, hm, hfree, _, _⟩ := comes_back (t := u) _ (Nat.le_refl _) hs (.inr hu)
    obtain ⟨more', s', hrun', _, hall⟩ := all_come_back ts hm hfree
    refine ⟨more ++ more', s', ?_, hall⟩
    rw [exec_append, hrun]
    exact hrun'

theorem malloc_comes_back_two : ∃ s : State (Fin 2),
    (s.threads 1).place = .moveBreak 24 0x10248 ∧ (s.threads 0).place = .lockMtx 100 ∧
      ∃ more s', exec step s more = some s' ∧ ∀ t ∈ [0, 1], (s'.threads t).place = .user := by
  have hplaces : ((exec step (initial (Fin 2) 0x10000 fun _ => 0) (startupActs 0)).bind
      (fun s => exec step s ((bothCall 1 0).take 9))).map
        (fun s => [(s.threads 1).place, (s.threads 0).place]) =
      some [.moveBreak 24 0x10248, .lockMtx 100] := by decide +kernel
  obtain ⟨s₀, hexec₀, hup⟩ := startsUp_two
  rw [hexec₀, Option.bind_some] at hplaces
  obtain ⟨s, hexec, hs⟩ := Option.map_eq_some_iff.mp hplaces
  obtain ⟨h₁, hs⟩ := List.cons.inj hs
  obtain ⟨h₀, _⟩ := List.cons.inj hs
  exact ⟨s, h₁, h₀, malloc_comes_back 0x10000 (fun _ => 0) (startupActs 0) ((bothCall 1 0).take 9)
    s₀ s hup hexec [0, 1]⟩

end MallocProgress
