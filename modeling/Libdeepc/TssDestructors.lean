import Libdeepc.TssWalk

/-!
# The walk over the destructors

`__run_tss_destructors` drops `tss_mtx` in the middle of its loop. Beside the
threads runs what their calls have recorded: the destructor of every key, the
value that every thread has set, and of every thread's walk what it has passed
to a destructor and which keys have been live since it began.
-/

namespace TssDestructors

open LockDiscipline Runs TssCalls TssExclusion TssWalk

universe u
variable {T : Type u} [DecidableEq T]

structure Watched (T : Type u) where
  core : State T
  recorded : UInt64 → UInt64
  value : T → UInt64 → UInt64
  walk : T → Walk

/-- The step of the program, with what is recorded of it. -/
def step (w : Watched T) (a : Act T) : Option (Watched T) :=
  (TssCalls.step w.core a).map fun s => match a with
    | .call t op => { w with core := s, walk := Function.update w.walk t ((w.walk t).call op) }
    | .go t alloc =>
      let th := w.core.threads t
      { core := s
        recorded := recordAfter w.recorded th.place
        value := Function.update w.value t (valueAfter alloc th (w.value t))
        walk := fun u => if u = t then
            (w.walk t).go (handling w.core.shared th w.recorded (w.value t))
              (begins th.place (s.threads t).place) s.shared (s.threads t)
          else (w.walk u).watch s.shared (s.threads u) }

def initial (T : Type u) : Watched T where
  core := TssCalls.initial T
  recorded _ := 0
  value _ _ := 0
  walk _ := { log := [], steady := fun _ => false }

/-- The key has come from `tss_create`. -/
def IsKey (s : State T) (key : UInt64) : Prop := key ∈ s.handed.map Prod.snd

/-- The program passes keys that it has got from `tss_create`, and a destructor does not run the
destructors itself. -/
def FromProgram (s : State T) : Act T → Prop
  | .call _ (.tssSet key _) => IsKey s key
  | .call _ (.tssDelete key) => IsKey s key
  | .call t .runTssDestructors => (s.threads t).suspended = []
  | _ => True

instance (s : State T) : ∀ a, Decidable (FromProgram s a)
  | .call _ (.tssSet _ _) => inferInstanceAs (Decidable (_ ∈ _))
  | .call _ (.tssDelete _) => inferInstanceAs (Decidable (_ ∈ _))
  | .call _ .runTssDestructors => inferInstanceAs (Decidable (_ = _))
  | .call _ (.tssCreate _) => isTrue trivial
  | .go _ _ => isTrue trivial

/-- `tss_mtx` excludes, and the calls are in order. -/
def Proper (w : Watched T) (a : Act T) : Prop := QuietInit w.core a ∧ FromProgram w.core a

def Zeroed (w : Watched T) : Act T → Prop
  | .call _ _ => True
  | .go t alloc => CallocClears alloc (w.core.threads t)

instance {n : Nat} (w : Watched (Fin n)) (a : Act (Fin n)) : Decidable (Proper w a) :=
  inferInstanceAs (Decidable (_ ∧ _))

instance (w : Watched T) : ∀ a, Decidable (Zeroed w a)
  | .call _ _ => isTrue trivial
  | .go _ alloc => inferInstanceAs (Decidable (CallocClears alloc _))

/-- What holds of all walks, in one state. -/
structure Law (w : Watched T) : Prop where
  /-- Increasing keys, hence no key twice. -/
  once : ∀ t, (w.walk t).log.Pairwise fun h h' => h.key < h'.key
  created : ∀ t, ∀ h ∈ (w.walk t).log, IsKey w.core h.key
  recorded : ∀ t, ∀ h ∈ (w.walk t).log, h.dtor = h.recorded ∧ h.recorded ≠ 0
  value : ∀ t, ∀ h ∈ (w.walk t).log, h.val = h.value ∧ h.value ≠ 0
  /-- What is about to be passed to a destructor. -/
  passed : ∀ t i, (w.core.threads t).place = .unlockMtx (.callDtor i) →
    i < (w.core.threads t).tssDataCapacity ∧
      ∃ h, (w.walk t).log.getLast? = some h ∧ h.key = i ∧ h.val = (w.core.threads t).tssData i
  /-- The loop is at its end. -/
  complete : ∀ t i, (w.core.threads t).place = .scan i →
    (w.core.threads t).tssDataCapacity ≤ i →
    ∀ k, (w.walk t).steady k = true → k ∈ (w.walk t).log.map Handled.key
  inBounds : ∀ t i, (w.core.threads t).place = .scan i →
    i < (w.core.threads t).tssDataCapacity → i < w.core.shared.tssMetaCapacity
  /-- In the loop, outside the destructors, the lock is this thread's. -/
  held : ∀ t, (w.core.threads t).place.inside = true → w.core.shared.tssMtx = true ∧
    ∀ u, u ≠ t → (w.core.threads u).place.inside = false
  /-- In a destructor and after the walk it is free, or some other thread's. -/
  free : ∀ t, (w.core.threads t).place.inside = false → w.core.shared.tssMtx = true →
    ∃ u, u ≠ t ∧ (w.core.threads u).place.inside = true

/-- A thread has gone on. -/
def went (w : Watched T) (t : T) (alloc : Alloc) (g : Shared) (th : Thread)
    (key : Option UInt64) : Watched T where
  core := moved w.core t g th key
  recorded := recordAfter w.recorded (w.core.threads t).place
  value := Function.update w.value t (valueAfter alloc (w.core.threads t) (w.value t))
  walk u := if u = t then
      (w.walk t).go (handling w.core.shared (w.core.threads t) w.recorded (w.value t))
        (begins (w.core.threads t).place th.place) g th
    else (w.walk u).watch g (w.core.threads u)

/-- A thread has called. -/
def called (w : Watched T) (t : T) (op : Op) : Watched T :=
  { w with
    core := moved w.core t w.core.shared ((w.core.threads t).at op.start) none
    walk := Function.update w.walk t ((w.walk t).call op) }

section Step

variable {w w' : Watched T} {s : State T} {t : T} {alloc : Alloc} {op : Op} {g : Shared}
  {th : Thread} {key : Option UInt64} {k : UInt64}

theorem step_call (h : step w (.call t op) = some w') :
    (w.core.threads t).place = .user ∧ w' = called w t op := by
  obtain ⟨s, hs, rfl⟩ := Option.map_eq_some_iff.mp h
  obtain ⟨huser, rfl⟩ := TssExclusion.step_call hs
  exact ⟨huser, rfl⟩

theorem step_go (h : step w (.go t alloc) = some w') :
    ∃ g th key, advance alloc w.core.shared (w.core.threads t) = some (g, th, key) ∧
      w' = went w t alloc g th key := by
  obtain ⟨s, hs, rfl⟩ := Option.map_eq_some_iff.mp h
  obtain ⟨g, th, key, hadv, rfl⟩ := TssExclusion.step_go hs
  refine ⟨g, th, key, hadv, ?_⟩
  simp only [went, moved_self, moved_shared]
  congr 1
  funext u
  by_cases hu : u = t
  · rw [if_pos hu, if_pos hu]
  · rw [if_neg hu, if_neg hu, moved_of_ne hu]

/-- Watching changes nothing. -/
theorem step_core {a : Act T} (h : step w a = some w') : TssCalls.step w.core a = some w'.core := by
  obtain ⟨s, hs, rfl⟩ := Option.map_eq_some_iff.mp h
  cases a <;> exact hs

theorem isKey_moved : IsKey (moved s t g th key) k ↔ key = some k ∨ IsKey s k := by
  cases key with
  | none => simp only [IsKey, moved, Option.map_none, Option.toList_none, List.nil_append,
      reduceCtorEq, false_or]
  | some k' => simp only [IsKey, moved, Option.map_some, Option.toList_some, List.map_append,
      List.map_cons, List.map_nil, List.mem_append, List.mem_singleton, Option.some.injEq, eq_comm]

theorem lt_of_pending {p : Place} (h : pending p = some k) (hr : Ready g p) :
    k < g.tssMetaCapacity := by
  cases p with
  | loadNext dtor key =>
    obtain rfl := Option.some.inj h
    exact hr.1 ▸ hr.2
  | storeNext dtor key next =>
    obtain rfl := Option.some.inj h
    exact hr.1 ▸ hr.2.2
  | _ => cases h

omit [DecidableEq T] in
theorem key_lt (hi : TssExclusion.Inv s) (hk : IsKey s k) : k < s.shared.tssMetaCapacity := by
  obtain ⟨p, hp, rfl⟩ := List.mem_map.mp hk
  rcases hi.distinct.below p hp with hlt | ⟨u, hu⟩
  · exact lt_of_lt_of_le hlt hi.bounded.1
  · exact lt_of_pending hu (hi.ready u)

structure Inv (w : Watched T) : Prop where
  core : TssExclusion.Inv w.core
  sound : ∀ t, Sound w.core.shared (IsKey w.core) (w.core.threads t)
  slots : ∀ k, IsKey w.core k → w.core.shared.tssMeta k = w.recorded k ∨
    ∃ t, creating (w.core.threads t).place = some k
  holds : ∀ t, Holds (w.core.threads t) (w.value t)
  keys : ∀ t k, w.value t k ≠ 0 → IsKey w.core k
  walking : ∀ t, Walking w.core.shared (w.core.threads t) (w.walk t)
  entries : ∀ t, ∀ h ∈ (w.walk t).log, IsKey w.core h.key ∧
    (h.dtor = h.recorded ∧ h.recorded ≠ 0) ∧ h.val = h.value ∧ h.value ≠ 0
  occupied : w.core.shared.tssMtx = true → ∃ t, (w.core.threads t).place.inside = true

omit [DecidableEq T] in
theorem Inv.metaCapacity (hi : Inv w)
    (hadv : advance alloc w.core.shared (w.core.threads t) = some (g, th, key)) :
    w.core.shared.tssMetaCapacity ≤ g.tssMetaCapacity :=
  advance_metaCapacity hadv hi.core.bounded (hi.core.ready t)

theorem Inv.sound_go (hi : Inv w)
    (hadv : advance alloc w.core.shared (w.core.threads t) = some (g, th, key)) (u : T) :
    Sound g (IsKey (moved w.core t g th key)) ((moved w.core t g th key).threads u) := by
  have hkeys : ∀ k, IsKey w.core k → IsKey (moved w.core t g th key) k :=
    fun k hk => isKey_moved.mpr (.inr hk)
  by_cases hu : u = t
  · subst hu
    rw [moved_self]
    exact (advance_sound hadv (hi.sound u) (hi.metaCapacity hadv)).mono hkeys le_rfl
      fun _ => ⟨rfl, rfl⟩
  · rw [moved_of_ne hu]
    refine (hi.sound u).mono hkeys (hi.metaCapacity hadv) fun hin => ?_
    have hout : (w.core.threads t).place.inside = false :=
      hi.core.guarded.others_out hin (Ne.symm hu)
    obtain ⟨-, hcapacity, hmeta, -⟩ := advance_outside hadv hout
    exact ⟨hcapacity, hmeta⟩

theorem Inv.slots_go (hi : Inv w)
    (hadv : advance alloc w.core.shared (w.core.threads t) = some (g, th, key))
    (hk : IsKey (moved w.core t g th key) k) :
    g.tssMeta k = recordAfter w.recorded (w.core.threads t).place k ∨
      ∃ u, creating ((moved w.core t g th key).threads u).place = some k := by
  have hself : ∀ h : creating th.place = some k,
      ∃ u, creating ((moved w.core t g th key).threads u).place = some k := fun h =>
    ⟨t, by rwa [moved_self]⟩
  rcases isKey_moved.mp hk with hnew | hold
  · exact .inr (hself (advance_creates hadv hnew))
  by_cases hother : ∃ u, u ≠ t ∧ creating (w.core.threads u).place = some k
  · obtain ⟨u, hu, hcreate⟩ := hother
    exact .inr ⟨u, by rwa [moved_of_ne hu]⟩
  · have hslot : SlotOk w.core.shared w.recorded (w.core.threads t).place k := by
      refine (hi.slots k hold).imp id fun ⟨u, hcreate⟩ => ?_
      by_cases hu : u = t
      · exact hu ▸ hcreate
      · exact absurd ⟨u, hu, hcreate⟩ hother
    exact (advance_slot hadv (hi.sound t).grounded (key_lt hi.core hold) hslot).imp id hself

/-- Whoever looks at the table finds the destructors that are recorded. -/
theorem Inv.handling_right (hi : Inv w) {e : Handled}
    (he : handling w.core.shared (w.core.threads t) w.recorded (w.value t) = some e) :
    IsKey w.core e.key ∧ (e.dtor = e.recorded ∧ e.recorded ≠ 0) ∧
      e.val = e.value ∧ e.value ≠ 0 := by
  rw [handling] at he
  split at he
  · rename_i i hp
    split at he
    · rename_i hlive
      cases he
      obtain ⟨hlt, hdtor, hval⟩ := live_iff.mp hlive
      have hin : (w.core.threads t).place.inside = true := by rw [hp]; rfl
      have hvalue : w.value t i = (w.core.threads t).tssData i := (hi.holds t i).trans (if_pos hlt)
      have hkey : IsKey w.core i := hi.keys t i (hvalue ▸ hval)
      have hslot : w.core.shared.tssMeta i = w.recorded i := by
        refine (hi.slots i hkey).resolve_right ?_
        rintro ⟨u, hcreate⟩
        by_cases hu : u = t
        · rw [hu, hp] at hcreate
          cases hcreate
        · rw [creating_of_outside (hi.core.guarded.others_out hin hu)] at hcreate
          cases hcreate
      exact ⟨hkey, ⟨hslot, hslot ▸ hdtor⟩, hvalue.symm, hvalue ▸ hval⟩
    · cases he
  · cases he

theorem inv_go (hi : Inv w) (hcore : TssExclusion.Inv (moved w.core t g th key))
    (hzero : CallocClears alloc (w.core.threads t))
    (hadv : advance alloc w.core.shared (w.core.threads t) = some (g, th, key)) :
    Inv (went w t alloc g th key) := by
  have hkeys : ∀ k, IsKey w.core k → IsKey (moved w.core t g th key) k :=
    fun k hk => isKey_moved.mpr (.inr hk)
  have hground := (hi.sound t).grounded
  obtain ⟨hholds, hvalued⟩ := advance_value hadv hground hzero (hi.holds t)
  refine
    { core := hcore
      sound := hi.sound_go hadv
      slots := fun k hk => hi.slots_go hadv hk
      holds := fun u => ?_
      keys := fun u k hk => hkeys k ?_
      walking := fun u => ?_
      entries := fun u e he => ?_
      occupied := fun hlock => ?_ }
  · by_cases hu : u = t
    · subst hu
      simpa only [went, moved_self, Function.update_self] using hholds
    · simpa only [went, moved_of_ne hu, Function.update_of_ne hu] using hi.holds u
  · by_cases hu : u = t
    · subst hu
      simp only [went, Function.update_self] at hk
      exact (hvalued k hk).elim (hi.keys u k) id
    · simp only [went, Function.update_of_ne hu] at hk
      exact hi.keys u k hk
  · by_cases hu : u = t
    · subst hu
      simpa only [went, moved_self, moved_shared, if_true] using
        advance_walking hadv hground (hi.walking u)
    · simpa only [went, moved_of_ne hu, moved_shared, if_neg hu] using (hi.walking u).other
  · suffices h : IsKey w.core e.key ∧ (e.dtor = e.recorded ∧ e.recorded ≠ 0) ∧
        e.val = e.value ∧ e.value ≠ 0 from h.imp (hkeys e.key) id
    by_cases hu : u = t
    · subst hu
      simp only [went, if_true, Walk.go, List.mem_append, Option.mem_toList] at he
      exact he.elim (hi.entries u e) hi.handling_right
    · simp only [went, if_neg hu, Walk.watch] at he
      exact hi.entries u e he
  · rcases advance_locked hadv hlock with hin | ⟨hold, hout⟩
    · exact ⟨t, by simpa only [went, moved_self] using hin⟩
    · obtain ⟨u, hu⟩ := hi.occupied hold
      have hne : u ≠ t := by
        rintro rfl
        rw [hout] at hu
        cases hu
      exact ⟨u, by simpa only [went, moved_of_ne hne] using hu⟩

omit [DecidableEq T] in
theorem sound_start (hs : Sound g (IsKey s) th) (hprogram : FromProgram s (.call t op)) :
    Sound g (IsKey s) (th.at op.start) := by
  refine ⟨hs.capacity, ?_⟩
  cases op with
  | tssSet key val => exact hprogram
  | tssDelete key => exact hprogram
  | _ => trivial

theorem walking_start {walk : Walk} (h : Walking g th walk)
    (hrun : op = .runTssDestructors → th.suspended = []) :
    Walking g (th.at op.start) (walk.call op) := by
  cases op with
  | runTssDestructors =>
    have hnil : th.suspended = [] := hrun rfl
    refine ⟨.nil, nofun, nofun, fun i _ => ⟨hnil, nofun, nofun⟩, fun i rest hi => ?_⟩
    rw [show th.suspended = i :: rest from hi] at hnil
    cases hnil
  | _ => exact ⟨h.sorted, h.steady, nofun, nofun, h.suspended⟩

theorem called_self : (called w t op).core.threads t = (w.core.threads t).at op.start := moved_self

theorem called_of_ne {u : T} (hu : u ≠ t) :
    (called w t op).core.threads u = w.core.threads u := moved_of_ne hu

theorem inv_call (hi : Inv w) (hcore : TssExclusion.Inv (called w t op).core)
    (huser : (w.core.threads t).place = .user)
    (hprogram : FromProgram w.core (.call t op)) : Inv (called w t op) := by
  have houtside : (w.core.threads t).place.inside = false := by rw [huser]; rfl
  -- who is somewhere in the code has not called
  have hcalled : ∀ u, creating (w.core.threads u).place ≠ none ∨
      (w.core.threads u).place.inside = true →
      (called w t op).core.threads u = w.core.threads u := by
    refine fun u hu => called_of_ne ?_
    rintro rfl
    rcases hu with hu | hu
    · exact hu (creating_of_outside houtside)
    · rw [houtside] at hu
      cases hu
  refine ⟨hcore, fun u => ?_, fun k hk => ?_, fun u => ?_, hi.keys, fun u => ?_, fun u e he => ?_,
    fun hlock => ?_⟩
  · change Sound w.core.shared (IsKey w.core) _
    by_cases hu : u = t
    · subst hu
      rw [called_self]
      exact sound_start (hi.sound u) hprogram
    · rw [called_of_ne hu]
      exact hi.sound u
  · refine (hi.slots k hk).imp id fun ⟨u, hcreate⟩ => ⟨u, ?_⟩
    rwa [hcalled u (.inl (hcreate ▸ Option.some_ne_none k))]
  · by_cases hu : u = t
    · subst hu
      rw [called_self]
      exact hi.holds u
    · rw [called_of_ne hu]
      exact hi.holds u
  · change Walking w.core.shared _ (Function.update w.walk t ((w.walk t).call op) u)
    by_cases hu : u = t
    · subst hu
      rw [called_self, Function.update_self]
      refine walking_start (hi.walking u) fun hop => ?_
      subst hop
      exact hprogram
    · rw [called_of_ne hu, Function.update_of_ne hu]
      exact hi.walking u
  · refine hi.entries u e ?_
    change e ∈ (Function.update w.walk t ((w.walk t).call op) u).log at he
    by_cases hu : u = t
    · subst hu
      rw [Function.update_self] at he
      cases op with
      | runTssDestructors => exact absurd he List.not_mem_nil
      | _ => exact he
    · rwa [Function.update_of_ne hu] at he
  · obtain ⟨u, hu⟩ := hi.occupied hlock
    exact ⟨u, by rwa [hcalled u (.inr hu)]⟩

theorem inv_step {a : Act T} (hi : Inv w) (hproper : Proper w a) (hzero : Zeroed w a)
    (h : step w a = some w') : Inv w' := by
  have hcore := TssExclusion.inv_step hi.core hproper.1 (step_core h)
  cases a with
  | call t op =>
    obtain ⟨huser, rfl⟩ := step_call h
    exact inv_call hi hcore huser hproper.2
  | go t alloc =>
    obtain ⟨g, th, key, hadv, rfl⟩ := step_go h
    exact inv_go hi hcore hzero hadv

omit [DecidableEq T] in
theorem inv_initial : Inv (initial T) where
  core := TssExclusion.inv_initial
  sound _ := ⟨le_rfl, trivial⟩
  slots _ hk := absurd hk List.not_mem_nil
  holds _ _ := (ite_self _).symm
  keys _ _ hk := absurd rfl hk
  walking _ := ⟨.nil, nofun, nofun, nofun, nofun⟩
  entries _ _ he := absurd he List.not_mem_nil
  occupied := nofun

omit [DecidableEq T] in
theorem Inv.law (hi : Inv w) : Law w where
  once t := (hi.walking t).sorted
  created t e he := (hi.entries t e he).1
  recorded t e he := (hi.entries t e he).2.1
  value t e he := (hi.entries t e he).2.2
  passed t i hp := (hi.walking t).passing i (by rw [hp]; rfl)
  complete t i hp hend k hk := by
    obtain ⟨-, hupto⟩ := (hi.walking t).looking i (by rw [hp]; rfl)
    obtain ⟨hlt, -⟩ := live_iff.mp ((hi.walking t).steady k hk)
    exact hupto.all k (lt_of_lt_of_le hlt hend) hk
  inBounds t i _ hlt := lt_of_lt_of_le hlt (hi.sound t).capacity
  held t hin := ⟨hi.core.guarded.held t hin, fun u hu => hi.core.guarded.others_out hin hu⟩
  free t hout hlock := by
    obtain ⟨u, hu⟩ := hi.occupied hlock
    refine ⟨u, ?_, hu⟩
    rintro rfl
    rw [hout] at hu
    cases hu

end Step

/-- In a run in which `calloc` clears what `tss_set` gets from it, every walk over the destructors
is in order, whatever the destructors and the other threads do meanwhile. -/
theorem destructors_walk_lawful (acts : List (Act T)) (hproper : Along step Proper (initial T) acts)
    (hzero : Along step Zeroed (initial T) acts) :
    ∀ w, exec step (initial T) acts = some w → Law w := by
  intro w hexec
  refine (inv_of_exec (fun s a s' hi hq hs => ?_) inv_initial (hproper.and hzero) hexec).law
  exact inv_step hi hq.1 hq.2 hs

/-- Three keys with their values. What `malloc` and `calloc` give is full of old words. -/
def threeKeys (t : Fin 2) (garbage fresh : UInt64) : List (Act (Fin 2)) :=
  [.call t (.tssCreate 5)] ++ goes t 7 ++ [.go t (some fun _ => garbage)] ++ goes t 7 ++
    [.call t (.tssCreate 6)] ++ goes t 8 ++ [.call t (.tssCreate 7)] ++ goes t 8 ++
    [.call t (.tssSet 0 3)] ++ goes t 4 ++ [.go t (some fun _ => fresh)] ++
    [.call t (.tssSet 1 4)] ++ goes t 1 ++ [.call t (.tssSet 2 8)] ++ goes t 1

/-- The destructor of key 0 sets its value, thread `u` deletes key 1 meanwhile. -/
def deletedMeanwhile (t u : Fin 2) (garbage fresh : UInt64) : List (Act (Fin 2)) :=
  threeKeys t garbage fresh ++ [.call t .runTssDestructors] ++ goes t 4 ++
    [.call t (.tssSet 0 0)] ++ goes t 1 ++ [.call u (.tssDelete 1)] ++ goes u 3 ++ goes t 9

theorem destructors_walk_lawful_deleted :
    ∃ w, exec step (initial (Fin 2)) (deletedMeanwhile 0 1 9 0) = some w ∧
      ((w.walk 0).log.map fun h => (h.key, h.dtor, h.val)) = [(0, 5, 3), (2, 7, 8)] ∧ Law w := by
  have hrun : (exec step (initial (Fin 2)) (deletedMeanwhile 0 1 9 0)).map (fun w =>
      (w.walk 0).log.map fun h => (h.key, h.dtor, h.val)) =
      some [(0, 5, 3), (2, 7, 8)] := by decide +kernel
  obtain ⟨w, hexec, hlog⟩ := Option.map_eq_some_iff.mp hrun
  exact ⟨w, hexec, hlog, destructors_walk_lawful (deletedMeanwhile 0 1 9 0) (by decide +kernel)
    (by decide +kernel) w hexec⟩

/-- Behind the keys, `tss_set` has left old words, and so has `tss_create`: the destructor 9 of
key 3, which has never been created, is called with 7. -/
theorem old_words_handled :
    ¬ ∀ acts, Along step Proper (initial (Fin 2)) acts →
      ∀ w, exec step (initial (Fin 2)) acts = some w → Law w := by
  intro hall
  have hrun : (exec step (initial (Fin 2)) (deletedMeanwhile 0 1 9 7)).map (fun w =>
      (w.walk 0).log.map fun h => (h.key, h.dtor, h.val, h.recorded)) =
      some [(0, 5, 3, 5), (2, 7, 8, 7), (3, 9, 7, 0)] := by decide +kernel
  obtain ⟨w, hexec, hlog⟩ := Option.map_eq_some_iff.mp hrun
  have hmem : (3, 9, 7, 0) ∈ (w.walk 0).log.map fun h => (h.key, h.dtor, h.val, h.recorded) := by
    rw [hlog]
    decide
  obtain ⟨e, he, heq⟩ := List.mem_map.mp hmem
  have hzero : e.recorded = 0 := congrArg (·.2.2.2) heq
  exact ((hall _ (by decide +kernel) w hexec).recorded 0 e he).2 hzero

end TssDestructors
