import Libdeepc.LockDiscipline
import Libdeepc.Runs
import Libdeepc.TssCalls

/-!
# One thread at a time

The calls of thread-specific storage seen as threads around the lock `tss_mtx`,
and `tss_next` as a counter that gives out tickets. `mtx_init` is the reset of
that lock.
-/

namespace TssExclusion

open LockDiscipline Runs TssCalls

instance uint64PartialOrder : PartialOrder UInt64 where
  le_refl := UInt64.le_refl
  le_trans _ _ _ := UInt64.le_trans
  le_antisymm _ _ := UInt64.le_antisymm
  lt_iff_le_not_ge a b := by
    simp only [UInt64.lt_iff_toNat_lt, UInt64.le_iff_toNat_le]
    omega

section Advance

variable {alloc : Alloc} {g g' : Shared} {th th' : Thread} {key : Option UInt64}

def lockKind (locked : Bool) : Place → Kind
  | .initMtx _ => .reset
  | .unlockMtx _ => .release
  | .lockMtx _ => if locked then .stay else .acquire
  | _ => .stay

theorem lockKind_eq_reset {locked : Bool} {p : Place} (h : lockKind locked p = .reset) :
    ∃ c, p = .initMtx c := by
  cases p with
  | initMtx c => exact ⟨c, rfl⟩
  | lockMtx c => cases locked <;> cases h
  | _ => cases h

/-- The key that is in `*tss_key` already while `tss_next` still holds it. -/
def pending : Place → Option UInt64
  | .loadNext _ key => some key
  | .storeNext _ key _ => some key
  | _ => none

@[simp] theorem place_at (th : Thread) (p : Place) : (th.at p).place = p := rfl

theorem inside_enter (c : Section) : c.enter.inside = true := by cases c <;> rfl

theorem inside_resume (th : Thread) (r : Resume) : (resume th r).place.inside = false := by
  cases r <;> rfl

theorem advance_initMtx {c : Section} (h : th.place = .initMtx c) :
    advance alloc g th = some ({ g with tssMtx := false }, th.at (.storeInit c), none) := by
  simp only [advance, h]

theorem advance_storeInit {c : Section} (h : th.place = .storeInit c) :
    advance alloc g th = some ({ g with tssMtxInit := true }, th.at (.clearFlag c), none) := by
  simp only [advance, h]

theorem advance_clearFlag {c : Section} (h : th.place = .clearFlag c) :
    advance alloc g th = some ({ g with tssMtxFlag := false }, th.at (.lockMtx c), none) := by
  simp only [advance, h]

theorem advance_lockMtx {c : Section} (h : th.place = .lockMtx c) (hfree : g.tssMtx = false) :
    advance alloc g th = some ({ g with tssMtx := true }, th.at c.enter, none) := by
  simp only [advance, h, hfree, Bool.false_eq_true, if_false]

theorem advance_unlockMtx {r : Resume} (h : th.place = .unlockMtx r) :
    advance alloc g th = some ({ g with tssMtx := false }, resume th r, none) := by
  simp only [advance, h]

/-- Three places of the code touch the lock. -/
theorem advance_turn (h : advance alloc g th = some (g', th', key)) :
    Turn g.tssMtx th.place.inside g'.tssMtx th'.place.inside (lockKind g.tssMtx th.place) := by
  cases hp : th.place with
  | initMtx c =>
    rw [advance_initMtx hp] at h
    cases h
    exact .reset rfl
  | unlockMtx r =>
    rw [advance_unlockMtx hp] at h
    cases h
    exact .release rfl (inside_resume th r)
  | lockMtx c =>
    simp only [advance, hp, Option.some.injEq, Prod.mk.injEq] at h
    obtain ⟨rfl, rfl, rfl⟩ := h
    by_cases hlock : g.tssMtx = true
    · simp only [lockKind, hlock, if_true]
      exact .stay rfl rfl
    · simp only [lockKind, hlock, if_false, Bool.false_eq_true]
      exact .acquire rfl rfl
  | _ =>
    simp only [advance, hp] at h
    repeat' split at h
    all_goals cases h
    all_goals exact .stay rfl rfl

/-- Outside, a thread leaves the counter and the table of destructors alone. -/
theorem advance_outside (h : advance alloc g th = some (g', th', key))
    (hout : th.place.inside = false) :
    g'.tssNext = g.tssNext ∧ g'.tssMetaCapacity = g.tssMetaCapacity ∧ g'.tssMeta = g.tssMeta ∧
      key = none := by
  cases hp : th.place
  all_goals rw [hp] at hout
  all_goals cases hout
  all_goals
    simp only [advance, hp] at h
    repeat' split at h
  all_goals cases h
  all_goals exact ⟨rfl, rfl, rfl, rfl⟩

def grown (capacity : UInt64) : UInt64 := if capacity = 0 then 8 else capacity * 2

/-- What doubling leads to, as long as the table can be asked for. -/
def CapacityShape (capacity : UInt64) : Prop :=
  capacity = 0 ∨ ∃ k, 3 ≤ k ∧ k ≤ 60 ∧ capacity.toNat = 2 ^ k

theorem grown_spec {capacity : UInt64} (h : CapacityShape capacity)
    (hne : grown capacity * 8 ≠ 0) :
    CapacityShape (grown capacity) ∧ capacity < grown capacity := by
  rcases h with rfl | ⟨k, hlow, hhigh, hpow⟩
  · exact ⟨.inr ⟨3, by decide, by decide, rfl⟩, by decide⟩
  have hpos : 0 < 2 ^ k := Nat.two_pow_pos k
  have hzero : capacity ≠ 0 := by
    rintro rfl
    exact absurd hpow (Nat.ne_of_lt hpos)
  have hgrown : grown capacity = capacity * 2 := if_neg hzero
  rw [hgrown] at hne ⊢
  rcases Nat.lt_or_eq_of_le hhigh with hlt | rfl
  · have hle : 2 ^ k ≤ 2 ^ 59 := Nat.pow_le_pow_right (by decide) (by omega)
    have hdouble : (capacity * 2).toNat = 2 ^ (k + 1) := by
      rw [UInt64.toNat_mul, hpow, Nat.pow_succ]
      exact Nat.mod_eq_of_lt (Nat.lt_of_le_of_lt (Nat.mul_le_mul_right 2 hle) (by decide))
    refine ⟨.inr ⟨k + 1, by omega, by omega, hdouble⟩, ?_⟩
    rw [UInt64.lt_iff_toNat_lt, hdouble, hpow, Nat.pow_succ]
    omega
  · -- the size of the doubled table wraps to 0
    refine absurd (UInt64.toNat_inj.mp ?_) hne
    rw [UInt64.toNat_mul, UInt64.toNat_mul, hpow]
    decide

def Bounded (g : Shared) : Prop :=
  g.tssNext ≤ g.tssMetaCapacity ∧ CapacityShape g.tssMetaCapacity

/-- What a thread inside relies on: nobody else has changed the counter and the capacity. -/
def Ready (g : Shared) : Place → Prop
  | .allocMeta _ newCapacity =>
    g.tssMetaCapacity ≤ g.tssNext ∧ newCapacity = grown g.tssMetaCapacity
  | .storeMeta _ newCapacity _ => g.tssMetaCapacity ≤ g.tssNext ∧
    newCapacity = grown g.tssMetaCapacity ∧ newCapacity * 8 ≠ 0
  | .storeCapacity _ newCapacity => g.tssMetaCapacity ≤ g.tssNext ∧
    newCapacity = grown g.tssMetaCapacity ∧ newCapacity * 8 ≠ 0
  | .takeKey _ => g.tssNext < g.tssMetaCapacity
  | .loadNext _ key => key = g.tssNext ∧ g.tssNext < g.tssMetaCapacity
  | .storeNext _ key next => key = g.tssNext ∧ next = g.tssNext ∧ g.tssNext < g.tssMetaCapacity
  | _ => True

theorem ready_of_outside {p : Place} (h : p.inside = false) (g : Shared) : Ready g p := by
  cases p <;> cases h <;> trivial

theorem pending_of_outside {p : Place} (h : p.inside = false) : pending p = none := by
  cases p <;> cases h <;> rfl

theorem pending_enter (c : Section) : pending c.enter = none := by cases c <;> rfl

theorem ready_enter (c : Section) (g : Shared) : Ready g c.enter := by cases c <;> trivial

theorem ready_congr {p : Place} (hnext : g'.tssNext = g.tssNext)
    (hcapacity : g'.tssMetaCapacity = g.tssMetaCapacity) : Ready g' p ↔ Ready g p := by
  cases p <;> simp only [Ready, hnext, hcapacity]

/-- No wrap: below the capacity there is a next key. -/
theorem lt_succ_le {a b : UInt64} (h : a < b) : a < a + 1 ∧ a + 1 ≤ b := by
  grind

theorem advance_ready (h : advance alloc g th = some (g', th', key)) (hb : Bounded g)
    (hr : Ready g th.place) :
    Bounded g' ∧ Ready g' th'.place ∧
      Draw g.tssNext (pending th.place) g'.tssNext (pending th'.place) key := by
  cases hp : th.place with
  | testCapacity dtor =>
    simp only [advance, hp] at h
    split at h
    · rename_i hfull
      cases h
      exact ⟨hb, ⟨hfull, rfl⟩, .stay rfl rfl⟩
    · rename_i hroom
      cases h
      exact ⟨hb, UInt64.not_le.mp hroom, .stay rfl rfl⟩
  | allocMeta dtor newCapacity =>
    rw [hp] at hr
    simp only [advance, hp] at h
    split at h
    · cases h
      exact ⟨hb, trivial, .stay rfl rfl⟩
    · rename_i halloc
      cases h
      refine ⟨hb, ⟨hr.1, hr.2, fun hzero => ?_⟩, .stay rfl rfl⟩
      rw [if_pos hzero] at halloc
      cases halloc
  | storeMeta dtor newCapacity newMeta =>
    rw [hp] at hr
    simp only [advance, hp] at h
    cases h
    exact ⟨hb, hr, .stay rfl rfl⟩
  | storeCapacity dtor newCapacity =>
    rw [hp] at hr
    simp only [advance, hp] at h
    cases h
    obtain ⟨hfull, rfl, hne⟩ := hr
    obtain ⟨hshape, hlt⟩ := grown_spec hb.2 hne
    have hnext : g.tssNext < grown g.tssMetaCapacity := lt_of_le_of_lt hb.1 hlt
    exact ⟨⟨hnext.le, hshape⟩, hnext, .stay rfl rfl⟩
  | takeKey dtor =>
    rw [hp] at hr
    simp only [advance, hp] at h
    cases h
    exact ⟨hb, ⟨rfl, hr⟩, .take rfl rfl rfl⟩
  | loadNext dtor key' =>
    rw [hp] at hr
    simp only [advance, hp] at h
    cases h
    exact ⟨hb, ⟨hr.1, rfl, hr.2⟩, .stay rfl rfl⟩
  | storeNext dtor key' next =>
    rw [hp] at hr
    simp only [advance, hp] at h
    cases h
    obtain ⟨rfl, rfl, hlt⟩ := hr
    obtain ⟨hsucc, hle⟩ := lt_succ_le hlt
    exact ⟨⟨hle, hb.2⟩, trivial, .move hsucc rfl⟩
  | lockMtx c =>
    simp only [advance, hp] at h
    split at h
    · cases h
      exact ⟨hb, trivial, .stay rfl rfl⟩
    · cases h
      exact ⟨hb, ready_enter c _, .stay rfl (pending_enter c)⟩
  | unlockMtx r =>
    simp only [advance, hp] at h
    cases h
    have hout := inside_resume th r
    exact ⟨hb, ready_of_outside hout _, .stay rfl (pending_of_outside hout)⟩
  | _ =>
    simp only [advance, hp] at h
    repeat' split at h
    all_goals cases h
    all_goals exact ⟨hb, trivial, .stay rfl rfl⟩

end Advance

universe u
variable {T : Type u} [DecidableEq T]

def view (s : State T) : View T where
  locked := s.shared.tssMtx
  inside t := (s.threads t).place.inside

def counter (s : State T) : Counter T UInt64 where
  next := s.shared.tssNext
  pending t := pending (s.threads t).place
  taken := s.handed

/-- The next step of some thread is the store that `mtx_init` makes. -/
def InitsMutex (s : State T) : Act T → Prop
  | .call _ _ => False
  | .go t _ => lockKind s.shared.tssMtx (s.threads t).place = .reset

/-- `mtx_init` is only run while nobody is between `mtx_lock` and `mtx_unlock`. -/
def QuietInit (s : State T) (a : Act T) : Prop := InitsMutex s a → Vacant (view s)

instance (s : State T) : ∀ a, Decidable (InitsMutex s a)
  | .call _ _ => isFalse id
  | .go _ _ => inferInstanceAs (Decidable (_ = _))

instance {n : Nat} (s : State (Fin n)) (a : Act (Fin n)) : Decidable (QuietInit s a) :=
  inferInstanceAs (Decidable (_ → _))

structure Inv (s : State T) : Prop where
  guarded : Guarded (view s)
  bounded : Bounded s.shared
  ready : ∀ t, Ready s.shared (s.threads t).place
  distinct : Distinct (counter s)

/-- One thread has gone on. -/
def moved (s : State T) (t : T) (g : Shared) (th : Thread) (key : Option UInt64) : State T where
  shared := g
  threads := Function.update s.threads t th
  handed := (key.map fun k => (t, k)).toList ++ s.handed

section Step

variable {s s' : State T} {t : T} {alloc : Alloc} {op : Op}

theorem start_outside (op : Op) : op.start.inside = false := by cases op <;> rfl

theorem step_call (h : step s (.call t op) = some s') : (s.threads t).place = .user ∧
    s' = moved s t s.shared ((s.threads t).at op.start) none := by
  simp only [step] at h
  split at h
  · rename_i huser
    exact ⟨huser, (Option.some.inj h).symm⟩
  · cases h

theorem step_go (h : step s (.go t alloc) = some s') :
    ∃ g th key, advance alloc s.shared (s.threads t) = some (g, th, key) ∧
      s' = moved s t g th key := by
  obtain ⟨⟨g, th, key⟩, hadv, hs'⟩ := Option.map_eq_some_iff.mp h
  exact ⟨g, th, key, hadv, hs'.symm⟩

section Moved

variable {g : Shared} {th : Thread} {key : Option UInt64}

@[simp] theorem moved_shared : (moved s t g th key).shared = g := rfl

@[simp] theorem moved_self : (moved s t g th key).threads t = th := Function.update_self ..

theorem moved_of_ne {u : T} (hu : u ≠ t) : (moved s t g th key).threads u = s.threads u :=
  Function.update_of_ne hu ..

theorem view_moves {k : Kind} (hturn : Turn s.shared.tssMtx (s.threads t).place.inside g.tssMtx
    th.place.inside k) : Moves t k (view s) (view (moved s t g th key)) where
  own := by simpa only [view, moved_shared, moved_self] using hturn
  others u hu := by simp only [view, moved_of_ne hu]

theorem counter_draws
    (hdraw : Draw s.shared.tssNext (pending (s.threads t).place) g.tssNext (pending th.place) key)
    (halone : key ≠ none ∨ g.tssNext ≠ s.shared.tssNext →
      ∀ u, u ≠ t → pending (s.threads u).place = none) :
    Draws t key (counter s) (counter (moved s t g th key)) where
  own := by simpa only [counter, moved_shared, moved_self] using hdraw
  others u hu := by simp only [counter, moved_of_ne hu]
  taken := rfl
  alone := halone

/-- Only a thread inside changes what the others inside would rely on. -/
theorem inv_moved {k : Kind} (hi : Inv s)
    (hturn : Turn s.shared.tssMtx (s.threads t).place.inside g.tssMtx th.place.inside k)
    (hquiet : k = .reset → Vacant (view s)) (hbounded : Bounded g) (hready : Ready g th.place)
    (hdraw : Draw s.shared.tssNext (pending (s.threads t).place) g.tssNext (pending th.place) key)
    (hout : (s.threads t).place.inside = false → g.tssNext = s.shared.tssNext ∧
      g.tssMetaCapacity = s.shared.tssMetaCapacity ∧ key = none) :
    Inv (moved s t g th key) := by
  have hothers : (s.threads t).place.inside = true →
      ∀ u, u ≠ t → (s.threads u).place.inside = false :=
    fun hin u hu => hi.guarded.others_out hin hu
  refine ⟨hi.guarded.step (view_moves hturn) hquiet, hbounded, fun u => ?_,
    hi.distinct.step (counter_draws hdraw fun hchange u hu => ?_)⟩
  · by_cases hu : u = t
    · subst hu
      rwa [moved_self]
    rw [moved_of_ne hu]
    cases hin : (s.threads t).place.inside with
    | true => exact ready_of_outside (hothers hin u hu) g
    | false =>
      obtain ⟨hnext, hcapacity, _⟩ := hout hin
      exact (ready_congr hnext hcapacity).mpr (hi.ready u)
  · refine pending_of_outside (hothers ?_ u hu)
    by_contra hnot
    obtain ⟨hnext, _, hkey⟩ := hout (by simpa using hnot)
    exact hchange.elim (fun h => h hkey) (fun h => h hnext)

end Moved

theorem inv_step {a : Act T} (hi : Inv s) (hquiet : QuietInit s a) (h : step s a = some s') :
    Inv s' := by
  cases a with
  | call t op =>
    obtain ⟨huser, rfl⟩ := step_call h
    have hout := start_outside op
    have huserOut : (s.threads t).place.inside = false := by rw [huser]; rfl
    refine inv_moved hi (.stay rfl (hout.trans huserOut.symm)) nofun hi.bounded
      (ready_of_outside hout _) (.stay rfl ?_) fun _ => ⟨rfl, rfl, rfl⟩
    rw [pending_of_outside huserOut]
    exact pending_of_outside hout
  | go t alloc =>
    obtain ⟨g, th, key, hadv, rfl⟩ := step_go h
    obtain ⟨hbounded, hready, hdraw⟩ := advance_ready hadv hi.bounded (hi.ready t)
    refine inv_moved hi (advance_turn hadv) hquiet hbounded hready hdraw fun hin => ?_
    obtain ⟨hnext, hcapacity, _, hkey⟩ := advance_outside hadv hin
    exact ⟨hnext, hcapacity, hkey⟩

omit [DecidableEq T] in
theorem inv_initial : Inv (initial T) where
  guarded := guarded_of_vacant fun _ => rfl
  bounded := ⟨UInt64.le_refl 0, .inl rfl⟩
  ready _ := trivial
  distinct :=
    { below := fun _ hp => absurd hp List.not_mem_nil
      current := fun _ _ hk => nomatch hk
      nodup := List.nodup_nil }

theorem go_on {g : Shared} {th : Thread} {u : T}
    (h : advance none s.shared (s.threads t) = some (g, th, none)) (hu : u ≠ t) :
    ∃ s', step s (.go t none) = some s' ∧ s'.shared = g ∧ s'.threads t = th ∧
      s'.threads u = s.threads u := by
  refine ⟨moved s t g th none, ?_, rfl, moved_self, moved_of_ne hu⟩
  rw [step, h]
  rfl

/-- A thread that has come to `mtx_init` walks into the section, whoever is inside. -/
theorem walks_in {c : Section} (hp : (s.threads t).place = .initMtx c) {u : T}
    (hu : (s.threads u).place.inside = true) :
    ∃ acts s', exec step s acts = some s' ∧ ¬ Exclusive (view s') := by
  have hne : u ≠ t := by
    rintro rfl
    rw [hp] at hu
    cases hu
  obtain ⟨s₁, h₁, hg₁, ht₁, hu₁⟩ := go_on (advance_initMtx hp) hne
  obtain ⟨s₂, h₂, hg₂, ht₂, hu₂⟩ := go_on (advance_storeInit (by rw [ht₁]; rfl)) hne
  obtain ⟨s₃, h₃, hg₃, ht₃, hu₃⟩ := go_on (advance_clearFlag (by rw [ht₂]; rfl)) hne
  have hfree : s₃.shared.tssMtx = false := by rw [hg₃, hg₂, hg₁]
  obtain ⟨s₄, h₄, _, ht₄, hu₄⟩ := go_on (advance_lockMtx (by rw [ht₃]; rfl) hfree) hne
  refine ⟨[.go t none, .go t none, .go t none, .go t none], s₄, ?_, fun hexclusive => ?_⟩
  · simp only [exec_cons, h₁, h₂, h₃, h₄, Option.bind_some, exec_nil]
  · refine hne (hexclusive u t ?_ ?_)
    · simpa only [view, hu₄, hu₃, hu₂, hu₁] using hu
    · simpa only [view, ht₄, place_at] using inside_enter c

end Step

/-- In a run in which `mtx_init` finds nobody inside, one thread at a time is inside and no key
is handed out twice. In a run in which it does find a thread inside, the thread that runs it
can go on and join that thread. -/
theorem exclusive_of_quiet_init (acts : List (Act T)) :
    (Along step QuietInit (initial T) acts → ∀ s, exec step (initial T) acts = some s →
      Exclusive (view s) ∧ (s.handed.map Prod.snd).Nodup) ∧
    ∀ s t alloc, exec step (initial T) acts = some s → ¬ QuietInit s (.go t alloc) →
      ∃ more s', exec step (initial T) (acts ++ more) = some s' ∧ ¬ Exclusive (view s') := by
  constructor
  · intro hquiet s hexec
    have hinv := inv_of_exec (fun s a s' hi hq hs => inv_step hi hq hs) inv_initial hquiet hexec
    exact ⟨hinv.guarded.exclusive, hinv.distinct.nodup⟩
  · intro s t alloc hexec hloud
    rw [QuietInit, Classical.not_imp] at hloud
    obtain ⟨hinit, hsome⟩ := hloud
    rw [Vacant, not_forall] at hsome
    obtain ⟨u, hu⟩ := hsome
    obtain ⟨c, hp⟩ := lockKind_eq_reset hinit
    obtain ⟨more, s', hmore, hnot⟩ := walks_in hp (by simpa [view] using hu)
    refine ⟨more, s', ?_, hnot⟩
    rw [exec_append, hexec]
    exact hmore

/-- Steps of one thread. -/
def goes (t : Fin 2) (n : Nat) : List (Act (Fin 2)) := List.replicate n (.go t none)

def grows (t : Fin 2) : Act (Fin 2) := .go t (some fun _ => 0)

/-- Thread 1 calls while thread 0 is inside, waits, and goes in when thread 0 is done. -/
def twoInTurn : List (Act (Fin 2)) :=
  [.call 0 (.tssCreate 5)] ++ goes 0 6 ++ [.call 1 (.tssCreate 7)] ++ goes 1 3 ++
    goes 0 1 ++ [grows 0] ++ goes 0 7 ++ goes 1 7

/-- Thread 0 has found `tss_mtx_init` unset. Thread 1 initializes the lock and takes it. Then
thread 0 comes to the initialization. -/
def initWaits : List (Act (Fin 2)) :=
  [.call 0 (.tssCreate 5)] ++ goes 0 1 ++ [.call 1 (.tssCreate 7)] ++ goes 1 6 ++ goes 0 1

theorem exclusive_of_quiet_init_two :
    (Along step QuietInit (initial (Fin 2)) twoInTurn ∧
      ∃ s, exec step (initial (Fin 2)) twoInTurn = some s ∧ s.handed.map Prod.snd = [1, 0] ∧
        Exclusive (view s) ∧ (s.handed.map Prod.snd).Nodup) ∧
    ∃ more s, exec step (initial (Fin 2)) (initWaits ++ more) = some s ∧ ¬ Exclusive (view s) := by
  have hquiet : Along step QuietInit (initial (Fin 2)) twoInTurn := by decide +kernel
  have hrun : (exec step (initial (Fin 2)) twoInTurn).map (fun s => s.handed.map Prod.snd) =
      some [1, 0] := by decide +kernel
  have hloud : (exec step (initial (Fin 2)) initWaits).map (fun s =>
      decide (QuietInit s (.go 0 none))) = some false := by decide +kernel
  obtain ⟨s, hexec, hkeys⟩ := Option.map_eq_some_iff.mp hrun
  obtain ⟨s', hexec', hinit⟩ := Option.map_eq_some_iff.mp hloud
  exact ⟨⟨hquiet, s, hexec, hkeys, (exclusive_of_quiet_init twoInTurn).1 hquiet s hexec⟩,
    (exclusive_of_quiet_init initWaits).2 s' 0 none hexec' (of_decide_eq_false hinit)⟩

/-- The second initialization frees the lock that thread 1 holds, and both draw the first key. -/
def twoAtOnce : List (Act (Fin 2)) :=
  initWaits ++ goes 0 4 ++ goes 1 1 ++ [grows 1] ++ goes 1 3 ++ goes 0 2

theorem init_frees_held_lock :
    (¬ ∀ acts s, exec step (initial (Fin 2)) acts = some s → Exclusive (view s)) ∧
    ¬ ∀ acts s, exec step (initial (Fin 2)) acts = some s → (s.handed.map Prod.snd).Nodup := by
  have hrun : (exec step (initial (Fin 2)) twoAtOnce).map (fun s =>
      ((view s).inside 0, (view s).inside 1, s.handed.map Prod.snd)) =
      some (true, true, [0, 0]) := by decide +kernel
  obtain ⟨s, hexec, hs⟩ := Option.map_eq_some_iff.mp hrun
  obtain ⟨h0, hs⟩ := Prod.mk.inj hs
  obtain ⟨h1, hkeys⟩ := Prod.mk.inj hs
  constructor
  · intro hall
    exact absurd (hall twoAtOnce s hexec 0 1 h0 h1) (by decide)
  · intro hall
    have hnodup := hall twoAtOnce s hexec
    rw [hkeys] at hnodup
    exact absurd hnodup (by decide)

end TssExclusion
