import Libdeepc.TssExclusion

/-!
# One step of a walk

What a step of `tls.c` does to the destructors and values on record, and to the
walk of its thread over them: the loop of `__run_tss_destructors` has come as far
as some key, and a destructor that it calls may take the thread anywhere but into
another walk.
-/

namespace TssWalk

open TssCalls TssExclusion

section Watching

/-- One value passed to a destructor, read under the lock, and what was recorded then. -/
structure Handled where
  key : UInt64
  dtor : UInt64
  val : UInt64
  recorded : UInt64
  value : UInt64

structure Walk where
  log : List Handled
  steady : UInt64 → Bool

/-- A key below the thread's capacity that has a destructor and a value. -/
def live (g : Shared) (th : Thread) (k : UInt64) : Bool :=
  k < th.tssDataCapacity && g.tssMeta k ≠ 0 && th.tssData k ≠ 0

/-- `__run_tss_destructors` gets the lock for the first time. -/
def begins : Place → Place → Bool
  | .lockMtx (.destructors i), .scan _ => i == 0
  | _, _ => false

/-- The destructor of every key, 0 for a key never created or deleted. -/
def recordAfter (recorded : UInt64 → UInt64) : Place → UInt64 → UInt64
  | .storeDtor dtor key => Function.update recorded key dtor
  | .clearDtor key => Function.update recorded key 0
  | _ => recorded

/-- The value of every key after a step of its thread. A `tss_set` that fails leaves it. -/
def valueAfter (alloc : Alloc) (th : Thread) (value : UInt64 → UInt64) : UInt64 → UInt64 :=
  match th.place with
  | .testData key val =>
    if th.tssDataCapacity ≤ key then value else Function.update value key val
  | .growData key val newCapacity =>
    if newCapacity * 8 = 0 ∨ alloc.isNone then value else Function.update value key val
  | _ => value

/-- What the loop hands to a destructor when it looks at its next key, if it does. -/
def handling (g : Shared) (th : Thread) (recorded value : UInt64 → UInt64) : Option Handled :=
  match th.place with
  | .scan i =>
    if live g th i then some ⟨i, g.tssMeta i, th.tssData i, recorded i, value i⟩ else none
  | _ => none

/-- The keys that have been live all the time. -/
def Walk.watch (w : Walk) (g : Shared) (th : Thread) : Walk :=
  { w with steady := fun k => w.steady k && live g th k }

/-- The same for the thread that takes the step. On the first one every live key is steady. -/
def Walk.go (w : Walk) (handled : Option Handled) (first : Bool) (g : Shared) (th : Thread) :
    Walk where
  log := w.log ++ handled.toList
  steady k := (first || w.steady k) && live g th k

def Walk.call (w : Walk) : Op → Walk
  | .runTssDestructors => { log := [], steady := fun _ => false }
  | _ => w

def growing : Place → Option UInt64
  | .growData _ _ newCapacity => some newCapacity
  | _ => none

/-- The block that `calloc` gives to `tss_set` is zero behind the words that are copied. -/
def CallocClears (alloc : Alloc) (th : Thread) : Prop :=
  ∀ newCapacity ∈ growing th.place, ∀ fresh ∈ alloc,
    ∀ i, th.tssDataCapacity ≤ i → i < newCapacity → fresh i = 0

theorem forall_between_iff {lo hi : UInt64} {p : UInt64 → Prop} :
    (∀ i, lo ≤ i → i < hi → p i) ↔
      ∀ n, n < hi.toNat → lo.toNat ≤ n → p (UInt64.ofNat n) := by
  constructor
  · intro h n hn hlo
    have hsize : n < 2 ^ 64 := lt_trans hn hi.toNat_lt
    have hval : (UInt64.ofNat n).toNat = n := UInt64.toNat_ofNat_of_lt' hsize
    refine h _ ?_ ?_
    · rwa [UInt64.le_iff_toNat_le, hval]
    · rwa [UInt64.lt_iff_toNat_lt, hval]
  · intro h i hlo hhi
    have := h i.toNat (UInt64.lt_iff_toNat_lt.mp hhi) (UInt64.le_iff_toNat_le.mp hlo)
    rwa [UInt64.ofNat_toNat] at this

theorem callocClears_iff {alloc : Alloc} {th : Thread} :
    CallocClears alloc th ↔ ((growing th.place).all fun newCapacity => alloc.all fun fresh =>
      decide (∀ n, n < newCapacity.toNat → th.tssDataCapacity.toNat ≤ n →
        fresh (UInt64.ofNat n) = 0)) = true := by
  simp only [CallocClears, forall_between_iff, Option.all_eq_true, decide_eq_true_eq]
  rfl

instance (alloc : Alloc) (th : Thread) : Decidable (CallocClears alloc th) :=
  decidable_of_iff _ callocClears_iff.symm

end Watching

section OneThread

variable {alloc : Alloc} {g g' : Shared} {th th' : Thread} {key : Option UInt64}
  {K K' : UInt64 → Prop}

theorem advance_metaCapacity (h : advance alloc g th = some (g', th', key)) (hb : Bounded g)
    (hr : Ready g th.place) : g.tssMetaCapacity ≤ g'.tssMetaCapacity := by
  cases hp : th.place with
  | storeCapacity dtor newCapacity =>
    rw [hp] at hr
    simp only [advance, hp] at h
    cases h
    obtain ⟨-, rfl, hne⟩ := hr
    exact (grown_spec hb.2 hne).2.le
  | _ =>
    simp only [advance, hp] at h
    repeat' split at h
    all_goals cases h
    all_goals exact le_rfl

/-- What is known about the arguments of the call that waits for the lock. -/
def SectionOk (K : UInt64 → Prop) (capacity : UInt64) : Section → Prop
  | .set key _ => K key ∧ capacity ≤ key
  | .delete key => K key
  | _ => True

/-- What a thread has read or been given and still relies on. -/
def Grounded (g : Shared) (K : UInt64 → Prop) (capacity : UInt64) : Place → Prop
  | .readInit c | .testAndSetFlag c | .initMtx c | .storeInit c | .clearFlag c | .lockMtx c =>
    SectionOk K capacity c
  | .readCapacity key _ => K key ∧ capacity ≤ key
  | .unlockMtx (.growData key _ newCapacity) | .growData key _ newCapacity =>
    K key ∧ capacity ≤ key ∧ newCapacity ≤ g.tssMetaCapacity
  | .storeMeta _ _ newMeta => ∀ i, i < g.tssMetaCapacity → newMeta i = g.tssMeta i
  | .testData key _ | .clearDtor key => K key
  | _ => True

structure Sound (g : Shared) (K : UInt64 → Prop) (th : Thread) : Prop where
  capacity : th.tssDataCapacity ≤ g.tssMetaCapacity
  grounded : Grounded g K th.tssDataCapacity th.place

theorem grounded_enter {capacity : UInt64} {c : Section} (h : SectionOk K capacity c)
    (g : Shared) : Grounded g K capacity c.enter := by
  cases c <;> exact h

/-- Steps of other threads. -/
theorem Sound.mono (h : Sound g K th) (hK : ∀ k, K k → K' k)
    (hle : g.tssMetaCapacity ≤ g'.tssMetaCapacity)
    (hin : th.place.inside = true →
      g'.tssMetaCapacity = g.tssMetaCapacity ∧ g'.tssMeta = g.tssMeta) : Sound g' K' th := by
  obtain ⟨hcapacity, hg⟩ := h
  have hsection : ∀ c, SectionOk K th.tssDataCapacity c → SectionOk K' th.tssDataCapacity c := by
    intro c hc
    cases c with
    | set key val => exact ⟨hK key hc.1, hc.2⟩
    | delete key => exact hK key hc
    | _ => trivial
  refine ⟨le_trans hcapacity hle, ?_⟩
  cases hp : th.place with
  | readInit c | testAndSetFlag c | initMtx c | storeInit c | clearFlag c | lockMtx c =>
    rw [hp] at hg
    exact hsection c hg
  | readCapacity key val =>
    rw [hp] at hg
    exact ⟨hK key hg.1, hg.2⟩
  | unlockMtx r =>
    rw [hp] at hg
    cases r with
    | growData key val newCapacity => exact ⟨hK key hg.1, hg.2.1, le_trans hg.2.2 hle⟩
    | _ => trivial
  | growData key val newCapacity =>
    rw [hp] at hg
    exact ⟨hK key hg.1, hg.2.1, le_trans hg.2.2 hle⟩
  | storeMeta dtor newCapacity newMeta =>
    rw [hp] at hg hin
    obtain ⟨hsame, hmeta⟩ := hin rfl
    intro i hi
    rw [hmeta]
    exact hg i (hsame ▸ hi)
  | testData key val | clearDtor key =>
    rw [hp] at hg
    exact hK key hg
  | _ => trivial

theorem advance_sound (h : advance alloc g th = some (g', th', key)) (hs : Sound g K th)
    (hle : g.tssMetaCapacity ≤ g'.tssMetaCapacity) : Sound g' K th' := by
  obtain ⟨hcapacity, hg⟩ := hs
  cases hp : th.place with
  | lockMtx c =>
    rw [hp] at hg
    simp only [advance, hp] at h
    split at h
    all_goals cases h
    · exact ⟨hcapacity, hg⟩
    · exact ⟨hcapacity, grounded_enter hg _⟩
  | readInit c | testAndSetFlag c =>
    rw [hp] at hg
    simp only [advance, hp] at h
    split at h
    all_goals cases h
    all_goals exact ⟨hcapacity, hg⟩
  | unlockMtx r =>
    rw [hp] at hg
    simp only [advance, hp] at h
    cases h
    cases r with
    | growData key val newCapacity => exact ⟨hcapacity, hg⟩
    | _ => exact ⟨hcapacity, trivial⟩
  | allocMeta dtor newCapacity =>
    simp only [advance, hp] at h
    split at h
    all_goals cases h
    · exact ⟨hcapacity, trivial⟩
    · exact ⟨hcapacity, fun i hi => if_pos hi⟩
  | testData key' val =>
    rw [hp] at hg
    simp only [advance, hp] at h
    split at h
    all_goals cases h
    · exact ⟨hcapacity, hg, ‹_›⟩
    · exact ⟨hcapacity, trivial⟩
  | readCapacity key' val =>
    rw [hp] at hg
    simp only [advance, hp] at h
    cases h
    exact ⟨hcapacity, hg.1, hg.2, le_rfl⟩
  | growData key' val newCapacity =>
    rw [hp] at hg
    simp only [advance, hp] at h
    repeat' split at h
    all_goals cases h
    · exact ⟨hcapacity, trivial⟩
    · exact ⟨hg.2.2, trivial⟩
  | initMtx c | storeInit c | clearFlag c =>
    rw [hp] at hg
    simp only [advance, hp] at h
    cases h
    exact ⟨hcapacity, hg⟩
  | _ =>
    simp only [advance, hp] at h
    repeat' split at h
    all_goals cases h
    all_goals exact ⟨le_trans hcapacity hle, trivial⟩

/-- The key whose destructor is not in the table yet. -/
def creating : Place → Option UInt64
  | .loadNext _ key | .storeNext _ key _ | .storeDtor _ key => some key
  | _ => none

theorem creating_of_outside {p : Place} (h : p.inside = false) : creating p = none := by
  cases p <;> cases h <;> rfl

/-- The slot of a key that has been handed out. -/
def SlotOk (g : Shared) (recorded : UInt64 → UInt64) (p : Place) (k : UInt64) : Prop :=
  g.tssMeta k = recorded k ∨ creating p = some k

theorem SlotOk.settled {recorded : UInt64 → UInt64} {p : Place} {k : UInt64}
    (h : SlotOk g recorded p k) (hp : creating p = none) : g.tssMeta k = recorded k := by
  refine h.resolve_right fun hcreate => ?_
  rw [hp] at hcreate
  cases hcreate

theorem advance_slot {recorded : UInt64 → UInt64} {k capacity : UInt64}
    (h : advance alloc g th = some (g', th', key)) (hg : Grounded g K capacity th.place)
    (hk : k < g.tssMetaCapacity) (hslot : SlotOk g recorded th.place k) :
    SlotOk g' (recordAfter recorded th.place) th'.place k := by
  cases hp : th.place with
  | storeMeta dtor newCapacity newMeta =>
    rw [hp] at hg hslot
    simp only [advance, hp] at h
    cases h
    exact .inl ((hg k hk).trans (hslot.settled rfl))
  | storeDtor dtor key' =>
    rw [hp] at hslot
    simp only [advance, hp] at h
    cases h
    refine .inl ?_
    by_cases heq : k = key'
    · simp only [recordAfter, heq, Function.update_self]
    · have hold := hslot.resolve_right fun hcreate => heq (Option.some.inj hcreate).symm
      simp only [recordAfter, Function.update_of_ne heq, hold]
  | clearDtor key' =>
    rw [hp] at hslot
    simp only [advance, hp] at h
    cases h
    refine .inl ?_
    have hold := hslot.settled rfl
    by_cases heq : k = key'
    · simp only [recordAfter, heq, Function.update_self]
    · simp only [recordAfter, Function.update_of_ne heq, hold]
  | loadNext _ _ | storeNext _ _ _ =>
    rw [hp] at hslot
    simp only [advance, hp] at h
    cases h
    exact hslot
  | _ =>
    rw [hp] at hslot
    simp only [advance, hp] at h
    repeat' split at h
    all_goals cases h
    all_goals exact .inl (hslot.settled rfl)

theorem advance_creates (h : advance alloc g th = some (g', th', key)) {k : UInt64}
    (hk : key = some k) : creating th'.place = some k := by
  cases hp : th.place
  all_goals
    simp only [advance, hp] at h
    repeat' split at h
  all_goals cases h
  all_goals cases hk
  rfl

/-- `tss_get` would answer with these. -/
def Holds (th : Thread) (value : UInt64 → UInt64) : Prop :=
  ∀ k, value k = if k < th.tssDataCapacity then th.tssData k else 0

section Holds

variable {value : UInt64 → UInt64}

theorem Holds.resume (h : Holds th value) (r : Resume) : Holds (resume th r) value := by
  cases r <;> exact h

/-- A key below the capacity is set in its place. -/
theorem Holds.set {key val : UInt64} (h : Holds th value) (hlt : key < th.tssDataCapacity) :
    Holds { th with place := .user, tssData := Function.update th.tssData key val }
      (Function.update value key val) := by
  intro k
  by_cases heq : k = key
  · simp only [heq, Function.update_self, if_pos hlt]
  · simpa only [Function.update_of_ne heq] using h k

/-- In a larger array that is zero behind the old values, they are all still there. -/
theorem Holds.grow {fresh : UInt64 → UInt64} {newCapacity : UInt64} (h : Holds th value)
    (hle : th.tssDataCapacity ≤ newCapacity)
    (hclear : ∀ i, th.tssDataCapacity ≤ i → i < newCapacity → fresh i = 0) :
    Holds { th with
      tssData := fun i => if i < th.tssDataCapacity then th.tssData i else fresh i
      tssDataCapacity := newCapacity } value := by
  intro k
  rw [h k]
  by_cases hold : k < th.tssDataCapacity
  · simp only [if_pos hold, if_pos (lt_of_lt_of_le hold hle)]
  · simp only [if_neg hold]
    by_cases hnew : k < newCapacity
    · rw [if_pos hnew, hclear k (UInt64.not_lt.mp hold) hnew]
    · rw [if_neg hnew]

/-- A value that is there after a call was there before, or it has been set. -/
theorem ne_zero_of_update {key val k : UInt64} (h : Function.update value key val k ≠ 0)
    (hkey : K key) : value k ≠ 0 ∨ K k := by
  by_cases heq : k = key
  · exact .inr (heq ▸ hkey)
  · exact .inl (by rwa [Function.update_of_ne heq] at h)

theorem advance_value (h : advance alloc g th = some (g', th', key))
    (hg : Grounded g K th.tssDataCapacity th.place) (hzero : CallocClears alloc th)
    (hv : Holds th value) : Holds th' (valueAfter alloc th value) ∧
      ∀ k, valueAfter alloc th value k ≠ 0 → value k ≠ 0 ∨ K k := by
  cases hp : th.place with
  | testData key' val =>
    rw [hp] at hg
    simp only [advance, hp] at h
    simp only [valueAfter, hp]
    by_cases hle : th.tssDataCapacity ≤ key'
    · rw [if_pos hle] at h ⊢
      cases h
      exact ⟨hv, fun k hk => .inl hk⟩
    · rw [if_neg hle] at h ⊢
      cases h
      exact ⟨hv.set (UInt64.not_le.mp hle), fun k hk => ne_zero_of_update hk hg⟩
  | growData key' val newCapacity =>
    rw [hp] at hg
    simp only [advance, hp] at h
    simp only [valueAfter, hp]
    split at h
    · cases h
    · rename_i hkey
      have hlt : key' < newCapacity := UInt64.not_le.mp hkey
      by_cases hfail : newCapacity * 8 = 0 ∨ alloc.isNone
      · have hnone : (if newCapacity * 8 = 0 then none else alloc) = none := by
          rcases hfail with hsize | hnull
          · exact if_pos hsize
          · rw [Option.isNone_iff_eq_none.mp hnull, ite_self]
        rw [hnone] at h
        cases h
        rw [if_pos hfail]
        exact ⟨hv, fun k hk => .inl hk⟩
      · obtain ⟨hsize, hnull⟩ := not_or.mp hfail
        obtain ⟨fresh, rfl⟩ := Option.ne_none_iff_exists'.mp (by simpa using hnull)
        rw [if_neg hsize] at h
        cases h
        rw [if_neg hfail]
        have hgrown := hv.grow (le_trans hg.2.1 hlt.le)
          (hzero newCapacity (by rw [hp]; rfl) fresh rfl)
        exact ⟨hgrown.set hlt, fun k hk => ne_zero_of_update hk hg.1⟩
  | unlockMtx r =>
    simp only [advance, hp] at h
    simp only [valueAfter, hp]
    cases h
    exact ⟨hv.resume r, fun k hk => .inl hk⟩
  | _ =>
    simp only [advance, hp] at h
    simp only [valueAfter, hp]
    repeat' split at h
    all_goals cases h
    all_goals exact ⟨hv, fun k hk => .inl hk⟩

end Holds

theorem advance_dataCapacity (h : advance alloc g th = some (g', th', key))
    (hg : Grounded g K th.tssDataCapacity th.place) :
    th.tssDataCapacity ≤ th'.tssDataCapacity := by
  cases hp : th.place with
  | growData key' val newCapacity =>
    rw [hp] at hg
    simp only [advance, hp] at h
    repeat' split at h
    all_goals cases h
    · exact le_rfl
    · exact le_trans hg.2.1 (UInt64.not_le.mp ‹_›).le
  | unlockMtx r =>
    simp only [advance, hp] at h
    cases h
    cases r <;> exact le_rfl
  | _ =>
    simp only [advance, hp] at h
    repeat' split at h
    all_goals cases h
    all_goals exact le_rfl

/-- A lock that is not free is somebody's. -/
theorem advance_locked (h : advance alloc g th = some (g', th', key)) (hlock : g'.tssMtx = true) :
    th'.place.inside = true ∨ g.tssMtx = true ∧ th.place.inside = false := by
  cases hp : th.place with
  | lockMtx c =>
    simp only [advance, hp] at h
    split at h
    all_goals cases h
    · exact .inr ⟨‹_›, rfl⟩
    · exact .inl (inside_enter c)
  | unlockMtx r =>
    simp only [advance, hp] at h
    cases h
    cases hlock
  | initMtx c =>
    simp only [advance, hp] at h
    cases h
    cases hlock
  | _ =>
    simp only [advance, hp] at h
    repeat' split at h
    all_goals cases h
    all_goals first
      | exact .inl rfl
      | exact .inr ⟨hlock, rfl⟩

end OneThread

section Walking

variable {alloc : Alloc} {g g' : Shared} {th th' : Thread} {key : Option UInt64}
  {walk walk' : Walk} {handled : Option Handled} {first : Bool} {i j : UInt64}

def nextOf : Section → Option UInt64
  | .destructors i => some i
  | _ => none

/-- The key that the loop looks at next. -/
def cursor : Place → Option UInt64
  | .readInit c | .testAndSetFlag c | .initMtx c | .storeInit c | .clearFlag c | .lockMtx c =>
    nextOf c
  | .scan i => some i
  | .unlockMtx (.callDtor i) => some (i + 1)
  | _ => none

/-- The key whose destructor is about to be called. -/
def calling : Place → Option UInt64
  | .unlockMtx (.callDtor i) => some i
  | _ => none

/-- The walk has come as far as key `i`. -/
structure Upto (walk : Walk) (i : UInt64) : Prop where
  below : ∀ h ∈ walk.log, h.key < i
  all : ∀ k, k < i → walk.steady k = true → k ∈ walk.log.map Handled.key

/-- Waiting loses steady keys, never handled ones. -/
theorem Upto.mono (h : Upto walk i) (hlog : walk'.log = walk.log)
    (hsteady : ∀ k, walk'.steady k = true → walk.steady k = true) : Upto walk' i where
  below := hlog ▸ h.below
  all k hk hs := hlog ▸ h.all k hk (hsteady k hs)

/-- What is about to be passed to the destructor of key `i`. -/
def Passing (th : Thread) (walk : Walk) (i : UInt64) : Prop :=
  i < th.tssDataCapacity ∧
    ∃ h, walk.log.getLast? = some h ∧ h.key = i ∧ h.val = th.tssData i

structure Walking (g : Shared) (th : Thread) (walk : Walk) : Prop where
  sorted : walk.log.Pairwise fun h h' => h.key < h'.key
  steady : ∀ k, walk.steady k = true → live g th k = true
  passing : ∀ i, calling th.place = some i → Passing th walk i
  looking : ∀ i, cursor th.place = some i → th.suspended = [] ∧ Upto walk i
  suspended : ∀ i rest, th.suspended = i :: rest →
    rest = [] ∧ i < th.tssDataCapacity ∧ Upto walk (i + 1)

@[simp] theorem go_none : walk.go none false g th = walk.watch g th := by
  simp only [Walk.go, Walk.watch, Option.toList_none, List.append_nil, Bool.false_or]

/-- A step on which nothing is handled. -/
theorem Walking.watch (h : Walking g th walk)
    (hpassing : ∀ i, calling th'.place = some i → Passing th' walk i)
    (hlooking : ∀ i, cursor th'.place = some i → th'.suspended = [] ∧ Upto walk i)
    (hsuspended : ∀ i rest, th'.suspended = i :: rest →
      rest = [] ∧ i < th'.tssDataCapacity ∧ Upto walk (i + 1)) :
    Walking g' th' (walk.watch g' th') := by
  have hmono : ∀ i, Upto walk i → Upto (walk.watch g' th') i := fun i hi =>
    hi.mono rfl fun k hk => (Bool.and_eq_true_iff.mp hk).1
  exact
    { sorted := h.sorted
      steady := fun k hk => (Bool.and_eq_true_iff.mp hk).2
      passing := hpassing
      looking := fun i hi => (hlooking i hi).imp id (hmono i)
      suspended := fun i rest hs => (hsuspended i rest hs).imp id (And.imp id (hmono _)) }

/-- Steps of other threads. -/
theorem Walking.other (h : Walking g th walk) : Walking g' th (walk.watch g' th) :=
  h.watch h.passing h.looking h.suspended

/-- A step outside the loop. -/
theorem Walking.pass (h : Walking g th walk) (hs : th'.suspended = th.suspended)
    (hle : th.tssDataCapacity ≤ th'.tssDataCapacity) (hcalling : calling th'.place = none)
    (hcursor : cursor th'.place = none ∨ cursor th'.place = cursor th.place) :
    Walking g' th' (walk.watch g' th') := by
  refine h.watch (fun i hi => ?_) (fun i hi => ?_) fun i rest hi => ?_
  · rw [hcalling] at hi
    cases hi
  · rw [hs]
    rcases hcursor with hnone | hsame
    · rw [hnone] at hi
      cases hi
    · exact h.looking i (hsame ▸ hi)
  · obtain ⟨hrest, hlt, hupto⟩ := h.suspended i rest (hs.symm.trans hi)
    exact ⟨hrest, lt_of_lt_of_le hlt hle, hupto⟩

/-- The destructor has been called. -/
theorem Walking.call (h : Walking g th walk) (hp : th.place = .unlockMtx (.callDtor i)) :
    Walking g' (resume th (.callDtor i)) (walk.watch g' (resume th (.callDtor i))) := by
  obtain ⟨hlt, -⟩ := h.passing i (by rw [hp]; rfl)
  obtain ⟨hnil, hupto⟩ := h.looking (i + 1) (by rw [hp]; rfl)
  refine h.watch nofun nofun fun j rest hj => ?_
  cases hj
  exact ⟨hnil, hlt, hupto⟩

/-- The destructor has come back. -/
theorem Walking.back {rest : List UInt64} (h : Walking g th walk) (hs : th.suspended = i :: rest)
    (hplace : th'.place = .lockMtx (.destructors (i + 1))) (hrest : th'.suspended = rest) :
    Walking g' th' (walk.watch g' th') := by
  obtain ⟨rfl, -, hupto⟩ := h.suspended i rest hs
  refine h.watch (fun j hj => ?_) (fun j hj => ?_) fun j rest hj => ?_
  · rw [hplace] at hj
    cases hj
  · rw [hplace] at hj
    obtain rfl := Option.some.inj hj
    exact ⟨hrest, hupto⟩
  · rw [hrest] at hj
    cases hj

theorem lt_or_eq_of_lt_succ {a b : UInt64} (h : a < b + 1) : a < b ∨ a = b := by
  grind

theorem live_iff {k : UInt64} :
    live g th k = true ↔ k < th.tssDataCapacity ∧ g.tssMeta k ≠ 0 ∧ th.tssData k ≠ 0 := by
  simp only [live, Bool.and_eq_true, decide_eq_true_eq, and_assoc]

/-- The loop goes past a key that is not live. -/
theorem Walking.skip (h : Walking g th walk) (hp : th.place = .scan i)
    (hlt : i < th.tssDataCapacity) (hlive : live g th i ≠ true) :
    Walking g' (th.at (.scan (i + 1))) (walk.watch g' (th.at (.scan (i + 1)))) := by
  obtain ⟨hnil, hupto⟩ := h.looking i (by rw [hp]; rfl)
  refine h.watch nofun (fun j hj => ?_) h.suspended
  obtain rfl := Option.some.inj hj
  refine ⟨hnil, fun e he => lt_trans (hupto.below e he) (lt_succ_le hlt).1, fun k hk hs => ?_⟩
  rcases lt_or_eq_of_lt_succ hk with hki | rfl
  · exact hupto.all k hki hs
  · exact absurd (h.steady k hs) hlive

/-- The loop finds a live key and goes to its destructor. -/
theorem Walking.handle (h : Walking g th walk) (hp : th.place = .scan i)
    (hlt : i < th.tssDataCapacity) {e : Handled} (hkey : e.key = i) (hval : e.val = th.tssData i) :
    Walking g' (th.at (.unlockMtx (.callDtor i)))
      (walk.go (some e) false g' (th.at (.unlockMtx (.callDtor i)))) := by
  obtain ⟨hnil, hupto⟩ := h.looking i (by rw [hp]; rfl)
  obtain ⟨hsucc, -⟩ := lt_succ_le hlt
  exact
    { sorted := List.pairwise_append.mpr ⟨h.sorted, List.pairwise_singleton _ _, fun a ha b hb => by
        obtain rfl := List.mem_singleton.mp hb
        exact hkey ▸ hupto.below a ha⟩
      steady := fun k hk => (Bool.and_eq_true_iff.mp hk).2
      passing := fun j hj => by
        cases hj
        exact ⟨hlt, e, List.getLast?_concat, hkey, hval⟩
      looking := fun j hj => by
        obtain rfl := Option.some.inj hj
        refine ⟨hnil, fun a ha => ?_, fun k hk hs => ?_⟩
        · rcases List.mem_append.mp ha with ha | ha
          · exact lt_trans (hupto.below a ha) hsucc
          · obtain rfl := List.mem_singleton.mp ha
            exact hkey ▸ hsucc
        · have hs : walk.steady k = true := by
            simpa only [Bool.false_or] using (Bool.and_eq_true_iff.mp hs).1
          simp only [Walk.go, Option.toList_some, List.map_append, List.mem_append]
          rcases lt_or_eq_of_lt_succ hk with hki | rfl
          · exact .inl (hupto.all k hki hs)
          · exact .inr (List.mem_singleton.mpr hkey.symm)
      suspended := fun j rest hj => by
        rw [show th.suspended = j :: rest from hj] at hnil
        cases hnil }

/-- The lock is taken for the loop, for the first time or after a destructor. -/
theorem Walking.enter (h : Walking g th walk) (hp : th.place = .lockMtx (.destructors i)) :
    Walking g' (th.at (.scan i)) (walk.go none (i == 0) g' (th.at (.scan i))) := by
  obtain ⟨hnil, hupto⟩ := h.looking i (by rw [hp]; rfl)
  have hlog : (walk.go none (i == 0) g' (th.at (.scan i))).log = walk.log := List.append_nil _
  refine ⟨hlog ▸ h.sorted, fun k hk => (Bool.and_eq_true_iff.mp hk).2, nofun, fun j hj => ?_,
    fun j rest hj => ?_⟩
  · obtain rfl := Option.some.inj hj
    refine ⟨hnil, hlog ▸ hupto.below, fun k hk hs => ?_⟩
    have hpos : i ≠ 0 := by
      rintro rfl
      exact absurd hk UInt64.not_lt_zero
    have hs : walk.steady k = true := by
      simpa only [beq_eq_false_iff_ne.mpr hpos, Bool.false_or] using (Bool.and_eq_true_iff.mp hs).1
    exact hlog ▸ hupto.all k hk hs
  · rw [show th.suspended = j :: rest from hj] at hnil
    cases hnil

variable {recorded value : UInt64 → UInt64}

theorem handling_of_live (hp : th.place = .scan i) (hlive : live g th i = true) :
    handling g th recorded value =
      some ⟨i, g.tssMeta i, th.tssData i, recorded i, value i⟩ := by
  simp only [handling, hp, if_pos hlive]

theorem handling_of_not_live (hp : th.place = .scan i) (hlive : live g th i ≠ true) :
    handling g th recorded value = none := by
  simp only [handling, hp, if_neg hlive]

/-- Every step of a thread, for its own walk. -/
theorem advance_walking {K : UInt64 → Prop} (h : advance alloc g th = some (g', th', key))
    (hg : Grounded g K th.tssDataCapacity th.place) (hw : Walking g th walk) :
    Walking g' th' (walk.go (handling g th recorded value) (begins th.place th'.place) g' th') := by
  have hle := advance_dataCapacity h hg
  cases hp : th.place with
  | user =>
    simp only [handling, hp, begins, go_none]
    simp only [advance, hp] at h
    split at h
    · cases h
    · rename_i i rest hs
      cases h
      exact hw.back hs rfl rfl
  | lockMtx c =>
    simp only [handling, hp]
    simp only [advance, hp] at h
    split at h
    · cases h
      simp only [place_at, begins, go_none]
      exact hw.pass rfl hle rfl (.inr (by rw [hp]; rfl))
    · cases h
      cases c with
      | destructors i => exact hw.enter hp
      | _ =>
        simp only [Section.enter, begins, go_none]
        exact hw.pass rfl hle rfl (.inl rfl)
  | unlockMtx r =>
    simp only [handling, hp, begins, go_none]
    simp only [advance, hp] at h
    cases h
    cases r with
    | callDtor i => exact hw.call hp
    | _ => exact hw.pass rfl hle rfl (.inl rfl)
  | scan i =>
    simp only [begins]
    simp only [advance, hp] at h
    split at h
    · rename_i hlt
      split at h
      · rename_i hboth
        cases h
        rw [handling_of_live hp (live_iff.mpr ⟨hlt, hboth⟩)]
        exact hw.handle hp hlt rfl rfl
      · rename_i hnot
        cases h
        have hdead : live g th i ≠ true := fun hlive => hnot (live_iff.mp hlive).2
        rw [handling_of_not_live hp hdead, go_none]
        exact hw.skip hp hlt hdead
    · rename_i hend
      cases h
      rw [handling_of_not_live hp fun hlive => hend (live_iff.mp hlive).1, go_none]
      exact hw.pass rfl hle rfl (.inl rfl)
  | readInit c | testAndSetFlag c =>
    simp only [handling, hp, begins, go_none]
    simp only [advance, hp] at h
    split at h
    all_goals cases h
    all_goals exact hw.pass rfl hle rfl (.inr (by rw [hp]; rfl))
  | initMtx c | storeInit c | clearFlag c =>
    simp only [handling, hp, begins, go_none]
    simp only [advance, hp] at h
    cases h
    exact hw.pass rfl hle rfl (.inr (by rw [hp]; rfl))
  | _ =>
    simp only [handling, hp, begins, go_none]
    simp only [advance, hp] at h
    repeat' split at h
    all_goals cases h
    all_goals exact hw.pass rfl hle rfl (.inl rfl)

end Walking

end TssWalk
