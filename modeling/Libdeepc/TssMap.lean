import Libdeepc.Runs
import Libdeepc.TssExclusion

/-!
# Thread-specific storage as a map

The calls of `tls.c`, one call a step. The table of destructors and the array of
every thread are blocks of words with an end: an index past it is undefined
behaviour, as is a failing assertion, and `none` stands for both. Beside the
variables of the program runs the map that they are to represent.
-/

namespace TssMap

open Runs TssExclusion

section Words

/-- A pointer to a block of words, or `NULL`. -/
abbrev Words := Option (List UInt64)

def readWord (p : Words) (i : UInt64) : Option UInt64 := p.bind fun ws => ws[i.toNat]?

def writeWord (p : Words) (i v : UInt64) : Option Words :=
  p.bind fun ws => if i.toNat < ws.length then some (some (ws.set i.toNat v)) else none

/-- Memory comes afresh from the break, so it is zero. -/
def malloc (ok : Bool) (size : UInt64) : Words :=
  if size = 0 then none
  else if ok then some (List.replicate (size / 8).toNat 0) else none

/-- The call `memset(ret, size, 0)` in `calloc` sets no byte. -/
def calloc (ok : Bool) (num size : UInt64) : Words := malloc ok (num * size)

def memcpy (dest src : List UInt64) (size : UInt64) : Option (List UInt64) :=
  let n := (size / 8).toNat
  if n ≤ dest.length ∧ n ≤ src.length then some (src.take n ++ dest.drop n) else none

/-- What becomes of a new block when the old one is copied into it, if there is one. -/
def copyOld (fresh : List UInt64) (old : Words) (size : UInt64) : Option (List UInt64) :=
  match old with
  | none => some fresh
  | some ws => memcpy fresh ws size

/-- A block with as many words as its capacity says. Capacity 0 goes with `NULL`. -/
def Sized (p : Words) (capacity : UInt64) : Prop :=
  match p with
  | none => capacity = 0
  | some ws => ws.length = capacity.toNat

variable {p : Words} {capacity i j v : UInt64}

theorem readWord_of_lt (h : Sized p capacity) (hi : i < capacity) :
    ∃ v, readWord p i = some v := by
  cases p with
  | none => exact absurd hi (by rw [show capacity = 0 from h]; simp [UInt64.lt_iff_toNat_lt])
  | some ws =>
    have hlen : i.toNat < ws.length := by
      rw [show ws.length = capacity.toNat from h]
      exact UInt64.lt_iff_toNat_lt.mp hi
    exact ⟨ws[i.toNat], List.getElem?_eq_getElem hlen⟩

theorem writeWord_of_lt (h : Sized p capacity) (hi : i < capacity) (v : UInt64) :
    ∃ q, writeWord p i v = some q ∧ Sized q capacity ∧
      ∀ j, readWord q j = if j = i then some v else readWord p j := by
  cases p with
  | none => exact absurd hi (by rw [show capacity = 0 from h]; simp [UInt64.lt_iff_toNat_lt])
  | some ws =>
    have hlen : i.toNat < ws.length := by
      rw [show ws.length = capacity.toNat from h]
      exact UInt64.lt_iff_toNat_lt.mp hi
    refine ⟨some (ws.set i.toNat v), if_pos hlen, ?_, fun j => ?_⟩
    · exact List.length_set.trans h
    · change (ws.set i.toNat v)[j.toNat]? = _
      by_cases hj : j = i
      · rw [if_pos hj, hj, List.getElem?_set_self hlen]
      · rw [if_neg hj, List.getElem?_set_ne fun heq => hj (UInt64.toNat_inj.mp heq.symm)]
        rfl

theorem readWord_of_le (h : Sized p capacity) (hi : capacity ≤ i) : readWord p i = none := by
  cases p with
  | none => rfl
  | some ws =>
    have hlen : ws.length = capacity.toNat := h
    exact List.getElem?_eq_none (hlen ▸ UInt64.le_iff_toNat_le.mp hi)

theorem words_of_shape (h : CapacityShape capacity) :
    (capacity * 8 / 8).toNat = capacity.toNat := by
  have hle : capacity.toNat ≤ 2 ^ 60 := by
    rcases h with rfl | ⟨k, _, hk, hpow⟩
    · decide
    · exact hpow ▸ Nat.pow_le_pow_right (by decide) hk
  have hmul : (capacity * 8).toNat = capacity.toNat * 8 := by
    rw [UInt64.toNat_mul]
    exact Nat.mod_eq_of_lt (Nat.lt_of_le_of_lt (Nat.mul_le_mul_right 8 hle) (by decide))
  rw [UInt64.toNat_div, hmul]
  exact Nat.mul_div_cancel _ (by decide)

theorem malloc_eq {ok : Bool} {size : UInt64} {ws : List UInt64} (h : malloc ok size = some ws) :
    size ≠ 0 ∧ ws = List.replicate (size / 8).toNat 0 := by
  rw [malloc] at h
  split at h
  · cases h
  · split at h
    · exact ⟨‹_›, (Option.some.inj h).symm⟩
    · cases h

/-- The old words stand at their old places, and the rest of the new block is zero. -/
theorem copyOld_spec {new : UInt64} (h : Sized p capacity) (hshape : CapacityShape capacity)
    (hnew : CapacityShape new) (hle : capacity ≤ new) :
    ∃ ws, copyOld (List.replicate (new * 8 / 8).toNat 0) p (capacity * 8) = some ws ∧
      Sized (some ws) new ∧
      ∀ j, j < new → readWord (some ws) j = if j < capacity then readWord p j else some 0 := by
  rw [words_of_shape hnew]
  cases p with
  | none =>
    refine ⟨_, rfl, List.length_replicate, fun j hj => ?_⟩
    rw [if_neg (by rw [show capacity = 0 from h]; simp [UInt64.lt_iff_toNat_lt])]
    exact (List.getElem?_replicate ..).trans (if_pos (UInt64.lt_iff_toNat_lt.mp hj))
  | some old =>
    have hlen : old.length = capacity.toNat := h
    have hle' := UInt64.le_iff_toNat_le.mp hle
    refine ⟨old ++ List.replicate (new.toNat - capacity.toNat) 0, ?_, ?_, fun j hj => ?_⟩
    · have hroom : capacity.toNat ≤ (List.replicate new.toNat (0 : UInt64)).length := by
        rwa [List.length_replicate]
      rw [copyOld, memcpy, words_of_shape hshape, if_pos ⟨hroom, hlen.ge⟩,
        List.take_of_length_le hlen.le, List.drop_replicate]
    · change (old ++ _).length = new.toNat
      rw [List.length_append, List.length_replicate, hlen]
      omega
    · have hj' := UInt64.lt_iff_toNat_lt.mp hj
      change (old ++ _)[j.toNat]? = _
      split
      · rename_i hlt
        have hlt' := UInt64.lt_iff_toNat_lt.mp hlt
        exact List.getElem?_append_left (hlen ▸ hlt')
      · rename_i hge
        have hge' := UInt64.le_iff_toNat_le.mp (UInt64.not_lt.mp hge)
        rw [List.getElem?_append_right (hlen ▸ hge'), List.getElem?_replicate, hlen]
        exact if_pos (by omega)

end Words

section Calls

/-- `tss_meta` is given by its `dtor` fields. -/
structure Globals where
  tssMeta : Words
  tssMetaCapacity : UInt64
  tssNext : UInt64

structure Local where
  tssData : Words
  tssDataCapacity : UInt64

inductive Answer
  /-- `thrd_success`, with the key stored through `tss_key`. -/
  | created (key : UInt64)
  | success
  | error
  | value (val : UInt64)
  | deleted
  deriving DecidableEq

/-- The inner `none` is a failing `malloc`. -/
def growMeta (g : Globals) (ok : Bool) : Option (Option Globals) :=
  let newCapacity := if g.tssMetaCapacity = 0 then 8 else g.tssMetaCapacity * 2
  match malloc ok (newCapacity * 8) with
  | none => some none
  | some fresh => (copyOld fresh g.tssMeta (g.tssMetaCapacity * 8)).map fun newMeta =>
    some { g with tssMeta := some newMeta, tssMetaCapacity := newCapacity }

/-- What `tss_create` does once there is room. -/
def takeKey (g : Globals) (dtor : UInt64) : Option (Answer × Globals) :=
  (writeWord g.tssMeta g.tssNext dtor).map fun newMeta =>
    (.created g.tssNext, { g with tssMeta := newMeta, tssNext := g.tssNext + 1 })

def tssCreate (g : Globals) (dtor : UInt64) (ok : Bool) : Option (Answer × Globals) :=
  (if g.tssMetaCapacity ≤ g.tssNext then growMeta g ok else some (some g)).bind fun
    | none => some (.error, g)
    | some g => takeKey g dtor

def tssGet (l : Local) (key : UInt64) : Option Answer :=
  if l.tssDataCapacity ≤ key then some (.value 0) else (readWord l.tssData key).map .value

def growData (l : Local) (newCapacity : UInt64) (ok : Bool) : Option (Option Local) :=
  match calloc ok newCapacity 8 with
  | none => some none
  | some fresh => (copyOld fresh l.tssData (l.tssDataCapacity * 8)).map fun newData =>
    some { tssData := some newData, tssDataCapacity := newCapacity }

def storeData (l : Local) (key val : UInt64) : Option (Answer × Local) :=
  (writeWord l.tssData key val).map fun newData => (.success, { l with tssData := newData })

def tssSet (g : Globals) (l : Local) (key val : UInt64) (ok : Bool) : Option (Answer × Local) :=
  (if l.tssDataCapacity ≤ key then
    -- assert(new_capacity > tss_key)
    if g.tssMetaCapacity > key then growData l g.tssMetaCapacity ok else none
  else some (some l)).bind fun
    | none => some (.error, l)
    | some l => storeData l key val

def tssDelete (g : Globals) (key : UInt64) : Option (Answer × Globals) :=
  (writeWord g.tssMeta key 0).map fun newMeta => (.deleted, { g with tssMeta := newMeta })

structure Globals.Ok (g : Globals) : Prop where
  sized : Sized g.tssMeta g.tssMetaCapacity
  shape : CapacityShape g.tssMetaCapacity
  next_le : g.tssNext ≤ g.tssMetaCapacity

/-- The array of a thread was made when the table had some capacity, and that only grows. -/
structure Local.Ok (l : Local) (metaCapacity : UInt64) : Prop where
  sized : Sized l.tssData l.tssDataCapacity
  shape : CapacityShape l.tssDataCapacity
  le : l.tssDataCapacity ≤ metaCapacity

/-- What an array says about every key: no word for it means `NULL`. -/
def Local.value (l : Local) (key : UInt64) : UInt64 := (readWord l.tssData key).getD 0

variable {g : Globals} {l : Local}

theorem growMeta_spec (h : g.Ok) (ok : Bool) : growMeta g ok = some none ∨
    ∃ g', growMeta g ok = some (some g') ∧ g'.Ok ∧ g'.tssNext = g.tssNext ∧
      g.tssMetaCapacity < g'.tssMetaCapacity ∧
      ∀ j, j < g.tssMetaCapacity → readWord g'.tssMeta j = readWord g.tssMeta j := by
  cases hfresh : malloc ok (grown g.tssMetaCapacity * 8) with
  | none =>
    refine .inl ?_
    simp only [growMeta, ← grown.eq_1, hfresh]
  | some fresh =>
    obtain ⟨hne, rfl⟩ := malloc_eq hfresh
    obtain ⟨hshape, hlt⟩ := grown_spec h.shape hne
    have hle : g.tssMetaCapacity ≤ grown g.tssMetaCapacity := hlt.le
    obtain ⟨ws, hcopy, hsized, hread⟩ := copyOld_spec h.sized h.shape hshape hle
    refine .inr ⟨{ g with
      tssMeta := some ws
      tssMetaCapacity := grown g.tssMetaCapacity }, ?_, ⟨hsized, hshape, ?_⟩, rfl, hlt, ?_⟩
    · simp only [growMeta, ← grown.eq_1, hfresh, hcopy, Option.map_some]
    · exact UInt64.le_trans h.next_le hle
    · intro j hj
      exact (hread j (lt_trans hj hlt)).trans (if_pos hj)

theorem takeKey_spec (h : g.Ok) (hroom : g.tssNext < g.tssMetaCapacity) (dtor : UInt64) :
    ∃ g', takeKey g dtor = some (.created g.tssNext, g') ∧ g'.Ok ∧
      g'.tssNext = g.tssNext + 1 ∧ g'.tssMetaCapacity = g.tssMetaCapacity ∧
      ∀ j, readWord g'.tssMeta j = if j = g.tssNext then some dtor else readWord g.tssMeta j := by
  obtain ⟨_, hle⟩ := lt_succ_le hroom
  obtain ⟨q, hq, hsized, hread⟩ := writeWord_of_lt h.sized hroom dtor
  refine ⟨{ g with tssMeta := q, tssNext := g.tssNext + 1 }, ?_, ⟨hsized, h.shape, hle⟩, rfl, rfl,
    hread⟩
  simp only [takeKey, hq, Option.map_some]

/-- There is room for one more key, or no memory to make it. -/
theorem tssCreate_spec (h : g.Ok) (dtor : UInt64) (ok : Bool) :
    tssCreate g dtor ok = some (.error, g) ∨
    ∃ g', tssCreate g dtor ok = some (.created g.tssNext, g') ∧ g'.Ok ∧
      g'.tssNext = g.tssNext + 1 ∧ g.tssNext < g.tssNext + 1 ∧
      g.tssMetaCapacity ≤ g'.tssMetaCapacity ∧
      readWord g'.tssMeta g.tssNext = some dtor ∧
      ∀ j, j < g.tssNext → readWord g'.tssMeta j = readWord g.tssMeta j := by
  by_cases hfull : g.tssMetaCapacity ≤ g.tssNext
  · rcases growMeta_spec h ok with hnone | ⟨g₁, hgrow, hok, hnext, hlt, hold⟩
    · refine .inl ?_
      simp only [tssCreate, if_pos hfull, hnone, Option.bind_some]
    · have hroom : g.tssNext < g₁.tssMetaCapacity := lt_of_le_of_lt h.next_le hlt
      obtain ⟨g', htake, hok', hnext', hcap, hread⟩ := takeKey_spec hok (hnext ▸ hroom) dtor
      rw [hnext] at htake hnext' hread
      refine .inr ⟨g', ?_, hok', hnext', (lt_succ_le hroom).1, hcap ▸ hlt.le, ?_, ?_⟩
      · simp only [tssCreate, if_pos hfull, hgrow, Option.bind_some, htake]
      · exact (hread _).trans (if_pos rfl)
      · intro j hj
        exact ((hread j).trans (if_neg hj.ne)).trans (hold j (lt_of_lt_of_le hj h.next_le))
  · have hroom := UInt64.not_le.mp hfull
    obtain ⟨g', htake, hok', hnext', hcap, hread⟩ := takeKey_spec h hroom dtor
    refine .inr ⟨g', ?_, hok', hnext', (lt_succ_le hroom).1, hcap ▸ UInt64.le_refl _, ?_, ?_⟩
    · simp only [tssCreate, if_neg hfull, Option.bind_some, htake]
    · exact (hread _).trans (if_pos rfl)
    · intro j hj
      exact (hread j).trans (if_neg hj.ne)

theorem tssGet_spec {c : UInt64} (h : l.Ok c) (key : UInt64) :
    tssGet l key = some (.value (l.value key)) := by
  rw [tssGet, Local.value]
  split
  · rename_i hle
    rw [readWord_of_le h.sized hle]
    rfl
  · rename_i hlt
    obtain ⟨v, hv⟩ := readWord_of_lt h.sized (UInt64.not_le.mp hlt)
    rw [hv]
    rfl

/-- A bigger array says the same about every key. -/
theorem growData_spec {c : UInt64} (h : l.Ok c) (hc : CapacityShape c) (ok : Bool) :
    growData l c ok = some none ∨ ∃ l', growData l c ok = some (some l') ∧ l'.Ok c ∧
      l'.tssDataCapacity = c ∧ l'.value = l.value := by
  cases hfresh : calloc ok c 8 with
  | none =>
    refine .inl ?_
    simp only [growData, hfresh]
  | some fresh =>
    obtain ⟨_, rfl⟩ := malloc_eq hfresh
    obtain ⟨ws, hcopy, hsized, hread⟩ := copyOld_spec h.sized h.shape hc h.le
    refine .inr ⟨⟨some ws, c⟩, ?_, ⟨hsized, hc, UInt64.le_refl c⟩, rfl, ?_⟩
    · simp only [growData, hfresh, hcopy, Option.map_some]
    · funext key
      change (readWord (some ws) key).getD 0 = (readWord l.tssData key).getD 0
      by_cases hnew : key < c
      · rw [hread key hnew]
        split
        · rfl
        · rename_i hge
          rw [readWord_of_le h.sized (UInt64.not_lt.mp hge)]
          rfl
      · have hge := UInt64.not_lt.mp hnew
        rw [readWord_of_le hsized hge, readWord_of_le h.sized (UInt64.le_trans h.le hge)]

theorem storeData_spec {c : UInt64} (h : l.Ok c) {key : UInt64} (hkey : key < l.tssDataCapacity)
    (val : UInt64) : ∃ l', storeData l key val = some (.success, l') ∧ l'.Ok c ∧
      l'.value = Function.update l.value key val := by
  obtain ⟨q, hq, hsized, hread⟩ := writeWord_of_lt h.sized hkey val
  refine ⟨{ l with tssData := q }, ?_, ⟨hsized, h.shape, h.le⟩, funext fun j => ?_⟩
  · simp only [storeData, hq, Option.map_some]
  · change (readWord q j).getD 0 = _
    rw [hread, Function.update_apply]
    split
    · rfl
    · rfl

/-- A key that the table has room for never makes the assertion fail. -/
theorem tssSet_spec (h : l.Ok g.tssMetaCapacity) (hg : g.Ok) {key : UInt64}
    (hkey : key < g.tssMetaCapacity) (val : UInt64) (ok : Bool) :
    tssSet g l key val ok = some (.error, l) ∨
    ∃ l', tssSet g l key val ok = some (.success, l') ∧ l'.Ok g.tssMetaCapacity ∧
      l'.value = Function.update l.value key val := by
  by_cases hsmall : l.tssDataCapacity ≤ key
  · rcases growData_spec h hg.shape ok with hnone | ⟨l₁, hgrow, hok, hcap, hvalue⟩
    · refine .inl ?_
      simp only [tssSet, if_pos hsmall, gt_iff_lt, if_pos hkey, hnone, Option.bind_some]
    · obtain ⟨l', hput, hok', hvalue'⟩ := storeData_spec hok (hcap ▸ hkey) val
      refine .inr ⟨l', ?_, hok', hvalue ▸ hvalue'⟩
      simp only [tssSet, if_pos hsmall, gt_iff_lt, if_pos hkey, hgrow, Option.bind_some, hput]
  · obtain ⟨l', hput, hok', hvalue'⟩ := storeData_spec h (UInt64.not_le.mp hsmall) val
    refine .inr ⟨l', ?_, hok', hvalue'⟩
    simp only [tssSet, if_neg hsmall, Option.bind_some, hput]

theorem tssDelete_spec (h : g.Ok) {key : UInt64} (hkey : key < g.tssMetaCapacity) :
    ∃ g', tssDelete g key = some (.deleted, g') ∧ g'.Ok ∧ g'.tssNext = g.tssNext ∧
      g'.tssMetaCapacity = g.tssMetaCapacity ∧
      ∀ j, readWord g'.tssMeta j = if j = key then some 0 else readWord g.tssMeta j := by
  obtain ⟨q, hq, hsized, hread⟩ := writeWord_of_lt h.sized hkey 0
  refine ⟨{ g with tssMeta := q }, ?_, ⟨hsized, h.shape, h.next_le⟩, rfl, rfl, hread⟩
  simp only [tssDelete, hq, Option.map_some]

end Calls

universe u
variable {T : Type u} [DecidableEq T]

/-- `ok` says whether the `malloc` or `calloc` of that call finds memory. -/
inductive Call (T : Type u)
  | tssCreate (dtor : UInt64) (ok : Bool)
  | tssSet (t : T) (key val : UInt64) (ok : Bool)
  | tssGet (t : T) (key : UInt64)
  | tssDelete (key : UInt64)

structure Store (T : Type u) where
  globals : Globals
  threads : T → Local

def perform (s : Store T) : Call T → Option (Answer × Store T)
  | .tssCreate dtor ok => (tssCreate s.globals dtor ok).map fun r =>
    (r.1, { s with globals := r.2 })
  | .tssSet t key val ok => (tssSet s.globals (s.threads t) key val ok).map fun r =>
    (r.1, { s with threads := Function.update s.threads t r.2 })
  | .tssGet t key => (tssGet (s.threads t) key).map fun a => (a, s)
  | .tssDelete key => (tssDelete s.globals key).map fun r => (r.1, { s with globals := r.2 })

/-- What the calls are for: keys, the destructor of each, and a value for each thread and key. -/
structure Table (T : Type u) where
  keys : List UInt64
  dtor : UInt64 → UInt64
  value : T → UInt64 → UInt64

def Table.after (m : Table T) : Call T → Answer → Table T
  | .tssCreate dtor _, .created key =>
    { m with keys := key :: m.keys, dtor := Function.update m.dtor key dtor }
  | .tssSet t key val _, .success =>
    { m with value := Function.update m.value t (Function.update (m.value t) key val) }
  | .tssDelete key, .deleted => { m with dtor := Function.update m.dtor key 0 }
  | _, _ => m

/-- A new key is one never returned before, and a value is the one last set, or `NULL`. -/
def Table.Allows (m : Table T) : Call T → Answer → Prop
  | .tssCreate _ _, .created key => key ∉ m.keys
  | .tssCreate _ _, .error => True
  | .tssSet _ _ _ _, .success => True
  | .tssSet _ _ _ _, .error => True
  | .tssGet t key, .value val => val = m.value t key
  | .tssDelete _, .deleted => True
  | _, _ => False

structure State (T : Type u) where
  store : Store T
  table : Table T

def step (s : State T) (c : Call T) : Option (State T) :=
  (perform s.store c).map fun r => { store := r.2, table := s.table.after c r.1 }

/-- No thread has used thread-specific storage yet. -/
def initial (T : Type u) : State T where
  store :=
    { globals := { tssMeta := none, tssMetaCapacity := 0, tssNext := 0 }
      threads := fun _ => { tssData := none, tssDataCapacity := 0 } }
  table := { keys := [], dtor := fun _ => 0, value := fun _ _ => 0 }

/-- The key of a call comes from a `tss_create` before it. -/
def FromCreate (s : State T) : Call T → Prop
  | .tssCreate _ _ => True
  | .tssSet _ key _ _ | .tssGet _ key | .tssDelete key => key ∈ s.table.keys

/-- The arrays have the length their capacities say. -/
def Store.Sized (s : Store T) : Prop :=
  TssMap.Sized s.globals.tssMeta s.globals.tssMetaCapacity ∧
    ∀ t, TssMap.Sized (s.threads t).tssData (s.threads t).tssDataCapacity

/-- The call comes back with an answer that the map allows. After it every key has the destructor
that the map has for it. A call that fails leaves everything as it was. -/
def Lawful (s : State T) (c : Call T) : Prop :=
  ∃ a s', perform s.store c = some (a, s') ∧ s.table.Allows c a ∧ s'.Sized ∧
    (∀ key ∈ (s.table.after c a).keys,
      readWord s'.globals.tssMeta key = some ((s.table.after c a).dtor key)) ∧
    (a = .error → s' = s.store)

structure Inv (s : State T) : Prop where
  globals : s.store.globals.Ok
  threads : ∀ t, (s.store.threads t).Ok s.store.globals.tssMetaCapacity
  keys : ∀ key, key ∈ s.table.keys ↔ key < s.store.globals.tssNext
  dtor : ∀ key ∈ s.table.keys,
    readWord s.store.globals.tssMeta key = some (s.table.dtor key)
  value : ∀ t, (s.store.threads t).value = s.table.value t

variable {s : State T}

omit [DecidableEq T] in
theorem Inv.sized (h : Inv s) : s.store.Sized := ⟨h.globals.sized, fun t => (h.threads t).sized⟩

omit [DecidableEq T] in
/-- A key that was created has its place in the table. -/
theorem Inv.key_lt (h : Inv s) {key : UInt64} (hkey : key ∈ s.table.keys) :
    key < s.store.globals.tssMetaCapacity :=
  lt_of_lt_of_le ((h.keys key).mp hkey) h.globals.next_le

theorem perform_create (h : Inv s) (dtor : UInt64) (ok : Bool) :
    ∃ a s', perform s.store (.tssCreate dtor ok) = some (a, s') ∧
      s.table.Allows (.tssCreate dtor ok) a ∧ (a = .error → s' = s.store) ∧
      Inv { store := s', table := s.table.after (.tssCreate dtor ok) a } := by
  rcases tssCreate_spec h.globals dtor ok with herror |
    ⟨g', hcreate, hok, hnext, hsucc, hle, hself, hold⟩
  · refine ⟨.error, s.store, ?_, trivial, fun _ => rfl, h⟩
    simp only [perform, herror, Option.map_some]
  · have hfresh : s.store.globals.tssNext ∉ s.table.keys := by
      intro hmem
      exact lt_irrefl _ ((h.keys _).mp hmem)
    refine ⟨.created s.store.globals.tssNext, { s.store with globals := g' }, ?_, hfresh, nofun,
      ⟨hok, fun t => ?_, fun key => ?_, fun key hkey => ?_, h.value⟩⟩
    · simp only [perform, hcreate, Option.map_some]
    · exact ⟨(h.threads t).sized, (h.threads t).shape, UInt64.le_trans (h.threads t).le hle⟩
    · change key ∈ s.store.globals.tssNext :: s.table.keys ↔ key < g'.tssNext
      rw [List.mem_cons, h.keys, hnext]
      grind
    · change readWord g'.tssMeta key = some (Function.update s.table.dtor _ dtor key)
      rw [Function.update_apply]
      split
      · rename_i heq
        rw [heq, hself]
      · rename_i hne
        have hmem : key ∈ s.table.keys := (List.mem_cons.mp hkey).resolve_left hne
        rw [hold key ((h.keys key).mp hmem), h.dtor key hmem]

theorem perform_set (h : Inv s) (t : T) {key : UInt64} (hkey : key ∈ s.table.keys) (val : UInt64)
    (ok : Bool) : ∃ a s', perform s.store (.tssSet t key val ok) = some (a, s') ∧
      s.table.Allows (.tssSet t key val ok) a ∧ (a = .error → s' = s.store) ∧
      Inv { store := s', table := s.table.after (.tssSet t key val ok) a } := by
  rcases tssSet_spec (h.threads t) h.globals (h.key_lt hkey) val ok with herror |
    ⟨l', hset, hok, hvalue⟩
  · refine ⟨.error, s.store, ?_, trivial, fun _ => rfl, h⟩
    simp only [perform, herror, Option.map_some, Function.update_eq_self]
  · refine ⟨.success, { s.store with threads := Function.update s.store.threads t l' }, ?_,
      trivial, nofun, ⟨h.globals, fun u => ?_, h.keys, h.dtor, fun u => ?_⟩⟩
    · simp only [perform, hset, Option.map_some]
    · change (Function.update s.store.threads t l' u).Ok _
      rw [Function.update_apply]
      split
      · exact hok
      · exact h.threads u
    · change (Function.update s.store.threads t l' u).value = Function.update s.table.value t _ u
      rw [Function.update_apply, Function.update_apply]
      split
      · rw [hvalue, h.value]
      · exact h.value u

theorem perform_delete (h : Inv s) {key : UInt64} (hkey : key ∈ s.table.keys) :
    ∃ a s', perform s.store (.tssDelete key) = some (a, s') ∧
      s.table.Allows (.tssDelete key) a ∧ (a = .error → s' = s.store) ∧
      Inv { store := s', table := s.table.after (.tssDelete key) a } := by
  obtain ⟨g', hdelete, hok, hnext, hcap, hread⟩ := tssDelete_spec h.globals (h.key_lt hkey)
  refine ⟨.deleted, { s.store with globals := g' }, ?_, trivial, nofun,
    ⟨hok, fun t => hcap ▸ h.threads t, fun k => ?_, fun k hk => ?_, h.value⟩⟩
  · simp only [perform, hdelete, Option.map_some]
  · exact (h.keys k).trans (by rw [hnext])
  · change readWord g'.tssMeta k = some (Function.update s.table.dtor key 0 k)
    rw [hread, Function.update_apply]
    split
    · rfl
    · exact h.dtor k hk

/-- One call comes back, answers as the map does and keeps the two together. -/
theorem perform_spec (h : Inv s) {c : Call T} (hc : FromCreate s c) :
    ∃ a s', perform s.store c = some (a, s') ∧ s.table.Allows c a ∧ (a = .error → s' = s.store) ∧
      Inv { store := s', table := s.table.after c a } := by
  cases c with
  | tssCreate dtor ok => exact perform_create h dtor ok
  | tssSet t key val ok => exact perform_set h t hc val ok
  | tssGet t key =>
    refine ⟨.value (s.table.value t key), s.store, ?_, rfl, nofun, h⟩
    simp only [perform, tssGet_spec (h.threads t), Option.map_some, h.value]
  | tssDelete key => exact perform_delete h hc

theorem lawful_of_inv (h : Inv s) (c : Call T) (hc : FromCreate s c) : Lawful s c := by
  obtain ⟨a, s', hperform, hallows, herror, hinv⟩ := perform_spec h hc
  exact ⟨a, s', hperform, hallows, hinv.sized, hinv.dtor, herror⟩

theorem inv_step (h : Inv s) (c : Call T) (s' : State T) (hc : FromCreate s c)
    (hstep : step s c = some s') : Inv s' := by
  obtain ⟨a, store, hperform, _, _, hinv⟩ := perform_spec h hc
  rw [step, hperform] at hstep
  exact Option.some.inj hstep ▸ hinv

omit [DecidableEq T] in
theorem inv_initial : Inv (initial T) where
  globals := ⟨rfl, .inl rfl, UInt64.le_refl 0⟩
  threads _ := ⟨rfl, .inl rfl, UInt64.le_refl 0⟩
  keys key := by simp [initial, UInt64.lt_iff_toNat_lt]
  dtor _ hkey := absurd hkey List.not_mem_nil
  value _ := rfl

/-- Thread-specific storage is the map from keys to destructors and from threads and keys to
values, whichever thread makes which call and whichever of them finds no memory. -/
theorem tss_refines_table (calls : List (Call T))
    (hkeys : Along step FromCreate (initial T) calls) : Along step Lawful (initial T) calls :=
  Along.of_inv (fun _ c h => lawful_of_inv h c) (fun _ c s' h => inv_step h c s') inv_initial hkeys

/-- Two threads, a table that grows once, an array that grows later and a call without memory. -/
def twoThreads : List (Call Nat) :=
  [.tssCreate 11 false, .tssCreate 11 true, .tssSet 0 0 5 false, .tssSet 0 0 5 true] ++
    List.replicate 8 (.tssCreate 12 true) ++
    [.tssSet 1 8 7 true, .tssGet 0 0, .tssSet 0 8 6 true, .tssGet 0 0, .tssGet 1 0, .tssDelete 8]

instance (s : State T) : ∀ c, Decidable (FromCreate s c)
  | .tssCreate _ _ => isTrue trivial
  | .tssSet _ key _ _ | .tssGet _ key | .tssDelete key =>
    inferInstanceAs (Decidable (key ∈ s.table.keys))

theorem tss_refines_table_two : Along step Lawful (initial Nat) twoThreads :=
  tss_refines_table twoThreads (by decide +kernel)

end TssMap
