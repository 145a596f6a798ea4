import Libdeepc.HashSearch

/-!
# Slots of the hash table

What the probe loop can do is said once: it walks the masked cycle over
occupied slots with other keys and ends on an equal key, on an empty slot, or
back at its start. The mask is `nel - 1`, so the cycle covers all `nel` slots
only when `nel` is a power of two; otherwise a full cycle in a table that is
not full makes the insertion land on the occupied start slot.
-/

namespace HashSlots

open CString MachineInt MaskedCycle HashSearch Runs

def Occupied (t : HsearchData) (i : Nat) : Prop :=
  ∃ e, t.data[i]? = some e ∧ e.key ≠ 0

def Empty (t : HsearchData) (i : Nat) : Prop :=
  ∃ e, t.data[i]? = some e ∧ e.key = 0

/-- Slot `i` holds a key that `strcmp` finds equal to `key`. -/
def Holds (str : Nat → List UInt8) (t : HsearchData) (key i : Nat) : Prop :=
  ∃ e, t.data[i]? = some e ∧ e.key ≠ 0 ∧ text (str e.key) = text (str key)

/-- The probe loop goes past slot `i`. -/
def Passed (str : Nat → List UInt8) (t : HsearchData) (key i : Nat) : Prop :=
  Occupied t i ∧ ¬Holds str t key i

def insertAt (t : HsearchData) (i : Nat) (item : Entry) : HsearchData :=
  { t with size := t.size + 1, data := t.data.set i item }

/-- A call of `hsearch_r`, with the caller's promise of a NUL-terminated key. -/
structure Call (str : Nat → List UInt8) where
  item : Entry
  bytes : List UInt8
  action : Action
  nonnull : item.key ≠ 0
  terminated : Terminated (str item.key)

def search {str : Nat → List UInt8} (t : HsearchData) (c : Call str) : Option HsearchResult :=
  hsearchR str t c.item c.bytes c.action

def step {str : Nat → List UInt8} (t : HsearchData) (c : Call str) : Option HsearchData :=
  (search t c).map (·.htab)

structure WellFormed (str : Nat → List UInt8) (nel : Nat) (t : HsearchData) : Prop where
  mask_eq : t.mask + 1 = nel
  capacity_eq : t.capacity = nel
  fits : nel ≤ t.data.length
  size_le : t.size ≤ nel
  keys : ∀ (i : Nat) e, t.data[i]? = some e → e.key ≠ 0 → Terminated (str e.key)

theorem passed_or {str : Nat → List UInt8} {nel : Nat} {t : HsearchData}
    (wf : WellFormed str nel t) {i : Nat} (hi : i ≤ t.mask) (key : Nat) :
    Holds str t key i ∨ Empty t i ∨ Passed str t key i := by
  have hlt : i < t.data.length := by have := wf.fits; have := wf.mask_eq; omega
  obtain ⟨e, he⟩ : ∃ e, t.data[i]? = some e := ⟨_, List.getElem?_eq_getElem hlt⟩
  by_cases hk : e.key = 0
  · exact Or.inr (Or.inl ⟨e, he, hk⟩)
  · by_cases hh : Holds str t key i
    · exact Or.inl hh
    · exact Or.inr (Or.inr ⟨⟨e, he, hk⟩, hh⟩)

section Loop

variable {str : Nat → List UInt8} {nel : Nat} {t : HsearchData} {key start : Nat}

theorem probeLoop_holds (wf : WellFormed str nel t) (hkey : Terminated (str key))
    {i : Nat} (h : Holds str t key i) (fuel : Nat) :
    probeLoop str t key start (fuel + 1) i = some (.found i) := by
  obtain ⟨e, he, hk, htext⟩ := h
  obtain ⟨c, hc, hzero⟩ := strcmp_eq_zero_iff (wf.keys i e he hk) hkey
  simp [probeLoop, he, hk, hc, hzero.mpr htext]

theorem probeLoop_empty {i : Nat} (h : Empty t i) (fuel : Nat) :
    probeLoop str t key start (fuel + 1) i = some (.stopped i) := by
  obtain ⟨e, he, hk⟩ := h
  simp [probeLoop, he, hk]

theorem probeLoop_passed (wf : WellFormed str nel t) (hkey : Terminated (str key))
    {i : Nat} (h : Passed str t key i) (fuel : Nat) :
    probeLoop str t key start (fuel + 1) i =
      if next t.mask i = start then some (.stopped start)
      else probeLoop str t key start fuel (next t.mask i) := by
  obtain ⟨⟨e, he, hk⟩, hnot⟩ := h
  obtain ⟨c, hc, hzero⟩ := strcmp_eq_zero_iff (wf.keys i e he hk) hkey
  have hne : c ≠ 0 := fun h0 => hnot ⟨e, he, hk, hzero.mp h0⟩
  by_cases hstart : (i + 1) &&& t.mask = start
  · simp [probeLoop, he, hk, hc, hne, next, hstart]
  · simp [probeLoop, he, hk, hc, hne, next, hstart]

/-- The loop invariant: all slots before step `d` are passed. The loop ends on
an equal key, on an empty slot, or after the whole cycle. -/
theorem probeLoop_from (wf : WellFormed str nel t) (hkey : Terminated (str key))
    {k m : Nat} (hm : t.mask + 1 = 2 ^ k * (2 * m + 1)) (hs : start &&& t.mask = start)
    {d fuel : Nat} (hd : d < 2 ^ k) (hfuel : 2 ^ k ≤ d + fuel)
    (before : ∀ j, j < d → Passed str t key (probe t.mask start j)) :
    ∃ e, e ≤ 2 ^ k ∧ (∀ j, j < e → Passed str t key (probe t.mask start j)) ∧
      ((e < 2 ^ k ∧ Holds str t key (probe t.mask start e) ∧
          probeLoop str t key start fuel (probe t.mask start d) =
            some (.found (probe t.mask start e))) ∨
        (e < 2 ^ k ∧ Empty t (probe t.mask start e) ∧
          probeLoop str t key start fuel (probe t.mask start d) =
            some (.stopped (probe t.mask start e))) ∨
        (e = 2 ^ k ∧ probeLoop str t key start fuel (probe t.mask start d) =
            some (.stopped start))) := by
  induction fuel generalizing d with
  | zero => omega
  | succ fuel ih =>
    rcases passed_or wf (probe_le hs d) key with hholds | hempty | hpassed
    · exact ⟨d, hd.le, before, Or.inl ⟨hd, hholds, probeLoop_holds wf hkey hholds fuel⟩⟩
    · exact ⟨d, hd.le, before, Or.inr (Or.inl ⟨hd, hempty, probeLoop_empty hempty fuel⟩)⟩
    · have before' : ∀ j, j < d + 1 → Passed str t key (probe t.mask start j) := by
        intro j hj
        rcases Nat.lt_succ_iff_lt_or_eq.mp hj with hlt | rfl
        · exact before j hlt
        · exact hpassed
      rw [probeLoop_passed wf hkey hpassed fuel, ← probe_succ]
      by_cases hlast : d + 1 = 2 ^ k
      · have hback : probe t.mask start (d + 1) = start := by
          rw [hlast]; exact probe_period hm hs
        rw [if_pos hback]
        exact ⟨2 ^ k, le_rfl, hlast ▸ before', Or.inr (Or.inr ⟨rfl, rfl⟩)⟩
      · have hnot : probe t.mask start (d + 1) ≠ start := by
          intro h
          have := probe_injective hm hs (d := d + 1) (e := 0) (by omega) (by omega) h
          omega
        rw [if_neg hnot]
        exact ih (by omega) (by omega) before'

end Loop

def startOf (t : HsearchData) (hash : UInt64) : Nat := hash.toNat &&& t.mask

theorem startOf_submask (t : HsearchData) (hash : UInt64) :
    startOf t hash &&& t.mask = startOf t hash := land_land_mask _ _

/-- Everything a call of `hsearch_r` on hashable data can do. `N` is the length
of the cycle; in the last case the entry in the start slot is overwritten. -/
inductive Outcome (str : Nat → List UInt8) (t : HsearchData) (c : Call str) (start N : Nat) :
    HsearchResult → Prop where
  | found {d : Nat} (hd : d < N)
      (before : ∀ j, j < d → Passed str t c.item.key (probe t.mask start j))
      (holds : Holds str t c.item.key (probe t.mask start d)) :
      Outcome str t c start N ⟨1, some (probe t.mask start d), t⟩
  | refused {e : Nat} (he : e ≤ N)
      (before : ∀ j, j < e → Passed str t c.item.key (probe t.mask start j))
      (empty : e < N → Empty t (probe t.mask start e))
      (why : c.action = .find ∨ t.size = t.capacity) :
      Outcome str t c start N ⟨0, none, t⟩
  | inserted {e : Nat} (he : e < N)
      (before : ∀ j, j < e → Passed str t c.item.key (probe t.mask start j))
      (empty : Empty t (probe t.mask start e)) (enter : c.action = .enter)
      (room : t.size ≠ t.capacity) :
      Outcome str t c start N
        ⟨1, some (probe t.mask start e), insertAt t (probe t.mask start e) c.item⟩
  | overwritten (before : ∀ j, j < N → Passed str t c.item.key (probe t.mask start j))
      (enter : c.action = .enter) (room : t.size ≠ t.capacity) :
      Outcome str t c start N ⟨1, some start, insertAt t start c.item⟩

theorem ne_find_iff {a : Action} : a ≠ .find ↔ a = .enter := by cases a <;> simp

theorem search_of_found {str : Nat → List UInt8} {t : HsearchData} {c : Call str} {hash : UInt64}
    (hh : hasher c.bytes = some hash) {i : Nat}
    (hp : probeLoop str t c.item.key (startOf t hash) (t.mask + 1) (startOf t hash) =
      some (.found i)) : search t c = some ⟨1, some i, t⟩ := by
  simp only [search, hsearchR, hh, Option.bind_eq_bind, Option.bind_some]
  rw [startOf] at hp
  rw [hp]
  rfl

theorem search_of_stopped {str : Nat → List UInt8} {t : HsearchData} {c : Call str} {hash : UInt64}
    (hh : hasher c.bytes = some hash) {i : Nat}
    (hp : probeLoop str t c.item.key (startOf t hash) (t.mask + 1) (startOf t hash) =
      some (.stopped i)) :
    search t c =
      if c.action = .find ∨ t.size = t.capacity then some ⟨0, none, t⟩
      else if i < t.data.length then some ⟨1, some i, insertAt t i c.item⟩
      else none := by
  simp only [search, hsearchR, hh, Option.bind_eq_bind, Option.bind_some]
  rw [startOf] at hp
  rw [hp]
  rfl

/-- A call on terminated data always comes back, in one of the four ways. -/
theorem search_outcome {str : Nat → List UInt8} {nel : Nat} {t : HsearchData} {c : Call str}
    (wf : WellFormed str nel t) {hash : UInt64}
    (hh : hasher c.bytes = some hash)
    {k m : Nat} (hm : t.mask + 1 = 2 ^ k * (2 * m + 1)) :
    ∃ r, search t c = some r ∧ Outcome str t c (startOf t hash) (2 ^ k) r := by
  have hpos : 0 < 2 ^ k := Nat.two_pow_pos k
  have hs := startOf_submask t hash
  have hfuel : 2 ^ k ≤ 0 + (t.mask + 1) := by
    rw [Nat.zero_add, hm]
    exact Nat.le_mul_of_pos_right _ (by omega)
  have hlen : ∀ d, probe t.mask (startOf t hash) d < t.data.length := by
    intro d
    have := probe_le hs d
    have := wf.fits
    have := wf.mask_eq
    omega
  obtain ⟨e, he, before, hend⟩ := probeLoop_from wf c.terminated hm hs hpos hfuel
    (fun j hj => absurd hj (Nat.not_lt_zero j))
  rw [probe_zero] at hend
  rcases hend with ⟨hlt, hholds, hp⟩ | ⟨hlt, hempty, hp⟩ | ⟨rfl, hp⟩
  · exact ⟨_, search_of_found hh hp, .found hlt before hholds⟩
  · by_cases hwhy : c.action = .find ∨ t.size = t.capacity
    · exact ⟨_, by rw [search_of_stopped hh hp, if_pos hwhy],
        .refused he before (fun _ => hempty) hwhy⟩
    · refine ⟨_, by rw [search_of_stopped hh hp, if_neg hwhy, if_pos (hlen e)],
        .inserted hlt before hempty ?_ ?_⟩
      · exact ne_find_iff.mp fun h => hwhy (Or.inl h)
      · exact fun h => hwhy (Or.inr h)
  · by_cases hwhy : c.action = .find ∨ t.size = t.capacity
    · exact ⟨_, by rw [search_of_stopped hh hp, if_pos hwhy],
        .refused he before (fun h => absurd h (lt_irrefl _)) hwhy⟩
    · have hl := hlen 0
      rw [probe_zero] at hl
      refine ⟨_, by rw [search_of_stopped hh hp, if_neg hwhy, if_pos hl],
        .overwritten before ?_ ?_⟩
      · exact ne_find_iff.mp fun h => hwhy (Or.inl h)
      · exact fun h => hwhy (Or.inr h)

theorem pow_mod_double (a : Nat) : toU64 ((2 ^ a % 2 ^ 64) <<< 1) = 2 ^ (a + 1) % 2 ^ 64 := by
  rw [toU64, Nat.shiftLeft_eq, pow_one, Nat.mod_mul_mod, ← pow_succ]

theorem nextPow2Loop_eq (fuel n a : Nat) (hn : n < 2 ^ fuel) :
    ∃ b, n < 2 ^ b ∧ nextPow2Loop fuel n (2 ^ a % 2 ^ 64) = 2 ^ (a + b) % 2 ^ 64 := by
  induction fuel generalizing n a with
  | zero => exact ⟨0, by simpa using hn, rfl⟩
  | succ fuel ih =>
    by_cases h0 : n = 0
    · exact ⟨0, by simp [h0], by simp [nextPow2Loop, h0]⟩
    · have hhalf : n >>> 1 = n / 2 := Nat.shiftRight_one n
      have hpow : 2 ^ (fuel + 1) = 2 ^ fuel * 2 := pow_succ 2 fuel
      obtain ⟨b, hb, heq⟩ := ih (n >>> 1) (a + 1) (by omega)
      have hpow' : 2 ^ (b + 1) = 2 ^ b * 2 := pow_succ 2 b
      refine ⟨b + 1, by omega, ?_⟩
      rw [nextPow2Loop, if_neg h0, pow_mod_double, heq]
      congr 2
      omega

/-- The rounded size is a power of two that is large enough, up to the wrap. -/
theorem nextPow2_eq {n : Nat} (h0 : n ≠ 0) (hn : n < 2 ^ 64) :
    ∃ j, n ≤ 2 ^ j ∧ nextPow2 n = 2 ^ j % 2 ^ 64 := by
  rw [nextPow2]
  split
  · next h =>
    have hland : n &&& (n - 1) = 0 := by simpa [isPow2] using h
    obtain ⟨j, hj⟩ := (Nat.and_sub_one_eq_zero_iff_isPowerOfTwo h0).mp hland
    exact ⟨j, hj.le, by rw [← hj, Nat.mod_eq_of_lt hn]⟩
  · obtain ⟨b, hb, heq⟩ := nextPow2Loop_eq 64 n 0 hn
    exact ⟨b, hb.le, by simpa using heq⟩

/-- A new table of `n` slots in memory that held the entries `old`. -/
def created (old : Nat → Entry) (nel n : Nat) : HsearchData :=
  ⟨(List.range n).map old, nel, 0, nel - 1⟩

/-- No slot of the block looks taken; so it is in zeroed memory. -/
def KeysNull (old : Nat → Entry) (n : Nat) : Prop := ∀ i, i < n → (old i).key = 0

theorem created_get {old : Nat → Entry} {nel n i : Nat} {e : Entry} :
    (created old nel n).data[i]? = some e ↔ i < n ∧ old i = e := by
  by_cases h : i < n <;> simp [created, h]

theorem created_get_key {old : Nat → Entry} {nel n i : Nat} {e : Entry} (hnull : KeysNull old n)
    (he : (created old nel n).data[i]? = some e) : e.key = 0 := by
  obtain ⟨hi, rfl⟩ := created_get.mp he
  exact hnull i hi

/-- A successful `hcreate_r` has at least `nel` slots, with what the memory held. -/
theorem hcreateR_spec {mallocOk : Nat → Bool} {old : Nat → Entry} {nel : Nat}
    {htab : HsearchData} {errno : Int} (hnel : nel * 2 < 2 ^ 64)
    (h : (hcreateR mallocOk old nel htab errno).ret = 1) :
    0 < nel ∧ nel ≤ nextPow2 (nel * 2) ∧
      (hcreateR mallocOk old nel htab errno).htab = created old nel (nextPow2 (nel * 2)) := by
  by_cases h0 : nel = 0
  · simp [hcreateR, h0] at h
  · obtain ⟨j, hj, hspace⟩ := nextPow2_eq (n := nel * 2) (by omega) hnel
    have hsize : toU64 (16 * nextPow2 (toU64 (nel * 2))) = 2 ^ (j + 4) % 2 ^ 64 := by
      rw [toU64_of_lt hnel, hspace, toU64, Nat.mul_mod_mod, pow_add, Nat.mul_comm]
      norm_num
    cases hcalloc : callocEntries mallocOk old 16 (nextPow2 (toU64 (nel * 2))) with
    | none => simp [hcreateR, h0, hcalloc] at h
    | some data =>
      simp only [callocEntries, hsize] at hcalloc
      split at hcalloc
      · cases hcalloc
      · next hnot =>
        have hj64 : j + 4 < 64 := by
          by_contra hge
          have hdvd : 2 ^ 64 ∣ 2 ^ (j + 4) := Nat.pow_dvd_pow 2 (by omega)
          exact hnot (Or.inl (Nat.mod_eq_zero_of_dvd hdvd))
        have hlt : 2 ^ (j + 4) < 2 ^ 64 := Nat.pow_lt_pow_right (by decide) hj64
        have hslots : 2 ^ (j + 4) % 2 ^ 64 / 16 = 2 ^ j := by
          rw [Nat.mod_eq_of_lt hlt, pow_add]
          norm_num
        have hpow : nextPow2 (nel * 2) = 2 ^ j := by
          have hlt' : 2 ^ j < 2 ^ 64 := Nat.pow_lt_pow_right (by decide) (by omega)
          rw [hspace, Nat.mod_eq_of_lt hlt']
        refine ⟨Nat.pos_of_ne_zero h0, by omega, ?_⟩
        simp only [hcreateR, if_neg h0, callocEntries, hsize, if_neg hnot, hslots, hpow, created]

theorem wellFormed_created {old : Nat → Entry} {nel n : Nat} (h0 : 0 < nel) (hn : nel ≤ n)
    (hnull : KeysNull old n) (str : Nat → List UInt8) :
    WellFormed str nel (created old nel n) where
  mask_eq := by simp only [created]; omega
  capacity_eq := rfl
  fits := by simpa [created] using hn
  size_le := Nat.zero_le nel
  keys := fun _ _ he hk => absurd (created_get_key hnull he) hk

theorem wellFormed_insertAt {str : Nat → List UInt8} {nel : Nat} {t : HsearchData}
    (wf : WellFormed str nel t) {item : Entry} (hitem : Terminated (str item.key))
    (room : t.size ≠ t.capacity) (i : Nat) :
    WellFormed str nel (insertAt t i item) where
  mask_eq := wf.mask_eq
  capacity_eq := wf.capacity_eq
  fits := by simpa [insertAt] using wf.fits
  size_le := by
    have := wf.size_le
    have := wf.capacity_eq
    simp only [insertAt]
    omega
  keys := by
    intro j e he hk
    rw [insertAt, List.getElem?_set] at he
    split at he
    · split at he
      · rw [← Option.some.inj he]; exact hitem
      · cases he
    · exact wf.keys j e he hk

theorem wellFormed_outcome {str : Nat → List UInt8} {nel : Nat} {t : HsearchData} {c : Call str}
    (wf : WellFormed str nel t) {start N : Nat} {r : HsearchResult}
    (h : Outcome str t c start N r) : WellFormed str nel r.htab := by
  cases h with
  | found => exact wf
  | refused => exact wf
  | inserted _ _ _ _ room => exact wellFormed_insertAt wf c.terminated room _
  | overwritten _ _ room => exact wellFormed_insertAt wf c.terminated room _

theorem hasherLoop_isSome {s : List UInt8} {h : UInt64} :
    (hasherLoop s h).isSome ↔ Terminated s := by
  fun_induction hasherLoop s h with
  | case1 => simp
  | case2 => simp
  | case3 _ _ ha => simp [terminated_cons_of_ne ha]
  | case4 _ _ ha => simp [terminated_cons_of_ne ha]
  | case5 _ _ ha _ hb => simp [terminated_cons_of_ne ha, terminated_cons_of_ne hb]
  | case6 _ _ ha _ _ _ _ _ hb => simp [terminated_cons_of_ne ha, terminated_cons_of_ne hb]
  | case7 _ _ ha _ _ _ _ _ hb _ _ _ hc _ ih =>
    rw [ih, terminated_cons_of_ne ha, terminated_cons_of_ne hb, terminated_cons_of_ne hc]

/-- The hash is defined exactly on terminated strings; NULL is not one. -/
theorem exists_hasher_iff {s : List UInt8} : (∃ hash, hasher s = some hash) ↔ Terminated s := by
  rw [← hasherLoop_isSome (h := 0x0123456789abcdef), hasher, ← Option.isSome_iff_exists,
    Option.isSome_map]

theorem hasher_of_search {str : Nat → List UInt8} {t : HsearchData} {c : Call str}
    {r : HsearchResult} (h : search t c = some r) : ∃ hash, hasher c.bytes = some hash := by
  rw [search, hsearchR] at h
  obtain ⟨hash, hh, _⟩ := Option.bind_eq_some_iff.mp h
  exact ⟨hash, hh⟩

/-- The inversion lemma: a call that came back is one of the outcomes. -/
theorem outcome_of_search {str : Nat → List UInt8} {nel : Nat} {t : HsearchData} {c : Call str}
    (wf : WellFormed str nel t) {r : HsearchResult}
    (h : search t c = some r) {k m : Nat} (hm : t.mask + 1 = 2 ^ k * (2 * m + 1)) :
    ∃ hash, hasher c.bytes = some hash ∧ Outcome str t c (startOf t hash) (2 ^ k) r := by
  obtain ⟨hash, hh⟩ := hasher_of_search h
  obtain ⟨r', hr', hout⟩ := search_outcome wf hh hm
  rw [h] at hr'
  exact ⟨hash, hh, Option.some.inj hr' ▸ hout⟩

def entries (t : HsearchData) : Nat := t.data.countP (fun e => e.key ≠ 0)

/-- The slot invariant of one call that came back: the size counts the stored
entries, no stored entry is written over, a new key enters an empty slot or is
refused. -/
structure KeptBy (str : Nat → List UInt8) (t : HsearchData) (c : Call str) (r : HsearchResult) :
    Prop where
  size_eq : r.htab.size = entries r.htab
  kept : ∀ (i : Nat) e, t.data[i]? = some e → e.key ≠ 0 → r.htab.data[i]? = some e
  new_key : c.action = .enter → (∀ i, ¬Holds str t c.item.key i) →
    r.ret = 0 ∧ r.retval = none ∧ r.htab = t ∨
    ∃ i, r.ret = 1 ∧ r.retval = some i ∧ Empty t i ∧ r.htab.data[i]? = some c.item

/-- The call comes back and keeps the slots. -/
def SlotsKept (str : Nat → List UInt8) (t : HsearchData) (c : Call str) : Prop :=
  ∃ r, search t c = some r ∧ KeptBy str t c r

/-- The cycle the call probes has an empty slot or the key on it, unless the
call inserts nothing anyway. -/
def RoomOnCycle (str : Nat → List UInt8) (t : HsearchData) (c : Call str) : Prop :=
  ∀ hash, hasher c.bytes = some hash → c.action = .enter → t.size ≠ t.capacity →
    ∃ d, let i := probe t.mask (startOf t hash) d
      Empty t i ∨ Holds str t c.item.key i

/-- The string behind `item.data` can be hashed, and there is room where it leads. -/
structure FindsRoom (str : Nat → List UInt8) (t : HsearchData) (c : Call str) : Prop where
  readable : Terminated c.bytes
  room : RoomOnCycle str t c

theorem entries_insertAt {t : HsearchData} {i : Nat} (hi : Empty t i) {item : Entry}
    (hk : item.key ≠ 0) : entries (insertAt t i item) = entries t + 1 := by
  obtain ⟨e, he, hek⟩ := hi
  obtain ⟨hlt, hget⟩ := List.getElem?_eq_some_iff.mp he
  simp [entries, insertAt, List.countP_set hlt, hk, hget, hek]

theorem insertAt_get_of_empty {t : HsearchData} {i j : Nat} (hi : Empty t i) {x e : Entry}
    (he : t.data[j]? = some e) (hk : e.key ≠ 0) : (insertAt t i x).data[j]? = some e := by
  obtain ⟨e', he', hk'⟩ := hi
  have hne : i ≠ j := by
    rintro rfl
    rw [he] at he'
    exact hk (Option.some.inj he' ▸ hk')
  rw [insertAt, List.getElem?_set_ne hne]
  exact he

theorem insertAt_get_self {t : HsearchData} {i : Nat} {e : Entry} (he : t.data[i]? = some e)
    (item : Entry) : (insertAt t i item).data[i]? = some item := by
  have hlt := (List.getElem?_eq_some_iff.mp he).1
  simp [insertAt, hlt]

theorem not_passed_of_empty {str : Nat → List UInt8} {t : HsearchData} {key i : Nat}
    (h : Empty t i) : ¬Passed str t key i := by
  rintro ⟨⟨e, he, hk⟩, _⟩
  obtain ⟨e', he', hk'⟩ := h
  rw [he] at he'
  exact hk (Option.some.inj he' ▸ hk')

theorem entries_eq_of_outcome {str : Nat → List UInt8} {t : HsearchData} {c : Call str}
    (hsize : t.size = entries t) {start N : Nat} {r : HsearchResult}
    (hout : Outcome str t c start N r)
    (room : c.action = .enter → t.size ≠ t.capacity →
      ∃ d, d < N ∧ ¬Passed str t c.item.key (probe t.mask start d)) :
    r.htab.size = entries r.htab := by
  cases hout with
  | found => exact hsize
  | refused => exact hsize
  | inserted he before empty =>
    rw [entries_insertAt empty c.nonnull, ← hsize]
    rfl
  | overwritten before enter hne =>
    obtain ⟨d, hd, hnot⟩ := room enter hne
    exact absurd (before d hd) hnot

theorem kept_of_outcome {str : Nat → List UInt8} {t : HsearchData} {c : Call str}
    {start N : Nat} {r : HsearchResult} (hout : Outcome str t c start N r)
    (room : c.action = .enter → t.size ≠ t.capacity →
      ∃ d, d < N ∧ ¬Passed str t c.item.key (probe t.mask start d))
    {i : Nat} {e : Entry} (he : t.data[i]? = some e) (hk : e.key ≠ 0) :
    r.htab.data[i]? = some e := by
  cases hout with
  | found => exact he
  | refused => exact he
  | inserted _ before empty => exact insertAt_get_of_empty empty he hk
  | overwritten before enter hne =>
    obtain ⟨d, hd, hnot⟩ := room enter hne
    exact absurd (before d hd) hnot

theorem new_key_of_outcome {str : Nat → List UInt8} {t : HsearchData} {c : Call str}
    {start N : Nat} {r : HsearchResult} (hout : Outcome str t c start N r)
    (room : c.action = .enter → t.size ≠ t.capacity →
      ∃ d, d < N ∧ ¬Passed str t c.item.key (probe t.mask start d))
    (absent : ∀ i, ¬Holds str t c.item.key i) :
    r.ret = 0 ∧ r.retval = none ∧ r.htab = t ∨
    ∃ i, r.ret = 1 ∧ r.retval = some i ∧ Empty t i ∧ r.htab.data[i]? = some c.item := by
  cases hout with
  | found _ _ holds => exact absurd holds (absent _)
  | refused => exact Or.inl ⟨rfl, rfl, rfl⟩
  | inserted _ before empty =>
    obtain ⟨e, he, hk⟩ := empty
    exact Or.inr ⟨_, rfl, rfl, ⟨e, he, hk⟩, insertAt_get_self he c.item⟩
  | overwritten before enter hne =>
    obtain ⟨d, hd, hnot⟩ := room enter hne
    exact absurd (before d hd) hnot

/-- Exactly the calls that find room keep the slots. -/
theorem slotsKept_iff {str : Nat → List UInt8} {nel : Nat} {t : HsearchData} {c : Call str}
    (wf : WellFormed str nel t) (hsize : t.size = entries t) :
    SlotsKept str t c ↔ FindsRoom str t c := by
  obtain ⟨k, m, hm⟩ := exists_trailingOnes t.mask
  have hpos : 0 < 2 ^ k := Nat.two_pow_pos k
  constructor
  · rintro ⟨r, hr, kept⟩
    refine ⟨exists_hasher_iff.mp (hasher_of_search hr), fun hash hh enter hne => ?_⟩
    by_contra hno
    have hpassed : ∀ d, Passed str t c.item.key (probe t.mask (startOf t hash) d) := by
      intro d
      have hle := probe_le (startOf_submask t hash) d
      rcases passed_or wf hle c.item.key with h | h | h
      · exact absurd ⟨d, Or.inr h⟩ hno
      · exact absurd ⟨d, Or.inl h⟩ hno
      · exact h
    obtain ⟨r', hr', hout⟩ := search_outcome wf hh hm
    obtain rfl : r = r' := Option.some.inj (hr.symm.trans hr')
    cases hout with
    | found _ _ holds => exact (hpassed _).2 holds
    | refused _ _ _ why => rcases why with h | h <;> simp_all
    | inserted _ _ empty => exact not_passed_of_empty empty (hpassed _)
    | overwritten =>
      obtain ⟨⟨e, he, hk⟩, hnot⟩ := hpassed 0
      have hsame := kept.kept _ e he hk
      have hnew := insertAt_get_self he c.item
      rw [probe_zero] at hsame hnew
      have heq : e = c.item := Option.some.inj (hsame.symm.trans hnew)
      exact hnot ⟨e, he, hk, by rw [heq]⟩
  · rintro ⟨readable, hroom⟩
    obtain ⟨hash, hh⟩ := exists_hasher_iff.mpr readable
    have room : c.action = .enter → t.size ≠ t.capacity →
        ∃ d, d < 2 ^ k ∧ ¬Passed str t c.item.key (probe t.mask (startOf t hash) d) := by
      intro enter hne
      obtain ⟨d, hd⟩ := hroom hash hh enter hne
      refine ⟨d % 2 ^ k, Nat.mod_lt _ hpos, ?_⟩
      rw [probe_mod hm (startOf_submask t hash)]
      rcases hd with h | h
      · exact not_passed_of_empty h
      · exact fun hp => hp.2 h
    obtain ⟨r, hr, hout⟩ := search_outcome wf hh hm
    exact ⟨r, hr, entries_eq_of_outcome hsize hout room, fun _ _ => kept_of_outcome hout room,
      fun _ => new_key_of_outcome hout room⟩

end HashSlots
