import Libdeepc.HashCapacity

/-!
# hsearch as a first-write-wins map

The map the table stands for is the list of entries in the order of their
insertion, looked up by the text of the key. The code starts probing at the
hash of `item.data`, so a call answers as the map does exactly when that start
happens to reach the key, or an empty slot. The new table stands for the empty
map exactly when the memory behind it held no keys.
-/

namespace HashMapLaw

open CString MaskedCycle HashSearch HashSlots HashCapacity Runs

/-- The entry of the earliest insertion under an equal key. -/
def lookup (str : Nat → List UInt8) (m : List Entry) (key : Nat) : Option Entry :=
  m.find? fun e => text (str e.key) = text (str key)

structure MapAnswer where
  entry : Option Entry
  map : List Entry

/-- A map of at most `nel` keys. Nothing in it depends on what `item.data` points to. -/
def mapStep {str : Nat → List UInt8} (nel : Nat) (m : List Entry) (c : Call str) : MapAnswer :=
  match lookup str m c.item.key with
  | some e => ⟨some e, m⟩
  | none =>
    if c.action = .find ∨ m.length = nel then ⟨none, m⟩ else ⟨some c.item, m ++ [c.item]⟩

/-- `hsearch_r` returned the entry, or 0 with `*retval == NULL`. -/
def Answers (r : HsearchResult) : Option Entry → Prop
  | some e => r.ret = 1 ∧ ∃ i, r.retval = some i ∧ r.htab.data[i]? = some e
  | none => r.ret = 0 ∧ r.retval = none

/-- The slots hold the entries of the map and no key twice. -/
structure Represents (str : Nat → List UInt8) (t : HsearchData) (m : List Entry) : Prop where
  mem_iff : ∀ e, e ∈ m ↔ e.key ≠ 0 ∧ ∃ i : Nat, t.data[i]? = some e
  distinct : ∀ key i j, Holds str t key i → Holds str t key j → i = j
  size_eq : t.size = m.length

/-- The call comes back, answers as the map does, and the table goes on
representing the map. -/
def AsMap {str : Nat → List UInt8} (nel : Nat) (s : HsearchData × List Entry) (c : Call str) :
    Prop :=
  ∃ r, search s.1 c = some r ∧ Answers r (mapStep nel s.2 c).entry ∧
    Represents str r.htab (mapStep nel s.2 c).map

/-- Table and map side by side. -/
def pairStep {str : Nat → List UInt8} (nel : Nat) (s : HsearchData × List Entry)
    (c : Call str) : Option (HsearchData × List Entry) :=
  (step s.1 c).map fun t => (t, (mapStep nel s.2 c).map)

/-- Where the start given by `item.data` is good enough: the string there is
terminated, the slot with the key is reached over slots with other keys, and
an insertion meets an empty slot. -/
structure StartReaches (str : Nat → List UInt8) (t : HsearchData) (c : Call str) : Prop where
  readable : Terminated c.bytes
  reached : ∀ hash, hasher c.bytes = some hash → ∀ i, Holds str t c.item.key i →
    ∃ d, probe t.mask (startOf t hash) d = i ∧
      ∀ j, j < d → Passed str t c.item.key (probe t.mask (startOf t hash) j)
  room : RoomOnCycle str t c

section Represents

variable {str : Nat → List UInt8} {t : HsearchData} {m : List Entry}

theorem lookup_of_holds (rep : Represents str t m) {key i : Nat} (h : Holds str t key i) :
    ∃ e, lookup str m key = some e ∧ t.data[i]? = some e := by
  obtain ⟨e, he, hk, htext⟩ := h
  have hmem : e ∈ m := (rep.mem_iff e).mpr ⟨hk, i, he⟩
  have hsome : (lookup str m key).isSome := by
    rw [lookup, List.find?_isSome]
    exact ⟨e, hmem, by simpa using htext⟩
  obtain ⟨e', hfind⟩ := Option.isSome_iff_exists.mp hsome
  have htext' : text (str e'.key) = text (str key) := by
    simpa using List.find?_some hfind
  obtain ⟨hk', j, hj⟩ := (rep.mem_iff e').mp (List.mem_of_find?_eq_some hfind)
  have hij := rep.distinct key i j ⟨e, he, hk, htext⟩ ⟨e', hj, hk', htext'⟩
  exact ⟨e', hfind, hij ▸ hj⟩

theorem lookup_of_absent (rep : Represents str t m) {key : Nat}
    (h : ∀ i, ¬Holds str t key i) : lookup str m key = none := by
  rw [lookup, List.find?_eq_none]
  intro e hmem heq
  obtain ⟨hk, i, hi⟩ := (rep.mem_iff e).mp hmem
  exact h i ⟨e, hi, hk, by simpa using heq⟩

theorem mapStep_of_holds (rep : Represents str t m) {c : Call str} {i : Nat} (nel : Nat)
    (h : Holds str t c.item.key i) :
    ∃ e, t.data[i]? = some e ∧ mapStep nel m c = ⟨some e, m⟩ := by
  obtain ⟨e, hfind, he⟩ := lookup_of_holds rep h
  exact ⟨e, he, by simp [mapStep, hfind]⟩

theorem mapStep_of_absent (rep : Represents str t m) {c : Call str} (nel : Nat)
    (h : ∀ i, ¬Holds str t c.item.key i) :
    mapStep nel m c = if c.action = .find ∨ m.length = nel then ⟨none, m⟩
      else ⟨some c.item, m ++ [c.item]⟩ := by
  simp [mapStep, lookup_of_absent rep h]

/-- A new table stands for the empty map when no slot of it looks taken. -/
theorem represents_created_iff {old : Nat → Entry} {n : Nat} (nel : Nat) :
    Represents str (created old nel n) [] ↔ KeysNull old n := by
  constructor
  · intro rep i hi
    by_contra hk
    exact List.not_mem_nil ((rep.mem_iff (old i)).mpr ⟨hk, i, created_get.mpr ⟨hi, rfl⟩⟩)
  · intro hnull
    refine ⟨fun e => ?_, ?_, rfl⟩
    · simp only [List.not_mem_nil, false_iff, not_and, not_exists]
      exact fun hk i hi => hk (created_get_key hnull hi)
    · rintro key i j ⟨e, he, hk, _⟩
      exact absurd (created_get_key hnull he) hk

/-- A slot after an insertion: the new item in slot `i`, the old one elsewhere. -/
theorem insertAt_get_iff {i j : Nat} {item e : Entry} :
    (insertAt t i item).data[j]? = some e ↔
      (j = i ∧ i < t.data.length ∧ item = e) ∨ (j ≠ i ∧ t.data[j]? = some e) := by
  rw [insertAt, List.getElem?_set]
  by_cases hij : i = j
  · subst hij
    by_cases hlt : i < t.data.length <;> simp [hlt]
  · simp [hij, Ne.symm hij]

theorem represents_insertAt (rep : Represents str t m) {i : Nat} (empty : Empty t i)
    {item : Entry} (hk : item.key ≠ 0) (absent : ∀ j, ¬Holds str t item.key j) :
    Represents str (insertAt t i item) (m ++ [item]) where
  mem_iff := by
    intro e
    rw [List.mem_append, List.mem_singleton, rep.mem_iff]
    obtain ⟨e₀, he₀, hk₀⟩ := empty
    constructor
    · rintro (⟨hke, j, hj⟩ | rfl)
      · exact ⟨hke, j, insertAt_get_of_empty ⟨e₀, he₀, hk₀⟩ hj hke⟩
      · exact ⟨hk, i, insertAt_get_self he₀ e⟩
    · rintro ⟨hke, j, hj⟩
      rcases insertAt_get_iff.mp hj with ⟨_, _, rfl⟩ | ⟨_, hj⟩
      · exact Or.inr rfl
      · exact Or.inl ⟨hke, j, hj⟩
  distinct := by
    rintro key a b ⟨e, he, hke, htext⟩ ⟨e', he', hke', htext'⟩
    rcases insertAt_get_iff.mp he with ⟨ha, _, rfl⟩ | ⟨ha, he⟩ <;>
      rcases insertAt_get_iff.mp he' with ⟨hb, _, rfl⟩ | ⟨hb, he'⟩
    · rw [ha, hb]
    · exact absurd ⟨e', he', hke', htext'.trans htext.symm⟩ (absent b)
    · exact absurd ⟨e, he, hke, htext.trans htext'.symm⟩ (absent a)
    · exact rep.distinct key a b ⟨e, he, hke, htext⟩ ⟨e', he', hke', htext'⟩
  size_eq := by simp [insertAt, rep.size_eq]

end Represents

section Call

variable {str : Nat → List UInt8} {nel : Nat} {t : HsearchData} {m : List Entry} {c : Call str}

/-- A start that reaches every slot with the key, and stopped before one, has
shown that there is none. -/
theorem absent_of_stop {start N e : Nat} (he : e ≤ N)
    (hmod : ∀ d, probe t.mask start (d % N) = probe t.mask start d) (hN : 0 < N)
    (before : ∀ j, j < e → Passed str t c.item.key (probe t.mask start j))
    (empty : e < N → Empty t (probe t.mask start e))
    (reached : ∀ i, Holds str t c.item.key i → ∃ d, probe t.mask start d = i ∧
      ∀ j, j < d → Passed str t c.item.key (probe t.mask start j)) :
    ∀ i, ¬Holds str t c.item.key i := by
  intro i hi
  obtain ⟨d, rfl, hd⟩ := reached i hi
  rcases Nat.lt_or_eq_of_le he with hlt | rfl
  · rcases Nat.lt_trichotomy d e with h | h | h
    · exact (before d h).2 hi
    · obtain ⟨e', he', hk', _⟩ := hi
      obtain ⟨e'', he'', hk''⟩ := empty hlt
      rw [← h, he'] at he''
      exact hk' (Option.some.inj he'' ▸ hk'')
    · exact not_passed_of_empty (empty hlt) (hd e h)
  · have hpassed := before (d % e) (Nat.mod_lt d hN)
    rw [hmod] at hpassed
    exact hpassed.2 hi

/-- The call answers as the map does when its start is good enough. -/
theorem asMap_of_startReaches (wf : WellFormed str nel t) (rep : Represents str t m)
    (h : StartReaches str t c) : AsMap nel (t, m) c := by
  obtain ⟨hash, hh⟩ := exists_hasher_iff.mpr h.readable
  obtain ⟨k, a, hm⟩ := exists_trailingOnes t.mask
  obtain ⟨r, hr, hout⟩ := search_outcome wf hh hm
  have hmod : ∀ d, probe t.mask (startOf t hash) (d % 2 ^ k) = probe t.mask (startOf t hash) d :=
    fun d => probe_mod hm (startOf_submask t hash) d
  have hfull : t.size = t.capacity ↔ m.length = nel := by
    rw [rep.size_eq, wf.capacity_eq]
  have hN := Nat.two_pow_pos k
  refine ⟨r, hr, ?_⟩
  cases hout with
  | found hd before holds =>
    obtain ⟨e, he, hmap⟩ := mapStep_of_holds rep nel holds
    rw [hmap]
    exact ⟨⟨rfl, _, rfl, he⟩, rep⟩
  | refused he before empty why =>
    have absent := absent_of_stop he hmod hN before empty (h.reached hash hh)
    rw [hfull] at why
    rw [mapStep_of_absent rep nel absent, if_pos why]
    exact ⟨⟨rfl, rfl⟩, rep⟩
  | inserted he before empty enter room =>
    have absent := absent_of_stop he.le hmod hN before (fun _ => empty) (h.reached hash hh)
    have hnot : ¬(c.action = .find ∨ m.length = nel) := by
      rw [← hfull]
      exact not_or.mpr ⟨ne_find_iff.mpr enter, room⟩
    rw [mapStep_of_absent rep nel absent, if_neg hnot]
    obtain ⟨e₀, he₀, hk₀⟩ := empty
    exact ⟨⟨rfl, _, rfl, insertAt_get_self he₀ _⟩,
      represents_insertAt rep ⟨e₀, he₀, hk₀⟩ c.nonnull absent⟩
  | overwritten before enter room =>
    obtain ⟨d, hd⟩ := h.room hash hh enter room
    have hpassed := before (d % 2 ^ k) (Nat.mod_lt d hN)
    rw [hmod] at hpassed
    rcases hd with hempty | hholds
    · exact absurd hpassed (not_passed_of_empty hempty)
    · exact absurd hholds hpassed.2

/-- Overwriting an occupied slot can never look like the map. -/
theorem not_represents_overwrite (rep : Represents str t m) {start : Nat}
    (passed : Passed str t c.item.key start) :
    ¬Represents str (insertAt t start c.item) (mapStep nel m c).map := by
  intro rep'
  obtain ⟨⟨e, he, hk⟩, hnot⟩ := passed
  have hmem : e ∈ (mapStep nel m c).map := by
    have hm : e ∈ m := (rep.mem_iff e).mpr ⟨hk, start, he⟩
    simp only [mapStep]
    split
    · exact hm
    · split
      · exact hm
      · exact List.mem_append_left _ hm
  obtain ⟨_, j, hj⟩ := (rep'.mem_iff e).mp hmem
  rcases insertAt_get_iff.mp hj with ⟨_, _, hitem⟩ | ⟨hne, hj⟩
  · exact hnot ⟨e, he, hk, by rw [hitem]⟩
  · exact hne (rep.distinct e.key j start ⟨e, hj, hk, rfl⟩ ⟨e, he, hk, rfl⟩)

theorem startReaches_of_asMap (wf : WellFormed str nel t) (rep : Represents str t m)
    (h : AsMap nel (t, m) c) : StartReaches str t c := by
  obtain ⟨r, hr, hans, hrep⟩ := h
  obtain ⟨k, a, hm⟩ := exists_trailingOnes t.mask
  obtain ⟨hash, hh, hout⟩ := outcome_of_search wf hr hm
  have huniq : ∀ hash', hasher c.bytes = some hash' → hash' = hash := by
    intro hash' hh'
    rw [hh] at hh'
    exact (Option.some.inj hh').symm
  have hreadable : Terminated c.bytes := exists_hasher_iff.mp ⟨hash, hh⟩
  cases hout with
  | @found d hd before holds =>
    refine ⟨hreadable, fun hash' hh' i hi => ?_, fun hash' hh' _ _ => ?_⟩
    · rw [huniq hash' hh']
      exact ⟨d, rep.distinct _ _ _ holds hi, before⟩
    · rw [huniq hash' hh']
      exact ⟨d, Or.inr holds⟩
  | refused he before empty why =>
    refine ⟨hreadable, fun hash' hh' i hi => ?_, fun hash' hh' enter room => ?_⟩
    · obtain ⟨e, _, hmap⟩ := mapStep_of_holds rep nel hi
      rw [hmap] at hans
      exact absurd hans.1 Nat.zero_ne_one
    · rcases why with hfind | hfull
      · exact absurd hfind (ne_find_iff.mpr enter)
      · exact absurd hfull room
  | @inserted e he before empty enter room =>
    refine ⟨hreadable, fun hash' hh' i hi => ?_, fun hash' hh' _ _ => ?_⟩
    · obtain ⟨e', he', hk', htext⟩ := hi
      obtain ⟨e₀, he₀, hk₀⟩ := empty
      have hkept := insertAt_get_of_empty (x := c.item) ⟨e₀, he₀, hk₀⟩ he' hk'
      have hsame := hrep.distinct c.item.key i _ ⟨e', hkept, hk', htext⟩
        ⟨c.item, insertAt_get_self he₀ c.item, c.nonnull, rfl⟩
      rw [hsame, he₀] at he'
      exact absurd (Option.some.inj he' ▸ hk₀) hk'
    · rw [huniq hash' hh']
      exact ⟨e, Or.inl empty⟩
  | overwritten before enter room =>
    have hpassed := before 0 (Nat.two_pow_pos k)
    rw [probe_zero] at hpassed
    exact absurd hrep (not_represents_overwrite rep hpassed)

end Call

/-- Between calls of a run that behaved as the map. -/
structure Faithful (str : Nat → List UInt8) (nel : Nat) (s : HsearchData × List Entry) :
    Prop where
  wf : WellFormed str nel s.1
  rep : Represents str s.1 s.2

theorem faithful_step {str : Nat → List UInt8} {nel : Nat} {s s' : HsearchData × List Entry}
    {c : Call str} (h : Faithful str nel s) (asMap : AsMap nel s c)
    (hstep : pairStep nel s c = some s') : Faithful str nel s' := by
  obtain ⟨r, hr, _, hrep⟩ := asMap
  obtain ⟨k, a, hm⟩ := exists_trailingOnes s.1.mask
  obtain ⟨_, _, hout⟩ := outcome_of_search h.wf hr hm
  simp only [pairStep, step, hr, Option.map_some, Option.some.injEq] at hstep
  subst hstep
  exact ⟨wellFormed_outcome h.wf hout, hrep⟩

theorem along_asMap_iff {str : Nat → List UInt8} {nel : Nat} {s : HsearchData × List Entry}
    (h : Faithful str nel s) (calls : List (Call str)) :
    Along (pairStep nel) (AsMap nel) s calls ↔ Along step (StartReaches str) s.1 calls := by
  have hproj : Along (pairStep nel) (fun s c => StartReaches str s.1 c) s calls ↔
      Along step (StartReaches str) s.1 calls :=
    along_proj fun s c => by simp [pairStep, Option.map_map, Function.comp_def]
  rw [← hproj]
  exact along_congr (I := Faithful str nel)
    (fun s c hs => ⟨startReaches_of_asMap hs.wf hs.rep, asMap_of_startReaches hs.wf hs.rep⟩)
    (fun _ _ _ hs ha hstep => faithful_step hs ha hstep) h

section Home

/-- The data of the call hashes to the home slot of its key. -/
def Homed (str : Nat → List UInt8) (nel : Nat) (home : List UInt8 → Nat) (c : Call str) : Prop :=
  ∃ hash, hasher c.bytes = some hash ∧ hash.toNat &&& (nel - 1) = home (text (str c.item.key))

/-- From the home slot of a stored key to its slot there is no gap. -/
def NoGap (str : Nat → List UInt8) (home : List UInt8 → Nat) (t : HsearchData) : Prop :=
  ∀ (i : Nat) e, t.data[i]? = some e → e.key ≠ 0 →
    ∃ d, probe t.mask (home (text (str e.key))) d = i ∧
      ∀ j, j < d → Occupied t (probe t.mask (home (text (str e.key))) j)

variable {str : Nat → List UInt8} {nel : Nat} {home : List UInt8 → Nat} {t : HsearchData}
  {m : List Entry} {c : Call str}

theorem startOf_of_homed (wf : WellFormed str nel t) (hc : Homed str nel home c) {hash : UInt64}
    (hh : hasher c.bytes = some hash) : startOf t hash = home (text (str c.item.key)) := by
  obtain ⟨hash', hh', heq⟩ := hc
  rw [hh] at hh'
  obtain rfl := Option.some.inj hh'
  have hmask : t.mask = nel - 1 := by have := wf.mask_eq; omega
  rw [startOf, hmask, heq]

/-- Without gaps the home slot reaches the key, over slots with other keys. -/
theorem reached_of_noGap (rep : Represents str t m) (gap : NoGap str home t) {key i : Nat}
    (hi : Holds str t key i) :
    ∃ d, probe t.mask (home (text (str key))) d = i ∧
      ∀ j, j < d → Passed str t key (probe t.mask (home (text (str key))) j) := by
  obtain ⟨e, he, hk, htext⟩ := hi
  obtain ⟨d, hd, hocc⟩ := gap i e he hk
  rw [htext] at hd hocc
  have hex : ∃ d, Holds str t key (probe t.mask (home (text (str key))) d) :=
    ⟨d, hd ▸ ⟨e, he, hk, htext⟩⟩
  classical
  refine ⟨Nat.find hex, rep.distinct key _ _ (Nat.find_spec hex) ⟨e, he, hk, htext⟩, ?_⟩
  intro j hj
  have hle : Nat.find hex ≤ d := Nat.find_min' hex (hd ▸ ⟨e, he, hk, htext⟩)
  exact ⟨hocc j (by omega), Nat.find_min hex hj⟩

theorem startReaches_of_noGap {k : Nat} (hnel : nel = 2 ^ k) (counted : Counted str nel t)
    (rep : Represents str t m) (gap : NoGap str home t) (hc : Homed str nel home c) :
    StartReaches str t c where
  readable := by
    obtain ⟨hash, hh, _⟩ := hc
    exact exists_hasher_iff.mp ⟨hash, hh⟩
  reached := by
    intro hash hh i hi
    rw [startOf_of_homed counted.wf hc hh]
    exact reached_of_noGap rep gap hi
  room := room_of_pow2 counted hnel c

theorem noGap_step (wf : WellFormed str nel t) (hc : Homed str nel home c)
    (gap : NoGap str home t) (room : RoomOnCycle str t c) {r : HsearchResult}
    (hr : search t c = some r) : NoGap str home r.htab := by
  obtain ⟨k, a, hm⟩ := exists_trailingOnes t.mask
  obtain ⟨hash, hh, hout⟩ := outcome_of_search wf hr hm
  have hstart := startOf_of_homed wf hc hh
  cases hout with
  | found => exact gap
  | refused => exact gap
  | @inserted d hd before empty =>
    have hocc : ∀ s, Occupied t s →
        Occupied (insertAt t (probe t.mask (startOf t hash) d) c.item) s := by
      rintro s ⟨e, he, hk⟩
      exact ⟨e, insertAt_get_of_empty empty he hk, hk⟩
    intro i e he hk
    rcases insertAt_get_iff.mp he with ⟨rfl, _, rfl⟩ | ⟨_, he⟩
    · rw [← hstart]
      exact ⟨d, rfl, fun j hj => hocc _ (before j hj).1⟩
    · obtain ⟨d', hd', hbefore⟩ := gap i e he hk
      exact ⟨d', hd', fun j hj => hocc _ (hbefore j hj)⟩
  | overwritten before enter hne =>
    obtain ⟨d, hd⟩ := room hash hh enter hne
    have hpassed := before (d % 2 ^ k) (Nat.mod_lt d (Nat.two_pow_pos k))
    rw [probe_mod hm (startOf_submask t hash)] at hpassed
    rcases hd with hempty | hholds
    · exact absurd hpassed (not_passed_of_empty hempty)
    · exact absurd hholds hpassed.2

/-- With a power of two, and data whose start depends on the key alone, every
run behaves as the map. -/
theorem along_asMap_of_homed {k : Nat} (hnel : nel = 2 ^ k) (counted : Counted str nel t)
    (rep : Represents str t m) (gap : NoGap str home t) {calls : List (Call str)}
    (hcalls : ∀ c ∈ calls, Homed str nel home c) :
    Along (pairStep nel) (AsMap nel) (t, m) calls := by
  refine Along.of_inv (Q := fun _ c => Homed str nel home c)
    (I := fun s => Counted str nel s.1 ∧ Represents str s.1 s.2 ∧ NoGap str home s.1)
    ?_ ?_ ⟨counted, rep, gap⟩ (along_of_forall hcalls _)
  · rintro s c ⟨hcounted, hrep, hgap⟩ hc
    exact asMap_of_startReaches hcounted.wf hrep (startReaches_of_noGap hnel hcounted hrep hgap hc)
  · rintro s c s' ⟨hcounted, hrep, hgap⟩ hc hstep
    have hreach := startReaches_of_noGap hnel hcounted hrep hgap hc
    have hmap := asMap_of_startReaches hcounted.wf hrep hreach
    have hfaithful := faithful_step ⟨hcounted.wf, hrep⟩ hmap hstep
    obtain ⟨t', htab, rfl⟩ := Option.map_eq_some_iff.mp hstep
    have hkept := (slotsKept_iff hcounted.wf hcounted.size_eq).mpr
      ⟨hreach.readable, hreach.room⟩
    obtain ⟨r, hr, rfl⟩ := exists_search_of_step htab
    exact ⟨counted_step hcounted hkept htab, hfaithful.rep,
      noGap_step hcounted.wf hc hgap hreach.room hr⟩

end Home

/-- The table stands for the empty map, and every call of the run is one on the map. -/
def BehavesAsMap (str : Nat → List UInt8) (nel : Nat) (t : HsearchData)
    (calls : List (Call str)) : Prop :=
  Represents str t [] ∧ Along (pairStep nel) (AsMap nel) (t, []) calls

theorem behavesAsMap_created_iff {str : Nat → List UInt8} {old : Nat → Entry} {nel n : Nat}
    (h0 : 0 < nel) (hn : nel ≤ n) (calls : List (Call str)) :
    BehavesAsMap str nel (created old nel n) calls ↔
      KeysNull old n ∧ Along step (StartReaches str) (created old nel n) calls := by
  constructor
  · rintro ⟨hrep, hall⟩
    have hnull := (represents_created_iff nel).mp hrep
    have hwf := wellFormed_created h0 hn hnull str
    exact ⟨hnull, (along_asMap_iff ⟨hwf, hrep⟩ calls).mp hall⟩
  · rintro ⟨hnull, hall⟩
    have hwf := wellFormed_created h0 hn hnull str
    have hrep : Represents str (created old nel n) [] := (represents_created_iff nel).mpr hnull
    exact ⟨hrep, (along_asMap_iff ⟨hwf, hrep⟩ calls).mpr hall⟩

theorem noGap_created {str : Nat → List UInt8} {old : Nat → Entry} {n : Nat} (nel : Nat)
    (home : List UInt8 → Nat) (hnull : KeysNull old n) :
    NoGap str home (created old nel n) :=
  fun _ _ he hk => absurd (created_get_key hnull he) hk

/-- On a created table a run behaves as the map exactly when the memory held no keys
and every call starts where its key, or a free slot, is reached. Enough for the latter
is a power of two and data that hash to a home slot of the key. -/
theorem first_write_wins_iff {mallocOk : Nat → Bool} {old : Nat → Entry} {nel : Nat}
    {htab : HsearchData} {errno : Int} (hnel : nel * 2 < 2 ^ 64)
    (h : (hcreateR mallocOk old nel htab errno).ret = 1) :
    let t := (hcreateR mallocOk old nel htab errno).htab
    ∀ str (calls : List (Call str)),
      (BehavesAsMap str nel t calls ↔
        KeysNull old (nextPow2 (nel * 2)) ∧ Along step (StartReaches str) t calls) ∧
      (∀ k home, nel = 2 ^ k → KeysNull old (nextPow2 (nel * 2)) →
        (∀ c ∈ calls, Homed str nel home c) → BehavesAsMap str nel t calls) := by
  obtain ⟨h0, hn, ht⟩ := hcreateR_spec hnel h
  simp only [ht]
  intro str calls
  refine ⟨behavesAsMap_created_iff h0 hn calls, fun k home hpow hnull hcalls => ?_⟩
  have hrep : Represents str (created old nel (nextPow2 (nel * 2))) [] :=
    (represents_created_iff nel).mpr hnull
  exact ⟨hrep, along_asMap_of_homed hpow (counted_created h0 hn hnull str) hrep
    (noGap_created nel home hnull) hcalls⟩

/-- The key "abc", entered and looked up with different data. -/
def abcCall (data : Nat) (bytes : List UInt8) (action : Action) :
    Call fun _ => literal ['a', 'b', 'c'] where
  item := ⟨1, data⟩
  bytes := bytes
  action := action
  nonnull := Nat.one_ne_zero
  terminated := terminated_literal _

theorem first_write_wins_iff_abc :
    BehavesAsMap _ 4 (hcreateR (fun _ => true) (fun _ => nullEntry) 4 ⟨[], 0, 0, 0⟩ 0).htab
      [abcCall 7 (literal ['b']) .enter, abcCall 9 (literal ['b']) .find] := by
  refine (first_write_wins_iff (by decide) (by decide) _ _).2 2 (fun _ => 2) rfl
    (fun _ _ => rfl) ?_
  intro c hc
  have hhash : ∃ hash, hasher (literal ['b']) = some hash ∧ hash.toNat &&& (4 - 1) = 2 :=
    ⟨9387343095287749574, by decide, by decide⟩
  simp only [List.mem_cons, List.not_mem_nil, or_false] at hc
  rcases hc with rfl | rfl <;> exact hhash

/-- Entered with "bcd" as data the key sits in slot 0; looked up with "cdb" the
probe starts at slot 2, which is empty, and with NULL it faults. -/
theorem find_misses_entered_key :
    let t := (hcreateR (fun _ => true) (fun _ => nullEntry) 4 ⟨[], 0, 0, 0⟩ 0).htab
    let enter := abcCall 7 (literal ['b', 'c', 'd']) .enter
    let find := abcCall 9 (literal ['c', 'd', 'b']) .find
    (∃ t₁, step t enter = some t₁ ∧ search t₁ find = some ⟨0, none, t₁⟩ ∧
      search t₁ (abcCall 0 [] .find) = none) ∧
    ¬BehavesAsMap _ 4 t [enter, find] := by
  intro t enter find
  have henter : step t enter = some ⟨t.data.set 0 ⟨1, 7⟩, 4, 1, 3⟩ := by decide
  have hfind : search ⟨t.data.set 0 ⟨1, 7⟩, 4, 1, 3⟩ find =
      some ⟨0, none, ⟨t.data.set 0 ⟨1, 7⟩, 4, 1, 3⟩⟩ := by decide
  refine ⟨⟨_, henter, hfind, by decide⟩, fun ⟨_, hall⟩ => ?_⟩
  have hpair : pairStep 4 (t, []) enter =
      some (⟨t.data.set 0 ⟨1, 7⟩, 4, 1, 3⟩, [⟨1, 7⟩]) := by
    rw [pairStep, henter]
    rfl
  obtain ⟨r, hr, hans, _⟩ := (hall.2 _ hpair).1
  rw [hfind] at hr
  rw [← Option.some.inj hr] at hans
  exact absurd hans.1 (by decide)

end HashMapLaw
