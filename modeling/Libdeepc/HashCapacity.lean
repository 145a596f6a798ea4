import Libdeepc.HashSlots

/-!
# When the slot invariant of the hash table survives every run

Along one run the slots are kept exactly when the memory of the table held no
keys and each call finds room on its cycle. Over all runs with readable data the
latter is so exactly when `nel` is a power of two: any other `nel` has a cycle
shorter than the capacity, and entering one key more than the cycle is long
overwrites the first of them.
-/

namespace HashCapacity

open CString MaskedCycle HashSearch HashSlots Runs

/-- The state of a table between calls that keep the slots. -/
structure Counted (str : Nat → List UInt8) (nel : Nat) (t : HsearchData) : Prop where
  wf : WellFormed str nel t
  size_eq : t.size = entries t

theorem entries_created {old : Nat → Entry} {n : Nat} (nel : Nat) :
    entries (created old nel n) = 0 ↔ KeysNull old n := by
  simp [entries, created, KeysNull, List.countP_eq_zero]

theorem counted_created {old : Nat → Entry} {nel n : Nat} (h0 : 0 < nel) (hn : nel ≤ n)
    (hnull : KeysNull old n) (str : Nat → List UInt8) : Counted str nel (created old nel n) where
  wf := wellFormed_created h0 hn hnull str
  size_eq := ((entries_created nel).mpr hnull).symm

theorem exists_search_of_step {str : Nat → List UInt8} {t t' : HsearchData} {c : Call str}
    (h : step t c = some t') : ∃ r, search t c = some r ∧ r.htab = t' :=
  Option.map_eq_some_iff.mp h

theorem counted_step {str : Nat → List UInt8} {nel : Nat} {t t' : HsearchData} {c : Call str}
    (h : Counted str nel t) (kept : SlotsKept str t c) (hstep : step t c = some t') :
    Counted str nel t' := by
  obtain ⟨r, hr, rfl⟩ := exists_search_of_step hstep
  obtain ⟨r', hr', hkept⟩ := kept
  obtain rfl : r = r' := Option.some.inj (hr.symm.trans hr')
  obtain ⟨k, m, hm⟩ := exists_trailingOnes t.mask
  obtain ⟨_, _, hout⟩ := outcome_of_search h.wf hr hm
  exact ⟨wellFormed_outcome h.wf hout, hkept.size_eq⟩

/-- One run: the slots are kept exactly when every call finds room. -/
theorem along_slotsKept_iff {str : Nat → List UInt8} {nel : Nat} {t : HsearchData}
    (h : Counted str nel t) (calls : List (Call str)) :
    Along step (SlotsKept str) t calls ↔ Along step (FindsRoom str) t calls :=
  along_congr (P := SlotsKept str) (Q := FindsRoom str)
    (fun _ _ hs => slotsKept_iff hs.wf hs.size_eq)
    (fun _ _ _ hs kept hstep => counted_step hs kept hstep) h

/-- From its first state to its last the table counts its entries and keeps them. -/
def KeepsSlots (str : Nat → List UInt8) (t : HsearchData) (calls : List (Call str)) : Prop :=
  t.size = entries t ∧ Along step (SlotsKept str) t calls

theorem keepsSlots_created_iff {old : Nat → Entry} {nel n : Nat} (h0 : 0 < nel) (hn : nel ≤ n)
    {str : Nat → List UInt8} (calls : List (Call str)) :
    KeepsSlots str (created old nel n) calls ↔
      KeysNull old n ∧ Along step (FindsRoom str) (created old nel n) calls := by
  constructor
  · rintro ⟨hsize, hall⟩
    have hnull := (entries_created nel).mp hsize.symm
    exact ⟨hnull, (along_slotsKept_iff (counted_created h0 hn hnull str) calls).mp hall⟩
  · rintro ⟨hnull, hall⟩
    have hcounted := counted_created h0 hn hnull str
    exact ⟨hcounted.size_eq, (along_slotsKept_iff hcounted calls).mpr hall⟩

theorem le_entries {t : HsearchData} {n : Nat} (hn : n ≤ t.data.length)
    (hocc : ∀ i, i < n → Occupied t i) : n ≤ entries t := by
  have htake : (t.data.take n).countP (fun e => e.key ≠ 0) = n := by
    have hall : ∀ e ∈ t.data.take n, decide (e.key ≠ 0) = true := by
      intro e he
      obtain ⟨i, hi, rfl⟩ := List.getElem_of_mem he
      have hin : i < n := by simp only [List.length_take] at hi; omega
      obtain ⟨e', he', hk⟩ := hocc i hin
      have hlt := (List.getElem?_eq_some_iff.mp he').2
      simpa [List.getElem_take, hlt] using hk
    rw [List.countP_eq_length.mpr hall, List.length_take]
    omega
  calc n = (t.data.take n).countP (fun e => e.key ≠ 0) := htake.symm
    _ ≤ entries t := (List.take_sublist n t.data).countP_le

/-- With a power of two every cycle is the whole table, so a full cycle is a
full table. -/
theorem room_of_pow2 {str : Nat → List UInt8} {nel k : Nat} {t : HsearchData}
    (h : Counted str nel t) (hnel : nel = 2 ^ k) (c : Call str) : RoomOnCycle str t c := by
  intro hash _ _ hne
  by_contra hno
  have hmask : t.mask + 1 = 2 ^ k := h.wf.mask_eq.trans hnel
  have hocc : ∀ i, i < nel → Occupied t i := by
    intro i hi
    have hi' : i ≤ t.mask := by omega
    obtain ⟨d, _, hd⟩ := exists_probe_eq hmask (land_mask_le hash.toNat t.mask) hi'
    rcases passed_or h.wf hi' c.item.key with hh | hh | hh
    · exact absurd ⟨d, by rw [startOf, hd]; exact Or.inr hh⟩ hno
    · exact absurd ⟨d, by rw [startOf, hd]; exact Or.inl hh⟩ hno
    · exact hh.1
  have hfull := le_entries h.wf.fits hocc
  have hle := h.wf.size_le
  have hcap := h.wf.capacity_eq
  have hsize := h.size_eq
  omega

theorem along_room_of_pow2 {str : Nat → List UInt8} {nel k : Nat} {t : HsearchData}
    (h : Counted str nel t) (hnel : nel = 2 ^ k) {calls : List (Call str)}
    (readable : ∀ c ∈ calls, Terminated c.bytes) : Along step (FindsRoom str) t calls := by
  induction calls generalizing t with
  | nil => trivial
  | cons c calls ih =>
    have hroom : FindsRoom str t c :=
      ⟨readable c List.mem_cons_self, room_of_pow2 h hnel c⟩
    have hkept := (slotsKept_iff h.wf h.size_eq).mpr hroom
    exact ⟨hroom, fun t' ht' => ih (counted_step h hkept ht')
      fun c' hc' => readable c' (List.mem_cons_of_mem c hc')⟩

section Fill

/-- Pairwise different keys: the string at `p` is `p` times the letter a. -/
def fillStr (p : Nat) : List UInt8 := List.replicate p 97 ++ [0]

theorem fillStr_terminated (p : Nat) : Terminated (fillStr p) := by
  simp [Terminated, fillStr]

theorem text_fillStr (p : Nat) : text (fillStr p) = List.replicate p 97 :=
  text_append_zero (by simp) []

/-- Enter key number `j`, with an empty string behind `item.data`. -/
def fillCall (j : Nat) : Call fillStr where
  item := ⟨j + 1, 0⟩
  bytes := [0]
  action := .enter
  nonnull := Nat.succ_ne_zero j
  terminated := fillStr_terminated (j + 1)

theorem terminated_fillCall (j : Nat) : Terminated (fillCall j).bytes := List.mem_singleton_self 0

def fillHash : UInt64 := 0xc048d159e26af37b

theorem hasher_empty : hasher [0] = some fillHash := by decide

/-- After `j` entries the first `j` slots of the cycle hold them in order. -/
structure Filled (nel N j : Nat) (t : HsearchData) : Prop where
  wf : WellFormed fillStr nel t
  size_eq : t.size = j
  stored : ∀ d, d < j → t.data[probe t.mask (startOf t fillHash) d]? = some ⟨d + 1, 0⟩
  rest : ∀ d, j ≤ d → d < N → Empty t (probe t.mask (startOf t fillHash) d)

theorem passed_of_stored {t : HsearchData} {i d j : Nat} (hd : t.data[i]? = some ⟨d + 1, 0⟩)
    (hne : d ≠ j) : Passed fillStr t (j + 1) i := by
  refine ⟨⟨_, hd, Nat.succ_ne_zero d⟩, ?_⟩
  rintro ⟨e, he, _, htext⟩
  rw [hd] at he
  rw [← Option.some.inj he, text_fillStr, text_fillStr] at htext
  have hlen := congrArg List.length htext
  simp only [List.length_replicate] at hlen
  omega

/-- The next key in the next slot of the cycle. -/
theorem filled_insertAt {nel j k m : Nat} {t : HsearchData} (h : Filled nel (2 ^ k) j t)
    (hm : nel = 2 ^ k * (2 * m + 1)) (hj : j < 2 ^ k) (hneq : t.size ≠ t.capacity) :
    Filled nel (2 ^ k) (j + 1) (insertAt t (probe t.mask (startOf t fillHash) j)
      (fillCall j).item) := by
  have hmask := h.wf.mask_eq.trans hm
  obtain ⟨e, he, hk⟩ := h.rest j le_rfl hj
  refine ⟨wellFormed_insertAt h.wf (fillStr_terminated _) hneq _, ?_, fun i hi => ?_,
    fun i hi hiN => ?_⟩
  · simp [insertAt, h.size_eq]
  · rcases Nat.lt_succ_iff_lt_or_eq.mp hi with hlt | rfl
    · exact insertAt_get_of_empty ⟨e, he, hk⟩ (h.stored i hlt) (Nat.succ_ne_zero i)
    · exact insertAt_get_self he _
  · obtain ⟨e', he', hk'⟩ := h.rest i (by omega) hiN
    have hne : probe t.mask (startOf t fillHash) j ≠ probe t.mask (startOf t fillHash) i := by
      intro hsame
      have := probe_injective hmask (startOf_submask t fillHash) hj hiN hsame
      omega
    refine ⟨e', ?_, hk'⟩
    show (insertAt t _ _).data[probe t.mask (startOf t fillHash) i]? = some e'
    rw [insertAt, List.getElem?_set_ne hne]
    exact he'

theorem filled_step {nel N j k m : Nat} {t : HsearchData} (h : Filled nel N j t)
    (hm : nel = 2 ^ k * (2 * m + 1)) (hN : N = 2 ^ k) (hj : j < N) (hcap : N < nel) :
    ∃ t', step t (fillCall j) = some t' ∧ Filled nel N (j + 1) t' := by
  subst hN
  have hempty := h.rest j le_rfl hj
  obtain ⟨r, hr, hout⟩ := search_outcome h.wf (c := fillCall j) hasher_empty
    (h.wf.mask_eq.trans hm)
  have hpassed : ∀ d, d < j → Passed fillStr t (j + 1) (probe t.mask (startOf t fillHash) d) :=
    fun d hd => passed_of_stored (h.stored d hd) hd.ne
  have hneq : t.size ≠ t.capacity := by
    have := h.size_eq
    have := h.wf.capacity_eq
    omega
  -- every end of the probe other than the first empty slot contradicts `Filled`
  have hfirst : ∀ d, d < 2 ^ k → (∀ i, i < d → Passed fillStr t (j + 1)
      (probe t.mask (startOf t fillHash) i)) → d ≤ j := by
    intro d hd before
    by_contra hgt
    exact not_passed_of_empty hempty (before j (by omega))
  cases hout with
  | @found d hd before holds =>
    have hle := hfirst d hd before
    rcases Nat.lt_or_eq_of_le hle with hlt | rfl
    · exact absurd holds (hpassed d hlt).2
    · obtain ⟨e, he, hk, _⟩ := holds
      obtain ⟨e', he', hk'⟩ := hempty
      rw [he] at he'
      exact absurd (Option.some.inj he' ▸ hk') hk
  | refused _ _ _ why => rcases why with hw | hw <;> simp_all [fillCall]
  | overwritten before => exact absurd (before j hj) (not_passed_of_empty hempty)
  | @inserted d hd before empty =>
    have heq : d = j := by
      have hle := hfirst d hd before
      by_contra hne
      exact not_passed_of_empty empty (hpassed d (by omega))
    subst heq
    exact ⟨_, Option.map_eq_some_iff.mpr ⟨_, hr, rfl⟩, filled_insertAt h hm hj hneq⟩

theorem filled_exec {nel N k m : Nat} {t : HsearchData} (h : Filled nel N 0 t)
    (hm : nel = 2 ^ k * (2 * m + 1)) (hN : N = 2 ^ k) (hcap : N < nel) {j : Nat} (hj : j ≤ N) :
    ∃ t', exec step t ((List.range j).map fillCall) = some t' ∧ Filled nel N j t' := by
  induction j with
  | zero => exact ⟨t, rfl, h⟩
  | succ j ih =>
    obtain ⟨t', hexec, hfilled⟩ := ih (by omega)
    obtain ⟨t'', hstep, hnext⟩ := filled_step hfilled hm hN (by omega) hcap
    refine ⟨t'', ?_, hnext⟩
    rw [List.range_succ, List.map_append, exec_append, hexec]
    simp [exec_cons, hstep]

/-- A cycle shorter than the capacity can be filled and then overrun. -/
theorem exists_run_without_room {old : Nat → Entry} {nel n : Nat} (h0 : 0 < nel) (hn : nel ≤ n)
    (hnull : KeysNull old n) (hpow : ∀ k, nel ≠ 2 ^ k) :
    ∃ calls : List (Call fillStr), (∀ c ∈ calls, Terminated c.bytes) ∧
      ¬Along step (FindsRoom fillStr) (created old nel n) calls := by
  obtain ⟨k, m, hm⟩ := exists_trailingOnes (nel - 1)
  have hnel : nel = 2 ^ k * (2 * m + 1) := by omega
  have hlt : 2 ^ k < nel := by
    have hm0 : m ≠ 0 := by
      rintro rfl
      exact hpow k (by omega)
    have hpos := Nat.two_pow_pos k
    have hmul : 2 ^ k * 1 < 2 ^ k * (2 * m + 1) := Nat.mul_lt_mul_of_pos_left (by omega) hpos
    omega
  generalize ht0 : created old nel n = t0
  have hwf : WellFormed fillStr nel t0 := ht0 ▸ wellFormed_created h0 hn hnull fillStr
  have hfilled : Filled nel (2 ^ k) 0 t0 := by
    refine ⟨hwf, by rw [← ht0]; rfl, fun d hd => absurd hd (Nat.not_lt_zero d), ?_⟩
    intro d _ _
    have hle := probe_le (startOf_submask t0 fillHash) d
    have hmask := hwf.mask_eq
    have hin : probe t0.mask (startOf t0 fillHash) d < n := by omega
    refine ⟨old (probe t0.mask (startOf t0 fillHash) d), ?_, hnull _ hin⟩
    rw [← ht0] at hin ⊢
    exact created_get.mpr ⟨hin, rfl⟩
  obtain ⟨t, hexec, hfull⟩ := filled_exec hfilled hnel rfl hlt le_rfl
  refine ⟨(List.range (2 ^ k)).map fillCall ++ [fillCall (2 ^ k)], ?_, fun hall => ?_⟩
  · intro c hc
    obtain ⟨j, rfl⟩ : ∃ j, c = fillCall j := by
      rcases List.mem_append.mp hc with h | h
      · obtain ⟨j, _, rfl⟩ := List.mem_map.mp h
        exact ⟨j, rfl⟩
      · exact ⟨2 ^ k, List.mem_singleton.mp h⟩
    exact terminated_fillCall j
  have hfinds := along_iff_forall_prefix.mp hall _ _ [] rfl t hexec
  have hmask := hfull.wf.mask_eq.trans hnel
  have hne : t.size ≠ t.capacity := by
    have := hfull.size_eq
    have := hfull.wf.capacity_eq
    omega
  obtain ⟨d, hd⟩ := hfinds.room fillHash hasher_empty rfl hne
  have hlast := Nat.mod_lt d (Nat.two_pow_pos k)
  have hpassed := passed_of_stored (hfull.stored (d % 2 ^ k) hlast) hlast.ne
  rw [probe_mod hmask (startOf_submask t fillHash)] at hpassed
  rcases hd with hempty | hholds
  · exact not_passed_of_empty hempty hpassed
  · exact hpassed.2 hholds

end Fill

/-- A run on a created table keeps the slots exactly when the memory held no keys and
every call finds room on its cycle; all runs with readable data do so exactly for a
power of two. -/
theorem slots_kept_iff {mallocOk : Nat → Bool} {old : Nat → Entry} {nel : Nat}
    {htab : HsearchData} {errno : Int} (hnel : nel * 2 < 2 ^ 64)
    (h : (hcreateR mallocOk old nel htab errno).ret = 1) :
    let t := (hcreateR mallocOk old nel htab errno).htab
    (∀ str (calls : List (Call str)), KeepsSlots str t calls ↔
      KeysNull old (nextPow2 (nel * 2)) ∧ Along step (FindsRoom str) t calls) ∧
    ((∀ str (calls : List (Call str)), (∀ c ∈ calls, Terminated c.bytes) →
        KeepsSlots str t calls) ↔
      KeysNull old (nextPow2 (nel * 2)) ∧ ∃ k, nel = 2 ^ k) := by
  obtain ⟨h0, hn, ht⟩ := hcreateR_spec hnel h
  simp only [ht]
  refine ⟨fun str calls => keepsSlots_created_iff h0 hn calls, ?_, ?_⟩
  · intro hall
    have hnull := ((keepsSlots_created_iff h0 hn []).mp (hall fillStr [] (by simp))).1
    refine ⟨hnull, ?_⟩
    by_contra hno
    obtain ⟨calls, hread, hcalls⟩ := exists_run_without_room h0 hn hnull fun k hk => hno ⟨k, hk⟩
    exact hcalls ((keepsSlots_created_iff h0 hn calls).mp (hall _ calls hread)).2
  · rintro ⟨hnull, k, hk⟩ str calls hread
    exact (keepsSlots_created_iff h0 hn calls).mpr
      ⟨hnull, along_room_of_pow2 (counted_created h0 hn hnull str) hk hread⟩

theorem slots_kept_iff_four :
    ∃ k, 4 = 2 ^ k ∧ ∀ str (calls : List (Call str)), (∀ c ∈ calls, Terminated c.bytes) →
      KeepsSlots str (hcreateR (fun _ => true) (fun _ => nullEntry) 4 ⟨[], 0, 0, 0⟩ 0).htab calls :=
  ⟨2, rfl, (slots_kept_iff (by decide) (by decide)).2.mpr ⟨fun _ _ => rfl, 2, rfl⟩⟩

/-- With three slots the mask is 2 and every cycle has length one: the second
of two different keys is written over the first, and the size counts both. -/
theorem second_key_overwrites_first :
    let t := (hcreateR (fun _ => true) (fun _ => nullEntry) 3 ⟨[], 0, 0, 0⟩ 0).htab
    (∃ t₁ t₂, step t (fillCall 0) = some t₁ ∧ step t₁ (fillCall 1) = some t₂ ∧
      t₁.data[2]? = some ⟨1, 0⟩ ∧ t₂.data[2]? = some ⟨2, 0⟩ ∧ t₂.size = 2 ∧ entries t₂ = 1) ∧
    ¬KeepsSlots fillStr t [fillCall 0, fillCall 1] := by
  intro t
  have hfirst : step t (fillCall 0) = some ⟨t.data.set 2 ⟨1, 0⟩, 3, 1, 2⟩ := by decide
  have hsecond : search ⟨t.data.set 2 ⟨1, 0⟩, 3, 1, 2⟩ (fillCall 1) =
      some ⟨1, some 2, ⟨t.data.set 2 ⟨2, 0⟩, 3, 2, 2⟩⟩ := by decide
  refine ⟨⟨_, _, hfirst, by rw [step, hsecond]; rfl, by decide, by decide, rfl, by decide⟩, ?_⟩
  rintro ⟨_, hall⟩
  obtain ⟨r, hr, hkept⟩ := (hall.2 _ hfirst).1
  rw [hsecond] at hr
  rw [← Option.some.inj hr] at hkept
  exact absurd hkept.size_eq (by decide)

end HashCapacity
