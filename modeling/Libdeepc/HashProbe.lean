import Libdeepc.HashSearch

/-!
# The probe loop for any mask

`hsearch_r` walks from slot to slot with `(i + 1) & mask` and stops where it began.
That it gets back there is a matter of the mask alone: whatever its bits are, the walk
closes after as many steps as its trailing ones have values.
-/

namespace HashProbe

open CString MachineInt MaskedCycle HashSearch

/-- `(i + 1) & mask` in `uint64_t`. -/
def step (mask i : UInt64) : UInt64 := (i + 1) &&& mask

/-- The slot after `d` steps. -/
def walk (mask start : UInt64) (d : Nat) : UInt64 := (step mask)^[d] start

/-- The low `k` bits are ones and the next one is not. -/
def TrailingOnes (mask : UInt64) (k : Nat) : Prop :=
  (∀ j, j < k → mask.toNat.testBit j = true) ∧ mask.toNat.testBit k = false

/-- The slots whose keys the loop compares, in this order. -/
def compared (str : Nat → List UInt8) (htab : HsearchData) (key start : Nat) :
    Nat → Nat → List Nat
  | 0, _ => []
  | fuel + 1, i => match htab.data[i]? with
    | none => []
    | some e =>
      if e.key = 0 then []
      else if strcmp (str e.key) (str key) = some 0 then [i]
      else if (i + 1) &&& htab.mask = start then [i]
      else i :: compared str htab key start fuel ((i + 1) &&& htab.mask)

/-- The comparisons of one `hsearch_r`, which starts where the hash says. -/
def hsearchCompared (str : Nat → List UInt8) (htab : HsearchData) (item : Entry)
    (bytes : List UInt8) : Option (List Nat) :=
  (hasher bytes).map fun hash =>
    let start := hash.toNat &&& htab.mask
    compared str htab item.key start (htab.mask + 1) start

/-- Every slot the mask can name is there, and the keys are strings. -/
structure Readable (str : Nat → List UInt8) (htab : HsearchData) (key : Nat) : Prop where
  slots : ∀ i, i ≤ htab.mask → ∃ e, htab.data[i]? = some e ∧
    (e.key ≠ 0 → Terminated (str e.key))
  key : Terminated (str key)

section Walk

variable {mask start : UInt64} {k t : Nat}

/-- The carry out of 64 bits is masked away like any other. -/
theorem toNat_step (mask i : UInt64) : (step mask i).toNat = next mask.toNat i.toNat := by
  have hlt : next mask.toNat i.toNat < 2 ^ 64 :=
    Nat.lt_of_le_of_lt (land_mask_le _ _) mask.toNat_lt
  calc (step mask i).toNat = (i.toNat + 1) % 2 ^ 64 &&& mask.toNat % 2 ^ 64 := by
        rw [step, UInt64.toNat_and, UInt64.toNat_add, UInt64.toNat_one,
          Nat.mod_eq_of_lt mask.toNat_lt]
    _ = next mask.toNat i.toNat % 2 ^ 64 := Nat.and_mod_two_pow.symm
    _ = next mask.toNat i.toNat := Nat.mod_eq_of_lt hlt

theorem toNat_walk (mask start : UInt64) (d : Nat) :
    (walk mask start d).toNat = probe mask.toNat start.toNat d := by
  induction d with
  | zero => rfl
  | succ d ih =>
    rw [probe_succ, ← ih, ← toNat_step, walk, Function.iterate_succ_apply']
    rfl

theorem toNat_submask (hs : start &&& mask = start) :
    start.toNat &&& mask.toNat = start.toNat := by
  rw [← UInt64.toNat_and, hs]

theorem trailingOnes_of_eq (hm : mask.toNat + 1 = 2 ^ k * (2 * t + 1)) : TrailingOnes mask k := by
  have hpos : 0 < 2 ^ k := Nat.two_pow_pos k
  have hmask : mask.toNat = 2 ^ k * (2 * t) + (2 ^ k - 1) := by
    have : 2 ^ k * (2 * t + 1) = 2 ^ k * (2 * t) + 2 ^ k := by ring
    omega
  have hlow : 2 ^ k - 1 < 2 ^ k := Nat.sub_lt hpos Nat.one_pos
  constructor
  · intro j hj
    rw [hmask, Nat.testBit_two_pow_mul_add _ hlow, if_pos hj, Nat.testBit_two_pow_sub_one]
    exact decide_eq_true hj
  · rw [hmask, Nat.testBit_two_pow_mul_add _ hlow, if_neg (Nat.lt_irrefl k), Nat.sub_self]
    simp [Nat.testBit_zero]

end Walk

section Loop

variable {str : Nat → List UInt8} {htab : HsearchData} {key start k t : Nat}

/-- From step `d` on there are no more rounds than the cycle has left. -/
theorem probeLoop_stable (hm : htab.mask + 1 = 2 ^ k * (2 * t + 1))
    (hs : start &&& htab.mask = start) (n : Nat) {rounds d : Nat} (hd : d + rounds = 2 ^ k)
    (hpos : 0 < rounds) :
    probeLoop str htab key start (rounds + n) (probe htab.mask start d) =
      probeLoop str htab key start rounds (probe htab.mask start d) := by
  induction rounds generalizing d with
  | zero => omega
  | succ rounds ih =>
    rw [Nat.add_right_comm, probeLoop, probeLoop]
    refine Option.bind_congr fun e _ => ?_
    refine if_congr Iff.rfl rfl (Option.bind_congr fun c _ => ?_)
    refine if_congr Iff.rfl rfl ?_
    have hnext : probe htab.mask start d + 1 &&& htab.mask = probe htab.mask start (d + 1) :=
      (probe_succ htab.mask start d).symm
    simp only [hnext]
    by_cases hlast : rounds = 0
    · have hback : probe htab.mask start (d + 1) = start := by
        rw [show d + 1 = 2 ^ k by omega]
        exact probe_period hm hs
      rw [if_pos hback, if_pos hback]
    · rw [ih (by omega) (by omega)]

theorem compared_length_le (hm : htab.mask + 1 = 2 ^ k * (2 * t + 1))
    (hs : start &&& htab.mask = start) (fuel : Nat) {rounds d : Nat} (hd : d + rounds = 2 ^ k)
    (hpos : 0 < rounds) :
    (compared str htab key start fuel (probe htab.mask start d)).length ≤ rounds := by
  induction fuel generalizing rounds d with
  | zero => exact Nat.zero_le _
  | succ fuel ih =>
    rw [compared]
    have hnext : probe htab.mask start d + 1 &&& htab.mask = probe htab.mask start (d + 1) :=
      (probe_succ htab.mask start d).symm
    simp only [hnext]
    split
    · exact Nat.zero_le _
    split
    · exact Nat.zero_le _
    split
    · exact hpos
    split
    · exact hpos
    · next hnot =>
      have hmore : rounds ≠ 1 := by
        rintro rfl
        rw [hd] at hnot
        exact hnot (probe_period hm hs)
      have hrest : (compared str htab key start fuel (probe htab.mask start (d + 1))).length ≤
          rounds - 1 := ih (by omega) (by omega)
      exact Nat.succ_le_of_lt (Nat.lt_of_le_of_lt hrest (by omega))

theorem probeLoop_isSome (hm : htab.mask + 1 = 2 ^ k * (2 * t + 1))
    (hs : start &&& htab.mask = start) (hread : Readable str htab key) {rounds d : Nat}
    (hd : d + rounds = 2 ^ k) (hpos : 0 < rounds) :
    ∃ r, probeLoop str htab key start rounds (probe htab.mask start d) = some r ∧
      ∀ i, r = .stopped i → i < htab.data.length := by
  induction rounds generalizing d with
  | zero => omega
  | succ rounds ih =>
    have hinside : ∀ i, i ≤ htab.mask → i < htab.data.length := by
      intro i hi
      obtain ⟨e, he, _⟩ := hread.slots i hi
      exact (List.getElem?_eq_some_iff.mp he).1
    obtain ⟨e, he, hstring⟩ := hread.slots _ (probe_le hs d)
    have hnext : probe htab.mask start d + 1 &&& htab.mask = probe htab.mask start (d + 1) :=
      (probe_succ htab.mask start d).symm
    simp only [probeLoop, he, Option.bind_eq_bind, Option.bind_some, hnext]
    by_cases hnull : e.key = 0
    · refine ⟨_, if_pos hnull, fun i hi => ?_⟩
      rw [← Probe.stopped.inj hi]
      exact hinside _ (probe_le hs d)
    obtain ⟨c, hc, _⟩ := strcmp_eq_zero_iff (hstring hnull) hread.key
    simp only [if_neg hnull, hc, Option.bind_some]
    by_cases h0 : c = 0
    · refine ⟨_, if_pos h0, fun i hi => ?_⟩
      cases hi
    rw [if_neg h0]
    by_cases hback : probe htab.mask start (d + 1) = start
    · refine ⟨_, if_pos hback, fun i hi => ?_⟩
      rw [← Probe.stopped.inj hi, hback]
      exact hinside _ (probe_le hs 0)
    · have hmore : rounds ≠ 0 := by
        rintro rfl
        rw [hd] at hback
        exact hback (probe_period hm hs)
      rw [if_neg hback]
      exact ih (by omega) (by omega)

end Loop

/-- The hash of a string exists: the loop looks for the NUL before each byte it takes. -/
theorem hasherLoop_isSome {s : List UInt8} (h : Terminated s) (hash : UInt64) :
    (hasherLoop s hash).isSome := by
  fun_induction hasherLoop s hash <;> simp_all [terminated_cons_of_ne]

/-- From every start that the mask leaves alone the walk is back after `2 ^ k` steps, `k` being the
number of trailing ones, and has met no slot twice. The loop makes no more rounds than that in any
table, and comes back in every table that can be read. -/
theorem probe_loop_ends (mask start : UInt64) (hs : start &&& mask = start) :
    ∃ k, TrailingOnes mask k ∧ walk mask start (2 ^ k) = start ∧
      (∀ d e, d < 2 ^ k → e < 2 ^ k → walk mask start d = walk mask start e → d = e) ∧
      ∀ str htab, htab.mask = mask.toNat →
        (∀ key n, probeLoop str htab key start.toNat (2 ^ k + n) start.toNat =
          probeLoop str htab key start.toNat (2 ^ k) start.toNat) ∧
        (∀ key fuel, (compared str htab key start.toNat fuel start.toNat).length ≤ 2 ^ k) ∧
        (∀ key, Readable str htab key →
          (probeLoop str htab key start.toNat (2 ^ k) start.toNat).isSome) ∧
        ∀ item bytes action, Readable str htab item.key → Terminated bytes →
          (hsearchR str htab item bytes action).isSome ∧
            ∃ cs, hsearchCompared str htab item bytes = some cs ∧ cs.length ≤ 2 ^ k := by
  obtain ⟨k, t, hm⟩ := exists_trailingOnes mask.toNat
  have hpos : 0 < 2 ^ k := Nat.two_pow_pos k
  have hsub := toNat_submask hs
  refine ⟨k, trailingOnes_of_eq hm, ?_, fun d e hd he heq => ?_, fun str htab hmask => ?_⟩
  · rw [← UInt64.toNat_inj, toNat_walk]
    exact probe_period hm hsub
  · rw [← UInt64.toNat_inj, toNat_walk, toNat_walk] at heq
    exact probe_injective hm hsub hd he heq
  rw [← hmask] at hm hsub
  refine ⟨fun key n => ?_, fun key fuel => ?_, fun key hread => ?_, ?_⟩
  · exact probeLoop_stable hm hsub n (Nat.zero_add _) hpos
  · exact compared_length_le hm hsub fuel (Nat.zero_add _) hpos
  · obtain ⟨r, hr, _⟩ := probeLoop_isSome hm hsub hread (Nat.zero_add _) hpos
    rw [probe_zero] at hr
    rw [hr]
    rfl
  intro item bytes action hread hbytes
  obtain ⟨hash, hhash⟩ := Option.isSome_iff_exists.mp
    (show (hasher bytes).isSome by rw [hasher, Option.isSome_map]; exact hasherLoop_isSome hbytes _)
  have hsub' : (hash.toNat &&& htab.mask) &&& htab.mask = hash.toNat &&& htab.mask :=
    land_land_mask _ _
  obtain ⟨r, hr, hstopped⟩ := probeLoop_isSome hm hsub' hread (Nat.zero_add _) hpos
  -- the fuel of `hsearchR` is enough
  obtain ⟨n, hn⟩ : ∃ n, htab.mask + 1 = 2 ^ k + n := by
    refine Nat.exists_eq_add_of_le ?_
    rw [hm]
    exact Nat.le_mul_of_pos_right _ (Nat.succ_pos _)
  have hfuel := @probeLoop_stable str htab item.key _ k _ hm hsub' n _ 0 (Nat.zero_add _) hpos
  rw [← hn] at hfuel
  rw [probe_zero] at hr hfuel
  constructor
  · simp only [hsearchR, hhash, Option.bind_eq_bind, Option.bind_some, hfuel, hr]
    cases r with
    | found i => rfl
    | stopped i =>
      simp only
      split
      · rfl
      · rw [if_pos (hstopped i rfl)]
        rfl
  · refine ⟨_, by rw [hsearchCompared, hhash, Option.map_some], ?_⟩
    exact compared_length_le hm hsub' _ (Nat.zero_add _) hpos

/-- A mask with holes: from 8 the walk runs through 8, 9, 10, 11. -/
theorem probe_loop_ends_holes : ∃ k, TrailingOnes 43 k ∧ walk 43 8 (2 ^ k) = 8 := by
  obtain ⟨k, hk, hback, _⟩ := probe_loop_ends 43 8 (by decide)
  exact ⟨k, hk, hback⟩

end HashProbe
