import Libdeepc.BreakHeap
import Libdeepc.HashSlots

/-!
# The array behind the hash table

`hcreate_r` with the `malloc` that moves the break. Doubling the count, rounding it up
and multiplying it by the size of an entry all wrap; what is left is either nothing,
and the call fails, or an array that may be far too small.
-/

namespace HashAllocation

open BreakHeap MachineInt MaskedCycle HashSearch
open HashSlots (nextPow2_eq)

/-- `malloc` finds a block of this size. -/
def mallocOk (grant : Bool) (s : Process) (sz : Nat) : Bool :=
  (malloc (UInt64.ofNat sz) grant s).1 ≠ 0

/-- The count of entries that `hcreate_r` hands to `calloc`. -/
def space (nel : UInt64) : Nat := nextPow2 (toU64 (nel.toNat * 2))

/-- The bytes from the pointer that `calloc` returns up to the break. -/
def allocated (nel : UInt64) (grant : Bool) (s : Process) : Nat :=
  let r := calloc 16 (UInt64.ofNat (space nel)) grant s
  r.2.brk.toNat - r.1.toNat

/-- What `hcreate_r` sees of `malloc` is whether there is a block, and the entries `old` that
its memory happens to hold. -/
def create (old : Nat → Entry) (nel : UInt64) (grant : Bool) (s : Process) (htab : HsearchData)
    (errno : Int) : HcreateResult :=
  hcreateR (mallocOk grant s) old nel.toNat htab errno

/-- The array has room for twice the count, and for every index `hsearch_r` can form. -/
structure RoomForAll (nel : UInt64) (mask bytes : Nat) : Prop where
  power : ∃ j, bytes = 16 * 2 ^ j ∧ 2 * nel.toNat ≤ 2 ^ j
  inside : ∀ (hash : UInt64) (d : Nat), 16 * (probe mask (hash.toNat &&& mask) d + 1) ≤ bytes

variable {old : Nat → Entry} {nel : UInt64} {grant : Bool} {s : Process} {htab : HsearchData}
  {errno : Int}

/-- A block of `sz` bytes has been found: the break is that much further. -/
theorem allocated_of_granted {num size : UInt64} (hbrk : s.brk.toNat < 2 ^ 47)
    (hsz : (num * size).toNat ≤ 2 ^ 63) (hok : (malloc (num * size) grant s).1 ≠ 0) :
    (calloc num size grant s).2.brk.toNat - (calloc num size grant s).1.toNat =
      (num * size).toNat := by
  obtain ⟨hptr, hbreak, _⟩ := Call.perform_eq_malloc grant s (.calloc num size)
  have hptr' : (calloc num size grant s).1 = (malloc (num * size) grant s).1 := hptr
  have hbreak' : (calloc num size grant s).2.brk = (malloc (num * size) grant s).2.brk := hbreak
  rw [hptr', hbreak']
  have h8 : metadataSize.toNat = 8 := rfl
  have hlast : lastAddress.toNat = 2 ^ 64 - 4096 := rfl
  have hinc : (num * size + metadataSize).toNat = (num * size).toNat + 8 := by
    rw [UInt64.toNat_add, h8, Nat.mod_eq_of_lt (by omega)]
  have hne : num * size + metadataSize ≠ 0 := by
    intro h
    rw [h] at hinc
    exact absurd hinc (by simp)
  have hsize : num * size ≠ 0 := by
    intro h
    exact hok (malloc_null (.inl h)).1
  cases grant with
  | false => exact absurd (malloc_null (.inr ⟨rfl, hne⟩)).1 hok
  | true =>
    have hnext : (s.brk + (num * size + metadataSize)).toNat =
        s.brk.toNat + ((num * size).toNat + 8) := by
      rw [UInt64.toNat_add, hinc, Nat.mod_eq_of_lt (by omega)]
    have hdata : (getData s.brk).toNat = s.brk.toNat + 8 := by
      rw [getData, UInt64.toNat_add, h8, Nat.mod_eq_of_lt (by omega)]
    rw [malloc_granted hsize hne (UInt64.le_iff_toNat_le.mpr (by omega))
      (UInt64.le_iff_toNat_le.mpr (by omega))]
    simp only [hnext, hdata]
    omega

/-- What a call that returns 1 has got. -/
theorem create_success (hret : (create old nel grant s htab errno).ret = 1) :
    nel ≠ 0 ∧ (create old nel grant s htab errno).htab.mask = nel.toNat - 1 ∧
      toU64 (16 * space nel) ≠ 0 ∧ mallocOk grant s (toU64 (16 * space nel)) = true := by
  rw [create, hcreateR] at hret ⊢
  split at hret
  · cases hret
  next hnel =>
  rw [if_neg hnel]
  split at hret
  · cases hret
  next data hdata =>
  rw [callocEntries] at hdata
  split at hdata
  · cases hdata
  next hsz =>
  rw [not_or] at hsz
  refine ⟨fun h => hnel (by rw [h]; rfl), rfl, hsz.1, ?_⟩
  rw [← Bool.not_eq_false]
  exact hsz.2

/-- The array is a power of two of entries, large enough for what is left of the doubled count. -/
theorem allocated_eq (hbrk : s.brk.toNat < 2 ^ 47)
    (hret : (create old nel grant s htab errno).ret = 1) :
    ∃ j, allocated nel grant s = 16 * 2 ^ j ∧ j < 60 ∧ toU64 (nel.toNat * 2) ≤ 2 ^ j := by
  obtain ⟨_, _, hsz, hok⟩ := create_success hret
  have hw : toU64 (nel.toNat * 2) ≠ 0 := by
    intro h
    rw [space, h] at hsz
    exact hsz rfl
  obtain ⟨j, hj, hspace⟩ := nextPow2_eq hw (Nat.mod_lt _ (by decide))
  have hsize : toU64 (16 * space nel) = 2 ^ (j + 4) % 2 ^ 64 := by
    rw [space, hspace, toU64, Nat.mul_mod_mod, pow_add, Nat.mul_comm]
    norm_num
  have hj60 : j < 60 := by
    by_contra hge
    have hdvd : 2 ^ 64 ∣ 2 ^ (j + 4) := Nat.pow_dvd_pow 2 (by omega)
    rw [hsize] at hsz
    exact hsz (Nat.mod_eq_zero_of_dvd hdvd)
  have hle : 2 ^ (j + 4) ≤ 2 ^ 63 := Nat.pow_le_pow_right (by decide) (by omega)
  rw [Nat.mod_eq_of_lt (by omega)] at hsize
  have hproduct : (16 * UInt64.ofNat (space nel)).toNat = 2 ^ (j + 4) := by
    rw [UInt64.toNat_mul, UInt64.toNat_ofNat', Nat.mul_mod_mod]
    exact hsize
  have hword : UInt64.ofNat (toU64 (16 * space nel)) = 16 * UInt64.ofNat (space nel) := by
    rw [← UInt64.toNat_inj, hproduct, hsize, UInt64.toNat_ofNat', Nat.mod_eq_of_lt (by omega)]
  rw [mallocOk, hword, decide_eq_true_eq] at hok
  refine ⟨j, ?_, hj60, hj⟩
  rw [allocated, allocated_of_granted hbrk (by omega) hok, hproduct, pow_add]
  norm_num
  ring

/-- Where `hcreate_r` succeeds, the array is what the table needs exactly as long as the doubled
count does not wrap. -/
theorem hcreate_allocation_iff (old : Nat → Entry) (nel : UInt64) (grant : Bool) (s : Process)
    (htab : HsearchData) (errno : Int) (hbrk : s.brk.toNat < 2 ^ 47)
    (hret : (create old nel grant s htab errno).ret = 1) :
    RoomForAll nel (create old nel grant s htab errno).htab.mask (allocated nel grant s) ↔
      nel.toNat < 2 ^ 63 := by
  obtain ⟨hne, hmask, _⟩ := create_success hret
  obtain ⟨j, hbytes, hj60, hj⟩ := allocated_eq hbrk hret
  have hpos : nel.toNat ≠ 0 := fun h => hne (UInt64.toNat_inj.mp h)
  constructor
  · rintro ⟨⟨i, hi, hle⟩, _⟩
    -- no array that large fits the address space
    have hsame : 2 ^ i = 2 ^ j := by omega
    have hsmall : 2 ^ j < 2 ^ 60 := Nat.pow_lt_pow_right (by decide) hj60
    omega
  · intro hlt
    rw [toU64_of_lt (by omega)] at hj
    refine ⟨⟨j, hbytes, by omega⟩, fun hash d => ?_⟩
    have hsub := land_land_mask hash.toNat (create old nel grant s htab errno).htab.mask
    have hindex := probe_le hsub d
    omega

/-- A process whose break is at 4096. -/
def fresh : Process := ⟨4096, fun _ => 0, 0⟩

/-- `2 ^ 63 + 1` entries: the doubled count is 2 after the wrap, and 32 bytes are enough for a
success. The slots go up to `2 ^ 63`. -/
theorem hcreate_small_array :
    (create (fun _ => nullEntry) 0x8000000000000001 true fresh ⟨[], 0, 0, 0⟩ 0).ret = 1 ∧
      allocated 0x8000000000000001 true fresh = 32 ∧
      ¬RoomForAll 0x8000000000000001
        (create (fun _ => nullEntry) 0x8000000000000001 true fresh ⟨[], 0, 0, 0⟩ 0).htab.mask
        (allocated 0x8000000000000001 true fresh) := by
  have hbytes : allocated 0x8000000000000001 true fresh = 32 := by decide +kernel
  refine ⟨by decide +kernel, hbytes, fun h => ?_⟩
  have hout := h.inside (2 ^ 63) 0
  rw [hbytes] at hout
  exact absurd hout (by decide +kernel)

theorem hcreate_allocation_five :
    RoomForAll 5 (create (fun _ => nullEntry) 5 true fresh ⟨[], 0, 0, 0⟩ 0).htab.mask
      (allocated 5 true fresh) :=
  (hcreate_allocation_iff (fun _ => nullEntry) 5 true fresh ⟨[], 0, 0, 0⟩ 0 (by decide)
    (by decide +kernel)).mpr (by decide)

end HashAllocation
