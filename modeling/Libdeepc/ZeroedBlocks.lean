import Libdeepc.BlockBytes

/-!
# The bytes of a block from calloc

`calloc` clears no byte: the fill byte and the count of its `memset` are
exchanged. What a caller finds in the block is what was there before, and how
long the block is depends on a product that may have wrapped.
-/

namespace ZeroedBlocks

open BreakHeap HeapBlocks BlockBytes

/-- The bytes from `p` on, in memory and below the break, are zero. -/
structure ZeroBlock (s : Process) (p : UInt64) (n : Nat) : Prop where
  room : p.toNat + n ≤ s.brk.toNat
  zero : ∀ i, i < n → s.mem (p + .ofNat i) = 0

/-- `NULL`, or as many zero bytes as `num` objects of size `size` take. -/
def Cleared (num size : UInt64) (grant : Bool) (s : Process) : Prop :=
  (calloc num size grant s).1 = 0 ∨ ZeroBlock (calloc num size grant s).2
    (calloc num size grant s).1 (num.toNat * size.toNat)

/-- There is room for the header and the objects, and the bytes behind the header are zero. -/
structure AlreadyZero (num size : UInt64) (s : Process) : Prop where
  room : s.brk.toNat + metadataSize.toNat + num.toNat * size.toNat < 2 ^ 64
  zero : ∀ i, i < num.toNat * size.toNat → s.mem (getData s.brk + .ofNat i) = 0

variable {num size : UInt64} {grant : Bool} {s : Process}

theorem calloc_of_finds (h : FindsMemory (num * size) grant s) : ∃ e, calloc num size grant s =
    (getData s.brk, ⟨s.brk + (num * size + metadataSize),
      storeSize s.mem s.brk (num * size), e⟩) := by
  obtain ⟨e, hm⟩ := malloc_of_finds h
  refine ⟨e, ?_⟩
  simp only [calloc, hm, if_neg (getData_ne_zero h.2.1), memset]

theorem calloc_of_not_finds (h : ¬FindsMemory (num * size) grant s) :
    (calloc num size grant s).1 = 0 := by
  have hret := (malloc_of_not_finds h).1
  simp only [calloc, hret, if_true]

/-- The block reaches the break when nothing has wrapped. -/
theorem room_iff (hbrk : s.brk ≤ lastAddress) :
    (getData s.brk).toNat + num.toNat * size.toNat ≤
        (s.brk + (num * size + metadataSize)).toNat ↔
      s.brk.toNat + metadataSize.toNat + num.toNat * size.toNat < 2 ^ 64 := by
  have hle := UInt64.le_iff_toNat_le.mp hbrk
  have hlast : lastAddress.toNat = 2 ^ 64 - 4096 := rfl
  have h8 : metadataSize.toNat = 8 := rfl
  rw [getData, UInt64.toNat_add, UInt64.toNat_add, UInt64.toNat_add, UInt64.toNat_mul]
  omega

/-- `calloc` keeps its promise just when it returns `NULL`, or nothing wraps and the memory it gets
is zero before the call. -/
theorem calloc_clears_iff (num size : UInt64) (grant : Bool) (s : Process) :
    Cleared num size grant s ↔
      ¬FindsMemory (num * size) grant s ∨ AlreadyZero num size s := by
  by_cases h : FindsMemory (num * size) grant s
  · obtain ⟨e, hcalloc⟩ := calloc_of_finds h
    have hsame : s.brk.toNat + metadataSize.toNat + num.toNat * size.toNat < 2 ^ 64 →
        ∀ i, i < num.toNat * size.toNat →
          storeSize s.mem s.brk (num * size) (getData s.brk + .ofNat i) =
            s.mem (getData s.brk + .ofNat i) :=
      fun hroom i hi => by
        have hdata := storeSize_data s.mem (getData s.brk) (num * size)
          (by omega : metadataSize.toNat + i < 2 ^ 64)
        rwa [getMeta_getData] at hdata
    rw [Cleared, hcalloc, or_iff_right (getData_ne_zero h.2.1), or_iff_right (not_not_intro h)]
    constructor
    · rintro ⟨hroom, hzero⟩
      have hfits := (room_iff h.2.1).mp hroom
      exact ⟨hfits, fun i hi => (hsame hfits i hi).symm.trans (hzero i hi)⟩
    · rintro ⟨hfits, hzero⟩
      exact ⟨(room_iff h.2.1).mpr hfits, fun i hi => (hsame hfits i hi).trans (hzero i hi)⟩
  · exact iff_of_true (.inl (calloc_of_not_finds h)) (.inl h)

/-- A byte that is not zero is handed out as it is, and a product that wraps to 2 gets a block of
2 bytes. -/
theorem calloc_keeps_old_bytes :
    ¬Cleared 1 1 true ⟨4096, fun _ => 1, 0⟩ ∧
      ¬Cleared 9223372036854775809 2 true ⟨4096, fun _ => 0, 0⟩ := by
  constructor
  · rintro (hnull | ⟨_, hzero⟩)
    · exact absurd hnull (by decide)
    · exact absurd (hzero 0 (by decide)) (by decide)
  · rintro (hnull | ⟨hroom, _⟩)
    · exact absurd hnull (by decide)
    · exact absurd hroom (by decide)

end ZeroedBlocks
