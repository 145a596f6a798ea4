import Libdeepc.BreakHeap
import Libdeepc.RegionStack
import Libdeepc.Runs

/-!
# The blocks handed out

A run of heap calls, with every block ever returned. A block is its header and
the bytes asked for. The kernel's answer to each call is part of the run.
-/

namespace HeapBlocks

open BreakHeap RegionStack Runs

structure Block where
  ptr : UInt64
  size : Nat

def Block.region (b : Block) : Nat × Nat :=
  ((getMeta b.ptr).toNat, (getMeta b.ptr).toNat + metadataSize.toNat + b.size)

structure Heap where
  proc : Process
  blocks : List Block

structure Request where
  call : Call
  grant : Bool

def ret (h : Heap) (r : Request) : UInt64 := (r.call.perform r.grant h.proc).1

def after (h : Heap) (r : Request) : Heap where
  proc := (r.call.perform r.grant h.proc).2
  blocks := if ret h r = 0 then h.blocks else ⟨ret h r, r.call.requested⟩ :: h.blocks

def step (h : Heap) (r : Request) : Option Heap := some (after h r)

def Sound (bottom : UInt64) (h : Heap) : Prop :=
  Stacked bottom.toNat h.proc.brk.toNat (h.blocks.map Block.region)

/-- The kernel moves the break, and the header and the bytes asked for fit below its limit. -/
def CanMeet (h : Heap) (r : Request) : Prop :=
  r.grant = true ∧
    h.proc.brk.toNat + metadataSize.toNat + r.call.requested ≤ lastAddress.toNat

structure CallLaw (bottom : UInt64) (h : Heap) (r : Request) : Prop where
  sound : Sound bottom (after h r)
  refused : ¬ CanMeet h r → ret h r = 0
  unchanged : ret h r = 0 → (after h r).proc.brk = h.proc.brk ∧
    (after h r).proc.mem = h.proc.mem ∧ (after h r).blocks = h.blocks

/-- What goes wrong is left out: a size that the header wraps to 0, a break that wraps, and
a product of `calloc` that wraps to anything but 0. -/
def Fits (h : Heap) (r : Request) : Prop :=
  CanMeet h r ∨ r.call.size = 0 ∨ (r.grant = false ∧ r.call.size + metadataSize ≠ 0)

/-- No address in the error range of the system call is ever granted. -/
def GrantsLow (h : Heap) (r : Request) : Prop :=
  r.grant = true → h.proc.brk + (r.call.size + metadataSize) ≤ lastAddress

instance (h : Heap) (r : Request) : Decidable (CanMeet h r) := inferInstanceAs (Decidable (_ ∧ _))

instance (h : Heap) (r : Request) : Decidable (Fits h r) := inferInstanceAs (Decidable (_ ∨ _ ∨ _))

instance (h : Heap) (r : Request) : Decidable (GrantsLow h r) := inferInstanceAs (Decidable (_ → _))

section Step

variable {bottom : UInt64} {h : Heap} {r : Request}

theorem getMeta_getData (a : UInt64) : getMeta (getData a) = a := UInt64.add_sub_cancel a _

theorem getData_ne_zero {a : UInt64} (ha : a ≤ lastAddress) : getData a ≠ 0 := by
  intro heq
  have hnat := congrArg UInt64.toNat heq
  have hle := UInt64.le_iff_toNat_le.mp ha
  simp only [getData, UInt64.toNat_add] at hnat
  have h8 : metadataSize.toNat = 8 := rfl
  have hlast : lastAddress.toNat = 2 ^ 64 - 4096 := rfl
  have hzero : (0 : UInt64).toNat = 0 := rfl
  omega

/-- `NULL` is returned and nothing but the error number has changed. -/
theorem after_of_null (hnull : r.call.size = 0 ∨ r.grant = false ∧ r.call.size + metadataSize ≠ 0)
    (h : Heap) : ret h r = 0 ∧ ∃ e, after h r = { h with proc := { h.proc with errno := e } } := by
  obtain ⟨hret, e, hproc⟩ := malloc_null (s := h.proc) hnull
  obtain ⟨heq, _, hmem⟩ := Call.perform_eq_malloc r.grant h.proc r.call
  have hzero : ret h r = 0 := heq.trans hret
  refine ⟨hzero, e, ?_⟩
  rw [after, if_pos hzero, hmem hret, hproc]

/-- A block that starts at the old break, whatever the new break is. -/
theorem after_of_block {s : Process} (hlow : h.proc.brk ≤ lastAddress)
    (hm : malloc r.call.size r.grant h.proc = (getData h.proc.brk, s)) :
    ret h r ≠ 0 ∧ (after h r).proc.brk = s.brk ∧
      (after h r).blocks.map Block.region =
        (h.proc.brk.toNat, h.proc.brk.toNat + metadataSize.toNat + r.call.requested) ::
          h.blocks.map Block.region := by
  obtain ⟨heq, hbrk, _⟩ := Call.perform_eq_malloc r.grant h.proc r.call
  rw [hm] at heq hbrk
  have hret : ret h r = getData h.proc.brk := heq
  have hne : ret h r ≠ 0 := hret ▸ getData_ne_zero hlow
  have hblocks : (after h r).blocks = ⟨getData h.proc.brk, r.call.requested⟩ :: h.blocks := by
    rw [after, if_neg hne, hret]
  refine ⟨hne, hbrk, ?_⟩
  rw [hblocks, List.map_cons, Block.region, getMeta_getData]

theorem CanMeet.low (hmeet : CanMeet h r) : h.proc.brk ≤ lastAddress := by
  rw [UInt64.le_iff_toNat_le]
  have := hmeet.2
  omega

/-- A request that can be met is not changed by the machine's arithmetic. -/
theorem CanMeet.toNat_size (hmeet : CanMeet h r) : r.call.size.toNat = r.call.requested := by
  rw [Call.toNat_size]
  have hle := hmeet.2
  have hlast : lastAddress.toNat = 2 ^ 64 - 4096 := rfl
  exact Nat.mod_eq_of_lt (by omega)

theorem CanMeet.toNat_next (hmeet : CanMeet h r) :
    (h.proc.brk + (r.call.size + metadataSize)).toNat =
      h.proc.brk.toNat + metadataSize.toNat + r.call.requested := by
  have hle := hmeet.2
  have hsize := hmeet.toNat_size
  have hlast : lastAddress.toNat = 2 ^ 64 - 4096 := rfl
  rw [UInt64.toNat_add, UInt64.toNat_add]
  omega

theorem CanMeet.increment_ne_zero (hmeet : CanMeet h r) : r.call.size + metadataSize ≠ 0 := by
  intro heq
  have hnext := hmeet.toNat_next
  rw [heq, UInt64.add_zero] at hnext
  have h8 : metadataSize.toNat = 8 := rfl
  omega

theorem callLaw_of_null (hs : Sound bottom h)
    (hnull : r.call.size = 0 ∨ r.grant = false ∧ r.call.size + metadataSize ≠ 0) :
    CallLaw bottom h r := by
  obtain ⟨hret, e, hafter⟩ := after_of_null hnull h
  refine ⟨?_, fun _ => hret, fun _ => ?_⟩
  · rw [hafter]
    exact hs
  · rw [hafter]
    exact ⟨rfl, rfl, rfl⟩

/-- The new block fills the gap between the old break and the new one. -/
theorem after_of_canMeet (hsize : r.call.size ≠ 0) (hmeet : CanMeet h r) :
    ret h r ≠ 0 ∧
      (after h r).proc.brk.toNat = h.proc.brk.toNat + metadataSize.toNat + r.call.requested ∧
      (after h r).blocks.map Block.region =
        (h.proc.brk.toNat, (after h r).proc.brk.toNat) :: h.blocks.map Block.region := by
  have hnext : h.proc.brk + (r.call.size + metadataSize) ≤ lastAddress := by
    rw [UInt64.le_iff_toNat_le, hmeet.toNat_next]
    exact hmeet.2
  have hm := malloc_granted hsize hmeet.increment_ne_zero hmeet.low hnext
  rw [← hmeet.1] at hm
  obtain ⟨hne, hbrk, hblocks⟩ := after_of_block hmeet.low hm
  have hnat := (congrArg UInt64.toNat hbrk).trans hmeet.toNat_next
  exact ⟨hne, hnat, hnat ▸ hblocks⟩

theorem callLaw_of_canMeet (hs : Sound bottom h) (hsize : r.call.size ≠ 0)
    (hmeet : CanMeet h r) : CallLaw bottom h r := by
  obtain ⟨hne, hbrk, hblocks⟩ := after_of_canMeet hsize hmeet
  refine ⟨?_, fun hnot => absurd hmeet hnot, fun hret => absurd hret hne⟩
  rw [Sound, hblocks]
  exact hs.push (by omega)

theorem callLaw_of_fits (hs : Sound bottom h) (hf : Fits h r) : CallLaw bottom h r := by
  by_cases hsize : r.call.size = 0
  · exact callLaw_of_null hs (.inl hsize)
  · rcases hf with hmeet | hzero | hrefused
    · exact callLaw_of_canMeet hs hsize hmeet
    · exact absurd hzero hsize
    · exact callLaw_of_null hs (.inr hrefused)

/-- When the increment wraps to 0, or is granted, a block is returned. -/
theorem ret_ne_zero (hlow : h.proc.brk ≤ lastAddress) (hg : GrantsLow h r)
    (hsize : r.call.size ≠ 0) (hsome : r.grant = true ∨ r.call.size + metadataSize = 0) :
    ret h r ≠ 0 := by
  by_cases hzero : r.call.size + metadataSize = 0
  · exact (after_of_block hlow (malloc_wrapped hzero hlow r.grant)).1
  · have hgrant := hsome.resolve_right hzero
    have hm := malloc_granted hsize hzero hlow (hg hgrant)
    rw [← hgrant] at hm
    exact (after_of_block hlow hm).1

theorem fits_of_callLaw (hlow : h.proc.brk ≤ lastAddress) (hg : GrantsLow h r)
    (hl : CallLaw bottom h r) : Fits h r := by
  by_cases hmeet : CanMeet h r
  · exact .inl hmeet
  by_cases hsize : r.call.size = 0
  · exact .inr (.inl hsize)
  have hnone : ¬ (r.grant = true ∨ r.call.size + metadataSize = 0) := fun hsome =>
    ret_ne_zero hlow hg hsize hsome (hl.refused hmeet)
  rw [not_or, Bool.not_eq_true] at hnone
  exact .inr (.inr hnone)

theorem brk_low_of_fits (hlow : h.proc.brk ≤ lastAddress) (hf : Fits h r) :
    (after h r).proc.brk ≤ lastAddress := by
  by_cases hsize : r.call.size = 0
  · obtain ⟨_, e, hafter⟩ := after_of_null (.inl hsize) h
    rwa [hafter]
  · rcases hf with hmeet | hzero | hrefused
    · rw [UInt64.le_iff_toNat_le, (after_of_canMeet hsize hmeet).2.1]
      exact hmeet.2
    · exact absurd hzero hsize
    · obtain ⟨_, e, hafter⟩ := after_of_null (.inr hrefused) h
      rwa [hafter]

end Step

theorem sound_init (proc : Process) : Sound proc.brk ⟨proc, []⟩ := stacked_nil (le_refl _)

/-- Along a run of requests that fit, every call keeps the heap sound. The kernel is asked
nothing but to grant or to refuse. Conversely, with a kernel that grants no address of the
error range, a run of calls that keep it has only such requests. -/
theorem blocks_kept (proc : Process) (rs : List Request) :
    (Along step Fits ⟨proc, []⟩ rs → Along step (CallLaw proc.brk) ⟨proc, []⟩ rs ∧
      ∀ h, exec step ⟨proc, []⟩ rs = some h → Sound proc.brk h) ∧
    (proc.brk ≤ lastAddress → Along step GrantsLow ⟨proc, []⟩ rs →
      Along step (CallLaw proc.brk) ⟨proc, []⟩ rs → Along step Fits ⟨proc, []⟩ rs) := by
  have keep : ∀ h r h', Sound proc.brk h → Fits h r → step h r = some h' → Sound proc.brk h' := by
    intro h r h' hs hf hstep
    exact Option.some.inj hstep ▸ (callLaw_of_fits hs hf).sound
  refine ⟨fun hfits => ⟨?_, fun h hexec => ?_⟩, fun hlow hgrants hlaw => ?_⟩
  · exact hfits.of_inv (fun h r => callLaw_of_fits) keep (sound_init proc)
  · exact inv_of_exec keep (sound_init proc) hfits hexec
  · refine (hgrants.and hlaw).of_inv (I := fun h => h.proc.brk ≤ lastAddress)
      (fun h r hlow hq => fits_of_callLaw hlow hq.1 hq.2) ?_ hlow
    intro h r h' hlow hq hstep
    exact Option.some.inj hstep ▸ brk_low_of_fits hlow (fits_of_callLaw hlow hq.1 hq.2)

/-- A process with its break at `0x10000`. -/
def fresh : Process := { brk := 0x10000, mem := fun _ => 0, errno := 0 }

/-- Two blocks, one of them moved, a request that is refused and one that is too large. -/
def fourCalls : List Request :=
  [⟨.calloc 3 5, true⟩, ⟨.realloc 0x10008 40, true⟩, ⟨.malloc 100, false⟩,
    ⟨.alignedAlloc 64 0xffffffffffffffff, false⟩]

theorem blocks_kept_four :
    (Along step (CallLaw 0x10000) ⟨fresh, []⟩ fourCalls ∧
      ∀ h, exec step ⟨fresh, []⟩ fourCalls = some h → Sound 0x10000 h) ∧
    Along step Fits ⟨fresh, []⟩ fourCalls := by
  have hfits : Along step Fits ⟨fresh, []⟩ fourCalls := by decide +kernel
  have hgrants : Along step GrantsLow ⟨fresh, []⟩ fourCalls := by decide +kernel
  have hlaw := (blocks_kept fresh fourCalls).1 hfits
  exact ⟨hlaw, (blocks_kept fresh fourCalls).2 (by decide +kernel) hgrants hlaw.1⟩

/-- The header makes the second size 0: the block lies above the break, which has not moved. -/
theorem wrapped_block_above_break :
    ¬ ∀ rs, Along step (CallLaw fresh.brk) ⟨fresh, []⟩ rs := by
  intro hall
  obtain ⟨_, hrest⟩ := hall [⟨.malloc 16, true⟩, ⟨.malloc 0xfffffffffffffff8, false⟩]
  obtain ⟨hlaw, _⟩ := hrest _ rfl
  have hinside := hlaw.sound.inside (0x10018, 0x10018 + 2 ^ 64) (by decide +kernel)
  exact absurd hinside.2 (by decide +kernel)

end HeapBlocks
