import Libdeepc.BlockBytes
import Libdeepc.Runs

/-!
# The data of a block, from realloc to realloc

Callers allocate blocks and write to them. The size of a block stands in front of
its data, and no write through another block reaches it; so `realloc` finds it
again, and the data moves with the block.
-/

namespace ReallocHistory

open BreakHeap HeapBlocks BlockBytes Runs

/-- A block in use, and the size that `malloc` was asked for. -/
structure Live where
  ptr : UInt64
  size : UInt64
  deriving DecidableEq

structure Usage where
  proc : Process
  live : List Live

inductive Action
  | call (c : Call) (grant : Bool)
  | write (ptr : UInt64) (i : Nat) (b : UInt8)

def handedOut (c : Call) (ret : UInt64) : List Live := if ret = 0 then [] else [⟨ret, c.size⟩]

def givenBack : Call → UInt64 → UInt64
  | .free ptr, _ => ptr
  | .realloc ptr _, ret => if ret = 0 then 0 else ptr
  | _, _ => 0

def after (h : Usage) : Action → Usage
  | .call c grant =>
    let (ret, proc) := c.perform grant h.proc
    ⟨proc, handedOut c ret ++ h.live.filter (·.ptr ≠ givenBack c ret)⟩
  | .write ptr i b => { h with proc.mem := setByte h.proc.mem (ptr + .ofNat i) b }

def step (h : Usage) (a : Action) : Option Usage := some (after h a)

def IsLive (h : Usage) (p : UInt64) : Prop := ∃ b ∈ h.live, b.ptr = p

/-- What the header of a block says. -/
def sizeOf (h : Usage) (p : UInt64) : UInt64 := recorded h.proc.mem p

/-- Callers give back and write to what they have. -/
def Permitted (h : Usage) : Action → Prop
  | .call (.free ptr) _ => ptr = 0 ∨ IsLive h ptr
  | .call (.realloc ptr _) _ => ptr = 0 ∨ IsLive h ptr
  | .call _ _ => True
  | .write ptr i _ => IsLive h ptr ∧ i < (sizeOf h ptr).toNat

/-- The inner `malloc` returns `NULL`, or a block apart from all live ones. -/
def MallocApart (h : Usage) : Action → Prop
  | .call c grant => (malloc c.size grant h.proc).1 = 0 ∨
    ∀ b ∈ h.live, Apart c.size (malloc c.size grant h.proc).1 (sizeOf h b.ptr) b.ptr
  | .write _ _ _ => True

/-- Live blocks are apart from each other, and their headers say what was asked for. -/
structure Sound (h : Usage) : Prop where
  nonnull : ∀ b ∈ h.live, b.ptr ≠ 0
  apart : ∀ b ∈ h.live, ∀ b' ∈ h.live, b.ptr ≠ b'.ptr →
    Apart (sizeOf h b.ptr) b.ptr (sizeOf h b'.ptr) b'.ptr
  asked : ∀ b ∈ h.live, metadataSize.toNat + b.size.toNat ≤ 2 ^ 64 → sizeOf h b.ptr = b.size

/-- The data of `p` is in a block of the new size at `q`, and no live block has changed. -/
structure Moved (h : Usage) (p newSize q : UInt64) (mem : UInt64 → UInt8) : Prop where
  nonnull : q ≠ 0
  size : recorded mem q = newSize
  data : ∀ i, i < min (sizeOf h p).toNat newSize.toNat →
    mem (q + .ofNat i) = h.proc.mem (p + .ofNat i)
  others : ∀ b ∈ h.live, SameBlock h.proc.mem mem (sizeOf h b.ptr) b.ptr

/-- `NULL`, and no byte of memory has changed, or the block has moved. -/
def ReallocLaw (h : Usage) (p newSize : UInt64) (grant : Bool) : Prop :=
  ((realloc p newSize grant h.proc).1 = 0 ∧ (realloc p newSize grant h.proc).2.mem = h.proc.mem) ∨
    Moved h p newSize (realloc p newSize grant h.proc).1 (realloc p newSize grant h.proc).2.mem

section Calls

variable {h : Usage} {c : Call} {grant : Bool} {size : UInt64} {s : Process}

theorem malloc_cases (size : UInt64) (grant : Bool) (s : Process) :
    ((malloc size grant s).1 = 0 ∧ (malloc size grant s).2.mem = s.mem) ∨
    ((malloc size grant s).1 ≠ 0 ∧
      (malloc size grant s).2.mem = storeSize s.mem (getMeta (malloc size grant s).1) size) := by
  by_cases hfinds : FindsMemory size grant s
  · obtain ⟨e, hm⟩ := malloc_of_finds hfinds
    rw [hm, getMeta_getData]
    exact .inr ⟨getData_ne_zero hfinds.2.1, rfl⟩
  · exact .inl (malloc_of_not_finds hfinds)

/-- What a call that finds memory leaves in it. -/
structure Found (h : Usage) (c : Call) (mem : UInt64 → UInt8) (q : UInt64) : Prop where
  nonnull : q ≠ 0
  size : recorded mem q = c.size
  apart : ∀ b ∈ h.live, Apart c.size q (sizeOf h b.ptr) b.ptr
  same : ∀ b ∈ h.live, SameBlock h.proc.mem mem (sizeOf h b.ptr) b.ptr

theorem malloc_found (hapart : MallocApart h (.call c grant))
    (hne : (malloc c.size grant h.proc).1 ≠ 0) :
    Found h c (malloc c.size grant h.proc).2.mem (malloc c.size grant h.proc).1 := by
  have hmem := ((malloc_cases c.size grant h.proc).resolve_left fun hnull => hne hnull.1).2
  have hblocks := hapart.resolve_left hne
  refine ⟨hne, ?_, hblocks, fun b hb => ?_⟩
  · rw [hmem]
    exact loadSize_storeSize _ _ _
  · rw [hmem]
    exact sameBlock_storeSize (hblocks b hb) _

/-- The copy of `realloc`, out of a live block into the new one. -/
theorem realloc_found {p n : UInt64} (hapart : MallocApart h (.call (.realloc p n) grant))
    (hne : (malloc n grant h.proc).1 ≠ 0) (hp : p ≠ 0) (hlive : IsLive h p) :
    (realloc p n grant h.proc).1 = (malloc n grant h.proc).1 ∧
    Found h (.realloc p n) (realloc p n grant h.proc).2.mem (malloc n grant h.proc).1 ∧
    ∀ i, i < min (sizeOf h p).toNat n.toNat →
      (realloc p n grant h.proc).2.mem ((malloc n grant h.proc).1 + .ofNat i) =
        h.proc.mem (p + .ofNat i) := by
  obtain ⟨hq, hsize, hblocks, hsame⟩ := malloc_found hapart hne
  obtain ⟨b, hb, rfl⟩ := hlive
  simp only [Call.size] at hq hsize hblocks hsame
  generalize hm : malloc n grant h.proc = m at hne hq hsize hblocks hsame ⊢
  obtain ⟨q, s⟩ := m
  have hold : recorded s.mem b.ptr = sizeOf h b.ptr := (hsame b hb).recorded_eq
  have hmin : (if sizeOf h b.ptr < n then sizeOf h b.ptr else n).toNat =
      min (sizeOf h b.ptr).toNat n.toNat := by
    by_cases hlt : sizeOf h b.ptr < n
    · have := UInt64.lt_iff_toNat_lt.mp hlt
      rw [if_pos hlt]
      omega
    · have := UInt64.le_iff_toNat_le.mp (UInt64.not_lt.mp hlt)
      rw [if_neg hlt]
      omega
  have hrealloc : realloc b.ptr n grant h.proc = (q, { s with
      mem := memcpy s.mem q b.ptr (min (sizeOf h b.ptr).toNat n.toNat) }) := by
    simp only [realloc, hm, if_neg hq, if_neg hp, free]
    rw [← hmin, ← hold]
    rfl
  rw [hrealloc]
  have hroom := (hblocks b hb).symm.size_lt
  have hcopied : ∀ i, i < min (sizeOf h b.ptr).toNat n.toNat → InBlock n q (q + .ofNat i) :=
    fun i hi => inBlock_data (by omega)
  refine ⟨rfl, ⟨hq, ?_, hblocks, fun b' hb' a ha => ?_⟩, fun i hi => ?_⟩
  · refine (loadSize_congr fun j hj => memcpy_outside fun i hi heq => ?_).trans hsize
    exact data_ne_header (by omega) hj heq.symm
  · refine (memcpy_outside fun i hi heq => ?_).trans (hsame b' hb' a ha)
    exact hblocks b' hb' _ (hcopied i hi) (heq ▸ ha)
  · refine (memcpy_copied (by omega) (fun i j hi hj heq => ?_) hi).trans
      ((hsame b hb).data (by omega))
    apply hblocks b hb _ (hcopied j hj)
    rw [← heq]
    exact inBlock_data (by omega)

theorem perform_null (c : Call) (hnull : (malloc c.size grant h.proc).1 = 0) :
    (c.perform grant h.proc).1 = 0 ∧ (c.perform grant h.proc).2.mem = h.proc.mem := by
  obtain ⟨hret, _, hproc⟩ := Call.perform_eq_malloc grant h.proc c
  refine ⟨hret.trans hnull, ?_⟩
  rw [hproc hnull]
  exact ((malloc_cases c.size grant h.proc).resolve_right fun hne => hne.1 hnull).2

/-- Behind its `malloc` no call changes a live block or the new header. -/
theorem perform_found (hpermitted : Permitted h (.call c grant))
    (hapart : MallocApart h (.call c grant)) (hne : (malloc c.size grant h.proc).1 ≠ 0) :
    Found h c (c.perform grant h.proc).2.mem (c.perform grant h.proc).1 := by
  have hret := (Call.perform_eq_malloc grant h.proc c).1
  have hfound := malloc_found hapart hne
  rw [hret]
  cases c with
  | malloc size => exact hfound
  | alignedAlloc alignment size => exact hfound
  | free ptr => exact absurd rfl hne
  | calloc num size =>
    have hmem : (calloc num size grant h.proc).2.mem =
        (malloc (num * size) grant h.proc).2.mem := by
      simp only [calloc]
      split <;> rfl
    change Found h _ (calloc num size grant h.proc).2.mem _
    rw [hmem]
    exact hfound
  | realloc p n =>
    by_cases hp : p = 0
    · have hmem : (realloc p n grant h.proc).2.mem = (malloc n grant h.proc).2.mem := by
        simp only [realloc, hp, if_true]
        split <;> rfl
      change Found h _ (realloc p n grant h.proc).2.mem _
      rw [hmem]
      exact hfound
    · exact (realloc_found hapart hne hp (hpermitted.resolve_left hp)).2.1

theorem realloc_null (newSize : UInt64) (grant : Bool) (s : Process) :
    realloc 0 newSize grant s = malloc newSize grant s := by
  simp only [realloc, if_true]
  split
  · rename_i hnull
    exact Prod.ext hnull.symm rfl
  · rfl

theorem realloc_law {p n : UInt64} (hlive : IsLive h p) (hp : p ≠ 0)
    (hapart : MallocApart h (.call (.realloc p n) grant)) : ReallocLaw h p n grant := by
  by_cases hnull : (malloc n grant h.proc).1 = 0
  · exact .inl (perform_null (.realloc p n) hnull)
  · obtain ⟨hret, hfound, hcopy⟩ := realloc_found hapart hnull hp hlive
    right
    rw [← hret] at hfound hcopy
    exact ⟨hfound.nonnull, hfound.size, hcopy, hfound.same⟩

end Calls

section Steps

variable {h h' : Usage} {a : Action}

theorem mem_after_call {c : Call} {grant : Bool} {b : Live} :
    b ∈ (after h (.call c grant)).live ↔
      b ∈ handedOut c (c.perform grant h.proc).1 ∨
        (b ∈ h.live ∧ b.ptr ≠ givenBack c (c.perform grant h.proc).1) := by
  simp only [after, List.mem_append, List.mem_filter, decide_eq_true_eq]

theorem mem_handedOut {c : Call} {ret : UInt64} (hne : ret ≠ 0) :
    ⟨ret, c.size⟩ ∈ handedOut c ret := by
  rw [handedOut, if_neg hne]
  exact List.mem_singleton_self _

theorem nonnull_after (hnonnull : ∀ b ∈ h.live, b.ptr ≠ 0) (a : Action) :
    ∀ b ∈ (after h a).live, b.ptr ≠ 0 := by
  intro b hb
  cases a with
  | write ptr i byte => exact hnonnull b hb
  | call c grant =>
    rcases mem_after_call.mp hb with hnew | ⟨hold, _⟩
    · rw [handedOut] at hnew
      split at hnew
      · exact absurd hnew List.not_mem_nil
      · obtain rfl := List.mem_singleton.mp hnew
        assumption
    · exact hnonnull b hold

/-- A block whose bytes are as before is as sound as before. -/
theorem sound_of_same (hs : Sound h) (hlive : ∀ b ∈ h'.live, b ∈ h.live)
    (hsize : ∀ b ∈ h'.live, sizeOf h' b.ptr = sizeOf h b.ptr) : Sound h' where
  nonnull b hb := hs.nonnull b (hlive b hb)
  apart b hb b' hb' hne := by
    rw [hsize b hb, hsize b' hb']
    exact hs.apart b (hlive b hb) b' (hlive b' hb') hne
  asked b hb hroom := (hsize b hb).trans (hs.asked b (hlive b hb) hroom)

theorem sound_call {c : Call} {grant : Bool} (hs : Sound h)
    (hpermitted : Permitted h (.call c grant)) (hapart : MallocApart h (.call c grant)) :
    Sound (after h (.call c grant)) := by
  by_cases hnull : (malloc c.size grant h.proc).1 = 0
  · obtain ⟨hret, hmem⟩ := perform_null c hnull
    refine sound_of_same hs (fun b hb => ?_) fun b _ => congrArg (recorded · b.ptr) hmem
    rcases mem_after_call.mp hb with hnew | hold
    · rw [handedOut, if_pos hret] at hnew
      exact absurd hnew List.not_mem_nil
    · exact hold.1
  · have hfound := perform_found hpermitted hapart hnull
    have hout : handedOut c (c.perform grant h.proc).1 = [⟨(c.perform grant h.proc).1, c.size⟩] :=
      if_neg hfound.nonnull
    have hcases : ∀ b ∈ (after h (.call c grant)).live,
        b = ⟨(c.perform grant h.proc).1, c.size⟩ ∨ b ∈ h.live := by
      intro b hb
      rw [mem_after_call, hout, List.mem_singleton] at hb
      exact hb.imp_right And.left
    have hsize : ∀ b ∈ h.live, sizeOf (after h (.call c grant)) b.ptr = sizeOf h b.ptr :=
      fun b hb => (hfound.same b hb).recorded_eq
    refine ⟨nonnull_after hs.nonnull _, fun b hb b' hb' hne => ?_, fun b hb hroom => ?_⟩
    · rcases hcases b hb with rfl | hb
      · rcases hcases b' hb' with rfl | hb'
        · exact absurd rfl hne
        · rw [hsize b' hb', sizeOf]
          exact hfound.size ▸ hfound.apart b' hb'
      · rcases hcases b' hb' with rfl | hb'
        · rw [hsize b hb]
          exact (hfound.size ▸ (hfound.apart b hb).symm :)
        · rw [hsize b hb, hsize b' hb']
          exact hs.apart b hb b' hb' hne
    · rcases hcases b hb with rfl | hb
      · exact hfound.size
      · rw [hsize b hb]
        exact hs.asked b hb hroom

/-- A write into a block changes no byte of another. -/
theorem write_same {p : UInt64} {i : Nat} {byte : UInt8} (hs : Sound h)
    (hpermitted : Permitted h (.write p i byte)) {b : Live} (hb : b ∈ h.live) (hne : p ≠ b.ptr) :
    SameBlock h.proc.mem (after h (.write p i byte)).proc.mem (sizeOf h b.ptr) b.ptr := by
  obtain ⟨⟨b', hb', rfl⟩, hi⟩ := hpermitted
  intro a ha
  apply if_neg
  intro heq
  exact hs.apart b' hb' b hb hne _ (inBlock_data hi) (heq ▸ ha)

/-- Nor its own header, unless the data goes all the way round. -/
theorem write_sizeOf {p : UInt64} {i : Nat} (byte : UInt8)
    (hroom : metadataSize.toNat + i < 2 ^ 64) :
    sizeOf (after h (.write p i byte)) p = sizeOf h p :=
  loadSize_congr fun _ hj => if_neg (data_ne_header hroom hj).symm

theorem sound_write {p : UInt64} {i : Nat} {byte : UInt8} (hs : Sound h)
    (hpermitted : Permitted h (.write p i byte)) : Sound (after h (.write p i byte)) := by
  have hi := hpermitted.2
  have hother : ∀ b ∈ h.live, p ≠ b.ptr →
      sizeOf (after h (.write p i byte)) b.ptr = sizeOf h b.ptr :=
    fun b hb hne => (write_same hs hpermitted hb hne).recorded_eq
  refine ⟨hs.nonnull, fun b hb b' hb' hne => ?_, fun b hb hroom => ?_⟩
  · -- next to another block there is no room to go round
    have happart := hs.apart b hb b' hb' hne
    have hsize := happart.size_lt
    have hsize' := happart.symm.size_lt
    have heq : sizeOf (after h (.write p i byte)) b.ptr = sizeOf h b.ptr := by
      by_cases hp : p = b.ptr
      · subst hp
        exact write_sizeOf byte (by omega)
      · exact hother b hb hp
    have heq' : sizeOf (after h (.write p i byte)) b'.ptr = sizeOf h b'.ptr := by
      by_cases hp : p = b'.ptr
      · subst hp
        exact write_sizeOf byte (by omega)
      · exact hother b' hb' hp
    rw [heq, heq']
    exact happart
  · have hasked := hs.asked b hb hroom
    refine Eq.trans ?_ hasked
    by_cases hp : p = b.ptr
    · subst hp
      rw [hasked] at hi
      exact write_sizeOf byte (by omega)
    · exact hother b hb hp

theorem sound_after (hs : Sound h) (hok : Permitted h a ∧ MallocApart h a) : Sound (after h a) := by
  cases a with
  | call c grant => exact sound_call hs hok.1 hok.2
  | write p i byte => exact sound_write hs hok.1

theorem sound_start (proc : Process) : Sound ⟨proc, []⟩ :=
  ⟨fun _ hb => absurd hb List.not_mem_nil, fun _ hb => absurd hb List.not_mem_nil,
    fun _ hb => absurd hb List.not_mem_nil⟩

theorem step_total (h : Usage) (a : Action) : ∃ h', step h a = some h' := ⟨_, rfl⟩

/-- As long as blocks come one behind the other, below the end of the address space. -/
theorem mallocApart_of_above {c : Call} {grant : Bool}
    (hroom : (getMeta (malloc c.size grant h.proc).1).toNat + metadataSize.toNat +
      c.size.toNat ≤ 2 ^ 64)
    (hlive : ∀ b ∈ h.live, (getMeta b.ptr).toNat + metadataSize.toNat + (sizeOf h b.ptr).toNat ≤
      (getMeta (malloc c.size grant h.proc).1).toNat) : MallocApart h (.call c grant) :=
  .inr fun b hb => (apart_of_le (hlive b hb) hroom).symm

end Steps

section Chain

/-- Some data, and the sizes of the blocks it has been in, the latest first. -/
structure Watch where
  usage : Usage
  data : UInt64
  sizes : List UInt64

/-- A `realloc` that moves the data. -/
def follow (w : Watch) : Action → Option (UInt64 × UInt64)
  | .call (.realloc p n) grant =>
    let q := (realloc p n grant w.usage.proc).1
    if p = w.data ∧ q ≠ 0 then some (q, n) else none
  | _ => none

def watchStep (w : Watch) (a : Action) : Option Watch :=
  match follow w a with
  | some (q, n) => some ⟨after w.usage a, q, n :: w.sizes⟩
  | none => some { w with usage := after w.usage a }

/-- The data is neither freed nor written to. -/
def Spares (w : Watch) : Action → Prop
  | .call (.free p) _ => p ≠ w.data
  | .write p _ _ => p ≠ w.data
  | _ => True

/-- The bytes of the data that lie inside all the sizes are those of `mem` at `p`. -/
structure Kept (mem : UInt64 → UInt8) (p : UInt64) (w : Watch) : Prop where
  sound : Sound w.usage
  live : IsLive w.usage w.data
  size : sizeOf w.usage w.data ∈ w.sizes
  bytes : ∀ i, (∀ n ∈ w.sizes, i < n.toNat) →
    w.usage.proc.mem (w.data + .ofNat i) = mem (p + .ofNat i)

variable {w w' : Watch} {a : Action} {mem : UInt64 → UInt8} {p : UInt64}

/-- The data stays in its block, and nothing in the block changes. -/
theorem Kept.stay (hk : Kept mem p w) {h : Usage} (hsound : Sound h)
    (hlive : ∀ b ∈ w.usage.live, b.ptr = w.data → b ∈ h.live)
    (hsame : SameBlock w.usage.proc.mem h.proc.mem (sizeOf w.usage w.data) w.data) :
    Kept mem p { w with usage := h } where
  sound := hsound
  live := by
    obtain ⟨b, hb, hdata⟩ := hk.live
    exact ⟨b, hlive b hb hdata, hdata⟩
  size := by
    change recorded h.proc.mem w.data ∈ w.sizes
    rw [hsame.recorded_eq]
    exact hk.size
  bytes i hi := (hsame.data (hi _ hk.size)).trans (hk.bytes i hi)

/-- The data moves, and the bytes inside both sizes come along. -/
theorem Kept.move (hk : Kept mem p w) {h : Usage} {q n : UInt64} (hsound : Sound h)
    (hlive : IsLive h q) (hmove : Moved w.usage w.data n q h.proc.mem) :
    Kept mem p ⟨h, q, n :: w.sizes⟩ where
  sound := hsound
  live := hlive
  size := by
    change recorded h.proc.mem q ∈ n :: w.sizes
    rw [hmove.size]
    exact List.mem_cons_self
  bytes i hi := by
    have hold : ∀ m ∈ w.sizes, i < m.toNat := fun m hm => hi m (List.mem_cons_of_mem n hm)
    exact (hmove.data i (Nat.lt_min.mpr ⟨hold _ hk.size, hi n List.mem_cons_self⟩)).trans
      (hk.bytes i hold)

theorem follow_eq_some {q n : UInt64} (h : follow w a = some (q, n)) : ∃ grant,
    a = .call (.realloc w.data n) grant ∧ q = (realloc w.data n grant w.usage.proc).1 ∧ q ≠ 0 := by
  cases a with
  | write p i byte => cases h
  | call c grant =>
    cases c with
    | realloc p m =>
      simp only [follow] at h
      split at h
      · rename_i hcond
        obtain ⟨rfl, rfl⟩ := Prod.mk.inj (Option.some.inj h)
        obtain ⟨rfl, hne⟩ := hcond
        exact ⟨grant, rfl, rfl, hne⟩
      · cases h
    | malloc size => cases h
    | calloc num size => cases h
    | alignedAlloc alignment size => cases h
    | free p => cases h

/-- A block that is neither moved nor freed stays live. -/
theorem live_after_call {c : Call} {grant : Bool} (hspares : Spares w (.call c grant))
    (hmoved : follow w (.call c grant) = none) (hdata : w.data ≠ 0) {b : Live}
    (hb : b ∈ w.usage.live) (hptr : b.ptr = w.data) :
    b ∈ (after w.usage (.call c grant)).live := by
  apply mem_after_call.mpr
  refine .inr ⟨hb, ?_⟩
  rw [hptr]
  cases c with
  | malloc size => exact hdata
  | calloc num size => exact hdata
  | alignedAlloc alignment size => exact hdata
  | free p => exact hspares.symm
  | realloc p n =>
    rw [givenBack]
    split
    · exact hdata
    · rename_i hne
      rintro rfl
      rw [follow, if_pos ⟨rfl, hne⟩] at hmoved
      cases hmoved

theorem kept_step (hk : Kept mem p w)
    (hok : (Permitted w.usage a ∧ MallocApart w.usage a) ∧ Spares w a)
    (hstep : watchStep w a = some w') : Kept mem p w' := by
  obtain ⟨⟨hpermitted, hapart⟩, hspares⟩ := hok
  have hsound := sound_after hk.sound ⟨hpermitted, hapart⟩
  obtain ⟨b, hb, hptr⟩ := hk.live
  have hdata : w.data ≠ 0 := hptr ▸ hk.sound.nonnull b hb
  rw [watchStep] at hstep
  cases hmoved : follow w a with
  | some qn =>
    obtain ⟨q, n⟩ := qn
    rw [hmoved] at hstep
    obtain rfl := Option.some.inj hstep
    obtain ⟨grant, rfl, hq, hne⟩ := follow_eq_some hmoved
    subst hq
    have hmove := (realloc_law hk.live hdata hapart).resolve_left fun hnull => hne hnull.1
    exact hk.move hsound ⟨_, mem_after_call.mpr (.inl (mem_handedOut hne)), rfl⟩ hmove
  | none =>
    rw [hmoved] at hstep
    obtain rfl := Option.some.inj hstep
    cases a with
    | write ptr i byte =>
      refine hk.stay hsound (fun _ h _ => h) ?_
      rw [← hptr]
      exact write_same hk.sound hpermitted hb (hptr ▸ hspares)
    | call c grant =>
      refine hk.stay hsound (fun b hb => live_after_call hspares hmoved hdata hb) ?_
      by_cases hnull : (malloc c.size grant w.usage.proc).1 = 0
      · intro a _
        exact congrFun (perform_null c hnull).2 a
      · rw [← hptr]
        exact (perform_found hpermitted hapart hnull).same b hb

theorem watchStep_total (w : Watch) (a : Action) : ∃ w', watchStep w a = some w' := by
  rw [watchStep]
  cases follow w a with
  | none => exact ⟨_, rfl⟩
  | some qn => exact ⟨_, rfl⟩

end Chain

/-- Callers keep to their blocks, and `malloc` to the memory that no live block is in. -/
def WellUsed (h : Usage) (a : Action) : Prop := Permitted h a ∧ MallocApart h a

/-- In every state of every history `realloc` moves a block whole or up to the new size, when its
`malloc` finds memory apart from the live blocks. Where that has always been so, live blocks are
apart and their headers say what was asked for, and along any chain of reallocs the bytes of the
data inside all the sizes on the way stay as they are. -/
theorem realloc_keeps_data (proc : Process) (as : List Action) :
    ∃ h, exec step ⟨proc, []⟩ as = some h ∧
      (∀ newSize grant, realloc 0 newSize grant h.proc = malloc newSize grant h.proc) ∧
      (∀ b ∈ h.live, ∀ newSize grant, MallocApart h (.call (.realloc b.ptr newSize) grant) →
        ReallocLaw h b.ptr newSize grant) ∧
      (Along step WellUsed ⟨proc, []⟩ as → Sound h ∧ ∀ b ∈ h.live, ∀ bs,
        Along watchStep (fun w a => WellUsed w.usage a ∧ Spares w a)
          ⟨h, b.ptr, [sizeOf h b.ptr]⟩ bs →
        ∃ w, exec watchStep ⟨h, b.ptr, [sizeOf h b.ptr]⟩ bs = some w ∧
          Kept h.proc.mem b.ptr w) := by
  obtain ⟨h, hexec⟩ := exec_total step_total as ⟨proc, []⟩
  have hnonnull : ∀ b ∈ h.live, b.ptr ≠ 0 :=
    inv_of_exec (Q := fun _ _ => True) (I := fun h => ∀ b ∈ h.live, b.ptr ≠ 0)
      (fun _ a _ hs _ heq => Option.some.inj heq ▸ nonnull_after hs a)
      (fun _ hb => absurd hb List.not_mem_nil) (along_of_forall (fun _ _ => trivial) _) hexec
  refine ⟨h, hexec, fun n grant => realloc_null n grant h.proc, fun b hb n grant hapart =>
    realloc_law ⟨b, hb, rfl⟩ (hnonnull b hb) hapart, fun hok => ?_⟩
  have hsound : Sound h := inv_of_exec (Q := WellUsed) (I := Sound)
    (fun _ _ _ hs hok heq => Option.some.inj heq ▸ sound_after hs hok) (sound_start proc) hok hexec
  refine ⟨hsound, fun b hb bs hbs => ?_⟩
  obtain ⟨w, hw⟩ := exec_total watchStep_total bs ⟨h, b.ptr, [sizeOf h b.ptr]⟩
  have hstart : Kept h.proc.mem b.ptr ⟨h, b.ptr, [sizeOf h b.ptr]⟩ :=
    ⟨hsound, ⟨b, hb, rfl⟩, List.mem_singleton_self _, fun _ _ => rfl⟩
  exact ⟨w, hw, inv_of_exec (fun _ _ _ hk hok hstep => kept_step hk hok hstep) hstart hbs hw⟩

/-- A block of 4 bytes is grown to 8 and cut down to 2. -/
theorem realloc_keeps_data_chain : ∃ h w,
    exec step ⟨⟨4096, fun _ => 0, 0⟩, []⟩ [.call (.malloc 4) true, .write 4104 1 97] = some h ∧
    exec watchStep ⟨h, 4104, [4]⟩
      [.call (.realloc 4104 8) true, .call (.realloc 4116 2) true] = some w ∧
    w.data = 4132 ∧ w.usage.proc.mem 4133 = 97 := by
  obtain ⟨h, hexec, _, _, hchain⟩ := realloc_keeps_data ⟨4096, fun _ => 0, 0⟩
    [.call (.malloc 4) true, .write 4104 1 97]
  obtain rfl := Option.some.inj hexec
  have hused : Along step WellUsed ⟨⟨4096, fun _ => 0, 0⟩, []⟩
      [.call (.malloc 4) true, .write 4104 1 97] :=
    along_cons_of_step rfl ⟨trivial, .inr fun b hb => absurd hb List.not_mem_nil⟩
      (along_cons_of_step rfl ⟨⟨⟨⟨4104, 4⟩, by decide, rfl⟩, by decide⟩, trivial⟩ trivial)
  obtain ⟨w, hw, hkept⟩ := (hchain hused).2 ⟨4104, 4⟩ (by decide)
    [.call (.realloc 4104 8) true, .call (.realloc 4116 2) true]
    (along_cons_of_step rfl ⟨⟨.inr ⟨⟨4104, 4⟩, by decide, rfl⟩,
        mallocApart_of_above (by decide) (by decide)⟩, trivial⟩
      (along_cons_of_step rfl ⟨⟨.inr ⟨⟨4116, 8⟩, by decide, rfl⟩,
        mallocApart_of_above (by decide) (by decide)⟩, trivial⟩ trivial))
  have hsizes : ∀ n ∈ ([2, 8, 4] : List UInt64), 1 < n.toNat := by
    simp only [List.mem_cons, List.not_mem_nil, or_false, forall_eq_or_imp, forall_eq]
    decide
  obtain ⟨u, hu⟩ : ∃ u, some w = some ⟨u, 4132, [2, 8, 4]⟩ := ⟨_, hw.symm.trans rfl⟩
  obtain rfl := Option.some.inj hu
  exact ⟨_, _, rfl, hw, rfl, (hkept.bytes 1 hsizes).trans rfl⟩

end ReallocHistory
