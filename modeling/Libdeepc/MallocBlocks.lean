import Libdeepc.MallocLinear
import Libdeepc.ReallocHistory
import Mathlib.Data.List.Pairwise

/-!
# The blocks of all threads

The blocks that `malloc` hands out to several threads lie apart, and the size in
front of a block is there from the return of its `malloc` on, whatever the
threads write to the data of their blocks.
-/

namespace MallocBlocks

open BlockBytes BreakHeap MallocLinear MallocThreads RegionStack Runs
open HeapBlocks (Block getData_ne_zero getMeta_getData)
open ReallocHistory (Live)

universe u
variable {T : Type u}

/-- The block that leaves the lock with a call. -/
def carved : MallocThreads.Event T → Option Live
  | .point _ size _ ptr => if ptr = 0 then none else some ⟨ptr, size⟩
  | .call _ _ | .ret _ _ => none

/-- The last block first. -/
def blocks (s : State T) : List Live := (s.trace.filterMap carved).reverse

def region (b : Live) : Nat × Nat := Block.region ⟨b.ptr, b.size.toNat⟩

/-- The block whose size a thread has still to store. -/
def storing : Place → Option Live
  | .unlockMtx size ret | .storeSize size ret => if ret = -1 then none else some ⟨getData ret, size⟩
  | .user | .testSize _ | .readInit _ | .testAndSetFlag _ | .initMtx _ | .storeInit _
  | .clearFlag _ | .lockMtx _ | .readBreak _ | .moveBreak _ _ => none

/-- The size and the header together are less than the address space. -/
def Sized : Place → Prop
  | .user => True
  | .testSize size | .readInit size | .testAndSetFlag size | .initMtx size | .storeInit size
  | .clearFlag size | .lockMtx size | .readBreak size | .moveBreak size _ | .unlockMtx size _
  | .storeSize size _ => metadataSize.toNat + size.toNat < 2 ^ 64

/-- No break in the error range of the kernel's answers is granted. -/
def Room (brk : UInt64) (grant : Bool) : Place → Prop
  | .moveBreak size _ =>
    grant = true → brk.toNat + metadataSize.toNat + size.toNat ≤ lastAddress.toNat
  | _ => True

/-- Sizes that the header does not wrap, and threads that write only to the data of blocks. -/
def Polite (s : State T) : Act T → Prop
  | .call _ size => metadataSize.toNat + size.toNat < 2 ^ 64
  | .write _ addr _ => ∃ b ∈ blocks s, addr - b.ptr < b.size
  | .go t grant => Room s.shared.brk grant (s.threads t).place

instance (brk : UInt64) (grant : Bool) : ∀ p, Decidable (Room brk grant p)
  | .moveBreak _ _ => inferInstanceAs (Decidable (_ → _))
  | .user | .testSize _ | .readInit _ | .testAndSetFlag _ | .initMtx _ | .storeInit _
  | .clearFlag _ | .lockMtx _ | .readBreak _ | .unlockMtx _ _ | .storeSize _ _ => isTrue trivial

instance (s : State T) : ∀ a, Decidable (Polite s a)
  | .call _ _ => inferInstanceAs (Decidable (_ < _))
  | .write _ addr _ => inferInstanceAs (Decidable (∃ b ∈ blocks s, addr - b.ptr < b.size))
  | .go _ _ => inferInstanceAs (Decidable (Room _ _ _))

section Advance

variable {t : T} {grant : Bool} {g g' : Shared} {th th' : Thread}
  {es : List (MallocThreads.Event T)}

/-- What a step means for the blocks. -/
inductive Move (t : T) (g : Shared) (p : Place) :
    Shared → Place → List (MallocThreads.Event T) → Prop
  | silent {g' p' es} (hbrk : g'.brk = g.brk) (hmem : g'.mem = g.mem)
      (hstoring : storing p' = storing p) (hcarved : ∀ e ∈ es, carved e = none)
      (hret : ∀ u ptr, .ret u ptr ∈ es → ptr = 0) : Move t g p g' p' es
  | carve {p'} (size : UInt64) (hidle : storing p = none)
      (hroom : g.brk.toNat + metadataSize.toNat + size.toNat ≤ lastAddress.toNat)
      (hstoring : storing p' = some ⟨getData g.brk, size⟩) :
      Move t g p { g with brk := g.brk + (size + metadataSize) } p'
        [.point t size true (getData g.brk)]
  | store {p'} (size ret : UInt64) (hbusy : storing p = some ⟨getData ret, size⟩)
      (hidle : storing p' = none) :
      Move t g p { g with mem := BreakHeap.storeSize g.mem ret size } p' [.ret t (getData ret)]

theorem increment_ne_zero {size : UInt64} (h : metadataSize.toNat + size.toNat < 2 ^ 64) :
    increment size ≠ 0 := by
  intro hzero
  have hnat := congrArg UInt64.toNat (toInt64_eq_zero.mp hzero)
  rw [UInt64.toNat_add] at hnat
  have h8 : metadataSize.toNat = 8 := rfl
  have h0 : (0 : UInt64).toNat = 0 := rfl
  omega

theorem reported_of_le {brk : UInt64} (h : brk ≤ lastAddress) : reported brk = brk :=
  if_neg (UInt64.not_lt.mpr h)

/-- The kernel grants the break that is asked for. The block begins at the break found before. -/
theorem advance_granted {size curBreak : UInt64} (hp : th.place = .moveBreak size curBreak)
    (hroom : curBreak.toNat + metadataSize.toNat + size.toNat ≤ lastAddress.toNat) :
    advance t true g th = some ({ g with brk := curBreak + (size + metadataSize) },
      ⟨.unlockMtx size curBreak, th.errno⟩, [.point t size true (getData curBreak)]) := by
  have h8 : metadataSize.toNat = 8 := rfl
  have hlast : lastAddress.toNat = 2 ^ 64 - 4096 := rfl
  have hlow : curBreak ≤ lastAddress := by
    rw [UInt64.le_iff_toNat_le]
    omega
  have hnext : curBreak + (size + metadataSize) ≤ lastAddress := by
    rw [UInt64.le_iff_toNat_le, UInt64.toNat_add, UInt64.toNat_add]
    omega
  have hcur : curBreak ≠ -1 := ne_neg_one_of_le (s := ⟨curBreak, g.mem, 0⟩) hlow
  simp only [advance, hp, increment, UInt64.toUInt64_toInt64, syscall1Brk, sysBrk, if_true,
    syscallChkErr_of_le hnext, ne_eq, not_true_eq_false, if_false, answer, if_neg hcur]
  rfl

/-- Refused, `sbrk` fails. -/
theorem advance_refused {size : UInt64} (hp : th.place = .moveBreak size (reported g.brk))
    (hsized : metadataSize.toNat + size.toNat < 2 ^ 64) (hlow : g.brk ≤ lastAddress) :
    advance t false g th = some (g, ⟨.unlockMtx size (-1), ENOMEM⟩, [.point t size false 0]) := by
  have hne : size + metadataSize ≠ 0 := fun h => increment_ne_zero hsized (toInt64_eq_zero.mpr h)
  have hkeep : (syscallChkErr (g.proc th).brk (g.proc th)) = (g.brk, g.proc th) :=
    syscallChkErr_of_le hlow
  have hmore : g.brk + (size + metadataSize) ≠ g.brk := fun h => hne (by simpa using h)
  simp only [advance, hp, reported_of_le hlow, increment, UInt64.toUInt64_toInt64, syscall1Brk,
    sysBrk, Bool.false_eq_true, if_false, hkeep, if_pos hmore]
  rfl

theorem advance_move (h : advance t grant g th = some (g', th', es)) (hr : Ready g.brk th.place)
    (hs : Sized th.place) (hlow : g.brk ≤ lastAddress) (hroom : Room g.brk grant th.place) :
    Sized th'.place ∧ Move t g th.place g' th'.place es := by
  cases hp : th.place with
  | moveBreak size curBreak =>
    rw [hp] at hr hs hroom
    obtain ⟨_, _, rfl⟩ := hr
    cases grant with
    | true =>
      rw [reported_of_le hlow] at hp
      rw [advance_granted hp (hroom rfl)] at h
      cases h
      rw [reported_of_le hlow]
      refine ⟨hs, .carve size rfl (hroom rfl) ?_⟩
      exact if_neg (ne_neg_one_of_le (s := g.proc th) hlow)
    | false =>
      rw [advance_refused hp hs hlow] at h
      cases h
      refine ⟨hs, .silent rfl rfl rfl ?_ ?_⟩
      · simp [carved]
      · simp
  | readBreak size =>
    rw [hp] at hs
    simp only [advance, hp, if_neg (increment_ne_zero hs)] at h
    cases h
    exact ⟨hs, .silent rfl rfl rfl (by simp) (by simp)⟩
  | storeSize size ret =>
    rw [hp] at hs
    simp only [advance, hp] at h
    split at h
    · rename_i hfail
      cases h
      refine ⟨trivial, .silent rfl rfl (if_pos hfail).symm ?_ ?_⟩
      · simp [carved]
      · simp
    · rename_i hfound
      cases h
      exact ⟨trivial, .store size ret (if_neg hfound) rfl⟩
  | testSize size =>
    rw [hp] at hs
    simp only [advance, hp] at h
    split at h
    · cases h
      refine ⟨trivial, .silent rfl rfl rfl ?_ ?_⟩
      · simp [carved]
      · simp
    · cases h
      exact ⟨hs, .silent rfl rfl rfl (by simp) (by simp)⟩
  | user =>
    simp only [advance, hp] at h
    cases h
  | _ =>
    rw [hp] at hs
    simp only [advance, hp] at h
    cases h
    refine ⟨?_, .silent rfl rfl ?_ (by simp) (by simp)⟩
    all_goals
      simp only [place_at]
      try split
    all_goals first | exact hs | rfl

end Advance

structure Kept (bottom : UInt64) (s : State T) : Prop where
  low : s.shared.brk ≤ lastAddress
  sized : ∀ t, Sized (s.threads t).place
  stacked : Stacked bottom.toNat s.shared.brk.toNat ((blocks s).map region)
  held : ∀ t b, storing (s.threads t).place = some b → b ∈ blocks s
  alone : ∀ t u b, storing (s.threads t).place = some b → storing (s.threads u).place = some b →
    t = u
  header : ∀ b ∈ blocks s, (∃ t, storing (s.threads t).place = some b) ∨
    recorded s.shared.mem b.ptr = b.size
  returned : ∀ t ptr, .ret t ptr ∈ s.trace → ptr ≠ 0 → ∃ b ∈ blocks s, b.ptr = ptr ∧
    ∀ u, storing (s.threads u).place ≠ some b

section Kept

variable {bottom : UInt64} {s : State T} {b c : Live}

theorem apart_of_regions (h : RegionStack.Apart (region b) (region c))
    (hb : (region b).2 ≤ 2 ^ 64) (hc : (region c).2 ≤ 2 ^ 64) :
    BlockBytes.Apart b.size b.ptr c.size c.ptr := by
  have hin : ∀ {d : Live} {a : UInt64}, (region d).2 ≤ 2 ^ 64 → InBlock d.size d.ptr a →
      a.toNat ∈ Set.Ico (region d).1 (region d).2 := by
    intro d a hd ha
    rw [InBlock, UInt64.toNat_sub] at ha
    simp only [region, Block.region] at hd ⊢
    have halt := a.toNat_lt
    have hdlt := (getMeta d.ptr).toNat_lt
    constructor <;> omega
  intro a ha ha'
  exact Set.disjoint_left.mp h (hin hb ha) (hin hc ha')

theorem Kept.region_le (hk : Kept bottom s) (hb : b ∈ blocks s) :
    (region b).2 ≤ s.shared.brk.toNat ∧ (region b).2 ≤ 2 ^ 64 := by
  have hle := (hk.stacked.inside _ (List.mem_map_of_mem hb)).2
  exact ⟨hle, le_trans hle (le_of_lt s.shared.brk.toNat_lt)⟩

theorem Kept.apart (hk : Kept bottom s) (hb : b ∈ blocks s) (hc : c ∈ blocks s) (hne : b ≠ c) :
    BlockBytes.Apart b.size b.ptr c.size c.ptr := by
  have hpair := List.pairwise_map.mp hk.stacked.apart
  have : Std.Symm fun b c => RegionStack.Apart (region b) (region c) := ⟨fun _ _ h => h.symm⟩
  have hregions := hpair.forall hb hc hne
  exact apart_of_regions hregions (hk.region_le hb).2 (hk.region_le hc).2

/-- A block at the break is new. -/
theorem Kept.not_mem (hk : Kept bottom s) (size : UInt64) :
    (⟨getData s.shared.brk, size⟩ : Live) ∉ blocks s := by
  intro hmem
  have hle := (hk.region_le hmem).1
  have h8 : metadataSize.toNat = 8 := rfl
  simp only [region, Block.region, getMeta_getData] at hle
  omega

end Kept

section Step

variable [DecidableEq T] {bottom : UInt64} {s s' : State T} {t : T} {g : Shared} {th : Thread}
  {es : List (MallocThreads.Event T)}

omit [DecidableEq T] in
theorem blocks_append {l : List (MallocThreads.Event T)} :
    ((l ++ es).filterMap carved).reverse =
      (es.filterMap carved).reverse ++ (l.filterMap carved).reverse := by
  rw [List.filterMap_append, List.reverse_append]

theorem blocks_moved : blocks (moved s t g th es) = (es.filterMap carved).reverse ++ blocks s :=
  blocks_append

theorem place_moved (u : T) : ((moved s t g th es).threads u).place =
    if u = t then th.place else (s.threads u).place := by
  split
  · rename_i hu
    rw [hu, moved_self]
  · rename_i hu
    rw [moved_of_ne hu]

theorem storing_moved_same (h : storing th.place = storing (s.threads t).place) (u : T) :
    storing ((moved s t g th es).threads u).place = storing (s.threads u).place := by
  rw [place_moved]
  split
  · rename_i hu
    rw [h, hu]
  · rfl

theorem sized_moved (hk : Kept bottom s) (hsized : Sized th.place) (u : T) :
    Sized ((moved s t g th es).threads u).place := by
  rw [place_moved]
  split
  · exact hsized
  · exact hk.sized u

theorem kept_silent (hk : Kept bottom s) (hsized : Sized th.place)
    (hbrk : g.brk = s.shared.brk) (hmem : g.mem = s.shared.mem)
    (hstoring : storing th.place = storing (s.threads t).place)
    (hcarved : ∀ e ∈ es, carved e = none)
    (hret : ∀ u ptr, .ret u ptr ∈ es → ptr = 0) : Kept bottom (moved s t g th es) := by
  have hblocks : blocks (moved s t g th es) = blocks s := by
    rw [blocks_moved, List.filterMap_eq_nil_iff.mpr hcarved]
    rfl
  have hsame : ∀ u, storing ((moved s t g th es).threads u).place =
      storing (s.threads u).place := storing_moved_same hstoring
  refine ⟨hbrk ▸ hk.low, sized_moved hk hsized, ?_, ?_, ?_, ?_, ?_⟩
  · rw [hblocks, moved_shared, hbrk]
    exact hk.stacked
  · intro u b hb
    rw [hsame] at hb
    rw [hblocks]
    exact hk.held u b hb
  · intro u w b hu hw
    rw [hsame] at hu hw
    exact hk.alone u w b hu hw
  · intro b hb
    rw [hblocks] at hb
    simp only [hsame, moved_shared, hmem]
    exact hk.header b hb
  · intro u ptr hmem' hne
    rcases List.mem_append.mp hmem' with hold | hnew
    · simp only [hblocks, hsame]
      exact hk.returned u ptr hold hne
    · exact absurd (hret u ptr hnew) hne

/-- The new block is put on top. Its thread stores the size later. -/
theorem kept_carve (hk : Kept bottom s) (hsized : Sized th.place) (size : UInt64)
    (hidle : storing (s.threads t).place = none)
    (hroom : s.shared.brk.toNat + metadataSize.toNat + size.toNat ≤ lastAddress.toNat)
    (hstoring : storing th.place = some ⟨getData s.shared.brk, size⟩) :
    Kept bottom (moved s t { s.shared with brk := s.shared.brk + (size + metadataSize) } th
      [.point t size true (getData s.shared.brk)]) := by
  have h8 : metadataSize.toNat = 8 := rfl
  have hlast : lastAddress.toNat = 2 ^ 64 - 4096 := rfl
  have hnext : (s.shared.brk + (size + metadataSize)).toNat =
      s.shared.brk.toNat + metadataSize.toNat + size.toNat := by
    rw [UInt64.toNat_add, UInt64.toNat_add]
    omega
  have hnull : getData s.shared.brk ≠ 0 := getData_ne_zero hk.low
  have hcarved : carved (.point t size true (getData s.shared.brk)) =
      some ⟨getData s.shared.brk, size⟩ := if_neg hnull
  have hblocks : blocks (moved s t { s.shared with brk := s.shared.brk + (size + metadataSize) } th
      [.point t size true (getData s.shared.brk)]) =
        ⟨getData s.shared.brk, size⟩ :: blocks s := by
    rw [blocks_moved, List.filterMap_cons_some hcarved]
    rfl
  have hnew := hk.not_mem size
  have hcases : ∀ {u b}, storing ((moved s t
      { s.shared with brk := s.shared.brk + (size + metadataSize) } th
      [.point t size true (getData s.shared.brk)]).threads u).place = some b →
      u = t ∧ b = ⟨getData s.shared.brk, size⟩ ∨
        u ≠ t ∧ storing (s.threads u).place = some b := by
    intro u b hb
    rw [place_moved] at hb
    split at hb
    · rename_i hu
      exact .inl ⟨hu, Option.some.inj (hb.symm.trans hstoring)⟩
    · rename_i hu
      exact .inr ⟨hu, hb⟩
  refine ⟨?_, sized_moved hk hsized, ?_, ?_, ?_, ?_, ?_⟩
  · rw [UInt64.le_iff_toNat_le]
    exact hnext ▸ hroom
  · rw [hblocks, List.map_cons]
    have hregion : region ⟨getData s.shared.brk, size⟩ =
        (s.shared.brk.toNat, (s.shared.brk + (size + metadataSize)).toNat) := by
      rw [region, Block.region, getMeta_getData, hnext]
    rw [hregion]
    have hle : s.shared.brk.toNat ≤ (s.shared.brk + (size + metadataSize)).toNat := by omega
    exact hk.stacked.push hle
  · intro u b hb
    rw [hblocks]
    rcases hcases hb with ⟨_, rfl⟩ | ⟨_, hold⟩
    · exact List.mem_cons_self
    · exact List.mem_cons_of_mem _ (hk.held u b hold)
  · intro u w b hu hw
    rcases hcases hu with ⟨hut, rfl⟩ | ⟨_, hold⟩
    · rcases hcases hw with ⟨hwt, _⟩ | ⟨_, hold'⟩
      · exact hut.trans hwt.symm
      · exact absurd (hk.held w _ hold') hnew
    · rcases hcases hw with ⟨_, rfl⟩ | ⟨_, hold'⟩
      · exact absurd (hk.held u _ hold) hnew
      · exact hk.alone u w b hold hold'
  · intro b hb
    rw [hblocks] at hb
    rcases List.mem_cons.mp hb with rfl | hold
    · refine .inl ⟨t, ?_⟩
      rw [moved_self]
      exact hstoring
    · rcases hk.header b hold with ⟨u, hu⟩ | hrec
      · have hut : u ≠ t := by
          rintro rfl
          rw [hidle] at hu
          cases hu
        exact .inl ⟨u, by rwa [moved_of_ne hut]⟩
      · exact .inr hrec
  · intro u ptr hmem hne
    rcases List.mem_append.mp hmem with hold | hpoint
    · obtain ⟨b, hb, hptr, hout⟩ := hk.returned u ptr hold hne
      rw [hblocks]
      refine ⟨b, List.mem_cons_of_mem _ hb, hptr, fun w hw => ?_⟩
      rcases hcases hw with ⟨_, rfl⟩ | ⟨_, hw⟩
      · exact hnew hb
      · exact hout w hw
    · cases List.mem_singleton.mp hpoint

/-- A thread stores the size of its own block, and the headers of the others stay. -/
theorem kept_store (hk : Kept bottom s) (hsized : Sized th.place) (size ret : UInt64)
    (hbusy : storing (s.threads t).place = some ⟨getData ret, size⟩)
    (hidle : storing th.place = none) :
    Kept bottom (moved s t { s.shared with mem := BreakHeap.storeSize s.shared.mem ret size } th
      [.ret t (getData ret)]) := by
  have hblock := hk.held t _ hbusy
  have hcases : ∀ {u b}, storing ((moved s t
      { s.shared with mem := BreakHeap.storeSize s.shared.mem ret size } th
      [.ret t (getData ret)]).threads u).place = some b →
      u ≠ t ∧ storing (s.threads u).place = some b := by
    intro u b hb
    rw [place_moved] at hb
    split at hb
    · rw [hidle] at hb
      cases hb
    · rename_i hu
      exact ⟨hu, hb⟩
  refine ⟨hk.low, sized_moved hk hsized, ?_, ?_, ?_, ?_, ?_⟩
  · rw [blocks_moved]
    exact hk.stacked
  · intro u b hb
    rw [blocks_moved]
    exact hk.held u b (hcases hb).2
  · intro u w b hu hw
    exact hk.alone u w b (hcases hu).2 (hcases hw).2
  · intro b hb
    rw [blocks_moved] at hb
    by_cases heq : b = ⟨getData ret, size⟩
    · subst heq
      refine .inr ?_
      rw [moved_shared, recorded, getMeta_getData]
      exact loadSize_storeSize s.shared.mem ret size
    · rcases hk.header b hb with ⟨u, hu⟩ | hrec
      · have hut : u ≠ t := by
          rintro rfl
          exact heq (Option.some.inj (hu.symm.trans hbusy))
        exact .inl ⟨u, by rwa [moved_of_ne hut]⟩
      · have hsame : SameBlock s.shared.mem _ b.size b.ptr :=
          sameBlock_storeSize (hk.apart hblock hb (Ne.symm heq)) size
        rw [getMeta_getData] at hsame
        exact .inr (hsame.recorded_eq.trans hrec)
  · intro u ptr hmem hne
    rw [blocks_moved]
    rcases List.mem_append.mp hmem with hold | hnew
    · obtain ⟨b, hb, hptr, hout⟩ := hk.returned u ptr hold hne
      exact ⟨b, hb, hptr, fun w hw => hout w (hcases hw).2⟩
    · obtain ⟨rfl, rfl⟩ := Linearization.Event.ret.inj (List.mem_singleton.mp hnew)
      refine ⟨_, hblock, rfl, fun w hw => ?_⟩
      obtain ⟨hwt, hw⟩ := hcases hw
      exact hwt (hk.alone w u _ hw hbusy)

omit [DecidableEq T] in
/-- A write to the data of a block does not reach a header. -/
theorem kept_write (hk : Kept bottom s) {b : Live} (hb : b ∈ blocks s) {addr : UInt64}
    (haddr : addr - b.ptr < b.size) (v : UInt8) :
    Kept bottom { s with shared := { s.shared with mem := setByte s.shared.mem addr v } } := by
  have hi : (addr - b.ptr).toNat < b.size.toNat := UInt64.lt_iff_toNat_lt.mp haddr
  have hdata : addr = b.ptr + .ofNat (addr - b.ptr).toNat := by
    rw [UInt64.ofNat_toNat, UInt64.add_comm, UInt64.sub_add_cancel]
  generalize (addr - b.ptr).toNat = i at hi hdata
  subst hdata
  refine ⟨hk.low, hk.sized, hk.stacked, hk.held, hk.alone, fun c hc => ?_, hk.returned⟩
  refine (hk.header c hc).imp_right fun hrec => ?_
  refine (loadSize_congr fun j hj => if_neg fun heq => ?_).trans hrec
  by_cases hbc : b = c
  · subst hbc
    have hle := (hk.region_le hb).2
    have h8 : metadataSize.toNat = 8 := rfl
    simp only [region, Block.region] at hle
    exact data_ne_header (by omega) hj heq.symm
  · exact hk.apart hb hc hbc _ (inBlock_data hi) (heq ▸ inBlock_header hj)

theorem kept_step {p₀ : Process} {a : Act T} (hi : Inv p₀ s) (hk : Kept bottom s)
    (hpolite : Polite s a) (h : step s a = some s') : Kept bottom s' := by
  cases a with
  | call t size =>
    obtain ⟨huser, rfl⟩ := step_call h
    refine kept_silent hk hpolite rfl rfl ?_ ?_ ?_
    · rw [huser]
      rfl
    · simp [carved]
    · simp
  | write t addr v =>
    obtain ⟨_, rfl⟩ := step_write h
    obtain ⟨b, hb, haddr⟩ := hpolite
    exact kept_write hk hb haddr v
  | go t grant =>
    obtain ⟨g, th, es, hadv, rfl⟩ := step_go h
    obtain ⟨hsized, hmove⟩ := advance_move hadv (hi.ready t) (hk.sized t) hk.low hpolite
    cases hmove with
    | silent hbrk hmem hstoring hcarved hret =>
      exact kept_silent hk hsized hbrk hmem hstoring hcarved hret
    | carve size hidle hroom hstoring => exact kept_carve hk hsized size hidle hroom hstoring
    | store size ret hbusy hidle => exact kept_store hk hsized size ret hbusy hidle

omit [DecidableEq T] in
theorem kept_initial {brk : UInt64} (hlow : brk ≤ lastAddress) (mem : UInt64 → UInt8) :
    Kept brk (initial T brk mem) where
  low := hlow
  sized _ := trivial
  stacked := stacked_nil (le_refl _)
  held _ _ hb := by cases hb
  alone _ _ _ hb := by cases hb
  header _ hb := absurd hb List.not_mem_nil
  returned _ _ hmem := absurd hmem List.not_mem_nil

theorem kept_of_exec {p₀ : Process} (hi : Inv p₀ s) (hk : Kept bottom s) {acts : List (Act T)}
    (hquiet : Along step QuietInit s acts) (hpolite : Along step Polite s acts)
    (h : exec step s acts = some s') : Kept bottom s' := by
  have hboth : Inv p₀ s' ∧ Kept bottom s' :=
    inv_of_exec (I := fun s => Inv p₀ s ∧ Kept bottom s)
      (fun s a s' hi hq hs => ⟨inv_step hi.1 hq.1 hs, kept_step hi.1 hi.2 hq.2 hs⟩)
      ⟨hi, hk⟩ (hquiet.and hpolite) h
  exact hboth.2

end Step

/-- However the threads interleave: all blocks handed out lie apart between the first break and
the present one. The size is in front of every block that a call has returned. -/
theorem blocks_of_threads [DecidableEq T] (brk : UInt64) (mem : UInt64 → UInt8)
    (boot acts : List (Act T)) (s₀ s : State T) (hlow : brk ≤ lastAddress)
    (hup : StartsUp brk mem boot s₀) (hboot : Along step Polite (initial T brk mem) boot)
    (hacts : Along step Polite s₀ acts) (h : exec step s₀ acts = some s) :
    Stacked brk.toNat s.shared.brk.toNat ((blocks s).map region) ∧
      ∀ t ptr, .ret t ptr ∈ s.trace → ptr ≠ 0 →
        ∃ b ∈ blocks s, b.ptr = ptr ∧ recorded s.shared.mem ptr = b.size := by
  have hquiet := hup.quiet
  have hinv := hup.inv
  have hstarted := hup.started
  obtain ⟨_, _, _, _, _, _, hexec, _⟩ := hup
  have hk₀ : Kept brk s₀ :=
    kept_of_exec (inv_initial brk mem) (kept_initial hlow mem) hquiet hboot hexec
  have hk : Kept brk s := kept_of_exec hinv hk₀ (hstarted.along_quiet acts) hacts h
  refine ⟨hk.stacked, fun t ptr hmem hne => ?_⟩
  obtain ⟨b, hb, rfl, hout⟩ := hk.returned t ptr hmem hne
  refine ⟨b, hb, rfl, (hk.header b hb).resolve_left ?_⟩
  rintro ⟨u, hu⟩
  exact hout u hu

/-- Thread 1 gets a block and fills its first bytes while thread 0 gets another one. -/
def fillsBlock (t u : Fin 2) : List (Act (Fin 2)) :=
  bothCall t u ++ [.write t 0x10250 255, .call u 8, .write t 0x10251 255] ++ goes u 7

theorem blocks_of_threads_two : ∃ s : State (Fin 2),
    blocks s = [⟨0x102dc, 8⟩, ⟨0x10270, 100⟩, ⟨0x10250, 24⟩, ⟨0x10008, 576⟩] ∧
      Stacked 0x10000 s.shared.brk.toNat ((blocks s).map region) ∧
      ∀ t ptr, .ret t ptr ∈ s.trace → ptr ≠ 0 →
        ∃ b ∈ blocks s, b.ptr = ptr ∧ recorded s.shared.mem ptr = b.size := by
  obtain ⟨s₀, hexec₀, hup⟩ := startsUp_two
  have hboot : Along step Polite (initial (Fin 2) 0x10000 fun _ => 0) (startupActs 0) := by
    decide +kernel
  have hacts : (exec step (initial (Fin 2) 0x10000 fun _ => 0) (startupActs 0)).map
      (fun s => decide (Along step Polite s (fillsBlock 1 0))) = some true := by decide +kernel
  have hblocks : ((exec step (initial (Fin 2) 0x10000 fun _ => 0) (startupActs 0)).bind
      (fun s => exec step s (fillsBlock 1 0))).map blocks =
      some [⟨0x102dc, 8⟩, ⟨0x10270, 100⟩, ⟨0x10250, 24⟩, ⟨0x10008, 576⟩] := by decide +kernel
  rw [hexec₀, Option.map_some, Option.some_inj] at hacts
  rw [hexec₀, Option.bind_some] at hblocks
  obtain ⟨s, hexec, hs⟩ := Option.map_eq_some_iff.mp hblocks
  exact ⟨s, hs, blocks_of_threads 0x10000 (fun _ => 0) (startupActs 0) (fillsBlock 1 0) s₀ s
    (by decide) hup hboot (of_decide_eq_true hacts) hexec⟩

section SecondInit

variable [DecidableEq T] {s s' s'' : State T} {t u : T} {size : UInt64}

/-- A run that leaves thread `u` where it is, the break and the trace. -/
structure Quietly (u : T) (s s' : State T) : Prop where
  run : ∃ acts, exec step s acts = some s'
  other : s'.threads u = s.threads u
  brk : s'.shared.brk = s.shared.brk
  trace : s'.trace = s.trace

theorem Quietly.trans (h : Quietly u s s') (h' : Quietly u s' s'') : Quietly u s s'' := by
  obtain ⟨acts, hrun⟩ := h.run
  obtain ⟨acts', hrun'⟩ := h'.run
  refine ⟨⟨acts ++ acts', ?_⟩, h'.other.trans h.other, h'.brk.trans h.brk,
    h'.trace.trans h.trace⟩
  rw [exec_append, hrun]
  exact hrun'

theorem step_of_advance {grant : Bool} {g : Shared} {th : Thread}
    {es : List (MallocThreads.Event T)}
    (h : advance t grant s.shared (s.threads t) = some (g, th, es)) :
    step s (.go t grant) = some (moved s t g th es) := by
  rw [step, h]
  rfl

theorem quietly_of_advance {g : Shared} {th : Thread}
    (h : advance t true s.shared (s.threads t) = some (g, th, [])) (hu : u ≠ t)
    (hbrk : g.brk = s.shared.brk) : Quietly u s (moved s t g th []) where
  run := ⟨[.go t true], by rw [exec_cons, step_of_advance h]; rfl⟩
  other := moved_of_ne hu
  brk := hbrk
  trace := List.append_nil _

theorem quietly_refl (u : T) (s : State T) : Quietly u s s := ⟨⟨[], rfl⟩, rfl, rfl, rfl⟩

/-- A thread in `sbrk` asks where the break is. -/
theorem asks_brk (ht : (s.threads t).place = .readBreak size) (hu : u ≠ t)
    (hsized : metadataSize.toNat + size.toNat < 2 ^ 64) (hlow : s.shared.brk ≤ lastAddress) :
    ∃ s', Quietly u s s' ∧ (s'.threads t).place = .moveBreak size s.shared.brk := by
  obtain ⟨hcur, _⟩ := syscall1Brk_ask (s.shared.proc (s.threads t))
  have hadv : advance t true s.shared (s.threads t) = some (s.shared,
      ⟨.moveBreak size s.shared.brk, (syscall1Brk 0 false (s.shared.proc (s.threads t))).2.errno⟩,
      []) := by
    simp only [advance, ht, if_neg (increment_ne_zero hsized), hcur]
    rw [show (s.shared.proc (s.threads t)).brk = s.shared.brk from rfl, reported_of_le hlow]
  refine ⟨_, quietly_of_advance hadv hu rfl, ?_⟩
  rw [moved_self]

/-- From `mtx_init` a thread walks to `brk`, whoever is there. -/
theorem walks_to_brk (ht : (s.threads t).place = .initMtx size) (hu : u ≠ t)
    (hsized : metadataSize.toNat + size.toNat < 2 ^ 64) (hlow : s.shared.brk ≤ lastAddress) :
    ∃ s', Quietly u s s' ∧ (s'.threads t).place = .moveBreak size s.shared.brk := by
  have h₁ : advance t true s.shared (s.threads t) =
      some ({ s.shared with mallocMtx := false }, (s.threads t).at (.storeInit size), []) := by
    simp only [advance, ht]
  have q₁ := quietly_of_advance h₁ hu rfl
  generalize hs₁ : moved s t _ _ [] = s₁ at q₁
  have h₂ : advance t true s₁.shared (s₁.threads t) =
      some ({ s₁.shared with mallocMtxInit := true }, (s₁.threads t).at (.clearFlag size), []) := by
    simp only [advance, ← hs₁, moved_self, place_at]
  have q₂ := quietly_of_advance h₂ hu rfl
  generalize hs₂ : moved s₁ t _ _ [] = s₂ at q₂
  have h₃ : advance t true s₂.shared (s₂.threads t) =
      some ({ s₂.shared with mallocMtxFlag := false }, (s₂.threads t).at (.lockMtx size), []) := by
    simp only [advance, ← hs₂, moved_self, place_at]
  have q₃ := quietly_of_advance h₃ hu rfl
  generalize hs₃ : moved s₂ t _ _ [] = s₃ at q₃
  have hfree : s₃.shared.mallocMtx = false := by rw [← hs₃, ← hs₂, ← hs₁]; rfl
  have h₄ : advance t true s₃.shared (s₃.threads t) =
      some ({ s₃.shared with mallocMtx := true }, (s₃.threads t).at (.readBreak size), []) := by
    simp only [advance, ← hs₃, moved_self, place_at]
    rw [hs₃, hfree]
    rfl
  have q₄ := quietly_of_advance h₄ hu rfl
  generalize hs₄ : moved s₃ t _ _ [] = s₄ at q₄
  have hplace : (s₄.threads t).place = .readBreak size := by rw [← hs₄, moved_self]; rfl
  have q := ((q₁.trans q₂).trans q₃).trans q₄
  obtain ⟨s₅, q₅, hs₅⟩ := asks_brk hplace hu hsized (q.brk ▸ hlow)
  exact ⟨s₅, q.trans q₅, q.brk ▸ hs₅⟩

/-- The kernel moves the break for a thread, from where that thread has found it. -/
theorem carves {curBreak : UInt64} (ht : (s.threads t).place = .moveBreak size curBreak)
    (hroom : curBreak.toNat + metadataSize.toNat + size.toNat ≤ lastAddress.toNat) (hu : u ≠ t) :
    ∃ s', step s (.go t true) = some s' ∧ s'.threads u = s.threads u ∧
      s'.trace = s.trace ++ [.point t size true (getData curBreak)] :=
  ⟨_, step_of_advance (advance_granted ht hroom), moved_of_ne hu, rfl⟩

/-- Where `mtx_init` does find a thread in `sbrk`, the run can go on so that both threads get the
same block. -/
theorem init_doubles_block (brk : UInt64) (mem : UInt64 → UInt8) (acts : List (Act T))
    (s : State T) (t u : T) (size₁ size₂ : UInt64)
    (hquiet : Along step QuietInit (initial T brk mem) acts)
    (h : exec step (initial T brk mem) acts = some s)
    (ht : (s.threads t).place = .initMtx size₁)
    (hu : (s.threads u).place = .readBreak size₂ ∨
      ∃ curBreak, (s.threads u).place = .moveBreak size₂ curBreak)
    (hroom₁ : s.shared.brk.toNat + metadataSize.toNat + size₁.toNat ≤ lastAddress.toNat)
    (hroom₂ : s.shared.brk.toNat + metadataSize.toNat + size₂.toNat ≤ lastAddress.toNat) :
    ∃ more s' ptr, exec step (initial T brk mem) (acts ++ more) = some s' ∧ ptr ≠ 0 ∧
      s'.trace = s.trace ++ [.point u size₂ true ptr, .point t size₁ true ptr] := by
  have hlast : lastAddress.toNat = 2 ^ 64 - 4096 := rfl
  have hlow : s.shared.brk ≤ lastAddress := by
    rw [UInt64.le_iff_toNat_le]
    omega
  have hinv := inv_of_exec (fun _ _ _ hi hq hs => inv_step hi hq hs) (inv_initial brk mem) hquiet h
  have hut : u ≠ t := by
    rintro rfl
    rw [ht] at hu
    rcases hu with hu | ⟨_, hu⟩ <;> cases hu
  obtain ⟨s₁, q₁, ht₁⟩ := walks_to_brk ht hut (by omega) hlow
  -- thread u has found the same break, or it finds it now
  have hfound : ∃ s₂, Quietly t s₁ s₂ ∧ (s₂.threads u).place = .moveBreak size₂ s.shared.brk := by
    rcases hu with hu | ⟨curBreak, hu⟩
    · have hu₁ : (s₁.threads u).place = .readBreak size₂ := q₁.other ▸ hu
      obtain ⟨s₂, q₂, hu₂⟩ := asks_brk hu₁ hut.symm (by omega) (q₁.brk ▸ hlow)
      exact ⟨s₂, q₂, q₁.brk ▸ hu₂⟩
    · refine ⟨s₁, quietly_refl t s₁, ?_⟩
      have hready := hinv.ready u
      rw [hu] at hready
      rw [q₁.other, hu, hready.2.2, reported_of_le hlow]
  obtain ⟨s₂, q₂, hu₂⟩ := hfound
  have ht₂ : (s₂.threads t).place = .moveBreak size₁ s.shared.brk := q₂.other ▸ ht₁
  obtain ⟨s₃, h₃, ht₃, htrace₃⟩ := carves hu₂ hroom₂ hut.symm
  obtain ⟨s₄, h₄, _, htrace₄⟩ := carves (ht₃ ▸ ht₂) hroom₁ hut
  obtain ⟨acts₁, hrun₁⟩ := q₁.run
  obtain ⟨acts₂, hrun₂⟩ := q₂.run
  refine ⟨acts₁ ++ acts₂ ++ [.go u true, .go t true], s₄, getData s.shared.brk, ?_,
    getData_ne_zero hlow, ?_⟩
  · rw [exec_append, h, Option.bind_some, exec_append, exec_append, hrun₁, Option.bind_some, hrun₂,
      Option.bind_some, exec_cons, h₃, Option.bind_some, exec_cons, h₄]
    rfl
  · rw [htrace₄, htrace₃, q₂.trace, q₁.trace, List.append_assoc]
    rfl

end SecondInit

/-- Thread `t` has found `malloc_mtx_init` unset. Thread `u` initializes the lock, takes it and is
in `sbrk`. Then thread `t` comes to the initialization. -/
def initWaits (t u : Fin 2) : List (Act (Fin 2)) :=
  [.call t 24] ++ goes t 2 ++ [.call u 100] ++ goes u 7 ++ goes t 1

theorem init_doubles_block_two : ∃ more, ∃ s' : State (Fin 2), ∃ ptr,
    exec step (initial (Fin 2) 0x10000 fun _ => 0) (initWaits 0 1 ++ more) = some s' ∧ ptr ≠ 0 ∧
      Linearization.points s'.trace = [(100, true, ptr), (24, true, ptr)] := by
  have hquiet : Along step QuietInit (initial (Fin 2) 0x10000 fun _ => 0) (initWaits 0 1) := by
    decide +kernel
  have hrun : (exec step (initial (Fin 2) 0x10000 fun _ => 0) (initWaits 0 1)).map (fun s =>
      ([(s.threads 0).place, (s.threads 1).place], s.shared.brk,
        Linearization.points s.trace)) =
      some ([.initMtx 24, .readBreak 100], 0x10000, []) := by decide +kernel
  obtain ⟨s, hexec, hs⟩ := Option.map_eq_some_iff.mp hrun
  obtain ⟨hplaces, hs⟩ := Prod.mk.inj hs
  obtain ⟨hbrk, hpoints⟩ := Prod.mk.inj hs
  obtain ⟨ht, hplaces⟩ := List.cons.inj hplaces
  obtain ⟨hu, _⟩ := List.cons.inj hplaces
  obtain ⟨more, s', ptr, hexec', hne, htrace⟩ := init_doubles_block 0x10000 (fun _ => 0)
    (initWaits 0 1) s 0 1 24 100 hquiet hexec ht (.inl hu) (by rw [hbrk]; decide)
    (by rw [hbrk]; decide)
  refine ⟨more, s', ptr, hexec', hne, ?_⟩
  rw [htrace, Linearization.points_append, hpoints]
  rfl

end MallocBlocks
