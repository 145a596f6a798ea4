import Libdeepc.Memory
import Libdeepc.RangeOrder

/-!
# Sorting and searching arrays

`qsort` and `bsearch` on bytes in memory, with a comparator that is given the
bytes of two elements. The array lies in the address space, so the sizes and
pointers do not wrap. `none` is an access outside memory or fuel that ran out.
-/

namespace ArraySort

open Memory RangeOrder

section Code

variable (comp : List UInt8 → List UInt8 → Int) (size : Nat)

/-- Two elements change places through a buffer; `memcpy` wants them apart. -/
def swap (mem : Mem) (a b : Nat) : Option Mem :=
  if a = b then some mem
  else if a < b + size ∧ b < a + size then none
  else
    (load mem a size).bind fun buf =>
    (load mem b size).bind fun bs =>
    (store mem a bs).bind fun mem =>
    store mem b buf

/-- The `for` loop of `qsort`. -/
def partitionLoop (pivot : Nat) : Nat → Mem → Nat → Nat → Option (Mem × Nat)
  | 0, _, _, _ => none
  | fuel + 1, mem, i, rightSide =>
    if i < pivot then
      (load mem i size).bind fun x =>
      (load mem pivot size).bind fun y =>
        if comp x y < 0 then
          (swap size mem i rightSide).bind fun mem =>
            partitionLoop pivot fuel mem (i + size) (rightSide + size)
        else partitionLoop pivot fuel mem (i + size) rightSide
    else some (mem, rightSide)

def qsortRec : Nat → Mem → Nat → Nat → Option Mem
  | 0, _, _, _ => none
  | fuel + 1, mem, arr, count =>
    if count ≤ 1 then some mem
    else
      let pivot := arr + (count - 1) * size
      (partitionLoop comp size pivot count mem arr arr).bind fun r =>
      (swap size r.1 r.2 pivot).bind fun mem =>
        let rightSide := r.2 + size
        let leftCount := (rightSide - arr) / size - 1
        (qsortRec fuel mem arr leftCount).bind fun mem =>
          qsortRec fuel mem rightSide (count - leftCount - 1)

/-- Each call sorts fewer elements than its caller. -/
def qsort (mem : Mem) (arr count : Nat) : Option Mem :=
  qsortRec comp size (count + 1) mem arr count

/-- The result of `bsearch`, `none` for `NULL`, and the elements it has compared with the key. -/
structure Search where
  ret : Option Nat
  compared : List Nat

def bsearchLoop (mem : Mem) (key arr : Nat) : Nat → Nat → Nat → Option Search
  | 0, _, _ => none
  | fuel + 1, min, max =>
    if min < max then
      let mid := (max - min) / 2 + min
      let midPtr := arr + mid * size
      (load mem midPtr size).bind fun x =>
      (load mem key size).bind fun k =>
        let c := comp x k
        if c < 0 then
          (bsearchLoop mem key arr fuel (mid + 1) max).map fun s =>
            { s with compared := midPtr :: s.compared }
        else if c > 0 then
          (bsearchLoop mem key arr fuel min mid).map fun s =>
            { s with compared := midPtr :: s.compared }
        else some { ret := some midPtr, compared := [midPtr] }
    else some { ret := none, compared := [] }

/-- Each round leaves fewer elements. -/
def bsearch (mem : Mem) (key arr count : Nat) : Option Search :=
  bsearchLoop comp size mem key arr (count + 1) 0 count

end Code

section Elements

variable {mem mem' : Mem} {arr size count : Nat} {f g : Nat → List UInt8} {i j : Nat}

/-- The elements of the array at `arr`. -/
def Holds (mem : Mem) (arr size count : Nat) (f : Nat → List UInt8) : Prop :=
  ∀ i, i < count → load mem (arr + i * size) size = some (f i)

/-- Only the array has changed. -/
def SameOutside (mem mem' : Mem) (arr length : Nat) : Prop :=
  ∀ a, a < arr ∨ arr + length ≤ a → mem' a = mem a

theorem SameOutside.refl (mem : Mem) (arr length : Nat) : SameOutside mem mem arr length :=
  fun _ _ => rfl

theorem SameOutside.trans {mem₁ mem₂ mem₃ : Mem} {length : Nat}
    (h₁ : SameOutside mem₁ mem₂ arr length) (h₂ : SameOutside mem₂ mem₃ arr length) :
    SameOutside mem₁ mem₃ arr length :=
  fun a ha => (h₂ a ha).trans (h₁ a ha)

theorem length_of_load {p n : Nat} {bs : List UInt8} (h : load mem p n = some bs) :
    bs.length = n := by
  induction n generalizing p bs with
  | zero => rw [← Option.some.inj h, List.length_nil]
  | succ n ih =>
    obtain ⟨b, _, hrest⟩ := Option.bind_eq_some_iff.mp h
    obtain ⟨cs, hcs, heq⟩ := Option.bind_eq_some_iff.mp hrest
    rw [← Option.some.inj heq, List.length_cons, ih hcs]

/-- Different elements do not overlap. -/
theorem apart_of_ne (hij : i ≠ j) : i * size + size ≤ j * size ∨ j * size + size ≤ i * size := by
  rcases Nat.lt_or_gt_of_ne hij with hlt | hgt
  · left
    rw [← Nat.succ_mul]
    exact Nat.mul_le_mul_right size hlt
  · right
    rw [← Nat.succ_mul]
    exact Nat.mul_le_mul_right size hgt

theorem mul_add_le (hi : i < count) : i * size + size ≤ count * size := by
  rw [← Nat.succ_mul]
  exact Nat.mul_le_mul_right size hi

/-- A store over one element. -/
theorem store_element (hm : Holds mem arr size count f) (hi : i < count) {bs : List UInt8}
    (hbs : bs.length = size) : ∃ mem', store mem (arr + i * size) bs = some mem' ∧
      Holds mem' arr size count (Function.update f i bs) ∧
      SameOutside mem mem' arr (count * size) := by
  have hload : (load mem (arr + i * size) size).isSome := by
    rw [hm i hi]
    rfl
  obtain ⟨mem', hstore⟩ := exists_store_of_load hload (Nat.le_of_eq hbs)
  refine ⟨mem', hstore, fun k hk => ?_, fun a ha => ?_⟩
  · by_cases hki : k = i
    · have hself := load_store_self hstore
      rw [hbs] at hself
      rw [hki, Function.update_self, hself]
    · rw [Function.update_of_ne hki, ← hm k hk]
      refine load_congr fun n hn => ?_
      rw [store_apply hstore, if_neg]
      have : k * size + size ≤ i * size ∨ i * size + size ≤ k * size := apart_of_ne hki
      omega
  · rw [store_apply hstore, if_neg]
    have : i * size + size ≤ count * size := mul_add_le hi
    omega

theorem swap_spec (hm : Holds mem arr size count f) (hi : i < count) (hj : j < count)
    (hsize : 0 < size) : ∃ mem', swap size mem (arr + i * size) (arr + j * size) = some mem' ∧
      Holds mem' arr size count (f ∘ Equiv.swap i j) ∧
      SameOutside mem mem' arr (count * size) := by
  by_cases hij : i = j
  · refine ⟨mem, by rw [swap, if_pos (by rw [hij])], ?_, fun _ _ => rfl⟩
    rw [hij, Equiv.swap_self]
    exact hm
  have hapart : i * size + size ≤ j * size ∨ j * size + size ≤ i * size := apart_of_ne hij
  obtain ⟨mem₁, hstore₁, hm₁, hout₁⟩ := store_element hm hi (length_of_load (hm j hj))
  obtain ⟨mem₂, hstore₂, hm₂, hout₂⟩ := store_element hm₁ hj (length_of_load (hm i hi))
  refine ⟨mem₂, ?_, ?_, fun a ha => (hout₂ a ha).trans (hout₁ a ha)⟩
  · rw [swap, if_neg (by omega), if_neg (by omega), hm i hi, Option.bind_some, hm j hj,
      Option.bind_some, hstore₁, Option.bind_some, hstore₂]
  · have hswap : f ∘ Equiv.swap i j = Function.update (Function.update f i (f j)) j (f i) := by
      funext k
      rw [Function.comp_apply, Function.update_apply, Function.update_apply, Equiv.swap_apply_def]
      by_cases hkj : k = j
      · by_cases hki : k = i
        · exact absurd (hki.symm.trans hkj) hij
        · rw [if_neg hki, if_pos hkj, if_pos hkj]
      · by_cases hki : k = i
        · rw [if_pos hki, if_neg hkj, if_pos hki]
        · rw [if_neg hki, if_neg hkj, if_neg hkj, if_neg hki]
    rw [hswap]
    exact hm₂

end Elements

section Sorting

/-- A comparator on the elements of one type, a total preorder. -/
structure Comparator (E : List UInt8 → Prop) (comp : List UInt8 → List UInt8 → Int) : Prop where
  flip : ∀ a b, E a → E b → (comp a b < 0 ↔ 0 < comp b a)
  trans : ∀ a b c, E a → E b → E c → comp a b ≤ 0 → comp b c ≤ 0 → comp a c ≤ 0

variable {E : List UInt8 → Prop} {comp : List UInt8 → List UInt8 → Int} {mem : Mem}
  {arr size n : Nat} {f : Nat → List UInt8}

theorem partitionLoop_spec (hsize : 0 < size) {lo m fuel right i : Nat}
    (hm : Holds mem arr size n f) (hmn : m < n) (hlo : lo ≤ right) (hright : right ≤ i)
    (hi : i ≤ m) (hfuel : m - i < fuel)
    (hpart : Partitioned (fun x => decide (comp x (f m) < 0)) lo right i f) :
    ∃ mem' right' g, partitionLoop comp size (arr + m * size) fuel mem (arr + i * size)
        (arr + right * size) = some (mem', arr + right' * size) ∧
      Holds mem' arr size n g ∧ PermOn lo m f g ∧ lo ≤ right' ∧ right' ≤ m ∧
      Partitioned (fun x => decide (comp x (f m) < 0)) lo right' m g ∧
      SameOutside mem mem' arr (n * size) := by
  induction fuel generalizing mem f right i with
  | zero => omega
  | succ fuel ih =>
    rcases Nat.lt_or_eq_of_le hi with hlt | rfl
    · have hptr : arr + i * size < arr + m * size :=
        Nat.add_lt_add_left (Nat.mul_lt_mul_of_pos_right hlt hsize) arr
      have hnext : arr + i * size + size = arr + (i + 1) * size := by
        rw [Nat.succ_mul, Nat.add_assoc]
      have hin : i < n := hlt.trans hmn
      by_cases hless : comp (f i) (f m) < 0
      · obtain ⟨mem₁, hswap, hm₁, hout₁⟩ := swap_spec hm hin (Nat.lt_of_le_of_lt hright hin) hsize
        have hpivot : (f ∘ Equiv.swap i right) m = f m := by
          rw [Function.comp_apply, Equiv.swap_apply_of_ne_of_ne (by omega) (by omega)]
        have hstep := hpart.exchange hlo hright (decide_eq_true hless)
        rw [← hpivot] at hstep
        obtain ⟨mem', right', g, hloop, hg, hperm, hlo', hright', hpart', hout⟩ :=
          ih hm₁ (Nat.le_succ_of_le hlo) (Nat.succ_le_succ hright) hlt (by omega) hstep
        rw [hpivot] at hpart'
        refine ⟨mem', right', g, ?_, hg, ?_, hlo', hright', hpart', fun a ha => ?_⟩
        · have hright₂ : arr + right * size + size = arr + (right + 1) * size := by
            rw [Nat.succ_mul, Nat.add_assoc]
          rw [partitionLoop, if_pos hptr, hm i hin, Option.bind_some, hm m hmn, Option.bind_some,
            if_pos hless, hswap, Option.bind_some, hnext, hright₂, hloop]
        · exact (permOn_swap f ⟨by omega, hlt⟩ ⟨hlo, by omega⟩).trans hperm
        · exact (hout a ha).trans (hout₁ a ha)
      · obtain ⟨mem', right', g, hloop, hrest⟩ :=
          ih hm hlo (Nat.le_succ_of_le hright) hlt (by omega)
            (hpart.keep (decide_eq_false hless))
        refine ⟨mem', right', g, ?_, hrest⟩
        rw [partitionLoop, if_pos hptr, hm i hin, Option.bind_some, hm m hmn, Option.bind_some,
          if_neg hless, hnext, hloop]
    · exact ⟨mem, right, f, if_neg (Nat.lt_irrefl _), hm, permOn_refl lo i f, hlo, hright, hpart,
        fun _ _ => rfl⟩

/-- The range is sorted and holds the elements it held before. -/
theorem qsortRec_spec (hcomp : Comparator E comp) (hsize : 0 < size) {fuel lo count : Nat}
    (hm : Holds mem arr size n f) (hE : ∀ i, i < n → E (f i)) (hn : lo + count ≤ n)
    (hfuel : count < fuel) :
    ∃ mem' g, qsortRec comp size fuel mem (arr + lo * size) count = some mem' ∧
      Holds mem' arr size n g ∧ PermOn lo (lo + count) f g ∧
      SortedOn (fun x y => comp x y ≤ 0) lo (lo + count) g ∧
      SameOutside mem mem' arr (n * size) := by
  induction fuel generalizing mem f lo count with
  | zero => omega
  | succ fuel ih =>
    by_cases hsmall : count ≤ 1
    · exact ⟨mem, f, if_pos hsmall, hm, permOn_refl .., sortedOn_of_le_one (by omega),
        fun _ _ => rfl⟩
    obtain ⟨m, hmlast⟩ : ∃ m, lo + count = m + 1 := ⟨lo + count - 1, by omega⟩
    have hpivotPtr : arr + lo * size + (count - 1) * size = arr + m * size := by
      rw [Nat.add_assoc, ← Nat.add_mul]
      congr 2
      omega
    -- the loop
    have hstart := partitioned_start (fun x => decide (comp x (f m) < 0)) lo f
    obtain ⟨mem₁, right, g₁, hloop, hm₁, hperm₁, hlo, hright, hpart, hout₁⟩ :=
      partitionLoop_spec hsize hm (by omega : m < n) (Nat.le_refl lo) (Nat.le_refl lo)
        (by omega) (by omega : m - lo < count) hstart
    -- the pivot goes between the two sides
    obtain ⟨mem₂, hswap, hm₂, hout₂⟩ :=
      swap_spec hm₁ (by omega : right < n) (by omega : m < n) hsize
    have hperm₂ : PermOn lo (lo + count) f (g₁ ∘ Equiv.swap right m) :=
      (hperm₁.mono (Nat.le_refl lo) (by omega)).trans
        (permOn_swap g₁ ⟨hlo, by omega⟩ ⟨by omega, by omega⟩)
    obtain ⟨hleft, hrest⟩ := hpart.place hright
    have hpivot : (g₁ ∘ Equiv.swap right m) right = f m := by
      rw [Function.comp_apply, Equiv.swap_apply_left]
      exact hperm₁.eq_outside (.inr (Nat.le_refl m))
    generalize g₁ ∘ Equiv.swap right m = g₂ at hm₂ hperm₂ hleft hrest hpivot
    have hEon : ∀ g, PermOn lo (lo + count) f g → ∀ i, i < n → E (g i) := fun g hg i hi =>
      (hg.mono (Nat.zero_le lo) hn).forall_range (fun k _ hk => hE k hk) i (Nat.zero_le i) hi
    -- the two halves
    obtain ⟨mem₃, g₃, hrec₁, hm₃, hperm₃, hsorted₃, hout₃⟩ :=
      ih hm₂ (hEon g₂ hperm₂) (by omega : lo + (right - lo) ≤ n) (by omega)
    rw [Nat.add_sub_cancel' hlo] at hperm₃ hsorted₃
    have hperm₃' := hperm₂.trans (hperm₃.mono (Nat.le_refl lo) (by omega : right ≤ lo + count))
    obtain ⟨mem₄, g₄, hrec₂, hm₄, hperm₄, hsorted₄, hout₄⟩ :=
      ih hm₃ (hEon g₃ hperm₃') (by omega : right + 1 + (count - (right - lo) - 1) ≤ n) (by omega)
    have hend : right + 1 + (count - (right - lo) - 1) = lo + count := by omega
    rw [hend] at hperm₄ hsorted₄
    have hperm₄' := hperm₃'.trans (hperm₄.mono (by omega : lo ≤ right + 1) (Nat.le_refl _))
    refine ⟨mem₄, g₄, ?_, hm₄, hperm₄', ?_, fun a ha => ?_⟩
    · have hside : arr + right * size + size = arr + (right + 1) * size := by
        rw [Nat.succ_mul, Nat.add_assoc]
      have hcount : (arr + (right + 1) * size - (arr + lo * size)) / size - 1 = right - lo := by
        rw [Nat.add_sub_add_left, ← Nat.sub_mul, Nat.mul_div_cancel _ hsize]
        omega
      rw [qsortRec, if_neg hsmall]
      simp only [hpivotPtr, hloop, Option.bind_some, hswap, hside, hcount, hrec₁, hrec₂]
    · have hEm : E (f m) := hE m (by omega)
      refine sortedOn_halves hcomp.trans (fun k _ hk => hEon g₄ hperm₄' k (by omega))
        ⟨hlo, by omega⟩ hperm₃ hperm₄ hsorted₃ hsorted₄ ?_ ?_
      · intro k hk hkm
        rw [hpivot]
        exact (of_decide_eq_true (hleft k hk hkm)).le
      · intro k hkm hk
        rw [hpivot]
        have hnot := of_decide_eq_false (hrest k hkm (by omega))
        have hEk := hEon g₂ hperm₂ k (by omega)
        by_contra hgt
        exact hnot ((hcomp.flip _ _ hEk hEm).mpr (not_le.mp hgt))
    · rw [hout₄ a ha, hout₃ a ha, hout₂ a ha, hout₁ a ha]

end Sorting

section Searching

variable {E : List UInt8 → Prop} {comp : List UInt8 → List UInt8 → Int} {mem : Mem}
  {arr size count key : Nat} {g : Nat → List UInt8} {k : List UInt8}

theorem Comparator.le_flip (h : Comparator E comp) {a b : List UInt8} (ha : E a) (hb : E b) :
    comp a b ≤ 0 ↔ 0 ≤ comp b a := by
  have := h.flip b a hb ha
  omega

theorem Comparator.lt_of_le_of_lt (h : Comparator E comp) {a b c : List UInt8} (ha : E a)
    (hb : E b) (hc : E c) (hab : comp a b ≤ 0) (hbc : comp b c < 0) : comp a c < 0 := by
  by_contra hge
  have hca := (h.le_flip hc ha).mpr (not_lt.mp hge)
  have hcb := (h.le_flip hc hb).mp (h.trans c a b hc ha hb hca hab)
  omega

theorem Comparator.lt_of_lt_of_le (h : Comparator E comp) {a b c : List UInt8} (ha : E a)
    (hb : E b) (hc : E c) (hab : comp a b < 0) (hbc : comp b c ≤ 0) : comp a c < 0 := by
  by_contra hge
  have hca := (h.le_flip hc ha).mpr (not_lt.mp hge)
  have hba := h.trans b c a hb hc ha hbc hca
  have := h.flip a b ha hb
  omega

/-- What lies before `min` is less than the key, and what lies from `max` on is greater. -/
structure Narrowed (comp : List UInt8 → List UInt8 → Int) (g : Nat → List UInt8)
    (k : List UInt8) (count min max : Nat) : Prop where
  le : min ≤ max
  max_le : max ≤ count
  below : ∀ i, i < min → comp (g i) k < 0
  above : ∀ i, max ≤ i → i < count → 0 < comp (g i) k

theorem Narrowed.from_less (hcomp : Comparator E comp) (hE : ∀ i, i < count → E (g i))
    (hsorted : SortedOn (fun x y => comp x y ≤ 0) 0 count g) (hk : E k) {min max mid : Nat}
    (h : Narrowed comp g k count min max) (hmid : mid < max) (hless : comp (g mid) k < 0) :
    Narrowed comp g k count (mid + 1) max := by
  have hin : mid < count := Nat.lt_of_lt_of_le hmid h.max_le
  refine ⟨hmid, h.max_le, fun i hi => ?_, h.above⟩
  rcases Nat.lt_or_eq_of_le (Nat.le_of_lt_succ hi) with hi | rfl
  · exact hcomp.lt_of_le_of_lt (hE i (hi.trans hin)) (hE mid hin) hk
      (hsorted i mid (Nat.zero_le i) hi hin) hless
  · exact hless

theorem Narrowed.to_greater (hcomp : Comparator E comp) (hE : ∀ i, i < count → E (g i))
    (hsorted : SortedOn (fun x y => comp x y ≤ 0) 0 count g) (hk : E k) {min max mid : Nat}
    (h : Narrowed comp g k count min max) (hmin : min ≤ mid) (hmid : mid < max)
    (hgreater : 0 < comp (g mid) k) : Narrowed comp g k count min mid := by
  have hin : mid < count := Nat.lt_of_lt_of_le hmid h.max_le
  refine ⟨hmin, hin.le, h.below, fun i hi hic => ?_⟩
  rcases Nat.lt_or_eq_of_le hi with hi | rfl
  · refine (hcomp.flip k (g i) hk (hE i hic)).mp ?_
    exact hcomp.lt_of_lt_of_le hk (hE mid hin) (hE i hic)
      ((hcomp.flip k (g mid) hk (hE mid hin)).mpr hgreater)
      (hsorted mid i (Nat.zero_le mid) hi hic)
  · exact hgreater

/-- An element that compares equal to the key, or `NULL` when there is none. -/
def Finds (comp : List UInt8 → List UInt8 → Int) (g : Nat → List UInt8) (k : List UInt8)
    (arr size count : Nat) (r : Search) : Prop :=
  (∀ p ∈ r.compared, ∃ i, i < count ∧ p = arr + i * size) ∧
    ((∃ i, i < count ∧ r.ret = some (arr + i * size) ∧ comp (g i) k = 0) ∨
      (r.ret = none ∧ ∀ i, i < count → comp (g i) k ≠ 0))

theorem Finds.compare {r : Search} (h : Finds comp g k arr size count r) {i : Nat}
    (hi : i < count) : Finds comp g k arr size count
      { r with compared := (arr + i * size) :: r.compared } := by
  refine ⟨fun p hp => ?_, h.2⟩
  rcases List.mem_cons.mp hp with rfl | hp
  · exact ⟨i, hi, rfl⟩
  · exact h.1 p hp

theorem bsearchLoop_spec (hcomp : Comparator E comp) (hm : Holds mem arr size count g)
    (hE : ∀ i, i < count → E (g i)) (hsorted : SortedOn (fun x y => comp x y ≤ 0) 0 count g)
    (hkey : load mem key size = some k) (hk : E k) {fuel min max : Nat}
    (hfuel : max - min < fuel) (hnarrow : Narrowed comp g k count min max) :
    ∃ r, bsearchLoop comp size mem key arr fuel min max = some r ∧
      Finds comp g k arr size count r := by
  induction fuel generalizing min max with
  | zero => omega
  | succ fuel ih =>
    by_cases hlt : min < max
    · obtain ⟨mid, hmid⟩ : ∃ mid, (max - min) / 2 + min = mid := ⟨_, rfl⟩
      have hmax := hnarrow.max_le
      have hin : mid < count := by omega
      have hload := hm mid hin
      rcases lt_trichotomy (comp (g mid) k) 0 with hless | heq | hgreater
      · have hnarrow' := hnarrow.from_less hcomp hE hsorted hk (by omega : mid < max) hless
        obtain ⟨r, hloop, hfinds⟩ := ih (by omega) hnarrow'
        refine ⟨_, ?_, hfinds.compare hin⟩
        simp only [bsearchLoop, if_pos hlt, hmid, hload, hkey, Option.bind_some, if_pos hless,
          hloop, Option.map_some]
      · refine ⟨{ ret := some (arr + mid * size), compared := [arr + mid * size] }, ?_, ?_, ?_⟩
        · have hnot : ¬comp (g mid) k < 0 := by omega
          have hnot' : ¬comp (g mid) k > 0 := by omega
          simp only [bsearchLoop, if_pos hlt, hmid, hload, hkey, Option.bind_some, if_neg hnot,
            if_neg hnot']
        · intro p hp
          exact ⟨mid, hin, List.mem_singleton.mp hp⟩
        · exact .inl ⟨mid, hin, rfl, heq⟩
      · have hnarrow' := hnarrow.to_greater hcomp hE hsorted hk (by omega : min ≤ mid)
          (by omega) hgreater
        obtain ⟨r, hloop, hfinds⟩ := ih (by omega) hnarrow'
        refine ⟨_, ?_, hfinds.compare hin⟩
        have hnot : ¬comp (g mid) k < 0 := by omega
        simp only [bsearchLoop, if_pos hlt, hmid, hload, hkey, Option.bind_some, if_neg hnot,
          gt_iff_lt, if_pos hgreater, hloop, Option.map_some]
    · refine ⟨_, if_neg hlt, nofun, .inr ⟨rfl, fun i hi => ?_⟩⟩
      rcases Nat.lt_or_ge i min with hi' | hi'
      · exact (hnarrow.below i hi').ne
      · exact (hnarrow.above i (by omega) hi).ne'

/-- After `qsort` the search comes back for every key, compares it with elements of the array only
and finds an element that compares equal exactly when the array had one before it was sorted. -/
theorem bsearch_qsort {E : List UInt8 → Prop} {comp : List UInt8 → List UInt8 → Int}
    (hcomp : Comparator E comp) (mem : Mem) (arr count size : Nat) (hsize : 0 < size)
    (f : Nat → List UInt8) (harr : Holds mem arr size count f) (hE : ∀ i, i < count → E (f i)) :
    ∃ mem', qsort comp size mem arr count = some mem' ∧
      SameOutside mem mem' arr (count * size) ∧
      ∀ key k, load mem' key size = some k → E k →
        ∃ r, bsearch comp size mem' key arr count = some r ∧
          (∀ p ∈ r.compared, ∃ i, i < count ∧ p = arr + i * size) ∧
          ((∃ i, i < count ∧ comp (f i) k = 0) → ∃ i x, i < count ∧
            r.ret = some (arr + i * size) ∧ load mem' (arr + i * size) size = some x ∧
            comp x k = 0) ∧
          ((¬∃ i, i < count ∧ comp (f i) k = 0) → r.ret = none) := by
  have hstart : arr + 0 * size = arr := by rw [Nat.zero_mul, Nat.add_zero]
  obtain ⟨mem', g, hsort, hm, hperm, hsorted, hout⟩ := qsortRec_spec hcomp hsize harr hE
    (by omega : 0 + count ≤ count) (Nat.lt_succ_self count)
  rw [hstart] at hsort
  rw [Nat.zero_add] at hperm hsorted
  have hEg : ∀ i, i < count → E (g i) := fun i hi =>
    hperm.forall_range (fun j _ hj => hE j hj) i (Nat.zero_le i) hi
  refine ⟨mem', hsort, hout, fun key k hkey hk => ?_⟩
  have hnarrow : Narrowed comp g k count 0 count :=
    ⟨Nat.zero_le _, Nat.le_refl _, fun i hi => absurd hi (Nat.not_lt_zero i),
      fun i hi hi' => absurd hi (Nat.not_le.mpr hi')⟩
  obtain ⟨r, hsearch, hcompared, hret⟩ := bsearchLoop_spec hcomp hm hEg hsorted hkey hk
    (by omega : count - 0 < count + 1) hnarrow
  refine ⟨r, hsearch, hcompared, fun ⟨i, hi, heq⟩ => ?_, fun hnone => ?_⟩
  · obtain ⟨j, ⟨_, hj⟩, hfj⟩ := hperm.symm.exists_index ⟨Nat.zero_le i, hi⟩
    rcases hret with ⟨l, hl, hrl, hzero⟩ | ⟨_, hall⟩
    · exact ⟨l, g l, hl, hrl, hm l hl, hzero⟩
    · exact absurd (hfj ▸ heq) (hall j hj)
  · rcases hret with ⟨l, hl, _, hzero⟩ | ⟨hr, _⟩
    · obtain ⟨j, ⟨_, hj⟩, hgl⟩ := hperm.exists_index ⟨Nat.zero_le l, hl⟩
      exact absurd ⟨j, hj, hgl ▸ hzero⟩ hnone
    · exact hr

/-- The first byte of an element is what counts. -/
def compareFirst (a b : List UInt8) : Int := (a.headD 0).toNat - (b.headD 0).toNat

/-- Five elements of two bytes at 16, and a key at 32. -/
def shelf : Mem := fun a =>
  if a < 16 then none
  else [3, 0, 1, 1, 3, 2, 2, 3, 1, 4, 0, 0, 0, 0, 0, 0, 3, 9][a - 16]?

def shelfElement (i : Nat) : List UInt8 :=
  [[3, 1, 3, 2, 1].getD i 0, UInt8.ofNat i]

theorem comparator_compareFirst : Comparator (fun _ => True) compareFirst := by
  constructor
  · intro a b _ _
    simp only [compareFirst]
    omega
  · intro a b c _ _ _ hab hbc
    simp only [compareFirst] at hab hbc ⊢
    omega

theorem holds_shelf : Holds shelf 16 2 5 shelfElement := by
  intro i hi
  revert i
  decide

theorem bsearch_qsort_five : ∃ mem', qsort compareFirst 2 shelf 16 5 = some mem' ∧
    ∃ r, bsearch compareFirst 2 mem' 32 16 5 = some r ∧ ∃ i x, i < 5 ∧
      r.ret = some (16 + i * 2) ∧ load mem' (16 + i * 2) 2 = some x ∧
      compareFirst x [3, 9] = 0 := by
  obtain ⟨mem', hsort, hout, hsearch⟩ := bsearch_qsort comparator_compareFirst
    shelf 16 5 2 (by decide) shelfElement holds_shelf fun _ _ => trivial
  have hkey : load mem' 32 2 = some [3, 9] :=
    (load_congr fun i _ => hout (32 + i) (.inr (by omega))).trans (by decide)
  obtain ⟨r, hr, _, hfound, _⟩ := hsearch 32 [3, 9] hkey trivial
  exact ⟨mem', hsort, r, hr, hfound ⟨0, by decide, by decide⟩⟩

end Searching

end ArraySort
