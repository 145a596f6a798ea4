import Libdeepc.ArraySort

/-!
# Comparators that are called back

`qsort` and `bsearch` with a comparator of any kind: it is given two pointers, looks
at memory, keeps a state of its own and need not be consistent with itself. Every
call is recorded with its two arguments in order.
-/

namespace ComparatorCalls

open Memory RangeOrder ArraySort

universe u

section Code

/-- Memory, what the comparator remembers and the calls it has had, the latest first. -/
structure World (σ : Type u) where
  mem : Mem
  state : σ
  calls : List (Nat × Nat)

variable {σ : Type u} (comp : σ → Mem → Nat → Nat → Int × σ) (size : Nat)

/-- One call of the comparator. -/
def ask (w : World σ) (a b : Nat) : Int × World σ :=
  let r := comp w.state w.mem a b
  (r.1, { w with state := r.2, calls := (a, b) :: w.calls })

def swap (w : World σ) (a b : Nat) : Option (World σ) :=
  (ArraySort.swap size w.mem a b).map fun mem => { w with mem }

/-- The `for` loop of `qsort`. -/
def partitionLoop (pivot : Nat) : Nat → World σ → Nat → Nat → Option (World σ × Nat)
  | 0, _, _, _ => none
  | fuel + 1, w, i, rightSide =>
    if i < pivot then
      let r := ask comp w i pivot
      if r.1 < 0 then
        (swap size r.2 i rightSide).bind fun w =>
          partitionLoop pivot fuel w (i + size) (rightSide + size)
      else partitionLoop pivot fuel r.2 (i + size) rightSide
    else some (w, rightSide)

def qsortRec : Nat → World σ → Nat → Nat → Option (World σ)
  | 0, _, _, _ => none
  | fuel + 1, w, arr, count =>
    if count ≤ 1 then some w
    else
      let pivot := arr + (count - 1) * size
      (partitionLoop comp size pivot count w arr arr).bind fun r =>
      (swap size r.1 r.2 pivot).bind fun w =>
        let rightSide := r.2 + size
        let leftCount := (rightSide - arr) / size - 1
        (qsortRec fuel w arr leftCount).bind fun w =>
          qsortRec fuel w rightSide (count - leftCount - 1)

/-- Each call sorts fewer elements than its caller. -/
def qsort (w : World σ) (arr count : Nat) : Option (World σ) :=
  qsortRec comp size (count + 1) w arr count

def bsearchLoop (key arr : Nat) : Nat → World σ → Nat → Nat → Option (Option Nat × World σ)
  | 0, _, _, _ => none
  | fuel + 1, w, min, max =>
    if min < max then
      let mid := (max - min) / 2 + min
      let midPtr := arr + mid * size
      let r := ask comp w midPtr key
      if r.1 < 0 then bsearchLoop key arr fuel r.2 (mid + 1) max
      else if r.1 > 0 then bsearchLoop key arr fuel r.2 min mid
      else some (some midPtr, r.2)
    else some (none, w)

/-- Each round leaves fewer elements. -/
def bsearch (w : World σ) (key arr count : Nat) : Option (Option Nat × World σ) :=
  bsearchLoop comp size key arr (count + 1) w 0 count

end Code

section Sorting

variable {σ : Type u} {comp : σ → Mem → Nat → Nat → Int × σ} {w w' : World σ}
  {arr size n : Nat} {f : Nat → List UInt8}

@[simp] theorem ask_mem (a b : Nat) : (ask comp w a b).2.mem = w.mem := rfl

@[simp] theorem ask_calls (a b : Nat) : (ask comp w a b).2.calls = (a, b) :: w.calls := rfl

/-- The calls are of two elements of the array. -/
def AsksElements (arr size n : Nat) (w : World σ) : Prop :=
  ∀ c ∈ w.calls, ∃ i j, i < n ∧ j < n ∧ c = (arr + i * size, arr + j * size)

theorem AsksElements.ask (h : AsksElements arr size n w) {i j : Nat} (hi : i < n) (hj : j < n) :
    AsksElements arr size n (ask comp w (arr + i * size) (arr + j * size)).2 := by
  intro c hc
  rw [ask_calls, List.mem_cons] at hc
  rcases hc with rfl | hc
  · exact ⟨i, j, hi, hj, rfl⟩
  · exact h c hc

/-- In every memory that differs in the array only, the answer about two elements has the sign
that `cmp` gives their bytes. -/
def Answers (comp : σ → Mem → Nat → Nat → Int × σ) (mem : Mem) (arr size n : Nat)
    (cmp : List UInt8 → List UInt8 → Int) : Prop :=
  ∀ s mem' i j x y, SameOutside mem mem' arr (n * size) → i < n → j < n →
    load mem' (arr + i * size) size = some x → load mem' (arr + j * size) size = some y →
    (comp s mem' (arr + i * size) (arr + j * size)).1.sign = (cmp x y).sign

theorem Answers.mono {mem mem' : Mem} {cmp : List UInt8 → List UInt8 → Int}
    (h : Answers comp mem arr size n cmp) (hsame : SameOutside mem mem' arr (n * size)) :
    Answers comp mem' arr size n cmp :=
  fun s m i j x y hm => h s m i j x y (hsame.trans hm)

theorem neg_iff_of_sign_eq {a b : Int} (h : a.sign = b.sign) : a < 0 ↔ b < 0 := by
  rw [← Int.sign_eq_neg_one_iff_neg, h, Int.sign_eq_neg_one_iff_neg]

theorem ask_neg {cmp : List UInt8 → List UInt8 → Int} (h : Answers comp w.mem arr size n cmp)
    (hm : Holds w.mem arr size n f) {i j : Nat} (hi : i < n) (hj : j < n) :
    (ask comp w (arr + i * size) (arr + j * size)).1 < 0 ↔ cmp (f i) (f j) < 0 :=
  neg_iff_of_sign_eq (h _ _ _ _ _ _ (SameOutside.refl _ _ _) hi hj (hm i hi) (hm j hj))

theorem swap_spec (hm : Holds w.mem arr size n f) {i j : Nat} (hi : i < n) (hj : j < n)
    (hsize : 0 < size) : ∃ mem', ArraySort.swap size w.mem (arr + i * size) (arr + j * size) =
        some mem' ∧
      swap size w (arr + i * size) (arr + j * size) = some { w with mem := mem' } ∧
      Holds mem' arr size n (f ∘ Equiv.swap i j) ∧ SameOutside w.mem mem' arr (n * size) := by
  obtain ⟨mem', hswap, hm', hout⟩ := ArraySort.swap_spec hm hi hj hsize
  refine ⟨mem', hswap, ?_, hm', hout⟩
  rw [swap, hswap, Option.map_some]

/-- Whatever the comparator answers, the loop permutes the elements before the pivot. Where the
answers are those of `cmp`, it is the loop that compares bytes. -/
theorem partitionLoop_spec (comp : σ → Mem → Nat → Nat → Int × σ)
    (hsize : 0 < size) {lo m fuel right i : Nat}
    (hm : Holds w.mem arr size n f) (hasks : AsksElements arr size n w) (hmn : m < n)
    (hlo : lo ≤ right) (hright : right ≤ i) (hi : i ≤ m) (hfuel : m - i < fuel) :
    ∃ w' right' g, partitionLoop comp size (arr + m * size) fuel w (arr + i * size)
        (arr + right * size) = some (w', arr + right' * size) ∧
      Holds w'.mem arr size n g ∧ AsksElements arr size n w' ∧ PermOn lo m f g ∧
      lo ≤ right' ∧ right' ≤ m ∧ SameOutside w.mem w'.mem arr (n * size) ∧
      ∀ cmp, Answers comp w.mem arr size n cmp →
        ArraySort.partitionLoop cmp size (arr + m * size) fuel w.mem (arr + i * size)
          (arr + right * size) = some (w'.mem, arr + right' * size) := by
  induction fuel generalizing w f right i with
  | zero => omega
  | succ fuel ih =>
    rcases Nat.lt_or_eq_of_le hi with hlt | rfl
    · have hptr : arr + i * size < arr + m * size :=
        Nat.add_lt_add_left (Nat.mul_lt_mul_of_pos_right hlt hsize) arr
      have hnext : arr + i * size + size = arr + (i + 1) * size := by
        rw [Nat.succ_mul, Nat.add_assoc]
      have hin : i < n := hlt.trans hmn
      have hasks₁ : AsksElements arr size n (ask comp w (arr + i * size) (arr + m * size)).2 :=
        hasks.ask hin hmn
      have hneg : ∀ cmp, Answers comp w.mem arr size n cmp → _ := fun cmp hans =>
        ask_neg hans hm hin hmn
      generalize hask : ask comp w (arr + i * size) (arr + m * size) = r at hasks₁ hneg
      have hmem : r.2.mem = w.mem := by rw [← hask, ask_mem]
      rw [← hmem] at hm
      by_cases hless : r.1 < 0
      · obtain ⟨mem₁, hbytes, hswap, hm₁, hout₁⟩ :=
          swap_spec hm hin (Nat.lt_of_le_of_lt hright hin) hsize
        rw [hmem] at hbytes hout₁
        obtain ⟨w', right', g, hloop, hg, hasks', hperm, hlo', hright', hout, hpure⟩ :=
          ih (w := { r.2 with mem := mem₁ }) hm₁ hasks₁ (Nat.le_succ_of_le hlo)
            (Nat.succ_le_succ hright) hlt (by omega)
        have hright₂ : arr + right * size + size = arr + (right + 1) * size := by
          rw [Nat.succ_mul, Nat.add_assoc]
        refine ⟨w', right', g, ?_, hg, hasks', ?_, hlo', hright', hout₁.trans hout, ?_⟩
        · simp only [partitionLoop, if_pos hptr, hask, if_pos hless, hswap, Option.bind_some,
            hnext, hright₂, hloop]
        · exact (permOn_swap f ⟨by omega, hlt⟩ ⟨hlo, by omega⟩).trans hperm
        · intro cmp hans
          rw [hmem] at hm
          rw [ArraySort.partitionLoop, if_pos hptr, hm i hin, Option.bind_some, hm m hmn,
            Option.bind_some, if_pos ((hneg cmp hans).mp hless), hbytes, Option.bind_some, hnext,
            hright₂]
          exact hpure cmp (hans.mono hout₁)
      · obtain ⟨w', right', g, hloop, hg, hasks', hperm, hlo', hright', hout, hpure⟩ :=
          ih hm hasks₁ hlo (Nat.le_succ_of_le hright) hlt (by omega)
        rw [hmem] at hout hpure hm
        refine ⟨w', right', g, ?_, hg, hasks', hperm, hlo', hright', hout, ?_⟩
        · simp only [partitionLoop, if_pos hptr, hask, if_neg hless, hnext, hloop]
        · intro cmp hans
          rw [ArraySort.partitionLoop, if_pos hptr, hm i hin, Option.bind_some, hm m hmn,
            Option.bind_some, if_neg (mt (hneg cmp hans).mpr hless), hnext]
          exact hpure cmp hans
    · exact ⟨w, right, f, if_neg (Nat.lt_irrefl _), hm, hasks, permOn_refl lo i f, hlo, hright,
        SameOutside.refl _ _ _, fun cmp _ => if_neg (Nat.lt_irrefl _)⟩

theorem qsortRec_spec (comp : σ → Mem → Nat → Nat → Int × σ)
    (hsize : 0 < size) {fuel lo count : Nat} (hm : Holds w.mem arr size n f)
    (hasks : AsksElements arr size n w) (hn : lo + count ≤ n) (hfuel : count < fuel) :
    ∃ w' g, qsortRec comp size fuel w (arr + lo * size) count = some w' ∧
      Holds w'.mem arr size n g ∧ AsksElements arr size n w' ∧ PermOn lo (lo + count) f g ∧
      SameOutside w.mem w'.mem arr (n * size) ∧
      ∀ cmp, Answers comp w.mem arr size n cmp →
        ArraySort.qsortRec cmp size fuel w.mem (arr + lo * size) count = some w'.mem := by
  induction fuel generalizing w f lo count with
  | zero => omega
  | succ fuel ih =>
    by_cases hsmall : count ≤ 1
    · exact ⟨w, f, if_pos hsmall, hm, hasks, permOn_refl .., SameOutside.refl _ _ _,
        fun cmp _ => if_pos hsmall⟩
    obtain ⟨m, hmlast⟩ : ∃ m, lo + count = m + 1 := ⟨lo + count - 1, by omega⟩
    have hpivotPtr : arr + lo * size + (count - 1) * size = arr + m * size := by
      rw [Nat.add_assoc, ← Nat.add_mul]
      congr 2
      omega
    -- the loop
    obtain ⟨w₁, right, g₁, hloop, hm₁, hasks₁, hperm₁, hlo, hright, hout₁, hpure₁⟩ :=
      partitionLoop_spec comp hsize hm hasks (by omega : m < n) (Nat.le_refl lo)
        (Nat.le_refl lo) (by omega) (by omega : m - lo < count)
    -- the pivot goes between the two sides
    obtain ⟨mem₂, hbytes, hswap, hm₂, hout₂⟩ :=
      swap_spec hm₁ (by omega : right < n) (by omega : m < n) hsize
    have hperm₂ : PermOn lo (lo + count) f (g₁ ∘ Equiv.swap right m) :=
      (hperm₁.mono (Nat.le_refl lo) (by omega)).trans
        (permOn_swap g₁ ⟨hlo, by omega⟩ ⟨by omega, by omega⟩)
    -- the two halves
    obtain ⟨w₃, g₃, hrec₁, hm₃, hasks₃, hperm₃, hout₃, hpure₃⟩ :=
      ih (w := { w₁ with mem := mem₂ }) hm₂ hasks₁ (by omega : lo + (right - lo) ≤ n) (by omega)
    obtain ⟨w₄, g₄, hrec₂, hm₄, hasks₄, hperm₄, hout₄, hpure₄⟩ :=
      ih hm₃ hasks₃ (by omega : right + 1 + (count - (right - lo) - 1) ≤ n) (by omega)
    have hside : arr + right * size + size = arr + (right + 1) * size := by
      rw [Nat.succ_mul, Nat.add_assoc]
    have hcount : (arr + (right + 1) * size - (arr + lo * size)) / size - 1 = right - lo := by
      rw [Nat.add_sub_add_left, ← Nat.sub_mul, Nat.mul_div_cancel _ hsize]
      omega
    have hhalf : SameOutside w.mem mem₂ arr (n * size) := hout₁.trans hout₂
    refine ⟨w₄, g₄, ?_, hm₄, hasks₄, ?_, (hhalf.trans hout₃).trans hout₄, fun cmp hans => ?_⟩
    · rw [qsortRec, if_neg hsmall]
      simp only [hpivotPtr, hloop, Option.bind_some, hswap, hside, hcount, hrec₁, hrec₂]
    · exact (hperm₂.trans (hperm₃.mono (Nat.le_refl lo) (by omega))).trans
        (hperm₄.mono (by omega) (by omega))
    · rw [ArraySort.qsortRec, if_neg hsmall]
      simp only [hpivotPtr, hpure₁ cmp hans, Option.bind_some, hbytes, hside, hcount,
        hpure₃ cmp (hans.mono hhalf), hpure₄ cmp (hans.mono (hhalf.trans hout₃))]

/-- `qsort` comes back for every comparator, touches the array only, asks about its elements only
and leaves them there in some order, which is sorted when the answers are those of a total
preorder. -/
theorem qsort_any_comparator {σ : Type u} (comp : σ → Mem → Nat → Nat → Int × σ) (mem : Mem)
    (state : σ) (arr count size : Nat) (hsize : 0 < size) (f : Nat → List UInt8)
    (harr : Holds mem arr size count f) :
    ∃ w' g, qsort comp size ⟨mem, state, []⟩ arr count = some w' ∧
      SameOutside mem w'.mem arr (count * size) ∧ AsksElements arr size count w' ∧
      Holds w'.mem arr size count g ∧ PermOn 0 count f g ∧
      ∀ E cmp, Comparator E cmp → (∀ i, i < count → E (f i)) →
        Answers comp mem arr size count cmp → ∀ s i j, i < j → j < count →
          (comp s w'.mem (arr + i * size) (arr + j * size)).1 ≤ 0 := by
  have hstart : arr + 0 * size = arr := by rw [Nat.zero_mul, Nat.add_zero]
  have hcalls : AsksElements arr size count (World.mk mem state []) := by
    intro c hc
    cases hc
  obtain ⟨w', g, hsort, hm, hasks, hperm, hout, hpure⟩ :=
    qsortRec_spec comp hsize
      (show Holds (World.mk mem state []).mem arr size count f from harr) hcalls
      (by omega : 0 + count ≤ count) (Nat.lt_succ_self count)
  rw [hstart] at hsort
  refine ⟨w', g, hsort, hout, hasks, hm, Nat.zero_add count ▸ hperm, ?_⟩
  intro E cmp hcmp hE hans s i j hij hj
  obtain ⟨mem', g', hsort', hm', _, hsorted, _⟩ := ArraySort.qsortRec_spec hcmp hsize harr hE
    (by omega : 0 + count ≤ count) (Nat.lt_succ_self count)
  -- both sort the same bytes
  have hsame : mem' = w'.mem := Option.some.inj (hsort'.symm.trans (hpure cmp hans))
  rw [hsame] at hm'
  have hsign := hans s w'.mem i j _ _ hout (hij.trans hj) hj (hm' i (hij.trans hj)) (hm' j hj)
  have hle := hsorted i j (Nat.zero_le i) hij (by omega)
  rwa [← Int.sign_nonpos_iff, hsign, Int.sign_nonpos_iff]

/-- The comparator that reads its two elements. -/
def reads (size : Nat) (cmp : List UInt8 → List UInt8 → Int) (s : Unit) (mem : Mem) (a b : Nat) :
    Int × Unit :=
  (cmp ((load mem a size).getD []) ((load mem b size).getD []), s)

theorem answers_reads (mem : Mem) (arr size n : Nat) (cmp : List UInt8 → List UInt8 → Int) :
    Answers (reads size cmp) mem arr size n cmp := by
  intro s mem' i j x y _ _ _ hx hy
  rw [reads, hx, hy, Option.getD_some, Option.getD_some]

theorem qsort_any_comparator_five : ∃ w', qsort (reads 2 compareFirst) 2 ⟨shelf, (), []⟩ 16 5 =
      some w' ∧ AsksElements 16 2 5 w' ∧
    ∀ s i j, i < j → j < 5 → (reads 2 compareFirst s w'.mem (16 + i * 2) (16 + j * 2)).1 ≤ 0 := by
  obtain ⟨w', g, hsort, _, hasks, _, _, hsorted⟩ :=
    qsort_any_comparator (reads 2 compareFirst) shelf () 16 5 2 (by decide) shelfElement holds_shelf
  have hle := hsorted _ compareFirst comparator_compareFirst (fun _ _ => trivial)
    (answers_reads shelf 16 2 5 _)
  exact ⟨w', hsort, hasks, hle⟩

end Sorting

section Searching

variable {σ : Type u} {comp : σ → Mem → Nat → Nat → Int × σ} {w : World σ}
  {key arr size count : Nat} {v : Nat → Int}

/-- The key goes first and the sign of its answer about the element `i` is `v i`. The elements
less than the key come first, those greater than it last. -/
structure KeyOrder (comp : σ → Mem → Nat → Nat → Int × σ) (mem : Mem) (key arr size count : Nat)
    (v : Nat → Int) : Prop where
  answer : ∀ s i, i < count → (comp s mem key (arr + i * size)).1.sign = v i
  ordered : ∀ i j, i < j → j < count → v j ≤ v i

/-- Every call is of the key and an element, in this order, and the result is an element that
compares equal, or `NULL` when there is none. -/
structure FindsKey (key arr size count : Nat) (v : Nat → Int) (r : Option Nat × World σ) :
    Prop where
  keyFirst : ∀ c ∈ r.2.calls, ∃ i, i < count ∧ c = (key, arr + i * size)
  found : (∃ i, i < count ∧ v i = 0) → ∃ i, i < count ∧ r.1 = some (arr + i * size) ∧ v i = 0
  missing : (¬∃ i, i < count ∧ v i = 0) → r.1 = none

/-- No call is forgotten. -/
theorem bsearchLoop_calls {fuel min max : Nat} {r : Option Nat × World σ}
    (h : bsearchLoop comp size key arr fuel w min max = some r) : w.calls ⊆ r.2.calls := by
  induction fuel generalizing w min max with
  | zero => cases h
  | succ fuel ih =>
    rw [bsearchLoop] at h
    split at h
    · have hask : w.calls ⊆ (ask comp w (arr + ((max - min) / 2 + min) * size) key).2.calls :=
        List.subset_cons_self _ _
      simp only at h
      split at h
      · exact fun c hc => ih h (hask hc)
      split at h
      · exact fun c hc => ih h (hask hc)
      · rw [← Option.some.inj h]
        exact hask
    · rw [← Option.some.inj h]
      exact List.Subset.refl _

/-- The first call is of an element and the key. -/
theorem bsearch_first_call {r : Option Nat × World σ} (hcount : 0 < count)
    (h : bsearch comp size w key arr count = some r) :
    (arr + count / 2 * size, key) ∈ r.2.calls := by
  have hmid : (count - 0) / 2 + 0 = count / 2 := by rw [Nat.sub_zero, Nat.add_zero]
  rw [bsearch, bsearchLoop, if_pos hcount] at h
  simp only [hmid] at h
  have hask : (arr + count / 2 * size, key) ∈ (ask comp w (arr + count / 2 * size) key).2.calls :=
    List.mem_cons_self
  split at h
  · exact bsearchLoop_calls h hask
  split at h
  · exact bsearchLoop_calls h hask
  · rw [← Option.some.inj h]
    exact hask

/-- A key of a type of its own is no element of the array. Then `bsearch` keeps to the order of
the arguments only where it has nothing to compare. -/
theorem bsearch_key_first_iff {σ : Type u} (comp : σ → Mem → Nat → Nat → Int × σ) (mem : Mem)
    (state : σ) (key arr size count : Nat) (v : Nat → Int)
    (hkey : ∀ i, i < count → key ≠ arr + i * size)
    (_horder : KeyOrder comp mem key arr size count v) :
    (∃ r, bsearch comp size ⟨mem, state, []⟩ key arr count = some r ∧
      FindsKey key arr size count v r) ↔ count = 0 := by
  constructor
  · rintro ⟨r, hsearch, hfinds⟩
    by_contra hne
    have hcall := bsearch_first_call (Nat.pos_of_ne_zero hne) hsearch
    obtain ⟨i, _, heq⟩ := hfinds.keyFirst _ hcall
    have hmid : key ≠ arr + count / 2 * size := hkey _ (by omega)
    exact hmid (Prod.mk.inj heq).1.symm
  · rintro rfl
    refine ⟨(none, ⟨mem, state, []⟩), rfl, ?_, ?_, fun _ => rfl⟩
    · intro c hc
      cases hc
    · rintro ⟨i, hi, _⟩
      exact absurd hi (Nat.not_lt_zero i)

/-- A key of one byte against the second byte of a record of two. -/
def againstSecond (s : Unit) (mem : Mem) (a b : Nat) : Int × Unit :=
  ((((mem a).getD 0).toNat : Int) - ((mem (b + 1)).getD 0).toNat, s)

/-- Three records of two bytes at 16, and a key at 32 with other bytes behind it. -/
def records : Mem := fun a =>
  if a < 16 then none
  else [9, 1, 9, 5, 9, 8, 0, 0, 0, 0, 0, 0, 0, 0, 0, 0, 5, 0][a - 16]?

theorem keyOrder_records :
    KeyOrder againstSecond records 32 16 2 3 fun i => [1, 0, -1].getD i 0 where
  answer := by
    rintro ⟨⟩ i hi
    revert i
    decide
  ordered := by
    intro i j hij hj
    revert i
    revert j
    decide

/-- The record with the key's value is there and is not found. -/
theorem bsearch_records_missed :
    KeyOrder againstSecond records 32 16 2 3 (fun i => [1, 0, -1].getD i 0) ∧
      ([1, 0, -1] : List Int).getD 1 0 = 0 ∧
      ∃ r, bsearch againstSecond 2 ⟨records, (), []⟩ 32 16 3 = some r ∧ r.1 = none ∧
        ¬FindsKey 32 16 2 3 (fun i => [1, 0, -1].getD i 0) r := by
  refine ⟨keyOrder_records, rfl, _, rfl, rfl, fun h => ?_⟩
  obtain ⟨i, _, hret, _⟩ := h.found ⟨1, by decide, rfl⟩
  cases hret

theorem bsearch_key_first_records :
    (∃ r, bsearch againstSecond 2 ⟨records, (), []⟩ 32 16 3 = some r ∧
      FindsKey 32 16 2 3 (fun i => [1, 0, -1].getD i 0) r) ↔ 3 = 0 :=
  bsearch_key_first_iff againstSecond records () 32 16 2 3 _ (by decide) keyOrder_records

end Searching

end ComparatorCalls
