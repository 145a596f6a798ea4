import Libdeepc.FirstOccurrences
import Libdeepc.MemoryMove
import Libdeepc.Runs
import Mathlib.Tactic.Ring

/-!
# Linear search and insertion

`lfind` and `lsearch` of `search.c`. The comparison function may look at all of the
memory. Of what a caller does between two calls only this is asked: that the elements
stay as they are, and that there is room for one more.
-/

namespace LinearSearch

open ByteMemory StringFunctions MemoryMove FirstOccurrences Runs

section Code

abbrev Compar := Mem → UInt64 → UInt64 → Int

def lfindLoop (compar : Compar) (mem : Mem) (key nel width : UInt64) :
    Nat → UInt64 → UInt64 → Option UInt64
  | 0, _, _ => none
  | fuel + 1, i, it =>
    if i < nel then
      if compar mem key it = 0 then some it
      else lfindLoop compar mem key nel width fuel (i + 1) (it + width)
    else some 0

/-- `nel` is what `*nelp` holds. -/
def lfind (compar : Compar) (mem : Mem) (key base nel width : UInt64) : Option UInt64 :=
  lfindLoop compar mem key nel width rounds 0 base

structure Searched where
  ret : UInt64
  mem : Mem
  nel : UInt64

def lsearch (compar : Compar) (mem : Mem) (key base nel width : UInt64) : Option Searched :=
  (lfind compar mem key base nel width).bind fun needle =>
    if needle ≠ 0 then some ⟨needle, mem, nel⟩
    else
      let e := base + nel * width
      (memcpy mem e key width).map fun r => ⟨e, r.2, nel + 1⟩

end Code

section Arrays

/-- The address of element `i`. -/
def place (base width : UInt64) (i : Nat) : UInt64 := base + .ofNat (i * width.toNat)

structure ArrayAt (mem : Mem) (base nel width : UInt64) (es : List (List UInt8)) : Prop where
  nonnull : base ≠ 0
  count : nel.toNat = es.length
  widths : ∀ e ∈ es, e.length = width.toNat
  holds : Holds mem base es.flatten

/-- There is room for one more element. -/
structure Room (mem : Mem) (base nel width : UInt64) : Prop where
  count : nel.toNat + 1 < 2 ^ 64
  inSpace : base.toNat + (nel.toNat + 1) * width.toNat < 2 ^ 64
  accessible : Accessible mem (place base width nel.toNat) width.toNat

/-- The key can be read while it is copied to `dest`. -/
structure KeyAt (mem : Mem) (key dest width : UInt64) (k : List UInt8) : Prop where
  holds : Holds mem key k
  length : k.length = width.toNat
  ahead : AheadOf key dest width.toNat

variable {compar : Compar} {mem mem' : Mem} {key base nel width : UInt64}
  {es : List (List UInt8)} {k : List UInt8} {i : Nat}

theorem place_zero (base width : UInt64) : place base width 0 = base := by
  rw [place, Nat.zero_mul, add_ofNat_zero]

theorem place_succ (base width : UInt64) (i : Nat) :
    place base width (i + 1) = place base width i + width := by
  rw [place, place, Nat.add_mul, Nat.one_mul, ← add_ofNat_add, UInt64.ofNat_toNat]

theorem place_eq_mul (base nel width : UInt64) :
    place base width nel.toNat = base + nel * width := by
  rw [place, UInt64.ofNat_mul, UInt64.ofNat_toNat, UInt64.ofNat_toNat]

theorem length_flatten (h : ∀ e ∈ es, e.length = width.toNat) :
    es.flatten.length = es.length * width.toNat := by
  induction es with
  | nil => exact (Nat.zero_mul _).symm
  | cons e es ih =>
    rw [List.flatten_cons, List.length_append, h e List.mem_cons_self,
      ih fun e' he' => h e' (List.mem_cons_of_mem e he'), List.length_cons]
    ring

theorem Room.place_ne_zero (h : Room mem base nel width) (hbase : base ≠ 0) (hi : i ≤ nel.toNat) :
    place base width i ≠ 0 := by
  have hpos : base.toNat ≠ 0 := fun hzero => hbase (UInt64.toNat_inj.mp hzero)
  have hle : i * width.toNat ≤ (nel.toNat + 1) * width.toNat :=
    Nat.mul_le_mul_right _ (Nat.le_succ_of_le hi)
  have hspace := h.inSpace
  intro hzero
  have hnat := congrArg UInt64.toNat hzero
  rw [place, toNat_add_ofNat (by omega)] at hnat
  change _ = 0 at hnat
  omega

/-- An element stands at its place. -/
theorem ArrayAt.element (h : ArrayAt mem base nel width es) (hi : i < es.length) :
    Holds mem (place base width i) es[i] := by
  have hsplit : es.flatten = (es.take i).flatten ++ (es[i] ++ (es.drop (i + 1)).flatten) := by
    rw [← List.flatten_cons, List.getElem_cons_drop, ← List.flatten_append,
      List.take_append_drop]
  have hlen : (es.take i).flatten.length = i * width.toNat := by
    rw [length_flatten fun e he => h.widths e (List.mem_of_mem_take he),
      List.length_take_of_le (Nat.le_of_lt hi)]
  have hall := h.holds
  rw [hsplit, holds_append, hlen, holds_append] at hall
  exact hall.2.1

end Arrays

section Find

variable {compar : Compar} {mem mem' : Mem} {key base nel width : UInt64}
  {es : List (List UInt8)} {k : List UInt8} {i : Nat}

/-- The first element that compares equal is number `i`. -/
def FirstEqual (compar : Compar) (mem : Mem) (key base nel width : UInt64) (i : Nat) : Prop :=
  i < nel.toNat ∧ compar mem key (place base width i) = 0 ∧
    ∀ j, j < i → compar mem key (place base width j) ≠ 0

def NoneEqual (compar : Compar) (mem : Mem) (key base nel width : UInt64) : Prop :=
  ∀ i, i < nel.toNat → compar mem key (place base width i) ≠ 0

theorem lfindLoop_cases (compar : Compar) (mem : Mem) (key base nel width : UInt64) {j fuel : Nat}
    (hj : j ≤ nel.toNat)
    (hbefore : ∀ i, i < j → compar mem key (place base width i) ≠ 0)
    (hfuel : nel.toNat - j < fuel) :
    (∃ i, FirstEqual compar mem key base nel width i ∧
      lfindLoop compar mem key nel width fuel (.ofNat j) (place base width j) =
        some (place base width i)) ∨
    (NoneEqual compar mem key base nel width ∧
      lfindLoop compar mem key nel width fuel (.ofNat j) (place base width j) = some 0) := by
  induction fuel generalizing j with
  | zero => omega
  | succ fuel ih =>
    have hlt : UInt64.ofNat j < nel ↔ j < nel.toNat := by
      have hnel := nel.toNat_lt
      rw [UInt64.lt_iff_toNat_lt, UInt64.toNat_ofNat', Nat.mod_eq_of_lt (by omega)]
    rw [lfindLoop]
    by_cases hmore : j < nel.toNat
    · rw [if_pos (hlt.mpr hmore)]
      by_cases heq : compar mem key (place base width j) = 0
      · exact .inl ⟨j, ⟨hmore, heq, hbefore⟩, if_pos heq⟩
      · have hnext : UInt64.ofNat j + 1 = .ofNat (j + 1) := (UInt64.ofNat_add j 1).symm
        rw [if_neg heq, hnext, ← place_succ]
        refine ih hmore (fun i hi => ?_) (by omega)
        rcases Nat.lt_or_eq_of_le (Nat.le_of_lt_succ hi) with hij | rfl
        · exact hbefore i hij
        · exact heq
    · rw [if_neg (mt hlt.mp hmore)]
      exact .inr ⟨fun i hi => hbefore i (by omega), rfl⟩

theorem lfind_cases (compar : Compar) (mem : Mem) (key base nel width : UInt64) :
    (∃ i, FirstEqual compar mem key base nel width i ∧
      lfind compar mem key base nel width = some (place base width i)) ∨
    (NoneEqual compar mem key base nel width ∧
      lfind compar mem key base nel width = some 0) := by
  have hfuel : nel.toNat - 0 < rounds := nel.toNat_lt
  have hloop := lfindLoop_cases compar mem key base nel width (Nat.zero_le _) nofun hfuel
  rwa [place_zero] at hloop

/-- A call returns the element that is found, or the key's copy behind the others. -/
inductive Outcome (compar : Compar) (mem : Mem) (key base nel width : UInt64) (k : List UInt8) :
    UInt64 → Searched → Prop
  | found (i : Nat) (h : FirstEqual compar mem key base nel width i) :
      Outcome compar mem key base nel width k (place base width i)
        ⟨place base width i, mem, nel⟩
  | added (h : NoneEqual compar mem key base nel width) (mem' : Mem)
      (copied : Holds mem' (place base width nel.toNat) k)
      (outside : ∀ a, (∀ i, i < width.toNat → a ≠ place base width nel.toNat + .ofNat i) →
        mem' a = mem a) :
      Outcome compar mem key base nel width k 0 ⟨place base width nel.toNat, mem', nel + 1⟩

theorem memcpy_key {dest : UInt64} (hkey : KeyAt mem key dest width k)
    (hdest : Accessible mem dest width.toNat) :
    memcpy mem dest key width = some (dest, patch mem dest k) := by
  have hahead := hkey.ahead
  rw [← hkey.length] at hdest hahead
  exact memcpy_eq hkey.length hkey.holds hdest hahead

theorem lsearch_cases (compar : Compar) (hbase : base ≠ 0) (hroom : Room mem base nel width)
    (hkey : KeyAt mem key (place base width nel.toNat) width k) : ∃ needle r,
      lfind compar mem key base nel width = some needle ∧
      lsearch compar mem key base nel width = some r ∧
      Outcome compar mem key base nel width k needle r := by
  rcases lfind_cases compar mem key base nel width with ⟨i, hfirst, hfind⟩ | ⟨hnone, hfind⟩
  · refine ⟨_, _, hfind, ?_, .found i hfirst⟩
    rw [lsearch, hfind, Option.bind_some,
      if_pos (hroom.place_ne_zero hbase (Nat.le_of_lt hfirst.1))]
  · have hlen : k.length ≤ 2 ^ 64 := by
      rw [hkey.length]
      exact Nat.le_of_lt width.toNat_lt
    refine ⟨_, _, hfind, ?_, .added hnone (patch mem (place base width nel.toNat) k)
      (holds_patch _ _ hlen) fun a ha => patch_outside fun i hi => ha i (hkey.length ▸ hi)⟩
    have hzero : ¬(0 : UInt64) ≠ 0 := not_not.mpr rfl
    rw [lsearch, hfind, Option.bind_some, if_neg hzero, ← place_eq_mul]
    simp only [memcpy_key hkey hroom.accessible, Option.map_some]

end Find

section Grow

variable {compar : Compar} {mem mem' : Mem} {key base nel width : UInt64}
  {es : List (List UInt8)} {k : List UInt8} {E : List UInt8 → List UInt8 → Prop}

/-- In this memory the function compares two objects of the width by their bytes. -/
def Decides (compar : Compar) (E : List UInt8 → List UInt8 → Prop) (width : UInt64) (mem : Mem) :
    Prop :=
  ∀ p q xs ys, Holds mem p xs → Holds mem q ys → xs.length = width.toNat →
    ys.length = width.toNat → (compar mem p q = 0 ↔ E xs ys)

theorem Decides.element (hE : Decides compar E width mem) (h : ArrayAt mem base nel width es)
    {dest : UInt64} (hkey : KeyAt mem key dest width k) {i : Nat} (hi : i < es.length) :
    compar mem key (place base width i) = 0 ↔ E k es[i] :=
  hE _ _ _ _ hkey.holds (h.element hi) hkey.length (h.widths _ (List.getElem_mem hi))

theorem exists_equal_iff (hE : Decides compar E width mem) (h : ArrayAt mem base nel width es)
    {dest : UInt64} (hkey : KeyAt mem key dest width k) :
    NoneEqual compar mem key base nel width ↔ ¬∃ e ∈ es, E k e := by
  constructor
  · rintro hnone ⟨e, he, hke⟩
    obtain ⟨i, hi, rfl⟩ := List.getElem_of_mem he
    exact hnone i (h.count ▸ hi) ((hE.element h hkey hi).mpr hke)
  · intro hnot i hi heq
    rw [h.count] at hi
    exact hnot ⟨es[i], List.getElem_mem hi, (hE.element h hkey hi).mp heq⟩

/-- The array with the key behind it. -/
theorem ArrayAt.append (h : ArrayAt mem base nel width es) (hroom : Room mem base nel width)
    (hlen : k.length = width.toNat) (hcopied : Holds mem' (place base width nel.toNat) k)
    (houtside : ∀ a, (∀ i, i < width.toNat → a ≠ place base width nel.toNat + .ofNat i) →
      mem' a = mem a) : ArrayAt mem' base (nel + 1) width (es ++ [k]) := by
  have hflat : es.flatten.length = nel.toNat * width.toNat := by
    rw [length_flatten h.widths, h.count]
  have hend : (nel.toNat + 1) * width.toNat = nel.toNat * width.toNat + width.toNat := by ring
  have hspace := hroom.inSpace
  constructor
  · exact h.nonnull
  · have hone : (1 : UInt64).toNat = 1 := rfl
    have hcount := hroom.count
    rw [UInt64.toNat_add, hone, Nat.mod_eq_of_lt hcount, h.count, List.length_append,
      List.length_singleton]
  · intro e he
    rcases List.mem_append.mp he with he | he
    · exact h.widths e he
    · rw [List.mem_singleton.mp he, hlen]
  · rw [List.flatten_append, List.flatten_singleton, holds_append, hflat]
    refine ⟨h.holds.congr fun i hi => houtside _ fun j hj heq => ?_, hcopied⟩
    rw [hflat] at hi
    rw [place, add_ofNat_add] at heq
    exact absurd (add_ofNat_inj (by omega) (by omega) heq) (by omega)

/-- `lsearch` inserts the key into the elements. -/
theorem lsearch_inserts [DecidableRel E] (hE : Decides compar E width mem)
    (h : ArrayAt mem base nel width es) (hroom : Room mem base nel width)
    (hkey : KeyAt mem key (place base width nel.toNat) width k) : ∃ r,
      lsearch compar mem key base nel width = some r ∧
      ArrayAt r.mem base r.nel width (insertNew E es k) ∧
      ((∃ e ∈ es, E k e) → r.mem = mem ∧ r.nel = nel) := by
  obtain ⟨needle, r, _, hsearch, houtcome⟩ := lsearch_cases compar h.nonnull hroom hkey
  refine ⟨r, hsearch, ?_⟩
  cases houtcome with
  | found i hfirst =>
    have hfound : ∃ e ∈ es, E k e := by
      rw [← not_not (a := ∃ e ∈ es, E k e), ← exists_equal_iff hE h hkey]
      exact fun hnone => hnone i hfirst.1 hfirst.2.1
    rw [insertNew_of_found hfound]
    exact ⟨h, fun _ => ⟨rfl, rfl⟩⟩
  | added hnone mem' hcopied houtside =>
    have hnew := (exists_equal_iff hE h hkey).mp hnone
    rw [insertNew_of_new hnew]
    exact ⟨h.append hroom hkey.length hcopied houtside, fun hfound => absurd hfound hnew⟩

end Grow

section Run

structure Request where
  mem : Mem
  key : UInt64
  bytes : List UInt8

/-- What the last call has left behind. -/
structure State where
  mem : Mem
  nel : UInt64

variable (compar : Compar) (base width : UInt64) (E : List UInt8 → List UInt8 → Prop)

def step (s : State) (q : Request) : Option State :=
  (lsearch compar q.mem q.key base s.nel width).map fun r => ⟨r.mem, r.nel⟩

/-- Since the last call nobody has touched the elements, and there is room for the key. -/
structure Proper (s : State) (q : Request) : Prop where
  same : ∀ i, i < s.nel.toNat * width.toNat → q.mem (base + .ofNat i) = s.mem (base + .ofNat i)
  room : Room q.mem base s.nel width
  key : KeyAt q.mem q.key (place base width s.nel.toNat) width q.bytes
  decides : Decides compar E width q.mem

variable {compar base width E} {s s' : State} {q : Request} {es : List (List UInt8)}

theorem Proper.arrayAt (hq : Proper compar base width E s q)
    (h : ArrayAt s.mem base s.nel width es) : ArrayAt q.mem base s.nel width es where
  nonnull := h.nonnull
  count := h.count
  widths := h.widths
  holds := h.holds.congr fun i hi => hq.same i (by rwa [length_flatten h.widths, ← h.count] at hi)

theorem step_inserts [DecidableRel E] (hq : Proper compar base width E s q)
    (h : ArrayAt s.mem base s.nel width es) : ∃ s', step compar base width s q = some s' ∧
      ArrayAt s'.mem base s'.nel width (insertNew E es q.bytes) := by
  obtain ⟨r, hsearch, harray, _⟩ := lsearch_inserts hq.decides (hq.arrayAt h) hq.room hq.key
  exact ⟨_, by rw [step, hsearch]; rfl, harray⟩

theorem exec_inserts [DecidableRel E] {qs : List Request}
    (hqs : Along (step compar base width) (Proper compar base width E) s qs)
    (h : ArrayAt s.mem base s.nel width es) : ∃ s', exec (step compar base width) s qs = some s' ∧
      ArrayAt s'.mem base s'.nel width ((qs.map Request.bytes).foldl (insertNew E) es) := by
  induction qs generalizing s es with
  | nil => exact ⟨s, rfl, h⟩
  | cons q qs ih =>
    obtain ⟨m, hm, harray⟩ := step_inserts hqs.1 h
    obtain ⟨s', hs', hall⟩ := ih (hqs.2 m hm) harray
    exact ⟨s', by rw [exec_cons, hm]; exact hs', hall⟩

end Run

/-- What one call does, and what a run of calls builds from the empty array. -/
theorem lfind_lsearch_law (compar : Compar) (base width : UInt64) (hbase : base ≠ 0) :
    (∀ mem key nel k, Room mem base nel width →
      KeyAt mem key (place base width nel.toNat) width k → ∃ needle r,
        lfind compar mem key base nel width = some needle ∧
        lsearch compar mem key base nel width = some r ∧
        Outcome compar mem key base nel width k needle r) ∧
    ∀ (E : List UInt8 → List UInt8 → Prop) [DecidableRel E], Equivalence E → ∀ mem qs,
      Along (step compar base width) (Proper compar base width E) ⟨mem, 0⟩ qs → ∃ s es,
        exec (step compar base width) ⟨mem, 0⟩ qs = some s ∧ ArrayAt s.mem base s.nel width es ∧
        es = firsts E [] (qs.map Request.bytes) ∧ (es.Pairwise fun a b => ¬E a b) ∧
        ∀ q, Proper compar base width E s q → q.bytes ∈ qs.map Request.bytes →
          step compar base width s q = some ⟨q.mem, s.nel⟩ := by
  constructor
  · intro mem key nel k hroom hkey
    exact lsearch_cases compar hbase hroom hkey
  · intro E _ hE mem qs hqs
    have hempty : ArrayAt mem base 0 width [] := ⟨hbase, rfl, nofun, nofun⟩
    obtain ⟨s, hexec, harray⟩ := exec_inserts hqs hempty
    refine ⟨s, _, hexec, harray, foldl_insertNew_nil hE _, pairwise_foldl hE .nil _,
      fun q hq hmem => ?_⟩
    obtain ⟨r, hsearch, _, hsame⟩ :=
      lsearch_inserts hq.decides (hq.arrayAt harray) hq.room hq.key
    obtain ⟨hr, hnel⟩ := hsame (found_of_mem hE hmem)
    rw [step, hsearch, Option.map_some, hr, hnel]

/-- Memory full of fives, in which one of them is inserted into an array of bytes at 16, twice. -/
def five : Request := ⟨fun _ => some 5, 32, [5]⟩

def byteCompar : Compar := fun mem p q => if mem p = mem q then 0 else 1

theorem decides_bytes (mem : Mem) : Decides byteCompar Eq 1 mem := by
  intro p q xs ys hp hq hx hy
  obtain ⟨x, rfl⟩ := List.length_eq_one_iff.mp hx
  obtain ⟨y, rfl⟩ := List.length_eq_one_iff.mp hy
  rw [byteCompar, holds_singleton.mp hp, holds_singleton.mp hq]
  simp

theorem proper_five {m : Mem} {n : UInt64} (hm : m 16 = some 5) (hn : n = 0 ∨ n = 1) :
    Proper byteCompar 16 1 Eq ⟨m, n⟩ five := by
  have hahead : ∀ dest, AheadOf 32 dest (1 : UInt64).toNat := by
    intro dest i j hji hi
    have hone : i < 1 := hi
    omega
  have hroom : n.toNat + 1 < 2 ^ 64 ∧
      (16 : UInt64).toNat + (n.toNat + 1) * (1 : UInt64).toNat < 2 ^ 64 := by
    rcases hn with rfl | rfl <;> decide
  refine ⟨fun i hi => ?_, ⟨hroom.1, hroom.2, fun _ _ => rfl⟩, ⟨fun i hi => ?_, rfl, hahead _⟩,
    decides_bytes _⟩
  · have hle : n.toNat * (1 : UInt64).toNat ≤ 1 := by
      rcases hn with rfl | rfl <;> decide
    have hi' : i < n.toNat * (1 : UInt64).toNat := hi
    obtain rfl : i = 0 := by omega
    exact hm.symm
  · obtain rfl : i = 0 := Nat.lt_one_iff.mp hi
    rfl

theorem lfind_lsearch_law_five : ∃ s, exec (step byteCompar 16 1) ⟨five.mem, 0⟩ [five, five] =
    some s ∧ s.nel = 1 := by
  have hqs : Along (step byteCompar 16 1) (Proper byteCompar 16 1 Eq) ⟨five.mem, 0⟩
      [five, five] := by
    refine ⟨proper_five rfl (.inl rfl), fun s hs => ⟨?_, fun _ _ => trivial⟩⟩
    obtain ⟨s', hs', harray⟩ := step_inserts (proper_five rfl (.inl rfl))
      (⟨by decide, rfl, nofun, nofun⟩ : ArrayAt five.mem 16 0 1 [])
    obtain rfl := Option.some.inj (hs.symm.trans hs')
    exact proper_five (holds_singleton.mp harray.holds) (.inr (UInt64.toNat_inj.mp harray.count))
  obtain ⟨s, es, hexec, harray, hes, _⟩ :=
    (lfind_lsearch_law byteCompar 16 1 (by decide)).2 Eq eq_equivalence five.mem [five, five] hqs
  have hone : es = [[5]] := hes.trans (by decide)
  have hcount := harray.count
  rw [hone] at hcount
  exact ⟨s, hexec, UInt64.toNat_inj.mp hcount⟩

end LinearSearch
