import Mathlib.Data.List.Basic

/-!
# Words in a memory of bytes

A word is eight bytes, the least significant one first. Addresses go round: two
words are apart when neither begins within the eight bytes of the other.
-/

namespace WordMemory

abbrev Memory := UInt64 → UInt8

def load64 (mem : Memory) (a : UInt64) : UInt64 :=
  .ofBitVec ((mem (a + 7)).toBitVec ++ (mem (a + 6)).toBitVec ++ (mem (a + 5)).toBitVec ++
    (mem (a + 4)).toBitVec ++ (mem (a + 3)).toBitVec ++ (mem (a + 2)).toBitVec ++
    (mem (a + 1)).toBitVec ++ (mem a).toBitVec)

def store64 (mem : Memory) (a v : UInt64) : Memory := fun b =>
  if b - a < 8 then .ofBitVec (v.toBitVec.extractLsb' (8 * (b - a).toNat) 8) else mem b

/-- Address `b` is one of the `n` bytes from `a` on. -/
def Within (a n b : UInt64) : Prop := b - a < n

def Apart (a b : UInt64) : Prop := 8 ≤ a - b ∧ 8 ≤ b - a

instance (a n b : UInt64) : Decidable (Within a n b) := inferInstanceAs (Decidable (_ < _))

instance (a b : UInt64) : Decidable (Apart a b) := inferInstanceAs (Decidable (_ ∧ _))

variable {mem mem' : Memory} {a b v : UInt64}

theorem Apart.symm (h : Apart a b) : Apart b a := ⟨h.2, h.1⟩

theorem add_sub_self (a k : UInt64) : a + k - a = k := by
  rw [UInt64.add_comm, UInt64.add_sub_cancel]

/-- Words at two offsets from one address. -/
theorem apart_add {x y : UInt64} (h : Apart x y) (a : UInt64) : Apart (a + x) (a + y) := by
  have hsub : ∀ x y : UInt64, a + x - (a + y) = x - y := by
    intro x y
    apply UInt64.toNat_inj.mp
    simp only [UInt64.toNat_sub, UInt64.toNat_add]
    have ha := a.toNat_lt
    have hx := x.toNat_lt
    have hy := y.toNat_lt
    omega
  rwa [Apart, hsub, hsub]

theorem store64_within {k : UInt64} (hk : k < 8) : store64 mem a v (a + k) =
    .ofBitVec (v.toBitVec.extractLsb' (8 * k.toNat) 8) := by
  rw [store64, add_sub_self, if_pos hk]

theorem store64_outside (h : ¬Within a 8 b) : store64 mem a v b = mem b := if_neg h

theorem load64_congr (h : ∀ k : UInt64, k < 8 → mem' (a + k) = mem (a + k)) :
    load64 mem' a = load64 mem a := by
  have h₀ : mem' a = mem a := by
    have := h 0 (by decide)
    rwa [UInt64.add_zero] at this
  rw [load64, h 7 (by decide), h 6 (by decide), h 5 (by decide), h 4 (by decide), h 3 (by decide),
    h 2 (by decide), h 1 (by decide), h₀, load64]

@[simp] theorem load64_store64 (mem : Memory) (a v : UInt64) :
    load64 (store64 mem a v) a = v := by
  have h₀ : store64 mem a v a = .ofBitVec (v.toBitVec.extractLsb' 0 8) := by
    have hzero : store64 mem a v (a + 0) = .ofBitVec (v.toBitVec.extractLsb' 0 8) :=
      store64_within (by decide)
    rwa [UInt64.add_zero] at hzero
  rw [load64, store64_within (by decide), store64_within (by decide), store64_within (by decide),
    store64_within (by decide), store64_within (by decide), store64_within (by decide),
    store64_within (by decide), h₀]
  apply UInt64.toBitVec_inj.mp
  change BitVec.extractLsb' 56 8 v.toBitVec ++ BitVec.extractLsb' 48 8 v.toBitVec ++
    BitVec.extractLsb' 40 8 v.toBitVec ++ BitVec.extractLsb' 32 8 v.toBitVec ++
    BitVec.extractLsb' 24 8 v.toBitVec ++ BitVec.extractLsb' 16 8 v.toBitVec ++
    BitVec.extractLsb' 8 8 v.toBitVec ++ BitVec.extractLsb' 0 8 v.toBitVec = v.toBitVec
  iterate 7 rw [BitVec.extractLsb'_append_extractLsb'_eq_extractLsb']
  · exact BitVec.extractLsb'_eq_self
  all_goals rfl

theorem not_within_of_apart (h : Apart a b) {k : UInt64} (hk : k < 8) : ¬Within b 8 (a + k) := by
  intro hin
  obtain ⟨h₁, h₂⟩ := h
  rw [Within] at hin
  rw [UInt64.lt_iff_toNat_lt] at hin hk
  rw [UInt64.le_iff_toNat_le] at h₁ h₂
  rw [UInt64.toNat_sub] at hin h₁ h₂
  rw [UInt64.toNat_add] at hin
  have h8 : (8 : UInt64).toNat = 8 := rfl
  have ha := a.toNat_lt
  have hb := b.toNat_lt
  omega

/-- A store leaves the words that are apart from it. -/
theorem load64_store64_of_apart (h : Apart a b) : load64 (store64 mem b v) a = load64 mem a :=
  load64_congr fun _ hk => store64_outside (not_within_of_apart h hk)

theorem load64_store64_add {x y : UInt64} (h : Apart x y) :
    load64 (store64 mem (a + y) v) (a + x) = load64 mem (a + x) :=
  load64_store64_of_apart (apart_add h a)

/-- A word inside a region of `n` bytes. -/
theorem store64_outside_region {n k : UInt64} (hk : k.toNat + 8 ≤ n.toNat) (h : ¬Within a n b) :
    store64 mem (a + k) v b = mem b := by
  apply store64_outside
  intro hin
  apply h
  rw [Within, UInt64.lt_iff_toNat_lt, UInt64.toNat_sub] at hin ⊢
  rw [UInt64.toNat_add] at hin
  have h8 : (8 : UInt64).toNat = 8 := rfl
  have ha := a.toNat_lt
  have hb := b.toNat_lt
  have hn := n.toNat_lt
  omega

/-- Words stored one after another, each at its offset. -/
def storeAll (mem : Memory) (a : UInt64) (ws : List (UInt64 × UInt64)) : Memory :=
  ws.foldl (fun mem w => store64 mem (a + w.1) w.2) mem

theorem load64_storeAll_of_apart {x : UInt64} {ws : List (UInt64 × UInt64)}
    (h : ∀ w ∈ ws, Apart x w.1) : load64 (storeAll mem a ws) (a + x) = load64 mem (a + x) := by
  induction ws generalizing mem with
  | nil => rfl
  | cons w ws ih =>
    rw [storeAll, List.foldl_cons, ← storeAll, ih fun u hu => h u (List.mem_cons_of_mem w hu)]
    exact load64_store64_add (h w List.mem_cons_self)

theorem load64_storeAll {ws : List (UInt64 × UInt64)} {w : UInt64 × UInt64}
    (hapart : ws.Pairwise fun u w => Apart u.1 w.1) (hw : w ∈ ws) :
    load64 (storeAll mem a ws) (a + w.1) = w.2 := by
  induction ws generalizing mem with
  | nil => cases hw
  | cons u ws ih =>
    obtain ⟨hu, hws⟩ := List.pairwise_cons.mp hapart
    rw [storeAll, List.foldl_cons, ← storeAll]
    rcases List.mem_cons.mp hw with rfl | hw
    · rw [load64_storeAll_of_apart hu, load64_store64]
    · exact ih hws hw

theorem storeAll_outside {n : UInt64} {ws : List (UInt64 × UInt64)}
    (hws : ∀ w ∈ ws, w.1.toNat + 8 ≤ n.toNat) (h : ¬Within a n b) :
    storeAll mem a ws b = mem b := by
  induction ws generalizing mem with
  | nil => rfl
  | cons w ws ih =>
    rw [storeAll, List.foldl_cons, ← storeAll, ih fun u hu => hws u (List.mem_cons_of_mem w hu)]
    exact store64_outside_region (hws w List.mem_cons_self) h

/-- A word inside a region that stays as it is. -/
theorem load64_congr_region {n x : UInt64} (hx : x.toNat + 8 ≤ n.toNat)
    (h : ∀ b, Within a n b → mem' b = mem b) : load64 mem' (a + x) = load64 mem (a + x) := by
  refine load64_congr fun k hk => h _ ?_
  have h8 : (8 : UInt64).toNat = 8 := rfl
  have hn := n.toNat_lt
  rw [UInt64.lt_iff_toNat_lt] at hk
  rw [Within, UInt64.add_assoc, add_sub_self, UInt64.lt_iff_toNat_lt, UInt64.toNat_add]
  omega

section Words

/-- An array of words. -/
def Words (mem : Memory) (a : UInt64) (ws : List UInt64) : Prop :=
  ∀ (i : Nat) w, ws[i]? = some w → load64 mem (a + 8 * .ofNat i) = w

theorem words_congr {n : UInt64} {ws : List UInt64} (hn : 8 * ws.length ≤ n.toNat)
    (hsame : ∀ b, Within a n b → mem' b = mem b) (h : Words mem a ws) : Words mem' a ws := by
  intro i w hi
  have hlt := (List.getElem?_eq_some_iff.mp hi).1
  refine (load64_congr fun k hk => hsame _ ?_).trans (h i w hi)
  have h8 : (8 : UInt64).toNat = 8 := rfl
  have hnlt := n.toNat_lt
  rw [UInt64.lt_iff_toNat_lt] at hk
  rw [Within, UInt64.add_assoc, add_sub_self, UInt64.lt_iff_toNat_lt, UInt64.toNat_add,
    UInt64.toNat_mul, UInt64.toNat_ofNat', h8]
  omega

theorem words_append {ws vs : List UInt64} : Words mem a (ws ++ vs) ↔
    Words mem a ws ∧ Words mem (a + 8 * .ofNat ws.length) vs := by
  constructor
  · intro h
    refine ⟨fun i w hi => h i w ?_, fun i w hi => ?_⟩
    · rw [List.getElem?_append_left (List.getElem?_eq_some_iff.mp hi).1, hi]
    · have hlater := h (ws.length + i) w (by
        rw [List.getElem?_append_right (Nat.le_add_right ..), Nat.add_sub_cancel_left, hi])
      rwa [UInt64.ofNat_add, UInt64.mul_add, ← UInt64.add_assoc] at hlater
  · rintro ⟨h, h'⟩ i w hi
    by_cases hlt : i < ws.length
    · exact h i w (by rwa [List.getElem?_append_left hlt] at hi)
    · rw [List.getElem?_append_right (Nat.not_lt.mp hlt)] at hi
      have hlater := h' _ w hi
      rwa [UInt64.add_assoc, ← UInt64.mul_add, ← UInt64.ofNat_add,
        Nat.add_sub_of_le (Nat.not_lt.mp hlt)] at hlater

end Words

end WordMemory
