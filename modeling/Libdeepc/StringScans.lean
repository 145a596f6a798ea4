import Libdeepc.StringFunctions
import Libdeepc.StringTokens
import Mathlib.Data.List.Basic

/-!
# The scans of string.c

`memchr`, `strchr`, `strrchr` and `strpbrk` walk through bytes until they know
the answer. Which byte that is, and that no byte behind it is looked at.
-/

namespace StringScans

open ByteMemory StringFunctions

section Code

/-- `e` is where the bytes end, and `needle` is `(unsigned char)ch`. -/
def memchrLoop (mem : Mem) (needle : UInt8) (e : UInt64) : Nat → UInt64 → Option UInt64
  | 0, _ => none
  | fuel + 1, haystack =>
    if haystack = e then some 0
    else (mem haystack).bind fun b =>
      if b = needle then some haystack else memchrLoop mem needle e fuel (haystack + 1)

def memchr (mem : Mem) (ptr : UInt64) (needle : UInt8) (count : UInt64) : Option UInt64 :=
  memchrLoop mem needle (ptr + count) rounds ptr

/-- `c` is `(char)ch`. -/
def strrchrLoop (mem : Mem) (c : UInt8) : Nat → UInt64 → UInt64 → Option UInt64
  | 0, _, _ => none
  | fuel + 1, str, ret => (mem str).bind fun d =>
    let ret := if d = c then str else ret
    if d = 0 then some ret else strrchrLoop mem c fuel (str + 1) ret

def strrchr (mem : Mem) (str : UInt64) (c : UInt8) : Option UInt64 :=
  strrchrLoop mem c rounds str 0

/-- The inner loop of `strcspn`: is `c` there before the terminator? -/
def rejectsLoop (mem : Mem) (c : UInt8) : Nat → UInt64 → Option Bool
  | 0, _ => none
  | fuel + 1, sr => (mem sr).bind fun s =>
    if s = 0 then some false
    else if s = c then some true
    else rejectsLoop mem c fuel (sr + 1)

def strcspnLoop (mem : Mem) (dest src : UInt64) : Nat → UInt64 → Option UInt64
  | 0, _ => none
  | fuel + 1, d => (mem d).bind fun c =>
    if c = 0 then some (d - dest)
    else (rejectsLoop mem c rounds src).bind fun found =>
      if found then some (d - dest) else strcspnLoop mem dest src fuel (d + 1)

def strcspn (mem : Mem) (dest src : UInt64) : Option UInt64 := strcspnLoop mem dest src rounds dest

def strpbrk (mem : Mem) (dest breakset : UInt64) : Option UInt64 :=
  (strcspn mem dest breakset).bind fun len =>
    let dest := dest + len
    (mem dest).map fun c => if c = 0 then 0 else dest

end Code

/-- The first of these bytes that `good` asks for, or NULL when there is none. -/
def FirstWhere (good : UInt8 → Prop) (p : UInt64) (bs : List UInt8) (ret : UInt64) : Prop :=
  (∃ pre b post, bs = pre ++ b :: post ∧ good b ∧ (∀ x ∈ pre, ¬good x) ∧
    ret = p + .ofNat pre.length) ∨ (ret = 0 ∧ ∀ x ∈ bs, ¬good x)

/-- The last of them. -/
def LastWhere (good : UInt8 → Prop) (p : UInt64) (bs : List UInt8) (ret : UInt64) : Prop :=
  (∃ pre b post, bs = pre ++ b :: post ∧ good b ∧ (∀ x ∈ post, ¬good x) ∧
    ret = p + .ofNat pre.length) ∨ (ret = 0 ∧ ∀ x ∈ bs, ¬good x)

variable {mem : Mem} {p q : UInt64} {c : UInt8} {bs t u : List UInt8} {good : UInt8 → Prop}
  {ret : UInt64}

theorem FirstWhere.cons (h : FirstWhere good (p + 1) bs ret) {b : UInt8} (hb : ¬good b) :
    FirstWhere good p (b :: bs) ret := by
  rcases h with ⟨pre, d, post, rfl, hd, hpre, rfl⟩ | ⟨rfl, hnone⟩
  · refine .inl ⟨b :: pre, d, post, rfl, hd, List.forall_mem_cons.mpr ⟨hb, hpre⟩, ?_⟩
    exact add_one_add_ofNat p pre.length
  · exact .inr ⟨rfl, List.forall_mem_cons.mpr ⟨hb, hnone⟩⟩

theorem firstWhere_head {b : UInt8} (hb : good b) : FirstWhere good p (b :: bs) p :=
  .inl ⟨[], b, bs, rfl, hb, fun _ hx => absurd hx List.not_mem_nil, (add_ofNat_zero p).symm⟩

section Memchr

/-- The bytes may end before `e` where the needle stands among them. -/
theorem memchrLoop_spec {n : Nat} (h : Holds mem p bs) (hn : n < 2 ^ 64) (hlen : bs.length ≤ n)
    (hc : bs.length = n ∨ c ∈ bs) {fuel : Nat} (hfuel : bs.length < fuel) :
    ∃ ret, memchrLoop mem c (p + .ofNat n) fuel p = some ret ∧ FirstWhere (· = c) p bs ret := by
  induction bs generalizing p n fuel with
  | nil =>
    obtain ⟨fuel, rfl⟩ := Nat.exists_eq_succ_of_ne_zero (Nat.ne_of_gt hfuel)
    have hzero : n = 0 := (hc.resolve_right List.not_mem_nil).symm
    subst hzero
    rw [add_ofNat_zero, memchrLoop, if_pos rfl]
    exact ⟨0, rfl, .inr ⟨rfl, fun x hx => absurd hx List.not_mem_nil⟩⟩
  | cons b bs ih =>
    obtain ⟨fuel, rfl⟩ := Nat.exists_eq_succ_of_ne_zero (by omega : fuel ≠ 0)
    rw [List.length_cons] at hlen hfuel hc
    obtain ⟨n, rfl⟩ := Nat.exists_eq_succ_of_ne_zero (by omega : n ≠ 0)
    obtain ⟨hb, hrest⟩ := holds_cons.mp h
    have hmore : p ≠ p + .ofNat (n + 1) := by
      intro heq
      have hzero : p + .ofNat 0 = p + .ofNat (n + 1) := by rwa [add_ofNat_zero]
      exact absurd (add_ofNat_inj (by omega) hn hzero) (by omega)
    rw [memchrLoop, if_neg hmore, hb, Option.bind_some]
    by_cases hbc : b = c
    · rw [if_pos hbc]
      exact ⟨p, rfl, firstWhere_head hbc⟩
    · rw [if_neg hbc, ← add_one_add_ofNat]
      have hc' : bs.length = n ∨ c ∈ bs := by
        rcases hc with heq | hmem
        · exact .inl (by omega)
        · exact .inr ((List.mem_cons.mp hmem).resolve_left (Ne.symm hbc))
      obtain ⟨ret, hret, hfirst⟩ := ih hrest (by omega) (by omega : bs.length ≤ n) hc'
        (by omega : bs.length < fuel)
      exact ⟨ret, hret, hfirst.cons hbc⟩

theorem memchr_spec {count : UInt64} (h : Holds mem p bs) (hlen : bs.length ≤ count.toNat)
    (hc : bs.length = count.toNat ∨ c ∈ bs) :
    ∃ ret, memchr mem p c count = some ret ∧ FirstWhere (· = c) p bs ret := by
  have hspec := memchrLoop_spec h count.toNat_lt hlen hc
    (lt_of_le_of_lt hlen count.toNat_lt : bs.length < rounds)
  rwa [UInt64.ofNat_toNat] at hspec

end Memchr

section Strings

theorem strchrLoop_first (h : Holds mem p (t ++ [0])) (hz : 0 ∉ t) {fuel : Nat}
    (hfuel : t.length < fuel) : ∃ ret, strchrLoop mem c fuel p = some ret ∧
      FirstWhere (· = c) p (t ++ [0]) ret := by
  induction t generalizing p fuel with
  | nil =>
    obtain ⟨fuel, rfl⟩ := Nat.exists_eq_succ_of_ne_zero (Nat.ne_of_gt hfuel)
    rw [strchrLoop, holds_singleton.mp h, Option.bind_some]
    by_cases hc : 0 = c
    · rw [if_pos hc]
      exact ⟨p, rfl, firstWhere_head hc⟩
    · rw [if_neg hc, if_pos rfl]
      refine ⟨0, rfl, .inr ⟨rfl, fun x hx => ?_⟩⟩
      rwa [List.mem_singleton.mp hx]
  | cons d t ih =>
    obtain ⟨fuel, rfl⟩ := Nat.exists_eq_succ_of_ne_zero (by omega : fuel ≠ 0)
    rw [List.length_cons] at hfuel
    rw [List.cons_append, holds_cons] at h
    rw [List.mem_cons, not_or] at hz
    rw [strchrLoop, h.1, Option.bind_some]
    by_cases hc : d = c
    · rw [if_pos hc]
      exact ⟨p, rfl, firstWhere_head hc⟩
    · obtain ⟨ret, hret, hfirst⟩ := ih h.2 hz.2 (by omega : t.length < fuel)
      rw [if_neg hc, if_neg (Ne.symm hz.1)]
      exact ⟨ret, hret, hfirst.cons hc⟩

/-- `ret` is what the bytes before these have given. -/
theorem strrchrLoop_last (h : Holds mem p (t ++ [0])) (hz : 0 ∉ t) {fuel : Nat}
    (hfuel : t.length < fuel) (ret : UInt64) : ∃ ret', strrchrLoop mem c fuel p ret = some ret' ∧
      ((∃ pre b post, t ++ [0] = pre ++ b :: post ∧ b = c ∧ (∀ x ∈ post, x ≠ c) ∧
          ret' = p + .ofNat pre.length) ∨ (ret' = ret ∧ ∀ x ∈ t ++ [0], x ≠ c)) := by
  induction t generalizing p fuel ret with
  | nil =>
    obtain ⟨fuel, rfl⟩ := Nat.exists_eq_succ_of_ne_zero (Nat.ne_of_gt hfuel)
    rw [strrchrLoop, holds_singleton.mp h, Option.bind_some, if_pos rfl]
    refine ⟨_, rfl, ?_⟩
    by_cases hc : 0 = c
    · rw [if_pos hc]
      exact .inl ⟨[], 0, [], rfl, hc, fun x hx => absurd hx List.not_mem_nil,
        (add_ofNat_zero p).symm⟩
    · rw [if_neg hc]
      refine .inr ⟨rfl, fun x hx => ?_⟩
      rwa [List.mem_singleton.mp hx]
  | cons d t ih =>
    obtain ⟨fuel, rfl⟩ := Nat.exists_eq_succ_of_ne_zero (by omega : fuel ≠ 0)
    rw [List.length_cons] at hfuel
    rw [List.cons_append, holds_cons] at h
    rw [List.mem_cons, not_or] at hz
    obtain ⟨ret', hret, hlast⟩ := ih h.2 hz.2 (by omega : t.length < fuel)
      (if d = c then p else ret)
    rw [strrchrLoop, h.1, Option.bind_some, if_neg (Ne.symm hz.1)]
    refine ⟨ret', hret, ?_⟩
    rcases hlast with ⟨pre, b, post, heq, hb, hpost, rfl⟩ | ⟨rfl, hnone⟩
    · refine .inl ⟨d :: pre, b, post, ?_, hb, hpost, add_one_add_ofNat p pre.length⟩
      rw [List.cons_append, heq, List.cons_append]
    · by_cases hc : d = c
      · rw [if_pos hc]
        exact .inl ⟨[], d, t ++ [0], rfl, hc, hnone, (add_ofNat_zero p).symm⟩
      · rw [if_neg hc]
        exact .inr ⟨rfl, List.forall_mem_cons.mpr ⟨hc, hnone⟩⟩

theorem rejectsLoop_eq_list (h : Holds mem q (u ++ [0])) (ys : List UInt8) {fuel : Nat}
    (hfuel : u.length < fuel) :
    rejectsLoop mem c fuel q = StringTokens.rejects c (u ++ 0 :: ys) := by
  induction u generalizing q fuel with
  | nil =>
    obtain ⟨fuel, rfl⟩ := Nat.exists_eq_succ_of_ne_zero (Nat.ne_of_gt hfuel)
    rw [rejectsLoop, holds_singleton.mp h]
    rfl
  | cons s u ih =>
    obtain ⟨fuel, rfl⟩ := Nat.exists_eq_succ_of_ne_zero (by omega : fuel ≠ 0)
    rw [List.length_cons] at hfuel
    rw [List.cons_append, holds_cons] at h
    rw [rejectsLoop, h.1, Option.bind_some, List.cons_append, StringTokens.rejects,
      ih h.2 (by omega)]

theorem strcspnLoop_eq_list (hu : TextAt mem q u) (dest : UInt64) (xs ys : List UInt8)
    (h : Holds mem p (t ++ [0])) {fuel : Nat} (hfuel : t.length < fuel) :
    strcspnLoop mem dest q fuel p =
      (StringTokens.strcspn (t ++ 0 :: xs) (u ++ 0 :: ys)).map fun n => p + .ofNat n - dest := by
  induction t generalizing p fuel with
  | nil =>
    obtain ⟨fuel, rfl⟩ := Nat.exists_eq_succ_of_ne_zero (Nat.ne_of_gt hfuel)
    rw [strcspnLoop, holds_singleton.mp h, Option.bind_some, if_pos rfl, List.nil_append,
      StringTokens.strcspn, if_pos rfl, Option.map_some, add_ofNat_zero]
  | cons c t ih =>
    obtain ⟨fuel, rfl⟩ := Nat.exists_eq_succ_of_ne_zero (by omega : fuel ≠ 0)
    rw [List.length_cons] at hfuel
    rw [List.cons_append, holds_cons] at h
    have hinner : rejectsLoop mem c rounds q = StringTokens.rejects c (u ++ 0 :: ys) :=
      rejectsLoop_eq_list hu.holds ys (Nat.lt_of_succ_lt hu.length_lt)
    rw [strcspnLoop, h.1, Option.bind_some, List.cons_append, StringTokens.strcspn, hinner]
    by_cases hc : c = 0
    · rw [if_pos hc, if_pos hc, Option.map_some, add_ofNat_zero]
    · rw [if_neg hc, if_neg hc, Option.map_bind]
      refine Option.bind_congr fun found _ => ?_
      cases found with
      | true => simp only [if_true, Function.comp_apply, Option.map_some, add_ofNat_zero]
      | false =>
        simp only [Bool.false_eq_true, if_false, Function.comp_apply, Option.map_map]
        rw [ih h.2 (by omega)]
        refine congrArg (Option.map · _) (funext fun n => ?_)
        rw [Function.comp_apply, ← add_one_add_ofNat]

/-- On memory that holds the two strings it is the function on what their pointers see. -/
theorem strcspn_eq_list (ht : TextAt mem p t) (hu : TextAt mem q u) (xs ys : List UInt8) :
    strcspn mem p q = (StringTokens.strcspn (t ++ 0 :: xs) (u ++ 0 :: ys)).map UInt64.ofNat := by
  have hloop := strcspnLoop_eq_list hu p xs ys ht.holds
    (Nat.lt_of_succ_lt ht.length_lt : t.length < rounds)
  rw [strcspn, hloop]
  refine congrArg (Option.map · _) (funext fun n => ?_)
  rw [UInt64.add_comm, UInt64.add_sub_cancel]

theorem strpbrk_spec (ht : TextAt mem p t) (hu : TextAt mem q u) :
    ∃ ret, strpbrk mem p q = some ret ∧ FirstWhere (· ∈ u) p t ret := by
  have hcspn : strcspn mem p q = some (.ofNat (t.takeWhile (· ∉ u)).length) := by
    rw [strcspn_eq_list ht hu [] [], StringTokens.strcspn_eq ht.noZero hu.noZero, Option.map_some]
  have hpre : ∀ x ∈ t.takeWhile (· ∉ u), x ∉ u := fun x hx => by
    simpa using List.mem_takeWhile_imp hx
  have hsplit : t.takeWhile (· ∉ u) ++ t.dropWhile (· ∉ u) = t := List.takeWhile_append_dropWhile
  have hall := ht.holds
  have hfirst := List.head?_dropWhile_not (fun x => decide (x ∉ u)) t
  simp only [strpbrk, hcspn, Option.bind_some]
  cases hpost : t.dropWhile (· ∉ u) with
  | nil =>
    rw [hpost, List.append_nil] at hsplit
    rw [hsplit] at hpre ⊢
    rw [holds_append, holds_singleton] at hall
    rw [hall.2, Option.map_some, if_pos rfl]
    exact ⟨0, rfl, .inr ⟨rfl, hpre⟩⟩
  | cons b post =>
    rw [hpost] at hsplit hfirst
    have hb : b ∈ u := by simpa using hfirst
    have hne : b ≠ 0 := fun hzero => hu.noZero (hzero ▸ hb)
    rw [← hsplit, List.append_assoc, holds_append, List.cons_append, holds_cons] at hall
    rw [hall.2.1, Option.map_some, if_neg hne]
    exact ⟨_, rfl, .inl ⟨_, b, post, hsplit.symm, hb, hpre, rfl⟩⟩

end Strings

/-- The scans return the first byte that they look for, `strrchr` the last one, and NULL when there
is none. The bytes that are given here are the only ones that are read: `memchr` needs none behind
its needle. -/
theorem scans_find (mem : Mem) (p : UInt64) (c : UInt8) :
    (∀ (bs : List UInt8) (count : UInt64), Holds mem p bs → bs.length ≤ count.toNat →
        (bs.length = count.toNat ∨ c ∈ bs) →
      ∃ ret, memchr mem p c count = some ret ∧ FirstWhere (· = c) p bs ret) ∧
    ∀ t, TextAt mem p t →
      (∃ ret, strchr mem p c = some ret ∧ FirstWhere (· = c) p (t ++ [0]) ret) ∧
      (∃ ret, strrchr mem p c = some ret ∧ LastWhere (· = c) p (t ++ [0]) ret) ∧
      ∀ q u, TextAt mem q u →
        ∃ ret, strpbrk mem p q = some ret ∧ FirstWhere (· ∈ u) p t ret := by
  refine ⟨fun bs count h hlen hc => memchr_spec h hlen hc, fun t ht => ⟨?_, ?_, fun q u hu => ?_⟩⟩
  · exact strchrLoop_first ht.holds ht.noZero (Nat.lt_of_succ_lt ht.length_lt)
  · exact strrchrLoop_last ht.holds ht.noZero (Nat.lt_of_succ_lt ht.length_lt) 0
  · exact strpbrk_spec ht hu

/-- `abca` at 16 and `xc` at 32. -/
def shelf : Mem := fun p =>
  ([(16, 97), (17, 98), (18, 99), (19, 97), (20, 0), (32, 120), (33, 99), (34, 0)] :
    List (UInt64 × UInt8)).lookup p

theorem scans_find_shelf :
    (∃ ret, memchr shelf 16 97 3 = some ret ∧ FirstWhere (· = 97) 16 [97] ret) ∧
      (∃ ret, strrchr shelf 16 97 = some ret ∧
        LastWhere (· = 97) 16 ([97, 98, 99, 97] ++ [0]) ret) ∧
      ∃ ret, strpbrk shelf 16 32 = some ret ∧
        FirstWhere (· ∈ [120, 99]) 16 [97, 98, 99, 97] ret := by
  obtain ⟨hmemchr, hstrings⟩ := scans_find shelf 16 97
  obtain ⟨_, hlast, hpbrk⟩ := hstrings [97, 98, 99, 97]
    ⟨by decide, by decide, by decide, by decide⟩
  exact ⟨hmemchr [97] 3 (by decide) (by decide) (by decide), hlast,
    hpbrk 32 [120, 99] ⟨by decide, by decide, by decide, by decide⟩⟩

end StringScans
