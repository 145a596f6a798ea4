import Libdeepc.SubstringSearch

/-!
# Copies with an `int` index

The copying functions count in `size_t` and index with an `int`. As long as the index
does not have to pass `INT_MAX` they write what they should and nothing else. Past it
the index overflows.
-/

namespace StringCopy

open ByteMemory StringFunctions SubstringSearch

variable {mem : Mem} {dest src : UInt64} {t u bs : List UInt8}

/-- The ranges have no address in common, as `restrict` promises. -/
def Separate (p : UInt64) (m : Nat) (q : UInt64) (n : Nat) : Prop :=
  ∀ i j, i < m → j < n → p + .ofNat i ≠ q + .ofNat j

section Loops

theorem nextIndex_of_lt {i : Nat} (h : i + 1 < 2 ^ 31) : nextIndex i = some (i + 1) :=
  if_pos (by rw [MachineInt.intMax]; omega)

theorem nextIndex_of_le {i : Nat} (h : 2 ^ 31 ≤ i + 1) : nextIndex i = none :=
  if_neg (by rw [MachineInt.intMax]; omega)

/-- The first `m` characters are copied, unless the index overflows on the way. -/
theorem copyWhile_eq {σ : Type} (more : σ → Bool) (less : σ → σ) (s : σ) {m : Nat}
    (hsrc : TextAt mem src t) (hdest : Accessible mem dest m) (hm : m ≤ t.length)
    (hsep : Separate src (t.length + 1) dest m) (hmore : ∀ k, k < m → more (less^[k] s) = true)
    (hstop : m = t.length ∨ more (less^[m] s) = false) {k fuel : Nat} (hk : k ≤ m)
    (hindex : k < 2 ^ 31) (hfuel : m - k < fuel) :
    copyWhile more less dest src fuel (patch mem dest (t.take k)) k (less^[k] s) =
      if m < 2 ^ 31 then some (patch mem dest (t.take m), m, less^[m] s) else none := by
  induction fuel generalizing k with
  | zero => omega
  | succ fuel ih =>
    have hspace := hsrc.length_lt
    have htake : (t.take k).length = k := List.length_take_of_le (by omega)
    have hread : ∀ {c}, mem (src + .ofNat k) = some c →
        patch mem dest (t.take k) (src + .ofNat k) = some c := by
      intro c hc
      rw [patch_outside fun j hj => hsep k j (by omega) (by omega), hc]
    rw [copyWhile]
    rcases Nat.lt_or_eq_of_le hk with hlt | rfl
    · have hne : t[k] ≠ 0 := fun h0 => hsrc.noZero (h0 ▸ List.getElem_mem (by omega))
      have hwrite : put (patch mem dest (t.take k)) (dest + .ofNat k) t[k] =
          some (patch mem dest (t.take (k + 1))) := by
        have hput := put_patch mem dest (t.take k) t[k] (by omega)
          (by rw [htake]; exact hdest k hlt)
        rwa [htake, List.take_append_getElem] at hput
      rw [hread (hsrc.text k (by omega)), Option.bind_some, if_pos ⟨hne, hmore k hlt⟩, hwrite,
        Option.bind_some]
      rcases Nat.lt_or_ge (k + 1) (2 ^ 31) with hi | hi
      · rw [nextIndex_of_lt hi, Option.bind_some, ← Function.iterate_succ_apply' less k s]
        exact ih hlt hi (by omega)
      · rw [nextIndex_of_le hi, if_neg (by omega)]
        rfl
    · rw [if_pos hindex]
      rcases hstop with rfl | hstop
      · rw [hread hsrc.nul, Option.bind_some, if_neg fun h => h.1 rfl]
      · rcases Nat.lt_or_eq_of_le hm with hlt | rfl
        · rw [hread (hsrc.text k hlt), Option.bind_some, if_neg (by simp [hstop])]
        · rw [hread hsrc.nul, Option.bind_some, if_neg fun h => h.1 rfl]

theorem copyText_eq (hsrc : TextAt mem src t) (hdest : Accessible mem dest t.length)
    (hsep : Separate src (t.length + 1) dest t.length) :
    copyText mem dest src =
      if t.length < 2 ^ 31 then some (patch mem dest t, t.length) else none := by
  have hfuel : t.length - 0 < rounds := Nat.lt_of_succ_lt hsrc.length_lt
  have hloop := copyWhile_eq (fun _ : Unit => true) id () hsrc hdest (Nat.le_refl _) hsep
    (fun _ _ => rfl) (.inl rfl) (Nat.zero_le _) (by omega) hfuel
  rw [List.take_zero, patch_nil, List.take_length] at hloop
  rw [copyText]
  change Option.map _ (copyWhile _ _ _ _ _ _ _ (id^[0] ())) = _
  rw [hloop]
  split <;> rfl

theorem iterate_pred (count : UInt64) (k : Nat) :
    (fun count : UInt64 => count - 1)^[k] count = count - .ofNat k := by
  induction k with
  | zero => exact (UInt64.sub_zero count).symm
  | succ k ih =>
    rw [Function.iterate_succ_apply', ih, UInt64.ofNat_add]
    change _ = count - (.ofNat k + 1)
    grind

theorem toNat_sub_ofNat {count : UInt64} {k : Nat} (h : k ≤ count.toNat) :
    (count - .ofNat k).toNat = count.toNat - k := by
  have hk : (UInt64.ofNat k).toNat = k := by
    rw [UInt64.toNat_ofNat', Nat.mod_eq_of_lt (Nat.lt_of_le_of_lt h count.toNat_lt)]
  rw [UInt64.toNat_sub_of_le _ _ (UInt64.le_iff_toNat_le.mpr (hk.symm ▸ h)), hk]

theorem copyBounded_eq (count : UInt64) (hsrc : TextAt mem src t)
    (hdest : Accessible mem dest (min t.length count.toNat))
    (hsep : Separate src (t.length + 1) dest (min t.length count.toNat)) :
    copyBounded mem dest src count =
      if min t.length count.toNat < 2 ^ 31 then
        some (patch mem dest (t.take count.toNat), min t.length count.toNat,
          count - .ofNat (min t.length count.toNat))
      else none := by
  have hleft : ∀ k, k ≤ count.toNat → ((0 : UInt64) < count - .ofNat k ↔ k < count.toNat) := by
    intro k hk
    rw [UInt64.lt_iff_toNat_lt, toNat_sub_ofNat hk]
    exact Nat.sub_pos_iff_lt
  have hmore : ∀ k, k < min t.length count.toNat →
      decide (0 < (fun count : UInt64 => count - 1)^[k] count) = true := fun k hk => by
    rw [iterate_pred]
    exact decide_eq_true ((hleft k (by omega)).mpr (by omega))
  have hstop : min t.length count.toNat = t.length ∨
      decide (0 < (fun count : UInt64 => count - 1)^[min t.length count.toNat] count) = false := by
    rcases Nat.le_total t.length count.toNat with h | h
    · exact .inl (Nat.min_eq_left h)
    · rw [Nat.min_eq_right h, iterate_pred]
      exact .inr (decide_eq_false fun h0 =>
        absurd ((hleft _ (Nat.le_refl _)).mp h0) (Nat.lt_irrefl _))
  have hfuel : min t.length count.toNat - 0 < rounds := by
    have hlen := hsrc.length_lt
    rw [rounds]
    omega
  have hloop := copyWhile_eq (fun count : UInt64 => decide (0 < count)) (fun count => count - 1)
    count hsrc hdest (Nat.min_le_left ..) hsep hmore hstop
    (Nat.zero_le _) (by omega) hfuel
  have htake : t.take (min t.length count.toNat) = t.take count.toNat := by
    rw [List.take_eq_take_iff]
    omega
  rw [List.take_zero, patch_nil, iterate_pred, iterate_pred, htake] at hloop
  rw [← hloop]
  exact congrArg _ (UInt64.sub_zero count).symm

theorem fillZero_eq {n fuel : Nat} (hdest : Accessible mem dest (bs.length + n))
    (hlen : bs.length + n < 2 ^ 64) (hindex : bs.length < 2 ^ 31) (hfuel : n < fuel) :
    fillZero dest fuel (patch mem dest bs) bs.length (.ofNat n) =
      if bs.length + n < 2 ^ 31 then some (patch mem dest (bs ++ List.replicate n 0))
      else none := by
  induction n generalizing bs fuel with
  | zero =>
    obtain ⟨fuel, rfl⟩ := Nat.exists_eq_succ_of_ne_zero (Nat.ne_of_gt hfuel)
    rw [fillZero, if_neg (by decide), if_pos (by omega), List.replicate_zero, List.append_nil]
  | succ n ih =>
    obtain ⟨fuel, rfl⟩ := Nat.exists_eq_succ_of_ne_zero (Nat.ne_of_gt (Nat.zero_lt_of_lt hfuel))
    have hpos : (0 : UInt64) < .ofNat (n + 1) := by
      rw [UInt64.lt_iff_toNat_lt, UInt64.toNat_ofNat', Nat.mod_eq_of_lt (by omega)]
      exact Nat.succ_pos n
    have hpred : UInt64.ofNat (n + 1) - 1 = .ofNat n := by
      rw [UInt64.ofNat_add]
      exact UInt64.add_sub_cancel ..
    rw [fillZero, if_pos hpos, put_patch mem dest bs 0 (by omega) (hdest _ (by omega)),
      Option.bind_some, hpred]
    rcases Nat.lt_or_ge (bs.length + 1) (2 ^ 31) with hi | hi
    · have hsnoc : (bs ++ [(0 : UInt8)]).length = bs.length + 1 := List.length_append
      have hroom : Accessible mem dest ((bs ++ [0]).length + n) := by
        rw [hsnoc, Nat.add_right_comm]
        exact hdest
      have hrest := ih hroom (by omega) (by omega) (Nat.lt_of_succ_lt_succ hfuel)
      rw [nextIndex_of_lt hi, Option.bind_some, ← hsnoc, hrest, hsnoc, List.append_assoc,
        Nat.add_right_comm]
      rfl
    · rw [nextIndex_of_le hi, if_neg (by omega)]
      rfl

end Loops

section Calls

theorem strcpy_eq (hsrc : TextAt mem src t) (hdest : Accessible mem dest (t.length + 1))
    (hsep : Separate src (t.length + 1) dest (t.length + 1)) :
    strcpy mem dest src =
      if t.length < 2 ^ 31 then some (dest, patch mem dest (t ++ [0])) else none := by
  rw [strcpy, copyText_eq hsrc (fun i hi => hdest i (by omega))
    fun i j hi hj => hsep i j hi (by omega)]
  split
  · rw [Option.bind_some]
    change Option.map _ (put (patch mem dest t) (dest + .ofNat t.length) 0) = _
    rw [put_patch mem dest t 0 (Nat.lt_of_succ_lt hsrc.length_lt) (hdest _ (Nat.lt_succ_self _))]
    rfl
  · rfl

theorem strncpy_eq {count : UInt64} (hsrc : TextAt mem src t)
    (hdest : Accessible mem dest count.toNat)
    (hsep : Separate src (t.length + 1) dest count.toNat) :
    strncpy mem dest src count = if count.toNat < 2 ^ 31 then
      some (dest, patch mem dest
        (t.take count.toNat ++ List.replicate (count.toNat - t.length) 0)) else none := by
  have hlt := count.toNat_lt
  have hcut : (t.take count.toNat).length = min t.length count.toNat := by
    rw [List.length_take, Nat.min_comm]
  rw [strncpy, copyBounded_eq count hsrc (fun i hi => hdest i (by omega))
    fun i j hi hj => hsep i j hi (by omega)]
  split
  · next hindex =>
    have hcount : count - .ofNat (min t.length count.toNat) =
        .ofNat (count.toNat - min t.length count.toNat) := by
      rw [← UInt64.toNat_inj, toNat_sub_ofNat (by omega), UInt64.toNat_ofNat',
        Nat.mod_eq_of_lt (by omega)]
    have hroom : Accessible mem dest ((t.take count.toNat).length +
        (count.toNat - min t.length count.toNat)) := fun i hi => hdest i (by omega)
    have hfuel : count.toNat - min t.length count.toNat < rounds := by
      rw [rounds]
      omega
    have hfill := fillZero_eq hroom (by omega) (by omega) hfuel
    have hsub : count.toNat - min t.length count.toNat = count.toNat - t.length := by omega
    have htotal : (t.take count.toNat).length + (count.toNat - min t.length count.toNat) =
        count.toNat := by omega
    rw [htotal, hsub, hcut] at hfill
    rw [Option.bind_some]
    change Option.map _ (fillZero dest rounds _ _ (count - _)) = _
    rw [hcount, hsub, hfill]
    split <;> rfl
  · rw [if_neg (by omega)]
    rfl

theorem strncat_eq {count : UInt64} (hdest : TextAt mem dest u) (hsrc : TextAt mem src t)
    (hroom : Accessible mem (dest + .ofNat u.length) (min t.length count.toNat + 1))
    (hsep : Separate src (t.length + 1) (dest + .ofNat u.length)
      (min t.length count.toNat + 1)) :
    strncat mem dest src count = if min t.length count.toNat < 2 ^ 31 then
      some (dest, patch mem (dest + .ofNat u.length) (t.take count.toNat ++ [0])) else none := by
  have hcut : (t.take count.toNat).length = min t.length count.toNat := by
    rw [List.length_take, Nat.min_comm]
  have hlt := hsrc.length_lt
  have hcopy := copyBounded_eq count hsrc (fun i hi => hroom i (by omega))
    fun i j hi hj => hsep i j hi (by omega)
  simp only [strncat, strlen_eq hdest, Option.bind_some, hcopy]
  split
  · have hput := put_patch mem (dest + .ofNat u.length) (t.take count.toNat) 0 (by omega)
      (by rw [hcut]; exact hroom _ (Nat.lt_succ_self _))
    rw [hcut] at hput
    rw [Option.bind_some]
    change Option.map _ (put (patch mem _ _) (dest + .ofNat u.length + _) 0) = _
    rw [hput, Option.map_some, UInt64.add_sub_cancel]
  · rfl

end Calls

section Law

/-- The call returns `dest`, and has written `bs` at `p` and nothing else. -/
def Writes (call : Option (UInt64 × Mem)) (mem : Mem) (dest p : UInt64) (bs : List UInt8) : Prop :=
  ∃ mem', call = some (dest, mem') ∧ Holds mem' p bs ∧
    ∀ a, (∀ i, i < bs.length → a ≠ p + .ofNat i) → mem' a = mem a

theorem writes_iff {call : Option (UInt64 × Mem)} {p : UInt64} {n : Nat}
    (h : call = if n < 2 ^ 31 then some (dest, patch mem p bs) else none)
    (hlen : bs.length ≤ 2 ^ 64) : Writes call mem dest p bs ↔ n < 2 ^ 31 := by
  constructor
  · rintro ⟨mem', hcall, _⟩
    by_contra hn
    rw [h, if_neg hn] at hcall
    cases hcall
  · intro hn
    exact ⟨_, h.trans (if_pos hn), holds_patch mem p hlen, fun a ha => patch_outside ha⟩

/-- Each copy writes exactly its bytes exactly when its index does not have to pass `INT_MAX`:
for `strcpy` the length of the source, for `strncpy` the count, for `strncat` the number of
characters that are appended. -/
theorem copies_exact_iff (mem : Mem) (dest src : UInt64) (t : List UInt8)
    (hsrc : TextAt mem src t) :
    (Accessible mem dest (t.length + 1) → Separate src (t.length + 1) dest (t.length + 1) →
      (Writes (strcpy mem dest src) mem dest dest (t ++ [0]) ↔ t.length < 2 ^ 31)) ∧
    (∀ count : UInt64, Accessible mem dest count.toNat →
      Separate src (t.length + 1) dest count.toNat →
      (Writes (strncpy mem dest src count) mem dest dest
        (t.take count.toNat ++ List.replicate (count.toNat - t.length) 0) ↔
          count.toNat < 2 ^ 31)) ∧
    ∀ (count : UInt64) (u : List UInt8), TextAt mem dest u →
      Accessible mem (dest + .ofNat u.length) (min t.length count.toNat + 1) →
      Separate src (t.length + 1) (dest + .ofNat u.length) (min t.length count.toNat + 1) →
      dest.toNat + u.length + min t.length count.toNat < 2 ^ 64 →
      (Writes (strncat mem dest src count) mem dest (dest + .ofNat u.length)
          (t.take count.toNat ++ [0]) ∧
        (∀ mem', strncat mem dest src count = some (dest, mem') →
          Holds mem' dest (u ++ (t.take count.toNat ++ [0]))) ↔
        min t.length count.toNat < 2 ^ 31) := by
  have hlen := hsrc.length_lt
  refine ⟨fun hdest hsep => ?_, fun count hdest hsep => ?_, fun count u hu hroom hsep hspace => ?_⟩
  · refine writes_iff (strcpy_eq hsrc hdest hsep) ?_
    rw [List.length_append, List.length_singleton]
    omega
  · refine writes_iff (strncpy_eq hsrc hdest hsep) ?_
    have hlt := count.toNat_lt
    rw [List.length_append, List.length_take, List.length_replicate]
    omega
  · have hrun := strncat_eq hu hsrc hroom hsep
    have hcut : (t.take count.toNat ++ [(0 : UInt8)]).length = min t.length count.toNat + 1 := by
      rw [List.length_append, List.length_take, Nat.min_comm]
      rfl
    rw [writes_iff hrun (by omega)]
    refine and_iff_left fun mem' hcall => ?_
    rw [hrun] at hcall
    split at hcall
    · have hmem := (Prod.mk.inj (Option.some.inj hcall)).2
      subst hmem
      refine holds_append.mpr ⟨hu.text.congr fun i hi => patch_outside fun j hj heq => ?_,
        holds_patch _ _ (by omega)⟩
      rw [add_ofNat_add] at heq
      exact absurd (add_ofNat_inj (by omega) (by omega) heq) (by omega)
    · cases hcall

/-- The empty string at 16, and zeros everywhere. -/
def zeros : Mem := fun _ => some 0

theorem textAt_zeros : TextAt zeros 16 [] := ⟨by decide, by decide, fun i hi => by
  obtain rfl : i = 0 := Nat.lt_one_iff.mp hi
  rfl, List.not_mem_nil⟩

theorem separate_zeros {n : Nat} (hn : n < 2 ^ 63) : Separate 16 1 32 n := by
  intro i j hi hj heq
  obtain rfl : i = 0 := Nat.lt_one_iff.mp hi
  have hnat := congrArg UInt64.toNat heq
  rw [add_ofNat_zero, toNat_add_ofNat (by change 32 + j < 2 ^ 64; omega)] at hnat
  change 16 = 32 + j at hnat
  omega

/-- Filling up a field of `2 ^ 31` bytes takes the index past `INT_MAX`. -/
theorem strncpy_overflows : ¬Writes (strncpy zeros 32 16 0x80000000) zeros 32 32
    (([] : List UInt8).take 0x80000000 ++ List.replicate (0x80000000 - 0) 0) := by
  rintro ⟨mem', hrun, _⟩
  have hword : (0x80000000 : UInt64).toNat = 2 ^ 31 := rfl
  rw [strncpy_eq textAt_zeros (fun _ _ => rfl) (separate_zeros (by rw [hword]; decide)), hword,
    if_neg (Nat.lt_irrefl _)] at hrun
  cases hrun

/-- A field of three bytes behind the empty string. -/
theorem copies_exact_three : Writes (strncpy zeros 32 16 3) zeros 32 32 [0, 0, 0] :=
  ((copies_exact_iff zeros 32 16 [] textAt_zeros).2.1 3 (fun _ _ => rfl)
    (separate_zeros (by decide))).mpr (by decide)

end Law

end StringCopy
