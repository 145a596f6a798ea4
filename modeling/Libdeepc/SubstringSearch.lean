import Libdeepc.StringCompare

/-!
# The first occurrence of a string

`strstr` looks for the first character of the needle, compares the rest behind it, and
goes on behind the candidate. Its test for the room behind a candidate may wrap. It is
the comparison that keeps it inside the string, since it stops at the terminator at the
latest.
-/

namespace SubstringSearch

open ByteMemory FirstDifference StringCompare StringFunctions

variable {mem mem' : Mem} {p q : UInt64} {t u v w : List UInt8} {c f : UInt8}

section Parts

theorem strlenLoop_eq (h : TextAt mem p t) {k fuel : Nat} (hk : k ≤ t.length)
    (hfuel : t.length - k < fuel) :
    strlenLoop mem p fuel (.ofNat k) = some (.ofNat t.length) := by
  induction fuel generalizing k with
  | zero => omega
  | succ fuel ih =>
    rw [strlenLoop]
    rcases Nat.lt_or_eq_of_le hk with hlt | rfl
    · have hne : t[k] ≠ 0 := fun h0 => h.noZero (h0 ▸ List.getElem_mem hlt)
      have hnext : UInt64.ofNat k + 1 = .ofNat (k + 1) := UInt64.ofNat_add k 1 |>.symm
      rw [h.text k hlt, Option.bind_some, if_pos hne, hnext]
      exact ih hlt (by omega)
    · rw [h.nul, Option.bind_some, if_neg (not_not.mpr rfl)]

theorem strlen_eq (h : TextAt mem p t) : strlen mem p = some (.ofNat t.length) :=
  strlenLoop_eq h (Nat.zero_le _) (Nat.lt_of_succ_lt h.length_lt)

/-- The first place of a character in a string, or NULL. -/
theorem strchrLoop_spec (h : TextAt mem p t) (hc : c ≠ 0) {fuel : Nat} (hfuel : t.length < fuel) :
    (∃ pre post, t = pre ++ c :: post ∧ c ∉ pre ∧
      strchrLoop mem c fuel p = some (p + .ofNat pre.length)) ∨
    (c ∉ t ∧ strchrLoop mem c fuel p = some 0) := by
  induction t generalizing p fuel with
  | nil =>
    obtain ⟨fuel, rfl⟩ := Nat.exists_eq_succ_of_ne_zero (Nat.ne_of_gt hfuel)
    have hnul := h.nul
    rw [List.length_nil, add_ofNat_zero] at hnul
    refine .inr ⟨List.not_mem_nil, ?_⟩
    rw [strchrLoop, hnul, Option.bind_some, if_neg hc.symm, if_pos rfl]
  | cons d t ih =>
    obtain ⟨fuel, rfl⟩ := Nat.exists_eq_succ_of_ne_zero (Nat.ne_of_gt (Nat.zero_lt_of_lt hfuel))
    have hd : mem p = some d := (holds_cons.mp h.text).1
    have hne : d ≠ 0 := fun h0 => h.noZero (h0 ▸ List.mem_cons_self)
    rw [strchrLoop, hd, Option.bind_some]
    by_cases hdc : d = c
    · refine .inl ⟨[], t, by rw [hdc]; rfl, List.not_mem_nil, ?_⟩
      rw [if_pos hdc, List.length_nil, add_ofNat_zero]
    · rw [if_neg hdc, if_neg hne]
      have hrest : TextAt mem (p + 1) t := h.drop (n := 1) (Nat.succ_pos _)
      rcases ih hrest (Nat.lt_of_succ_lt_succ hfuel) with
        ⟨pre, post, rfl, hpre, hloop⟩ | ⟨hc, hloop⟩
      · refine .inl ⟨d :: pre, post, rfl, ?_, ?_⟩
        · exact fun hmem => (List.mem_cons.mp hmem).elim (fun heq => hdc heq.symm) hpre
        · rw [hloop, List.length_cons, Nat.add_comm, ← add_ofNat_add]
          rfl
      · exact .inr ⟨fun hmem => (List.mem_cons.mp hmem).elim (fun heq => hdc heq.symm) hc, hloop⟩

/-- A string starts with bytes that hold no NUL, or differs from them at one of them, also when it
is shorter. -/
theorem starts_or_parts (h : TextAt mem p t) (hw : Holds mem q w) (hz : 0 ∉ w) :
    (w <+: t ∧ Holds mem p w) ∨ (¬w <+: t ∧ ∃ z a b, a ≠ b ∧ z.length < w.length ∧
      Holds mem p (z ++ [a]) ∧ Holds mem q (z ++ [b])) := by
  obtain ⟨t', w', ht', hw', hne⟩ := exists_common t w
  generalize common t w = z at ht' hw'
  subst ht' hw'
  cases w' with
  | nil =>
    rw [List.append_nil]
    exact .inl ⟨List.prefix_append z t', (holds_append.mp h.text).1⟩
  | cons b w' =>
    have hb : b ≠ 0 := fun h0 => hz (List.mem_append_right _ (h0 ▸ List.mem_cons_self))
    obtain ⟨a, s, hs, hab⟩ : ∃ a s, t' ++ [0] = a :: s ∧ a ≠ b := by
      cases t' with
      | nil => exact ⟨0, [], rfl, hb.symm⟩
      | cons a t' => exact ⟨a, t' ++ [0], rfl, fun hab => hne a rfl (hab ▸ rfl)⟩
    have hstart : Holds mem p (z ++ [a]) := by
      have hall := h.holds
      rw [List.append_assoc, hs] at hall
      exact hall.upTo
    refine .inr ⟨fun hprefix => ?_, z, a, b, hab, ?_, hstart, hw.upTo⟩
    · obtain ⟨x, hx⟩ := (List.prefix_append_right_inj z).mp hprefix
      rw [← hx, List.append_assoc, List.cons_append] at hs
      exact hab (List.cons.inj hs).1.symm
    · rw [List.length_append, List.length_cons]
      omega

/-- Comparing the two tells which, whichever comes first. -/
theorem memcmp_starts (charSigned : Bool) (h : TextAt mem p t) (hw : Holds mem q w)
    (hz : 0 ∉ w) {count : UInt64} (hlen : w.length = count.toNat) :
    (∃ c, memcmp charSigned mem p q count = some c ∧ (c = 0 ↔ w <+: t)) ∧
      ∃ c, memcmp charSigned mem q p count = some c ∧ (c = 0 ↔ w <+: t) := by
  rcases starts_or_parts h hw hz with ⟨hstart, hp⟩ | ⟨hnot, z, a, b, hab, hlt, hp, hq⟩
  · exact ⟨⟨0, memcmp_same hp hw hlen, iff_of_true rfl hstart⟩,
      0, memcmp_same hw hp hlen, iff_of_true rfl hstart⟩
  · rw [hlen] at hlt
    refine ⟨⟨_, memcmp_parting hp hq hab hlt, iff_of_false ?_ hnot⟩,
      _, memcmp_parting hq hp hab.symm hlt, iff_of_false ?_ hnot⟩
    · rw [outcome_of_ne hab]
      exact charOrder_ne_zero _ a b
    · rw [outcome_of_ne hab.symm]
      exact charOrder_ne_zero _ b a

end Parts

section Search

/-- The needle starts at byte `i` of the text. -/
def OccursAt (t u : List UInt8) (i : Nat) : Prop := u <+: t.drop i

def FirstAt (t u : List UInt8) (i : Nat) : Prop := OccursAt t u i ∧ ∀ j, j < i → ¬OccursAt t u j

/-- The address of the first occurrence, or NULL when there is none. -/
def Answer (p : UInt64) (t u : List UInt8) (ret : UInt64) : Prop :=
  (∃ i, FirstAt t u i ∧ ret = p + .ofNat i) ∨ (ret = 0 ∧ ∀ i, ¬OccursAt t u i)

theorem FirstAt.unique {i j : Nat} (hi : FirstAt t u i) (hj : FirstAt t u j) : i = j := by
  rcases Nat.lt_trichotomy i j with hlt | heq | hgt
  · exact absurd hi.1 (hj.2 i hlt)
  · exact heq
  · exact absurd hj.1 (hi.2 j hgt)

theorem FirstAt.le_length {i : Nat} (h : FirstAt t u i) : i ≤ t.length := by
  by_contra hlt
  have hnil := h.1
  rw [OccursAt, List.drop_of_length_le (by omega), List.prefix_nil] at hnil
  exact h.2 0 (by omega) (hnil ▸ List.prefix_append [] _)

theorem Answer.unique {r r' : UInt64} (h : Answer p t u r) (h' : Answer p t u r') : r = r' := by
  rcases h with ⟨i, hi, rfl⟩ | ⟨rfl, hnone⟩
  · rcases h' with ⟨j, hj, rfl⟩ | ⟨_, hnone⟩
    · rw [hi.unique hj]
    · exact absurd hi.1 (hnone i)
  · rcases h' with ⟨j, hj, _⟩ | ⟨rfl, _⟩
    · exact absurd hj.1 (hnone j)
    · rfl

theorem length_le_of_occursAt {i : Nat} (h : OccursAt t u i) : u.length ≤ t.length - i := by
  rw [← List.length_drop]
  exact List.IsPrefix.length_le h

/-- No candidate, no occurrence. -/
theorem not_occursAt_of_notMem {k : Nat} (hf : f ∉ t.drop k) {j : Nat} (hj : k ≤ j) :
    ¬OccursAt t (f :: v) j := by
  rintro ⟨x, hx⟩
  obtain ⟨d, rfl⟩ := Nat.exists_eq_add_of_le hj
  refine hf (List.mem_of_mem_drop (i := d) ?_)
  rw [List.drop_drop, ← hx]
  exact List.mem_append_left _ List.mem_cons_self

/-- Nothing occurs before the next candidate. -/
theorem not_occursAt_before {pre post : List UInt8} {k : Nat} (ht : t.drop k = pre ++ f :: post)
    (hpre : f ∉ pre) {j : Nat} (hj : k ≤ j) (hlt : j < k + pre.length) :
    ¬OccursAt t (f :: v) j := by
  rintro ⟨x, hx⟩
  obtain ⟨d, rfl⟩ := Nat.exists_eq_add_of_le hj
  have hd : d < pre.length := by omega
  rw [← List.drop_drop, ht, List.drop_append_of_le_length (Nat.le_of_lt hd),
    List.drop_eq_getElem_cons hd] at hx
  exact hpre ((List.cons.inj hx).1 ▸ List.getElem_mem hd)

/-- The needle occurs at a candidate when the rest of it does behind. -/
theorem occursAt_candidate {i : Nat} (hi : i < t.length) (hf : t[i] = f) :
    OccursAt t (f :: v) i ↔ v <+: t.drop (i + 1) := by
  rw [OccursAt, List.drop_eq_getElem_cons hi, hf, List.cons_prefix_cons]
  simp

/-- From byte `k` on, when the needle does not start before it. -/
theorem strstrLoop_spec (charSigned : Bool) (ht : TextAt mem p t)
    (hu : TextAt mem q (f :: v)) {k fuel : Nat} (hk : k ≤ t.length)
    (hno : ∀ j, j < k → ¬OccursAt t (f :: v) j) (hfuel : t.length - k < fuel) :
    ∃ s ret, strchr mem (p + .ofNat k) f = some s ∧
      strstrLoop charSigned mem (p + .ofNat t.length) q (.ofNat (v.length + 1)) fuel s =
        some ret ∧ Answer p t (f :: v) ret := by
  induction fuel generalizing k with
  | zero => omega
  | succ fuel ih =>
    have hspace := ht.inSpace
    have hneedle := hu.length_lt
    rw [List.length_cons] at hneedle
    obtain ⟨hqf, hqv⟩ := holds_cons.mp hu.text
    have hf : f ≠ 0 := fun h0 => hu.noZero (h0 ▸ List.mem_cons_self)
    have hsuffix := ht.drop hk
    rcases strchrLoop_spec hsuffix hf (Nat.lt_of_succ_lt hsuffix.length_lt) with
      ⟨pre, post, hsplit, hpre, hchr⟩ | ⟨hnot, hchr⟩
    · have hlen := congrArg List.length hsplit
      rw [List.length_drop, List.length_append, List.length_cons] at hlen
      obtain ⟨i, hi⟩ : ∃ i, i = k + pre.length := ⟨_, rfl⟩
      have hlt : i < t.length := by omega
      have hti : t[i] = f := by
        have hget : (t.drop k)[pre.length]? = some f := by
          rw [hsplit, List.getElem?_append_right (Nat.le_refl _), Nat.sub_self]
          rfl
        rw [List.getElem?_drop, ← hi, List.getElem?_eq_getElem hlt] at hget
        exact Option.some.inj hget
      have hbefore : ∀ j, j < i → ¬OccursAt t (f :: v) j := by
        intro j hj
        rcases Nat.lt_or_ge j k with hjk | hjk
        · exact hno j hjk
        · exact not_occursAt_before hsplit hpre hjk (hi ▸ hj)
      rw [add_ofNat_add, ← hi] at hchr
      rw [strchr, rounds, hchr]
      by_cases hguard : p + .ofNat i ≠ 0 ∧
          p + .ofNat i + .ofNat (v.length + 1) ≤ p + .ofNat t.length
      · -- the rest of the needle is compared, whether there is room for it or not
        have hrest : p + .ofNat i + 1 = p + .ofNat (i + 1) := (add_ofNat_succ p i).symm
        have hcount : v.length = (UInt64.ofNat (v.length + 1) - 1).toNat := by
          have hword : UInt64.ofNat (v.length + 1) - 1 = .ofNat v.length := by
            rw [UInt64.ofNat_add]
            exact UInt64.add_sub_cancel ..
          rw [hword, UInt64.toNat_ofNat', Nat.mod_eq_of_lt (by omega)]
        obtain ⟨⟨c, hcmp, hc⟩, _⟩ := memcmp_starts charSigned (ht.drop hlt) hqv
          (fun h0 => hu.noZero (List.mem_cons_of_mem f h0)) hcount
        rw [← occursAt_candidate hlt hti] at hc
        by_cases hzero : c = 0
        · refine ⟨_, p + .ofNat i, rfl, ?_, .inl ⟨i, ⟨hc.mp hzero, hbefore⟩, rfl⟩⟩
          simp only [strstrLoop, if_pos hguard, hrest, hcmp, Option.bind_some, if_pos hzero]
          rw [← hrest, UInt64.add_sub_cancel]
        · have hno' : ∀ j, j < i + 1 → ¬OccursAt t (f :: v) j := by
            intro j hj
            rcases Nat.lt_succ_iff_lt_or_eq.mp hj with hji | rfl
            · exact hbefore j hji
            · exact fun hocc => hzero (hc.mpr hocc)
          obtain ⟨s, ret, hchr', hloop, hans⟩ := ih (k := i + 1) hlt hno' (by omega)
          refine ⟨_, ret, rfl, ?_, hans⟩
          simp only [strstrLoop, if_pos hguard, hrest, hcmp, Option.bind_some, if_neg hzero, hqf,
            hchr', hloop]
      · -- no room here, and none further on
        refine ⟨_, 0, rfl, by rw [strstrLoop, if_neg hguard], .inr ⟨rfl, fun j hocc => ?_⟩⟩
        rcases Nat.lt_or_ge j i with hj | hj
        · exact hbefore j hj hocc
        · have hroom := length_le_of_occursAt hocc
          rw [List.length_cons] at hroom
          refine hguard ⟨ht.place_ne_zero (Nat.le_of_lt hlt), ?_⟩
          rw [add_ofNat_add, UInt64.le_iff_toNat_le, toNat_add_ofNat hspace,
            toNat_add_ofNat (by omega)]
          omega
    · refine ⟨0, 0, hchr, ?_, .inr ⟨rfl, fun j => ?_⟩⟩
      · rw [strstrLoop, if_neg fun h => h.1 rfl]
      · rcases Nat.lt_or_ge j k with hj | hj
        · exact hno j hj
        · exact not_occursAt_of_notMem hnot hj

/-- The first occurrence is found, and NULL is returned exactly when there is none. All that is
read is the two strings: with any other memory around them the answer is the same. -/
theorem strstr_finds_first (charSigned : Bool) (mem : Mem) (str substr : UInt64)
    (t u : List UInt8) (ht : TextAt mem str t) (hu : TextAt mem substr u) :
    ∃ ret, strstr charSigned mem str substr = some ret ∧ Answer str t u ret ∧
      (ret = 0 ↔ ∀ i, ¬OccursAt t u i) ∧
      ∀ mem' : Mem, TextAt mem' str t → TextAt mem' substr u →
        strstr charSigned mem' str substr = some ret := by
  have hrun : ∀ m : Mem, TextAt m str t → TextAt m substr u →
      ∃ ret, strstr charSigned m str substr = some ret ∧ Answer str t u ret := by
    intro m ht hu
    cases u with
    | nil =>
      refine ⟨str, ?_, .inl ⟨0, ⟨List.prefix_append [] _, nofun⟩, (add_ofNat_zero str).symm⟩⟩
      rw [strstr, strlen_eq hu, Option.bind_some]
      exact if_pos rfl
    | cons f v =>
      have hne : UInt64.ofNat (f :: v).length ≠ 0 := by
        intro h0
        have hnat := congrArg UInt64.toNat h0
        rw [UInt64.toNat_ofNat', Nat.mod_eq_of_lt (Nat.lt_of_succ_lt hu.length_lt)] at hnat
        cases hnat
      have hfuel : t.length - 0 < rounds := Nat.lt_of_succ_lt ht.length_lt
      obtain ⟨s, ret, hchr, hloop, hans⟩ := strstrLoop_spec charSigned ht hu (Nat.zero_le _) nofun
        hfuel
      rw [add_ofNat_zero] at hchr
      refine ⟨ret, ?_, hans⟩
      simp only [strstr, strlen_eq hu, strlen_eq ht, Option.bind_some, if_neg hne,
        (holds_cons.mp hu.text).1, hchr]
      exact hloop
  obtain ⟨ret, hret, hans⟩ := hrun mem ht hu
  refine ⟨ret, hret, hans, ?_, fun mem' ht' hu' => ?_⟩
  · rcases hans with ⟨i, hi, rfl⟩ | ⟨rfl, hnone⟩
    · exact iff_of_false (ht.place_ne_zero hi.le_length) fun hnone => hnone i hi.1
    · exact iff_of_true rfl hnone
  · obtain ⟨ret', hret', hans'⟩ := hrun mem' ht' hu'
    rw [hret', hans'.unique hans]

/-- `"abac"` at 16 and `"ac"` at 32. -/
def shelf : Mem := fun p =>
  if p = 16 ∨ p = 18 ∨ p = 32 then some 97 else if p = 17 then some 98
  else if p = 19 ∨ p = 33 then some 99 else if p = 20 ∨ p = 34 then some 0 else none

/-- The first candidate fails, the second is at byte 2. -/
theorem strstr_finds_first_ac : strstr true shelf 16 32 = some 18 := by
  have ht : TextAt shelf 16 [97, 98, 97, 99] := by
    refine ⟨by decide, by decide, ?_, by decide⟩
    rw [List.cons_append, List.cons_append, List.cons_append, List.cons_append, holds_cons,
      holds_cons, holds_cons, holds_cons, List.nil_append, holds_singleton]
    decide
  have hu : TextAt shelf 32 [97, 99] := by
    refine ⟨by decide, by decide, ?_, by decide⟩
    rw [List.cons_append, List.cons_append, holds_cons, holds_cons, List.nil_append,
      holds_singleton]
    decide
  have hfirst : Answer 16 [97, 98, 97, 99] [97, 99] 18 :=
    .inl ⟨2, by unfold FirstAt OccursAt; decide, rfl⟩
  obtain ⟨ret, hret, hans, _⟩ :=
    strstr_finds_first true shelf 16 32 [97, 98, 97, 99] [97, 99] ht hu
  rw [hret, hans.unique hfirst]

end Search

end SubstringSearch
