import Libdeepc.FileCalls
import Libdeepc.Runs
import Mathlib.Data.List.Induction

/-!
# The mode strings of fopen

`parse_mode` decides each character by what stands before it. The strings it accepts are
those of the mode language, and those with unknown characters in front of the access
letter, which the inner switch lets through.
-/

namespace ModeLanguage

open CString FileCalls Runs

section Language

def accessLetters : List UInt8 := [byte 'r', byte 'w', byte 'a']

def flagLetters : List UInt8 := [byte '+', byte 'b', byte 'e', byte 'x']

/-- The modes: one access letter, each flag once at most, and `x` only behind `w`. -/
structure Valid (t : List UInt8) : Prop where
  alphabet : ∀ c ∈ t, c ∈ accessLetters ∨ c ∈ flagLetters
  access : t.countP (· ∈ accessLetters) = 1
  once : ∀ c ∈ flagLetters, t.count c ≤ 1
  exclusive : ∀ (i : Nat) (h : i < t.length), t[i] = byte 'x' → byte 'w' ∈ t.take i

instance (t : List UInt8) : Decidable (Valid t) :=
  decidable_of_iff ((t.all fun c => decide (c ∈ accessLetters ∨ c ∈ flagLetters)) = true ∧
      t.countP (· ∈ accessLetters) = 1 ∧ (flagLetters.all fun c => decide (t.count c ≤ 1)) = true ∧
      ∀ (i : Nat) (h : i < t.length), t[i] = byte 'x' → byte 'w' ∈ t.take i) <| by
    simp only [List.all_eq_true, decide_eq_true_eq]
    exact ⟨fun ⟨h1, h2, h3, h4⟩ => ⟨h1, h2, h3, h4⟩, fun ⟨h1, h2, h3, h4⟩ => ⟨h1, h2, h3, h4⟩⟩

/-- The flags on record are those that occur. -/
structure Records (t : List UInt8) (info : ParseMode) : Prop where
  plus : info.plusFlag = true ↔ byte '+' ∈ t
  binary : info.flagB = true ↔ byte 'b' ∈ t
  exec : info.flagE = true ↔ byte 'e' ∈ t
  exclusive : info.flagX = true ↔ byte 'x' ∈ t
  read : info.access = .read ↔ byte 'r' ∈ t
  write : info.access = .write ↔ byte 'w' ∈ t
  append : info.access = .append ↔ byte 'a' ∈ t

/-- A character that the parser does not know. -/
def Foreign (c : UInt8) : Prop := c ∉ accessLetters ∧ c ∉ flagLetters ∧ c ≠ byte 'u'

instance (c : UInt8) : Decidable (Foreign c) := inferInstanceAs (Decidable (_ ∧ _))

theorem access_not_flag {c : UInt8} (h : c ∈ accessLetters) : c ∉ flagLetters := by
  simp only [accessLetters, List.mem_cons, List.not_mem_nil, or_false] at h
  rcases h with rfl | rfl | rfl
  all_goals decide

/-- What stands before the first access letter. -/
def lead (t : List UInt8) : List UInt8 := t.takeWhile (· ∉ accessLetters)

/-- The mode without the unknown characters before the access letter. -/
def kept (t : List UInt8) : List UInt8 :=
  (lead t).filter (fun c => ¬Foreign c) ++ t.dropWhile (· ∉ accessLetters)

end Language

section Behind

variable {α : Type*} {P Q : List α → α → Prop} {t u v : List α} {c : α}

/-- Every element suits what stands before it. -/
def Behind (P : List α → α → Prop) (t : List α) : Prop :=
  ∀ (i : Nat) (h : i < t.length), P (t.take i) t[i]

theorem behind_nil : Behind P [] := fun _ h => absurd h (Nat.not_lt_zero _)

theorem behind_snoc : Behind P (t ++ [c]) ↔ Behind P t ∧ P t c := by
  constructor
  · intro h
    constructor
    · intro i hi
      have hi' := h i (by rw [List.length_append]; omega)
      rwa [List.take_append_of_le_length (Nat.le_of_lt hi), List.getElem_append_left hi] at hi'
    · have hlast := h t.length (by rw [List.length_append, List.length_singleton]; omega)
      rwa [List.take_left, List.getElem_concat_length rfl] at hlast
  · rintro ⟨ht, hc⟩ i hi
    rw [List.length_append, List.length_singleton] at hi
    by_cases hlt : i < t.length
    · rw [List.take_append_of_le_length (Nat.le_of_lt hlt), List.getElem_append_left hlt]
      exact ht i hlt
    · obtain rfl : i = t.length := by omega
      rwa [List.take_left, List.getElem_concat_length rfl]

theorem behind_at (h : Behind P (u ++ c :: v)) : P u c := by
  have hat := h u.length (by rw [List.length_append, List.length_cons]; omega)
  rw [List.take_left, List.getElem_append_right (Nat.le_refl _)] at hat
  simpa only [Nat.sub_self, List.getElem_cons_zero] using hat

/-- At most one element is of a kind when none of the kind stands before another. -/
theorem countP_le_one_iff (p : α → Bool) :
    t.countP p ≤ 1 ↔ Behind (fun u d => p d = true → ∀ e ∈ u, p e = false) t := by
  induction t using List.reverseRecOn with
  | nil => exact iff_of_true (Nat.zero_le 1) behind_nil
  | append_singleton t c ih =>
    rw [behind_snoc, ← ih, List.countP_append, List.countP_singleton]
    by_cases hc : p c = true
    · rw [if_pos hc]
      have hzero : t.countP p = 0 ↔ ∀ e ∈ t, p e = false := by
        rw [List.countP_eq_zero]
        exact forall₂_congr fun _ _ => Bool.not_eq_true _ |>.to_iff
      constructor
      · intro h
        exact ⟨by omega, fun _ => hzero.mp (by omega)⟩
      · rintro ⟨_, h⟩
        have hnone := hzero.mpr (h hc)
        omega
    · rw [if_neg hc]
      exact ⟨fun h => ⟨h, fun h' => absurd h' hc⟩, And.left⟩

end Behind

section Scan

variable {t : List UInt8} {c : UInt8} {info : ParseMode}

/-- What the parser wants of a character behind `t`. -/
def Next (t : List UInt8) (c : UInt8) : Prop :=
  c ≠ byte 'u' ∧ (c ∈ flagLetters → c ∉ t) ∧ (c ∉ flagLetters → ∀ d ∈ t, d ∉ accessLetters) ∧
    (c = byte 'x' → byte 'w' ∈ t)

def recorded (t : List UInt8) : ParseMode where
  flagB := byte 'b' ∈ t
  flagE := byte 'e' ∈ t
  flagU := true
  flagX := byte 'x' ∈ t
  plusFlag := byte '+' ∈ t
  access :=
    if byte 'w' ∈ t then .write else if byte 'r' ∈ t then .read
    else if byte 'a' ∈ t then .append else .none

theorem byte_letters : byte '+' = 43 ∧ byte 'b' = 98 ∧ byte 'e' = 101 ∧ byte 'u' = 117 ∧
    byte 'x' = 120 ∧ byte 'r' = 114 ∧ byte 'w' = 119 ∧ byte 'a' = 97 := by decide

theorem access_none : (recorded t).access = .none ↔ ∀ d ∈ t, d ∉ accessLetters := by
  have hmem : (∀ d ∈ t, d ∉ accessLetters) ↔ byte 'r' ∉ t ∧ byte 'w' ∉ t ∧ byte 'a' ∉ t := by
    constructor
    · intro h
      exact ⟨fun hr => h _ hr (by decide), fun hw => h _ hw (by decide),
        fun ha => h _ ha (by decide)⟩
    · rintro ⟨hr, hw, ha⟩ d hd hacc
      simp only [accessLetters, List.mem_cons, List.not_mem_nil, or_false] at hacc
      rcases hacc with rfl | rfl | rfl
      · exact hr hd
      · exact hw hd
      · exact ha hd
  rw [hmem]
  simp only [recorded]
  split_ifs <;> simp_all

theorem access_write : (recorded t).access = .write ↔ byte 'w' ∈ t := by
  simp only [recorded]
  split_ifs <;> simp_all

theorem next_flag (hflag : c ∈ flagLetters) : Next t c ↔ c ∉ t ∧ (c = byte 'x' → byte 'w' ∈ t) := by
  have hu : c ≠ byte 'u' := by
    rintro rfl
    exact absurd hflag (by decide)
  simp only [Next, hu, hflag, ne_eq, not_false_eq_true, not_true_eq_false, true_and, true_imp_iff,
    false_imp_iff]

theorem next_other (hflag : c ∉ flagLetters) (hu : c ≠ byte 'u') :
    Next t c ↔ (recorded t).access = .none := by
  have hx : c ≠ byte 'x' := by
    rintro rfl
    exact absurd (by decide) hflag
  simp only [Next, hu, hflag, hx, ne_eq, not_false_eq_true, false_imp_iff, true_and, true_imp_iff,
    and_true, access_none]

/-- A character that comes to the default arm of the outer switch. -/
theorem parseModeChar_other (hflag : c ∉ flagLetters) (hu : c ≠ byte 'u') :
    parseModeChar true (recorded t) c = some info ↔ Next t c ∧ info = recorded (t ++ [c]) := by
  have hne : c ≠ byte '+' ∧ c ≠ byte 'b' ∧ c ≠ byte 'e' ∧ c ≠ byte 'x' := by
    simpa only [flagLetters, List.mem_cons, List.not_mem_nil, or_false, not_or] using hflag
  rw [next_other hflag hu, parseModeChar, if_neg hne.1, if_neg hne.2.1, if_neg hne.2.2.1,
    if_neg hu, if_neg hne.2.2.2]
  by_cases hacc : (recorded t).access = .none
  · rw [if_neg (not_not.mpr hacc)]
    have hnone := access_none.mp hacc
    have hr : byte 'r' ∉ t := fun h => hnone _ h (by decide)
    have hw : byte 'w' ∉ t := fun h => hnone _ h (by decide)
    have ha : byte 'a' ∉ t := fun h => hnone _ h (by decide)
    by_cases hcr : c = byte 'r'
    · subst hcr
      have hrec : recorded (t ++ [byte 'r']) = { recorded t with access := .read } := by
        simp_all [recorded, byte_letters]
      simp [hrec, hacc, eq_comm]
    by_cases hcw : c = byte 'w'
    · subst hcw
      have hrec : recorded (t ++ [byte 'w']) = { recorded t with access := .write } := by
        simp_all [recorded, byte_letters]
      simp [hrec, hacc, hcr, eq_comm]
    by_cases hca : c = byte 'a'
    · subst hca
      have hrec : recorded (t ++ [byte 'a']) = { recorded t with access := .append } := by
        simp_all [recorded, byte_letters]
      simp [hrec, hacc, hcr, hcw, eq_comm]
    · have hrec : recorded (t ++ [c]) = recorded t := by
        simp_all [recorded, eq_comm]
      simp [hrec, hacc, hcr, hcw, hca, eq_comm]
  · rw [if_pos hacc]
    exact iff_of_false nofun (fun h => hacc h.1)

/-- The step of the parser: it knows of the text before what `recorded` says. -/
theorem parseModeChar_recorded : parseModeChar true (recorded t) c = some info ↔
    Next t c ∧ info = recorded (t ++ [c]) := by
  by_cases hplus : c = byte '+'
  · subst hplus
    have hrec : recorded (t ++ [byte '+']) = { recorded t with plusFlag := true } := by
      simp [recorded, byte_letters]
    rw [next_flag (by decide), parseModeChar, if_pos rfl, hrec]
    simp [recorded, byte_letters, eq_comm]
  by_cases hb : c = byte 'b'
  · subst hb
    have hrec : recorded (t ++ [byte 'b']) = { recorded t with flagB := true } := by
      simp [recorded, byte_letters]
    rw [next_flag (by decide), parseModeChar, if_neg hplus, if_pos rfl, hrec]
    simp [recorded, byte_letters, eq_comm]
  by_cases he : c = byte 'e'
  · subst he
    have hrec : recorded (t ++ [byte 'e']) = { recorded t with flagE := true } := by
      simp [recorded, byte_letters]
    rw [next_flag (by decide), parseModeChar, if_neg hplus, if_neg hb, if_pos rfl, hrec]
    simp [recorded, byte_letters, eq_comm]
  by_cases hu : c = byte 'u'
  · subst hu
    rw [parseModeChar, if_neg hplus, if_neg hb, if_neg he, if_pos rfl, if_pos (.inl rfl)]
    exact iff_of_false nofun (fun h => h.1.1 rfl)
  by_cases hx : c = byte 'x'
  · subst hx
    have hrec : recorded (t ++ [byte 'x']) = { recorded t with flagX := true } := by
      simp [recorded, byte_letters]
    rw [next_flag (by decide), parseModeChar, if_neg hplus, if_neg hb, if_neg he, if_neg hu,
      if_pos rfl, hrec]
    by_cases hw : byte 'w' ∈ t
    · have haccess := access_write.mpr hw
      rw [haccess]
      simp [recorded, hw, eq_comm]
    · have haccess := mt access_write.mp hw
      rw [if_pos (.inr haccess)]
      exact iff_of_false nofun (fun h => hw (h.1.2 rfl))
  · refine parseModeChar_other ?_ hu
    simp only [flagLetters, List.mem_cons, List.not_mem_nil, or_false, not_or]
    exact ⟨hplus, hb, he, hx⟩

/-- The parser on a text. -/
def scan (t : List UInt8) : Option ParseMode := exec (parseModeChar true) (recorded []) t

theorem scan_snoc (t : List UInt8) (c : UInt8) :
    scan (t ++ [c]) = (scan t).bind fun info => parseModeChar true info c := by
  rw [scan, exec_append]
  refine congrArg _ (funext fun info => ?_)
  rw [exec_cons]
  cases parseModeChar true info c with
  | none => rfl
  | some info => rfl

theorem scan_iff : scan t = some info ↔ Behind Next t ∧ info = recorded t := by
  induction t using List.reverseRecOn generalizing info with
  | nil => exact ⟨fun h => ⟨behind_nil, (Option.some.inj h).symm⟩, fun h => congrArg some h.2.symm⟩
  | append_singleton t c ih =>
    rw [scan_snoc, Option.bind_eq_some_iff, behind_snoc]
    constructor
    · rintro ⟨before, hbefore, hc⟩
      obtain ⟨hbehind, rfl⟩ := ih.mp hbefore
      obtain ⟨hnext, rfl⟩ := parseModeChar_recorded.mp hc
      exact ⟨⟨hbehind, hnext⟩, rfl⟩
    · rintro ⟨⟨hbehind, hnext⟩, rfl⟩
      exact ⟨_, ih.mpr ⟨hbehind, rfl⟩, parseModeChar_recorded.mpr ⟨hnext, rfl⟩⟩

/-- The result behind the loop. -/
def finish (info : ParseMode) : Option ParseMode := if info.access = .none then none else some info

theorem parseModeLoop_eq {mode : List UInt8} (h : Terminated mode) (info : ParseMode) :
    parseModeLoop true info mode =
      some ((exec (parseModeChar true) info (text mode)).bind finish) := by
  induction mode generalizing info with
  | nil => exact absurd h not_terminated_nil
  | cons c mode ih =>
    rw [parseModeLoop]
    by_cases hc : c = 0
    · rw [if_pos hc, hc, text_zero]
      rfl
    · rw [if_neg hc, text_cons hc, exec_cons]
      cases parseModeChar true info c with
      | none => rfl
      | some info => exact ih ((terminated_cons_of_ne hc).mp h) info

theorem parseMode_eq {mode : List UInt8} (h : Terminated mode) :
    parseMode true mode = some ((scan (text mode)).bind finish) := parseModeLoop_eq h _

/-- The parser takes a text with an access letter when each character suits what stands before. -/
theorem finish_scan : (scan t).bind finish = some info ↔
    Behind Next t ∧ (∃ d ∈ t, d ∈ accessLetters) ∧ info = recorded t := by
  have haccess : (recorded t).access ≠ .none ↔ ∃ d ∈ t, d ∈ accessLetters := by
    simp only [ne_eq, access_none, not_forall, not_not, exists_prop]
  rw [Option.bind_eq_some_iff, ← haccess]
  constructor
  · rintro ⟨before, hbefore, hfinish⟩
    obtain ⟨hbehind, rfl⟩ := scan_iff.mp hbefore
    rw [finish] at hfinish
    split at hfinish
    · cases hfinish
    · next hne => exact ⟨hbehind, hne, (Option.some.inj hfinish).symm⟩
  · rintro ⟨hbehind, hne, rfl⟩
    exact ⟨_, scan_iff.mpr ⟨hbehind, rfl⟩, if_neg hne⟩

end Scan

section Kept

variable {t : List UInt8} {c : UInt8} {info : ParseMode}

/-- The texts the parser takes. -/
def Accepted (t : List UInt8) : Prop := Behind Next t ∧ ∃ d ∈ t, d ∈ accessLetters

theorem accepted_iff : Accepted t ↔ ((scan t).bind finish).isSome := by
  rw [Option.isSome_iff_exists]
  constructor
  · intro h
    exact ⟨_, finish_scan.mpr ⟨h.1, h.2, rfl⟩⟩
  · rintro ⟨info, hinfo⟩
    obtain ⟨hbehind, haccess, _⟩ := finish_scan.mp hinfo
    exact ⟨hbehind, haccess⟩

theorem next_once : Behind (fun u d => d ∈ flagLetters → d ∉ u) t ↔
    ∀ c ∈ flagLetters, t.count c ≤ 1 := by
  constructor
  · intro h c hc
    refine (countP_le_one_iff _).mpr fun i hi hat e he => ?_
    obtain rfl : t[i] = c := eq_of_beq hat
    rw [beq_eq_false_iff_ne]
    rintro rfl
    exact h i hi hc he
  · intro h i hi hflag hmem
    have hone := (countP_le_one_iff _).mp (h _ hflag) i hi (beq_self_eq_true _) _ hmem
    exact absurd (beq_self_eq_true t[i]) (Bool.eq_false_iff.mp hone)

/-- Where all characters are known, the other ones are the access letters. -/
theorem next_access (h : ∀ c ∈ t, c ∈ accessLetters ∨ c ∈ flagLetters) :
    Behind (fun u d => d ∉ flagLetters → ∀ e ∈ u, e ∉ accessLetters) t ↔
      t.countP (· ∈ accessLetters) ≤ 1 := by
  rw [countP_le_one_iff]
  refine forall₂_congr fun i hi => ?_
  have hother : t[i] ∉ flagLetters ↔ t[i] ∈ accessLetters :=
    ⟨(h _ (List.getElem_mem hi)).resolve_right, access_not_flag⟩
  simp only [hother, decide_eq_true_eq, decide_eq_false_iff_not]

/-- The mode language is what the parser takes of known characters. -/
theorem valid_iff : Valid t ↔ Accepted t ∧ ∀ c ∈ t, ¬Foreign c := by
  have hpos : (∃ d ∈ t, d ∈ accessLetters) ↔ 0 < t.countP (· ∈ accessLetters) := by
    simp only [List.countP_pos_iff, decide_eq_true_eq]
  have hu : byte 'u' ∉ accessLetters ∧ byte 'u' ∉ flagLetters := by decide
  constructor
  · intro h
    have hknown : ∀ c ∈ t, c ≠ byte 'u' := by
      rintro c hc rfl
      exact (h.alphabet _ hc).elim hu.1 hu.2
    refine ⟨⟨fun i hi => ⟨hknown _ (List.getElem_mem hi), next_once.mpr h.once i hi,
      (next_access h.alphabet).mpr (Nat.le_of_eq h.access) i hi, h.exclusive i hi⟩, ?_⟩, ?_⟩
    · rw [hpos, h.access]
      exact Nat.one_pos
    · exact fun c hc hforeign => (h.alphabet c hc).elim hforeign.1 hforeign.2.1
  · rintro ⟨⟨hbehind, haccess⟩, hforeign⟩
    have halphabet : ∀ c ∈ t, c ∈ accessLetters ∨ c ∈ flagLetters := by
      intro c hc
      obtain ⟨i, hi, rfl⟩ := List.getElem_of_mem hc
      by_contra hneither
      obtain ⟨ha, hf⟩ := not_or.mp hneither
      exact hforeign _ hc ⟨ha, hf, (hbehind i hi).1⟩
    refine ⟨halphabet, ?_, next_once.mp fun i hi => (hbehind i hi).2.1,
      fun i hi => (hbehind i hi).2.2.2⟩
    have hle := (next_access halphabet).mp fun i hi => (hbehind i hi).2.2.1
    have hge := hpos.mp haccess
    omega

theorem parseModeChar_foreign (hc : Foreign c) (hinfo : info.access = .none) :
    parseModeChar true info c = some info := by
  obtain ⟨haccess, hflag, hu⟩ := hc
  simp only [accessLetters, flagLetters, List.mem_cons, List.not_mem_nil, or_false, not_or]
    at haccess hflag
  simp only [parseModeChar, haccess, hflag, hu, hinfo, if_false, ne_eq, not_true_eq_false]

/-- Only an access letter sets the access. -/
theorem access_of_parseModeChar {info' : ParseMode} (hc : c ∉ accessLetters)
    (hinfo : info.access = .none) (h : parseModeChar true info c = some info') :
    info'.access = .none := by
  simp only [accessLetters, List.mem_cons, List.not_mem_nil, or_false, not_or] at hc
  rw [parseModeChar] at h
  simp only [hc, if_false] at h
  split_ifs at h <;> cases h <;> exact hinfo

/-- Unknown characters leave no trace before the access letter. -/
theorem exec_filter {u : List UInt8} (hu : ∀ c ∈ u, c ∉ accessLetters)
    (hinfo : info.access = .none) :
    exec (parseModeChar true) info (u.filter fun c => ¬Foreign c) =
      exec (parseModeChar true) info u := by
  induction u generalizing info with
  | nil => rfl
  | cons c u ih =>
    have hrest : ∀ d ∈ u, d ∉ accessLetters := fun d hd => hu d (List.mem_cons_of_mem c hd)
    by_cases hc : Foreign c
    · rw [List.filter_cons_of_neg (by simpa using hc), exec_cons,
        parseModeChar_foreign hc hinfo]
      exact ih hrest hinfo
    · rw [List.filter_cons_of_pos (by simpa using hc), exec_cons, exec_cons]
      refine Option.bind_congr fun info' hinfo' => ?_
      exact ih hrest (access_of_parseModeChar (hu c List.mem_cons_self) hinfo hinfo')

theorem lead_append (t : List UInt8) : lead t ++ t.dropWhile (· ∉ accessLetters) = t :=
  List.takeWhile_append_dropWhile

theorem mem_lead (hc : c ∈ lead t) : c ∉ accessLetters := by
  simpa using List.mem_takeWhile_imp hc

/-- What is left out makes no difference. -/
theorem accepted_kept : Accepted (kept t) ↔ Accepted t := by
  have hscan : scan (kept t) = scan t := by
    conv_rhs => rw [← lead_append t]
    rw [scan, scan, kept, exec_append, exec_append,
      exec_filter (fun c hc => mem_lead hc) (by rfl)]
  rw [accepted_iff, accepted_iff, hscan]

/-- Behind the access letter nothing unknown is let through. -/
theorem valid_kept : Valid (kept t) ↔ Accepted t := by
  rw [valid_iff, accepted_kept, and_iff_left_iff_imp]
  intro h c hc hforeign
  rw [← accepted_kept] at h
  rcases List.mem_append.mp hc with hlead | hrest
  · exact absurd hforeign (by simpa using List.of_mem_filter hlead)
  · cases hdrop : t.dropWhile (· ∉ accessLetters) with
    | nil =>
      rw [hdrop] at hrest
      cases hrest
    | cons d rest =>
      have hd : d ∈ accessLetters := by
        have hfirst := List.head?_dropWhile_not (fun c => decide (c ∉ accessLetters)) t
        rw [hdrop] at hfirst
        simpa using hfirst
      rw [hdrop] at hrest
      rcases List.mem_cons.mp hrest with rfl | hrest
      · exact hforeign.1 hd
      · obtain ⟨u, v, rfl⟩ := List.append_of_mem hrest
        have hbehind := h.1
        rw [kept, hdrop, ← List.cons_append, ← List.append_assoc] at hbehind
        exact (behind_at hbehind).2.2.1 hforeign.2.1 d (by simp) hd

theorem kept_of_known (h : ∀ c ∈ lead t, ¬Foreign c) : kept t = t := by
  have hall : (lead t).filter (fun c => ¬Foreign c) = lead t :=
    List.filter_eq_self.mpr fun c hc => decide_eq_true (h c hc)
  rw [kept, hall, lead_append]

/-- What the parser takes is a mode unless something unknown stands before the access letter. -/
theorem valid_iff_known (h : Accepted t) : Valid t ↔ ∀ c ∈ lead t, ¬Foreign c := by
  constructor
  · intro hvalid c hc
    exact (valid_iff.mp hvalid).2 c (List.takeWhile_subset _ hc)
  · intro hknown
    rw [← kept_of_known hknown]
    exact valid_kept.mpr h

end Kept

section Modes

variable {mode : List UInt8}

/-- `fopen` takes just the valid modes, with the flags on record that occur, and refuses all others
before it asks for anything. -/
def ModeTold (mode : List UInt8) : Prop := ∃ r, parseMode true mode = some r ∧
  (r.isSome ↔ Valid (text mode)) ∧ (∀ info, r = some info → Records (text mode) info) ∧
  (¬Valid (text mode) → ∀ filename block answer w,
    fopen filename mode block answer w = some (0, { w with errno := EINVAL }))

/-- Two access letters are the same one. -/
theorem access_unique {t : List UInt8} {c d : UInt8} (h : Behind Next t)
    (hc : c ∈ t) (hca : c ∈ accessLetters) (hd : d ∈ t) (hda : d ∈ accessLetters) : c = d := by
  induction t using List.reverseRecOn with
  | nil => cases hc
  | append_singleton t e ih =>
    obtain ⟨hbehind, _, _, hnext, _⟩ := behind_snoc.mp h
    rw [List.mem_append, List.mem_singleton] at hc hd
    rcases hc with hc | rfl
    · rcases hd with hd | rfl
      · exact ih hbehind hc hd
      · exact absurd hca (hnext (access_not_flag hda) c hc)
    · rcases hd with hd | rfl
      · exact absurd hda (hnext (access_not_flag hca) d hd)
      · rfl

theorem records_of_behind {t : List UInt8} (h : Behind Next t) : Records t (recorded t) := by
  have hunique : ∀ c ∈ accessLetters, ∀ d ∈ accessLetters, c ∈ t → d ∈ t → c = d :=
    fun c hca d hda hc hd => access_unique h hc hca hd hda
  have hrw : byte 'r' ∈ t → byte 'w' ∉ t := fun hr hw =>
    absurd (hunique _ (by decide) _ (by decide) hr hw) (by decide)
  have haw : byte 'a' ∈ t → byte 'w' ∉ t := fun ha hw =>
    absurd (hunique _ (by decide) _ (by decide) ha hw) (by decide)
  have har : byte 'a' ∈ t → byte 'r' ∉ t := fun ha hr =>
    absurd (hunique _ (by decide) _ (by decide) ha hr) (by decide)
  refine ⟨decide_eq_true_iff, decide_eq_true_iff, decide_eq_true_iff, decide_eq_true_iff, ?_,
    access_write, ?_⟩
  · simp only [recorded]
    split_ifs <;> simp_all
  · simp only [recorded]
    split_ifs <;> simp_all

theorem modeTold_iff_accepted (h : Terminated mode) :
    ModeTold mode ↔ (Accepted (text mode) ↔ Valid (text mode)) := by
  constructor
  · rintro ⟨r, hr, hiff, _⟩
    rw [parseMode_eq h] at hr
    rwa [accepted_iff, Option.some.inj hr]
  · intro hiff
    refine ⟨_, parseMode_eq h, accepted_iff.symm.trans hiff, fun info hinfo => ?_,
      fun hinvalid filename block answer w => ?_⟩
    · obtain ⟨hbehind, _, rfl⟩ := finish_scan.mp hinfo
      exact records_of_behind hbehind
    · have hrejected : (scan (text mode)).bind finish = none := by
        rw [← Option.not_isSome_iff_eq_none, ← accepted_iff, hiff]
        exact hinvalid
      rw [fopen, parseMode_eq h, hrejected]
      rfl

end Modes

/-- The modes are told right when there is no unknown character in front of the access letter, or
the mode is wrong without these too. -/
theorem fopen_mode_language_iff (mode : List UInt8) (h : Terminated mode) :
    ModeTold mode ↔ (∀ c ∈ lead (text mode), ¬Foreign c) ∨ ¬Valid (kept (text mode)) := by
  rw [modeTold_iff_accepted h, valid_kept]
  by_cases haccepted : Accepted (text mode)
  · rw [iff_true_left haccepted, valid_iff_known haccepted, or_iff_left (not_not.mpr haccepted)]
  · refine iff_of_true (iff_of_false haccepted fun hvalid => ?_) (.inr haccepted)
    exact haccepted (valid_iff.mp hvalid).1

/-- `"w+x"` is told right. -/
theorem fopen_mode_language_iff_wx : ModeTold (literal ['w', '+', 'x']) :=
  (fopen_mode_language_iff (literal ['w', '+', 'x']) (by decide)).mpr
    (.inl fun _ hc => absurd hc List.not_mem_nil)

/-- `"zr"` is no mode, and a file is opened. -/
theorem unknown_letter_accepted :
    (∃ info, parseMode true (literal ['z', 'r']) = some (some info)) ∧
    ¬Valid (text (literal ['z', 'r'])) ∧
    (fopen 16 (literal ['z', 'r']) 4096 (.ok 3) ⟨0, fun _ => none, []⟩).map
      (fun r => (r.1, r.2.events)) = some (4096, [.malloc 32 4096, .opened 16 0 0 3]) ∧
    ¬ModeTold (literal ['z', 'r']) := by
  have hparse : parseMode true (literal ['z', 'r']) =
    some (some ⟨false, false, true, false, false, .read⟩) := by decide
  refine ⟨⟨_, hparse⟩, by decide, rfl, fun h => ?_⟩
  obtain ⟨r, hr, hiff, _⟩ := h
  obtain rfl := Option.some.inj (hparse.symm.trans hr)
  exact absurd (hiff.mp rfl) (by decide)

end ModeLanguage
