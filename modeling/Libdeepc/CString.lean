import Mathlib.Data.List.TakeWhile

/-!
# Byte strings behind a `const char *`

A pointer into an object is the list of the bytes that can be read from it on:
`*s` is the head, `++s` is the tail, and reading the empty list is reading past
the object, which `none` stands for. A string is terminated when its list holds
a NUL; its text is what stands before the first one.
-/

namespace CString

/-- The byte of a character constant. -/
def byte (c : Char) : UInt8 := c.toUInt8

/-- A string literal: its characters and the terminator. -/
def literal (cs : List Char) : List UInt8 := cs.map byte ++ [0]

def Terminated (s : List UInt8) : Prop := 0 ∈ s

instance (s : List UInt8) : Decidable (Terminated s) := inferInstanceAs (Decidable (0 ∈ s))

def text (s : List UInt8) : List UInt8 := s.takeWhile (· ≠ 0)

/-- Plain `char` is signed on this target. -/
def charVal (c : UInt8) : Int := c.toInt8.toInt

theorem charVal_eq (c : UInt8) :
    charVal c = if c.toNat < 128 then (c.toNat : Int) else c.toNat - 256 := by
  have hc := c.toNat_lt
  have htoInt : charVal c = c.toBitVec.toInt := rfl
  rw [htoInt, BitVec.toInt_eq_toNat_cond]
  simp only [UInt8.toNat_toBitVec]
  split <;> split <;> omega

def strlen : List UInt8 → Option Nat
  | [] => none
  | c :: s => if c = 0 then some 0 else (strlen s).map (· + 1)

def strcmp : List UInt8 → List UInt8 → Option Int
  | [], _ => none
  | _ :: _, [] => none
  | l :: lhs, r :: rhs =>
    if l ≠ r then some (if charVal l < charVal r then -1 else 1)
    else if l = 0 then some 0
    else strcmp lhs rhs

@[simp] theorem text_nil : text [] = [] := rfl

@[simp] theorem text_zero (s : List UInt8) : text (0 :: s) = [] := by simp [text]

theorem text_cons {c : UInt8} (hc : c ≠ 0) (s : List UInt8) :
    text (c :: s) = c :: text s := by simp [text, hc]

@[simp] theorem not_terminated_nil : ¬Terminated [] := List.not_mem_nil

@[simp] theorem terminated_zero (s : List UInt8) : Terminated (0 :: s) := List.mem_cons_self

theorem terminated_cons_of_ne {c : UInt8} (hc : c ≠ 0) {s : List UInt8} :
    Terminated (c :: s) ↔ Terminated s := by simp [Terminated, Ne.symm hc]

theorem zero_notMem_text (s : List UInt8) : 0 ∉ text s := by
  intro h
  simpa using List.mem_takeWhile_imp h

@[simp] theorem text_append_zero {t : List UInt8} (ht : 0 ∉ t) (s : List UInt8) :
    text (t ++ 0 :: s) = t := by
  induction t with
  | nil => simp
  | cons c t ih =>
    have hc : c ≠ 0 := fun h => ht (by simp [h])
    have ht' : 0 ∉ t := fun h => ht (List.mem_cons_of_mem c h)
    rw [List.cons_append, text_cons hc, ih ht']

/-- A terminated string is its text, the NUL and whatever follows. -/
theorem exists_eq_text_append {s : List UInt8} (h : Terminated s) :
    ∃ rest, s = text s ++ 0 :: rest := by
  induction s with
  | nil => exact absurd h not_terminated_nil
  | cons c s ih =>
    by_cases hc : c = 0
    · exact ⟨s, by simp [hc]⟩
    · obtain ⟨rest, hrest⟩ := ih ((terminated_cons_of_ne hc).mp h)
      refine ⟨rest, ?_⟩
      rw [text_cons hc, List.cons_append, ← hrest]

theorem terminated_literal (cs : List Char) : Terminated (literal cs) := by
  simp [Terminated, literal]

theorem strlen_eq {s : List UInt8} (h : Terminated s) :
    strlen s = some (text s).length := by
  induction s with
  | nil => exact absurd h not_terminated_nil
  | cons c s ih =>
    by_cases hc : c = 0
    · simp [strlen, hc]
    · have hs := (terminated_cons_of_ne hc).mp h
      simp [strlen, hc, ih hs, text_cons hc]

theorem strlen_unterminated {s : List UInt8} (h : ¬Terminated s) : strlen s = none := by
  induction s with
  | nil => rfl
  | cons c s ih =>
    have h0 : c ≠ 0 := by
      rintro rfl
      exact h (terminated_zero s)
    rw [terminated_cons_of_ne h0] at h
    rw [strlen, if_neg h0, ih h, Option.map_none]

/-- On terminated strings `strcmp` always returns, and returns 0 exactly when
the texts agree. -/
theorem strcmp_eq_zero_iff {l r : List UInt8} (hl : Terminated l) (hr : Terminated r) :
    ∃ c, strcmp l r = some c ∧ (c = 0 ↔ text l = text r) := by
  induction l generalizing r with
  | nil => exact absurd hl not_terminated_nil
  | cons a l ih =>
    cases r with
    | nil => exact absurd hr not_terminated_nil
    | cons b r =>
      by_cases hab : a = b
      · subst b
        by_cases ha : a = 0
        · exact ⟨0, by simp [strcmp, ha], by simp [ha]⟩
        · have hl' := (terminated_cons_of_ne ha).mp hl
          have hr' := (terminated_cons_of_ne ha).mp hr
          obtain ⟨c, hc, hiff⟩ := ih hl' hr'
          exact ⟨c, by simp [strcmp, ha, hc], by simp [text_cons ha, hiff]⟩
      · refine ⟨if charVal a < charVal b then -1 else 1, by simp [strcmp, hab], ?_⟩
        have hne : text (a :: l) ≠ text (b :: r) := by
          by_cases ha : a = 0
          · have hb : b ≠ 0 := fun h => hab (ha.trans h.symm)
            simp [ha, text_cons hb]
          · by_cases hb : b = 0
            · simp [hb, text_cons ha]
            · simp [text_cons ha, text_cons hb, hab]
        constructor
        · intro h
          split at h <;> omega
        · intro h
          exact absurd h hne

end CString
