import Libdeepc.SubstringSearch

/-!
# The environment

`getenv` compares the name with each entry over the length of the name. An entry may be
shorter than that: the comparison then ends at its NUL. The array that `environ` points
to is the list of the pointers that can be read from it.
-/

namespace Environment

open ByteMemory StringFunctions SubstringSearch

def getenvLoop (charSigned : Bool) (mem : Mem) (name len : UInt64) : List UInt64 → Option UInt64
  | [] => none
  | e :: environ =>
    if e = 0 then some 0
    else (memcmp charSigned mem name e len).bind fun c =>
      if c = 0 then
        (mem (e + len)).bind fun b =>
          if b = CString.byte '=' then some (e + len + 1)
          else getenvLoop charSigned mem name len environ
      else getenvLoop charSigned mem name len environ

def getenv (charSigned : Bool) (mem : Mem) (environ : List UInt64) (name : UInt64) :
    Option UInt64 :=
  (strlen mem name).bind fun len => getenvLoop charSigned mem name len environ

/-- The strings of an environment with their places; NULL ends it. -/
structure EnvironAt (mem : Mem) (environ : List UInt64) (entries : List (UInt64 × List UInt8)) :
    Prop where
  ends : ∃ rest, environ = entries.map Prod.fst ++ 0 :: rest
  texts : ∀ e ∈ entries, TextAt mem e.1 e.2

/-- The entry is of the form `name=value`. -/
def Names (n t : List UInt8) : Prop := n ++ [CString.byte '='] <+: t

instance (n t : List UInt8) : Decidable (Names n t) := inferInstanceAs (Decidable (_ <+: t))

/-- The address of the value in the first entry of this name, or NULL when there is none. -/
def Answer (mem : Mem) (entries : List (UInt64 × List UInt8)) (n : List UInt8) (ret : UInt64) :
    Prop :=
  (∃ pre p v post, entries = pre ++ (p, n ++ CString.byte '=' :: v) :: post ∧
    (∀ e ∈ pre, ¬Names n e.2) ∧ ret = p + .ofNat (n.length + 1) ∧ TextAt mem ret v) ∨
  (ret = 0 ∧ ∀ e ∈ entries, ¬Names n e.2)

variable {charSigned : Bool} {mem mem' : Mem} {name p : UInt64} {environ : List UInt64}
  {n t : List UInt8} {entries : List (UInt64 × List UInt8)} {ret : UInt64}

/-- What the loop finds does not depend on the memory. -/
def find (n : List UInt8) : List (UInt64 × List UInt8) → UInt64
  | [] => 0
  | e :: entries => if Names n e.2 then e.1 + .ofNat (n.length + 1) else find n entries

/-- An entry behind the comparison: the byte after the name is an `=`, or one of the two tests
fails. It is not read unless the entry starts with the name. -/
theorem entry_cases (charSigned : Bool) (hname : TextAt mem name n) (hp : TextAt mem p t) :
    (Names n t ∧ memcmp charSigned mem name p (.ofNat n.length) = some 0 ∧
      mem (p + .ofNat n.length) = some (CString.byte '=')) ∨
    (¬Names n t ∧ ∃ c, memcmp charSigned mem name p (.ofNat n.length) = some c ∧
      (c = 0 → ∃ b, mem (p + .ofNat n.length) = some b ∧ b ≠ CString.byte '=')) := by
  have hlen : n.length = (UInt64.ofNat n.length).toNat := by
    rw [UInt64.toNat_ofNat', Nat.mod_eq_of_lt (Nat.lt_of_succ_lt hname.length_lt)]
  obtain ⟨_, c, hc, hstarts⟩ := memcmp_starts charSigned hp hname.text hname.noZero hlen
  by_cases hprefix : n <+: t
  · obtain ⟨v, rfl⟩ := hprefix
    have hbehind : Holds mem (p + .ofNat n.length) (v ++ [0]) := by
      have hall := hp.holds
      rw [List.append_assoc, holds_append] at hall
      exact hall.2
    have hnames : Names n (n ++ v) ↔ [CString.byte '='] <+: v := List.prefix_append_right_inj n
    obtain rfl : c = 0 := hstarts.mpr (List.prefix_append n v)
    cases v with
    | nil =>
      refine .inr ⟨?_, 0, hc, fun _ => ⟨0, holds_singleton.mp hbehind, by decide⟩⟩
      rw [hnames]
      decide
    | cons b v =>
      have hb := (holds_cons.mp hbehind).1
      by_cases heq : b = CString.byte '='
      · subst heq
        exact .inl ⟨hnames.mpr (List.prefix_append [_] v), hc, hb⟩
      · refine .inr ⟨fun h => ?_, 0, hc, fun _ => ⟨b, hb, heq⟩⟩
        exact heq (List.cons_prefix_cons.mp (hnames.mp h)).1.symm
  · refine .inr ⟨fun h => ?_, c, hc, fun h => absurd (hstarts.mp h) hprefix⟩
    exact hprefix ((List.prefix_append n _).trans h)

theorem getenvLoop_eq (charSigned : Bool) (hname : TextAt mem name n)
    (henv : EnvironAt mem environ entries) :
    getenvLoop charSigned mem name (.ofNat n.length) environ = some (find n entries) := by
  obtain ⟨⟨rest, rfl⟩, htexts⟩ := henv
  induction entries with
  | nil => exact if_pos rfl
  | cons e entries ih =>
    have he := htexts e List.mem_cons_self
    have hrest := ih fun e' he' => htexts e' (List.mem_cons_of_mem e he')
    rw [List.map_cons, List.cons_append, getenvLoop, if_neg he.nonnull, find]
    rcases entry_cases charSigned hname he with ⟨hnames, hc, hb⟩ | ⟨hnot, c, hc, hother⟩
    · rw [if_pos hnames, hc, Option.bind_some, if_pos rfl, hb, Option.bind_some, if_pos rfl,
        add_ofNat_succ]
    · rw [if_neg hnot, hc, Option.bind_some]
      by_cases hzero : c = 0
      · obtain ⟨b, hb, hne⟩ := hother hzero
        rw [if_pos hzero, hb, Option.bind_some, if_neg hne, hrest]
      · rw [if_neg hzero, hrest]

theorem getenv_eq (charSigned : Bool) (hname : TextAt mem name n)
    (henv : EnvironAt mem environ entries) :
    getenv charSigned mem environ name = some (find n entries) := by
  rw [getenv, strlen_eq hname, Option.bind_some, getenvLoop_eq charSigned hname henv]

theorem answer_find (n : List UInt8) (htexts : ∀ e ∈ entries, TextAt mem e.1 e.2) :
    Answer mem entries n (find n entries) := by
  induction entries with
  | nil => exact .inr ⟨rfl, nofun⟩
  | cons e entries ih =>
    rw [find]
    by_cases hnames : Names n e.2
    · rw [if_pos hnames]
      obtain ⟨v, hv⟩ := hnames
      have he := htexts e List.mem_cons_self
      have hlen : (n ++ [CString.byte '=']).length = n.length + 1 := by
        rw [List.length_append, List.length_singleton]
      have hvalue := he.drop (n := n.length + 1) (by
        rw [← hv, List.length_append, hlen]
        exact Nat.le_add_right ..)
      rw [← hv, ← hlen, List.drop_left, hlen] at hvalue
      refine .inl ⟨[], e.1, v, entries, ?_, nofun, rfl, hvalue⟩
      rw [List.nil_append, List.append_cons, hv]
    · rw [if_neg hnames]
      rcases ih fun e' he' => htexts e' (List.mem_cons_of_mem e he') with
        ⟨pre, p, v, post, hsplit, hbefore, hret, hvalue⟩ | ⟨hret, hnone⟩
      · refine .inl ⟨e :: pre, p, v, post, congrArg (e :: ·) hsplit, ?_, hret, hvalue⟩
        exact List.forall_mem_cons.mpr ⟨hnames, hbefore⟩
      · exact .inr ⟨hret, List.forall_mem_cons.mpr ⟨hnames, hnone⟩⟩

/-- NULL means that there is no such entry. -/
theorem Answer.eq_zero_iff (h : Answer mem entries n ret) :
    ret = 0 ↔ ∀ e ∈ entries, ¬Names n e.2 := by
  rcases h with ⟨pre, p, v, post, rfl, _, _, hvalue⟩ | ⟨hret, hnone⟩
  · refine iff_of_false hvalue.nonnull fun hnone => ?_
    refine hnone (p, _) (List.mem_append_right _ List.mem_cons_self) ?_
    exact ⟨v, (List.append_cons n _ v).symm⟩
  · exact iff_of_true hret hnone

/-- `getenv` finds the value of the first entry of its name. It finds the same in every memory that
holds these strings, whatever stands behind their NULs. -/
theorem getenv_first_entry (charSigned : Bool) {mem : Mem} {environ : List UInt64}
    {entries : List (UInt64 × List UInt8)} {name : UInt64} {n : List UInt8}
    (hname : TextAt mem name n) (henv : EnvironAt mem environ entries) :
    ∃ ret, getenv charSigned mem environ name = some ret ∧ Answer mem entries n ret ∧
      (ret = 0 ↔ ∀ e ∈ entries, ¬Names n e.2) ∧
      ∀ mem', TextAt mem' name n → EnvironAt mem' environ entries →
        getenv charSigned mem' environ name = some ret := by
  have hanswer := answer_find n henv.texts
  exact ⟨_, getenv_eq charSigned hname henv, hanswer, hanswer.eq_zero_iff,
    fun mem' hname' henv' => getenv_eq charSigned hname' henv'⟩

/-- `"A"` at 16, and the entries `"B"`, `"AB=2"` and `"A=1"` at 32, 48 and 64. -/
def shelf : Mem := fun a =>
  match a.toNat with
  | 16 => some 65
  | 17 => some 0
  | 32 => some 66
  | 33 => some 0
  | 48 => some 65
  | 49 => some 66
  | 50 => some 61
  | 51 => some 50
  | 52 => some 0
  | 64 => some 65
  | 65 => some 61
  | 66 => some 49
  | 67 => some 0
  | _ => none

def strings : List (UInt64 × List UInt8) := [(32, [66]), (48, [65, 66, 61, 50]), (64, [65, 61, 49])]

theorem getenv_first_entry_A : ∃ ret, getenv true shelf [32, 48, 64, 0] 16 = some ret ∧
    ret ≠ 0 := by
  have hname : TextAt shelf 16 [65] := ⟨by decide, by decide, by decide, by decide⟩
  have htexts : ∀ e ∈ strings, TextAt shelf e.1 e.2 := by
    simp only [strings, List.forall_mem_cons]
    refine ⟨⟨?_, ?_, ?_, ?_⟩, ⟨?_, ?_, ?_, ?_⟩, ⟨?_, ?_, ?_, ?_⟩, nofun⟩ <;> decide
  obtain ⟨ret, hrun, _, hnull, _⟩ :=
    getenv_first_entry true hname (⟨⟨[], rfl⟩, htexts⟩ : EnvironAt shelf [32, 48, 64, 0] strings)
  refine ⟨ret, hrun, fun hzero => ?_⟩
  exact hnull.mp hzero (64, [65, 61, 49]) (by decide) (by decide)

end Environment
