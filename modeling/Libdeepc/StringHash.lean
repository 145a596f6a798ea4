import Libdeepc.HashSearch
import Libdeepc.StringCompare

/-!
# The bytes that are hashed

One round of `hasher` takes up to three characters, and each of its reads may come upon
the NUL. A run of it is kept together with the addresses it has read.
-/

namespace StringHash

open ByteMemory StringCompare StringFunctions

variable {mem : Mem} {p : UInt64} {t : List UInt8}

section Code

/-- The hash, and the addresses of the bytes read for it. -/
structure Hashed where
  hash : UInt64
  reads : List UInt64

/-- The reads of a round come before those of the rounds behind it. -/
def Hashed.behind (r : Hashed) (ps : List UInt64) : Hashed := { r with reads := ps ++ r.reads }

/-- What the first, the second and the third character of a round do to the hash. -/
def mixFirst (hash a : UInt64) : UInt64 := ((hash <<< 3) ||| (hash >>> 61)) ^^^ a

def mixSecond (hash a b : UInt64) : UInt64 := hash ^^^ (b ^^^ ((a &&& b) <<< 2))

def mixThird (hash a c : UInt64) : UInt64 := hash ^^^ ((c ^^^ (~~~a &&& c)) <<< 1)

def hasherLoop (mem : Mem) : Nat → UInt64 → UInt64 → Option Hashed
  | 0, _, _ => none
  | fuel + 1, str, hash => (mem str).bind fun a =>
    if a = 0 then some ⟨hash, [str]⟩
    else
      let hash := mixFirst hash a.toUInt64
      let second := str + 1
      (mem second).bind fun b =>
        if b = 0 then some ⟨hash, [str, second]⟩
        else
          let hash := mixSecond hash a.toUInt64 b.toUInt64
          let third := second + 1
          (mem third).bind fun c =>
            if c = 0 then some ⟨hash, [str, second, third]⟩
            else
              let hash := mixThird hash a.toUInt64 c.toUInt64
              (hasherLoop mem fuel (third + 1) hash).map fun r => r.behind [str, second, third]

def hasher (mem : Mem) (str : UInt64) : Option Hashed :=
  (hasherLoop mem rounds str 0x0123456789abcdef).map fun r =>
    { r with hash := (r.hash >>> 2) ||| (r.hash <<< 62) }

end Code

/-- The addresses of the text and of its NUL. -/
def Extent (p : UInt64) (t : List UInt8) (reads : List UInt64) : Prop :=
  ∀ a, a ∈ reads ↔ ∃ i, i ≤ t.length ∧ a = p + .ofNat i

theorem extent_nil (p : UInt64) : Extent p [] [p] := by
  intro a
  rw [List.mem_singleton]
  constructor
  · intro h
    exact ⟨0, Nat.le_refl _, by rw [h, add_ofNat_zero]⟩
  · rintro ⟨i, hi, rfl⟩
    rw [Nat.le_zero.mp hi, add_ofNat_zero]

theorem Extent.cons {c : UInt8} {reads : List UInt64} (h : Extent (p + 1) t reads) :
    Extent p (c :: t) (p :: reads) := by
  intro a
  rw [List.mem_cons, h a]
  constructor
  · rintro (rfl | ⟨i, hi, rfl⟩)
    · exact ⟨0, Nat.zero_le _, (add_ofNat_zero a).symm⟩
    · exact ⟨i + 1, Nat.succ_le_succ hi, add_one_add_ofNat p i⟩
  · rintro ⟨i, hi, rfl⟩
    cases i with
    | zero => exact .inl (add_ofNat_zero p)
    | succ i => exact .inr ⟨i, Nat.le_of_succ_le_succ hi, (add_one_add_ofNat p i).symm⟩

/-- The rest behind the first character. -/
theorem tail_of_text {c : UInt8} (h : TextAt mem p (c :: t)) :
    mem p = some c ∧ c ≠ 0 ∧ TextAt mem (p + 1) t :=
  ⟨(holds_cons.mp h.text).1, fun h0 => h.noZero (h0 ▸ List.mem_cons_self),
    h.drop (n := 1) (Nat.succ_pos _)⟩

theorem nul_of_text (h : TextAt mem p []) : mem p = some 0 := holds_singleton.mp h.holds

/-- The loop on memory is the loop on the bytes, wherever in a round the NUL is met. -/
theorem hasherLoop_spec : ∀ (t : List UInt8) {p : UInt64} (hash : UInt64) {fuel : Nat},
    TextAt mem p t → t.length < fuel → ∃ r, hasherLoop mem fuel p hash = some r ∧
      HashSearch.hasherLoop (t ++ [0]) hash = some r.hash ∧ Extent p t r.reads
  | [], p, hash, fuel + 1, h, _ => by
    refine ⟨⟨hash, [p]⟩, ?_, rfl, extent_nil p⟩
    simp only [hasherLoop, nul_of_text h, Option.bind_some, if_true]
  | [a], p, hash, fuel + 1, h, _ => by
    obtain ⟨ha, ha0, h₁⟩ := tail_of_text h
    refine ⟨⟨mixFirst hash a.toUInt64, [p, p + 1]⟩, ?_, ?_, (extent_nil (p + 1)).cons⟩
    · simp only [hasherLoop, ha, if_neg ha0, nul_of_text h₁, Option.bind_some, if_true]
    · simp only [List.cons_append, List.nil_append, HashSearch.hasherLoop, if_neg ha0, if_true,
        mixFirst]
  | [a, b], p, hash, fuel + 1, h, _ => by
    obtain ⟨ha, ha0, h₁⟩ := tail_of_text h
    obtain ⟨hb, hb0, h₂⟩ := tail_of_text h₁
    refine ⟨⟨mixSecond (mixFirst hash a.toUInt64) a.toUInt64 b.toUInt64,
      [p, p + 1, p + 1 + 1]⟩, ?_, ?_, (extent_nil (p + 1 + 1)).cons.cons⟩
    · simp only [hasherLoop, ha, if_neg ha0, hb, if_neg hb0, nul_of_text h₂, Option.bind_some,
        if_true]
    · simp only [List.cons_append, List.nil_append, HashSearch.hasherLoop, if_neg ha0, if_neg hb0,
        if_true, mixFirst, mixSecond]
  | a :: b :: c :: t, p, hash, fuel + 1, h, hfuel => by
    obtain ⟨ha, ha0, h₁⟩ := tail_of_text h
    obtain ⟨hb, hb0, h₂⟩ := tail_of_text h₁
    obtain ⟨hc, hc0, h₃⟩ := tail_of_text h₂
    have hlen : t.length < fuel := by
      simp only [List.length_cons] at hfuel
      omega
    obtain ⟨r, hloop, hlist, hext⟩ := hasherLoop_spec t (mixThird (mixSecond
      (mixFirst hash a.toUInt64) a.toUInt64 b.toUInt64) a.toUInt64 c.toUInt64) h₃ hlen
    refine ⟨r.behind [p, p + 1, p + 1 + 1], ?_, ?_, hext.cons.cons.cons⟩
    · simp only [hasherLoop, ha, if_neg ha0, hb, if_neg hb0, hc, if_neg hc0, Option.bind_some,
        hloop, Option.map_some]
    · simp only [List.cons_append, HashSearch.hasherLoop, if_neg ha0, if_neg hb0, if_neg hc0]
      exact hlist

/-- The hash of a text, read from memory or from the list of its bytes. -/
theorem hasher_spec (h : TextAt mem p t) : ∃ r, hasher mem p = some r ∧
    HashSearch.hasher (t ++ [0]) = some r.hash ∧ Extent p t r.reads := by
  have hfuel : t.length < rounds := Nat.lt_of_succ_lt h.length_lt
  obtain ⟨r, hloop, hlist, hext⟩ := hasherLoop_spec t 0x0123456789abcdef h hfuel
  exact ⟨{ r with hash := (r.hash >>> 2) ||| (r.hash <<< 62) }, by rw [hasher, hloop]; rfl,
    by rw [HashSearch.hasher, hlist]; rfl, hext⟩

/-- `hasher` comes back after reading the text and its NUL and nothing else. Strings that `strcmp`
finds equal have one hash, wherever they are. -/
theorem hasher_reads_text (charSigned : Bool) (mem : Mem) (p : UInt64) (t : List UInt8)
    (h : TextAt mem p t) : ∃ r, hasher mem p = some r ∧
      (∀ a, a ∈ r.reads ↔ ∃ i, i ≤ t.length ∧ a = p + .ofNat i) ∧
      (∀ mem' p', TextAt mem' p' t → (hasher mem' p').map Hashed.hash = some r.hash) ∧
      ∀ q u, TextAt mem q u → strcmp charSigned mem p q = some 0 →
        (hasher mem q).map Hashed.hash = some r.hash := by
  obtain ⟨r, hrun, hlist, hext⟩ := hasher_spec h
  have hsame : ∀ mem' p', TextAt mem' p' t → (hasher mem' p').map Hashed.hash = some r.hash := by
    intro mem' p' h'
    obtain ⟨r', hrun', hlist', _⟩ := hasher_spec h'
    rw [hrun', Option.map_some, ← hlist', hlist]
  refine ⟨r, hrun, hext, hsame, fun q u hu heq => ?_⟩
  rw [strcmp_eq h.noZero hu.noZero h.holds hu.holds] at heq
  obtain rfl := (textOrder_eq_zero_iff h.noZero hu.noZero).mp (Option.some.inj heq)
  exact hsame mem q hu

/-- `"abcd"` at 16 and at 32, and nothing else. -/
def shelf : Mem := fun a =>
  if a = 20 ∨ a = 36 then some 0
  else if 16 ≤ a ∧ a < 20 then some (a.toUInt8 + 81)
  else if 32 ≤ a ∧ a < 36 then some (a.toUInt8 + 65)
  else none

theorem hasher_reads_text_abcd : ∃ r, hasher shelf 16 = some r ∧ 20 ∈ r.reads ∧ 21 ∉ r.reads ∧
    (hasher shelf 32).map Hashed.hash = some r.hash := by
  have htext : ∀ p : UInt64, p = 16 ∨ p = 32 → TextAt shelf p [97, 98, 99, 100] := by
    rintro p (rfl | rfl)
    · exact ⟨by decide, by decide, by decide, by decide⟩
    · exact ⟨by decide, by decide, by decide, by decide⟩
  obtain ⟨r, hrun, hreads, hsame, _⟩ :=
    hasher_reads_text true shelf 16 [97, 98, 99, 100] (htext 16 (.inl rfl))
  refine ⟨r, hrun, (hreads 20).mpr ⟨4, by decide, rfl⟩, fun hmem => ?_,
    hsame shelf 32 (htext 32 (.inr rfl))⟩
  obtain ⟨i, hi, heq⟩ := (hreads 21).mp hmem
  have hplace : (16 : UInt64) + .ofNat i = 16 + .ofNat 5 := heq.symm
  have hle : i ≤ 4 := hi
  exact absurd (add_ofNat_inj (by omega) (by omega) hplace) (by omega)

end StringHash
