import Libdeepc.ReallocHistory
import Libdeepc.StringScans
import Libdeepc.SubstringSearch

/-!
# Duplicates of strings

`strdup` and `strndup` take a block from `malloc` and copy a string into it. To
the rest of the heap that is a call of `malloc` and writes into the new block, so
a history with duplicates is one of the histories of `realloc`.
-/

namespace StringDuplicates

open BlockBytes BreakHeap ReallocHistory Runs StringScans
open ByteMemory (Holds TextAt add_ofNat_add add_ofNat_zero add_one_add_ofNat)

section Code

def strdup (str : UInt64) (grant : Bool) (s : Process) : Option (UInt64 × Process) :=
  (StringFunctions.strlen (some ∘ s.mem) str).map fun n =>
    let len := n + 1
    let (newStr, s) := malloc len grant s
    if newStr = 0 then (0, s)
    else (newStr, { s with mem := memcpy s.mem newStr str len.toNat })

def strndup (str size : UInt64) (grant : Bool) (s : Process) : Option (UInt64 × Process) :=
  (memchr (some ∘ s.mem) str 0 size).map fun e =>
    let len := if e = 0 then size else e - str
    let (newStr, s) := malloc (len + 1) grant s
    if newStr = 0 then (0, s)
    else
      let mem := setByte s.mem (newStr + len) 0
      (newStr, { s with mem := memcpy mem newStr str len.toNat })

inductive Dup
  | strdup
  | strndup (size : UInt64)

def Dup.perform : Dup → UInt64 → Bool → Process → Option (UInt64 × Process)
  | .strdup => StringDuplicates.strdup
  | .strndup size => fun str => StringDuplicates.strndup str size

end Code

/-- A step of a history: one without duplicates, or a duplicate of the string at `str`. -/
inductive Act
  | plain (a : Action)
  | dup (d : Dup) (str : UInt64) (grant : Bool)

/-- The new block has the size that `malloc` has recorded. -/
def dupStep (h : Usage) : Act → Option Usage
  | .plain a => step h a
  | .dup d str grant => (d.perform str grant h.proc).map fun (q, proc) =>
    ⟨proc, if q = 0 then h.live else ⟨q, recorded proc.mem q⟩ :: h.live⟩

/-- The text that is duplicated: all of the string, or no more than `size` bytes of it. -/
def Dup.Text (d : Dup) (mem : UInt64 → UInt8) (str : UInt64) (t : List UInt8) : Prop :=
  str ≠ 0 ∧ str.toNat + t.length < 2 ^ 64 ∧ 0 ∉ t ∧ Holds (some ∘ mem) str t ∧
    match d with
    | .strdup => mem (str + .ofNat t.length) = 0
    | .strndup size => t.length ≤ size.toNat ∧
      (t.length < size.toNat → mem (str + .ofNat t.length) = 0)

/-- What is copied out of the string. -/
def Dup.source (t : List UInt8) : Dup → List UInt8
  | .strdup => t ++ [0]
  | .strndup _ => t

def askedFor (t : List UInt8) : UInt64 := .ofNat (t.length + 1)

/-- `malloc` finds memory that is neither in a live block nor in the string. -/
def DupApart (h : Usage) (d : Dup) (str : UInt64) (t : List UInt8) (grant : Bool) : Prop :=
  MallocApart h (.call (.malloc (askedFor t)) grant) ∧
    ((malloc (askedFor t) grant h.proc).1 = 0 ∨ ∀ i, i < (d.source t).length →
      ¬InBlock (askedFor t) (malloc (askedFor t) grant h.proc).1 (str + .ofNat i))

def DupUsed (h : Usage) : Act → Prop
  | .plain a => WellUsed h a
  | .dup d str grant => ∃ t, d.Text h.proc.mem str t ∧ DupApart h d str t grant

/-- The bytes of a block from byte `k` on are written. -/
def writes (q : UInt64) : Nat → List UInt8 → List Action
  | _, [] => []
  | k, b :: bs => .write q k b :: writes q (k + 1) bs

def Dup.fill (q : UInt64) (t : List UInt8) : Dup → List Action
  | .strdup => writes q 0 (t ++ [0])
  | .strndup _ => .write q t.length 0 :: writes q 0 t

/-- The history that a duplicate stands for. -/
def Dup.history (d : Dup) (h : Usage) (t : List UInt8) (grant : Bool) : List Action :=
  let q := (malloc (askedFor t) grant h.proc).1
  .call (.malloc (askedFor t)) grant :: if q = 0 then [] else d.fill q t

section Search

variable {mem : UInt64 → UInt8} {str : UInt64} {t : List UInt8} {d : Dup}

theorem Dup.Text.length_lt (h : d.Text mem str t) : t.length + 1 < 2 ^ 64 := by
  have hpos : str.toNat ≠ 0 := fun hzero => h.1 (UInt64.toNat_inj.mp hzero)
  have hspace := h.2.1
  omega

theorem Dup.Text.textAt (h : Dup.strdup.Text mem str t) : TextAt (some ∘ mem) str t where
  nonnull := h.1
  inSpace := h.2.1
  holds := ByteMemory.holds_append.mpr
    ⟨h.2.2.2.1, ByteMemory.holds_singleton.mpr (congrArg some h.2.2.2.2)⟩
  noZero := h.2.2.1

/-- A stretch of a string ends at its terminator or at a byte of its text. -/
theorem split_text {pre post : List UInt8} {b : UInt8} (h : t ++ [0] = pre ++ b :: post) :
    (b = 0 ∧ t = pre) ∨ ∃ post', t = pre ++ b :: post' := by
  rcases List.eq_nil_or_concat' post with rfl | ⟨post', x, rfl⟩
  · obtain ⟨htext, hzero⟩ := List.append_singleton_inj.mp h
    exact .inl ⟨hzero.symm, htext⟩
  · have hsplit : t ++ [0] = (pre ++ b :: post') ++ [x] := by
      rw [h, List.append_assoc, List.cons_append]
    exact .inr ⟨post', (List.append_singleton_inj.mp hsplit).1⟩

/-- The length that `strndup` finds. -/
theorem strndup_length {size : UInt64} (h : (Dup.strndup size).Text mem str t) :
    ∃ e, memchr (some ∘ mem) str 0 size = some e ∧
      (if e = 0 then size else e - str) = .ofNat t.length := by
  obtain ⟨hnull, hspace, hz, hholds, hle, hnul⟩ := h
  by_cases hlt : t.length < size.toNat
  · have hholds' : Holds (some ∘ mem) str (t ++ [0]) := ByteMemory.holds_append.mpr
      ⟨hholds, ByteMemory.holds_singleton.mpr (congrArg some (hnul hlt))⟩
    have hshort : (t ++ [0]).length ≤ size.toNat := by
      rw [List.length_append, List.length_singleton]
      omega
    obtain ⟨e, he, hfirst⟩ := memchr_spec (c := 0) hholds' hshort (.inr (by simp))
    refine ⟨e, he, ?_⟩
    rcases hfirst with ⟨pre, b, post, heq, rfl, hpre, rfl⟩ | ⟨_, hnone⟩
    · have htext : t = pre := by
        rcases split_text heq with ⟨_, htext⟩ | ⟨post', rfl⟩
        · exact htext
        · exact absurd (by simp) hz
      subst htext
      have hplace : str + .ofNat t.length ≠ 0 := by
        intro hzero
        have hpos : str.toNat ≠ 0 := fun hzero => hnull (UInt64.toNat_inj.mp hzero)
        have hnat := congrArg UInt64.toNat hzero
        rw [ByteMemory.toNat_add_ofNat hspace] at hnat
        change _ = 0 at hnat
        omega
      rw [if_neg hplace, UInt64.add_comm, UInt64.add_sub_cancel]
    · exact absurd rfl (hnone 0 (by simp))
  · have heq : t.length = size.toNat := by omega
    obtain ⟨e, he, hfirst⟩ := memchr_spec (c := 0) hholds (Nat.le_of_eq heq) (.inl heq)
    refine ⟨e, he, ?_⟩
    rcases hfirst with ⟨pre, b, post, rfl, rfl, _⟩ | ⟨rfl, _⟩
    · exact absurd (by simp) hz
    · rw [if_pos rfl, heq, UInt64.ofNat_toNat]

end Search

section Writes

/-- The memory after `writes`. -/
def overlay (mem : UInt64 → UInt8) (q : UInt64) : Nat → List UInt8 → UInt64 → UInt8
  | _, [] => mem
  | k, b :: bs => overlay (setByte mem (q + .ofNat k) b) q (k + 1) bs

variable {h : Usage} {mem : UInt64 → UInt8} {q src : UInt64} {bs : List UInt8} {k : Nat}

theorem exec_writes (h : Usage) (q : UInt64) (k : Nat) (bs : List UInt8) :
    exec step h (writes q k bs) = some { h with proc.mem := overlay h.proc.mem q k bs } := by
  induction bs generalizing h k with
  | nil => rfl
  | cons b bs ih => exact ih _ (k + 1)

/-- A copy from somewhere else writes the bytes that it finds there. -/
theorem memcpy_eq_overlay (hbytes : Holds (some ∘ mem) src bs)
    (hapart : ∀ i j, i < bs.length → j < bs.length → src + .ofNat i ≠ q + .ofNat (k + j)) :
    memcpy mem (q + .ofNat k) src bs.length = overlay mem q k bs := by
  induction bs generalizing mem src k with
  | nil => rfl
  | cons b bs ih =>
    obtain ⟨hb, hrest⟩ := ByteMemory.holds_cons.mp hbytes
    have hb' : mem src = b := Option.some.inj hb
    rw [List.length_cons] at hapart
    have hrest' : Holds (some ∘ setByte mem (q + .ofNat k) b) (src + 1) bs := by
      refine hrest.congr fun i hi => congrArg some (if_neg fun heq => ?_)
      rw [add_one_add_ofNat] at heq
      exact hapart (i + 1) 0 (by omega) (Nat.succ_pos _) heq
    have hapart' : ∀ i j, i < bs.length → j < bs.length →
        src + 1 + .ofNat i ≠ q + .ofNat (k + 1 + j) := by
      intro i j hi hj
      rw [add_one_add_ofNat, Nat.add_assoc, Nat.add_comm 1 j]
      exact hapart (i + 1) (j + 1) (by omega) (by omega)
    have hcopy := ih hrest' hapart'
    rw [ByteMemory.add_ofNat_succ] at hcopy
    rw [List.length_cons, memcpy, hb']
    exact hcopy

theorem along_writes (hlive : IsLive h q) (hroom : metadataSize.toNat + (sizeOf h q).toNat < 2 ^ 64)
    (hk : k + bs.length ≤ (sizeOf h q).toNat) : Along step WellUsed h (writes q k bs) := by
  induction bs generalizing h k with
  | nil => trivial
  | cons b bs ih =>
    rw [List.length_cons] at hk
    have hsize : sizeOf (after h (.write q k b)) q = sizeOf h q := write_sizeOf b (by omega)
    refine along_cons_of_step rfl ⟨⟨hlive, by omega⟩, trivial⟩ (ih hlive ?_ ?_)
    · rwa [hsize]
    · rw [hsize]
      omega

/-- The bytes that are written are those from byte `k` on. -/
theorem overlay_outside {a : UInt64} (ha : ∀ i, i < bs.length → a ≠ q + .ofNat (k + i)) :
    overlay mem q k bs a = mem a := by
  induction bs generalizing mem k with
  | nil => rfl
  | cons b bs ih =>
    rw [List.length_cons] at ha
    have hfirst : a ≠ q + .ofNat k := ha 0 (Nat.succ_pos _)
    refine (ih fun i hi => ?_).trans (if_neg hfirst)
    rw [Nat.add_assoc, Nat.add_comm 1 i]
    exact ha (i + 1) (by omega)

theorem overlay_inside (mem : UInt64 → UInt8) (q : UInt64) (k : Nat) (bs : List UInt8)
    (hlen : k + bs.length ≤ 2 ^ 64) :
    Holds (some ∘ overlay mem q k bs) (q + .ofNat k) bs := by
  induction bs generalizing mem k with
  | nil => exact fun i hi => absurd hi (Nat.not_lt_zero i)
  | cons b bs ih =>
    rw [List.length_cons] at hlen
    refine ByteMemory.holds_cons.mpr ⟨congrArg some ?_, ?_⟩
    · have hlater : ∀ i, i < bs.length → q + .ofNat k ≠ q + .ofNat (k + 1 + i) := by
        intro i hi heq
        exact absurd (ByteMemory.add_ofNat_inj (by omega) (by omega) heq) (by omega)
      exact (overlay_outside hlater).trans (if_pos rfl)
    · rw [← ByteMemory.add_ofNat_succ]
      exact ih _ _ (by omega)

end Writes

section Step

variable {h : Usage} {d : Dup} {str : UInt64} {t : List UInt8} {grant : Bool}
  {mem : UInt64 → UInt8} {q : UInt64}

/-- The memory after a duplicate, once `malloc` has found a block. -/
def Dup.filled (mem : UInt64 → UInt8) (q : UInt64) (t : List UInt8) : Dup → UInt64 → UInt8
  | .strdup => overlay mem q 0 (t ++ [0])
  | .strndup _ => overlay (setByte mem (q + .ofNat t.length) 0) q 0 t

theorem filled_outside {a : UInt64} (ha : ∀ i, i ≤ t.length → a ≠ q + .ofNat i) :
    d.filled mem q t a = mem a := by
  cases d with
  | strdup =>
    refine overlay_outside fun i hi => ?_
    rw [List.length_append, List.length_singleton] at hi
    rw [Nat.zero_add]
    exact ha i (by omega)
  | strndup size =>
    refine (overlay_outside fun i hi => ?_).trans (if_neg (ha t.length (Nat.le_refl _)))
    rw [Nat.zero_add]
    exact ha i (by omega)

theorem holds_filled (hlen : t.length + 1 < 2 ^ 64) :
    Holds (some ∘ d.filled mem q t) q (t ++ [0]) := by
  have hat : q + .ofNat 0 = q := add_ofNat_zero q
  cases d with
  | strdup =>
    have hall := overlay_inside mem q 0 (t ++ [0]) (by simp; omega)
    rwa [hat] at hall
  | strndup size =>
    have htext := overlay_inside (setByte mem (q + .ofNat t.length) 0) q 0 t (by omega)
    rw [hat] at htext
    refine ByteMemory.holds_append.mpr ⟨htext, ByteMemory.holds_singleton.mpr (congrArg some ?_)⟩
    refine (overlay_outside fun i hi heq => ?_).trans (if_pos rfl)
    exact absurd (ByteMemory.add_ofNat_inj (by omega) (by omega) heq) (by omega)

theorem askedFor_toNat (hlen : t.length + 1 < 2 ^ 64) : (askedFor t).toNat = t.length + 1 := by
  rw [askedFor, UInt64.toNat_ofNat', Nat.mod_eq_of_lt hlen]

/-- What is copied was there before, and `malloc` has not touched it. -/
theorem Dup.Text.source (h : d.Text mem str t) : Holds (some ∘ mem) str (d.source t) := by
  cases d with
  | strdup => exact h.textAt.holds
  | strndup size => exact h.2.2.2.1

theorem room_of_apart (ht : d.Text h.proc.mem str t) (hapart : DupApart h d str t grant)
    (hq : (malloc (askedFor t) grant h.proc).1 ≠ 0) :
    metadataSize.toNat + (askedFor t).toNat < 2 ^ 64 := by
  have h8 : metadataSize.toNat = 8 := rfl
  have hasked := askedFor_toNat ht.length_lt
  by_contra hround
  -- a block that goes all the way round leaves no place for a text
  have hempty : (d.source t).length = 0 := by
    by_contra hne
    apply hapart.2.resolve_left hq 0 (by omega)
    have hlt := (str + .ofNat 0 - getMeta (malloc (askedFor t) grant h.proc).1).toNat_lt
    rw [InBlock]
    omega
  have hshort : t.length = 0 := by
    cases d with
    | strdup => simp [Dup.source] at hempty
    | strndup size => exact hempty
  omega

theorem perform_dup (ht : d.Text h.proc.mem str t) (hapart : DupApart h d str t grant) :
    d.perform str grant h.proc =
      let m := malloc (askedFor t) grant h.proc
      if m.1 = 0 then some (0, m.2)
      else some (m.1, { m.2 with mem := d.filled m.2.mem m.1 t }) := by
  have hlen := ht.length_lt
  have hasked := askedFor_toNat hlen
  have hmem : ∀ m, malloc (askedFor t) grant h.proc = m → m.1 ≠ 0 →
      Holds (some ∘ m.2.mem) str (d.source t) ∧ ∀ i, i < (d.source t).length →
        ∀ j, j ≤ t.length → str + .ofNat i ≠ m.1 + .ofNat j := by
    rintro m rfl hq
    have hout := hapart.2.resolve_left hq
    have hfound := ((malloc_cases (askedFor t) grant h.proc).resolve_left fun hn => hq hn.1).2
    refine ⟨ht.source.congr fun i hi => congrArg some ?_, fun i hi j hj heq => ?_⟩
    · rw [hfound]
      exact storeSize_outside (hout i hi) _
    · exact hout i hi (heq ▸ inBlock_data (by omega))
  have hsucc : UInt64.ofNat t.length + 1 = askedFor t := by
    rw [askedFor, UInt64.ofNat_add]
    rfl
  have hcopy : ∀ m, malloc (askedFor t) grant h.proc = m → m.1 ≠ 0 → ∀ mem bs,
      Holds (some ∘ mem) str bs → bs.length ≤ (d.source t).length →
      memcpy mem m.1 str bs.length = overlay mem m.1 0 bs := by
    intro m hm hq mem bs hholds hle
    have hsource : (d.source t).length ≤ t.length + 1 := by
      cases d <;> simp [Dup.source]
    rw [← memcpy_eq_overlay hholds fun i j hi hj => ?_, add_ofNat_zero]
    rw [Nat.zero_add]
    exact (hmem m hm hq).2 i (by omega) j (by omega)
  cases d with
  | strdup =>
    have hstr : StringFunctions.strlen (some ∘ h.proc.mem) str = some (.ofNat t.length) :=
      SubstringSearch.strlen_eq ht.textAt
    simp only [Dup.perform, strdup, hstr, Option.map_some, hsucc]
    generalize malloc (askedFor t) grant h.proc = m at hmem hcopy ⊢
    by_cases hq : m.1 = 0
    · rw [if_pos hq, if_pos hq]
    · have hlast := hcopy m rfl hq m.2.mem (t ++ [0]) (hmem m rfl hq).1 (Nat.le_refl _)
      rw [List.length_append, List.length_singleton, ← hasked] at hlast
      rw [if_neg hq, if_neg hq, hlast]
      rfl
  | strndup size =>
    obtain ⟨e, he, hle⟩ := strndup_length ht
    have hnat : (UInt64.ofNat t.length).toNat = t.length := by
      rw [UInt64.toNat_ofNat', Nat.mod_eq_of_lt (by omega)]
    simp only [Dup.perform, strndup, he, Option.map_some, hle, hsucc, hnat]
    generalize malloc (askedFor t) grant h.proc = m at hmem hcopy ⊢
    by_cases hq : m.1 = 0
    · rw [if_pos hq, if_pos hq]
    · obtain ⟨hholds, hout⟩ := hmem m rfl hq
      -- the terminator is written first, into the new block
      have hholds' : Holds (some ∘ setByte m.2.mem (m.1 + .ofNat t.length) 0) str t :=
        hholds.congr fun i hi => congrArg some (if_neg (hout i hi _ (Nat.le_refl _)))
      rw [if_neg hq, if_neg hq, hcopy m rfl hq _ t hholds' (Nat.le_refl _)]
      rfl

/-- A call of `malloc` in a sound history. -/
theorem after_malloc (hs : Sound h) (size : UInt64) (grant : Bool) :
    after h (.call (.malloc size) grant) =
      ⟨(malloc size grant h.proc).2, handedOut (.malloc size) (malloc size grant h.proc).1 ++
        h.live⟩ := by
  have hall : h.live.filter (·.ptr ≠ 0) = h.live :=
    List.filter_eq_self.mpr fun b hb => decide_eq_true (hs.nonnull b hb)
  exact congrArg (fun live => Usage.mk _ (_ ++ live)) hall

/-- What is known of a duplicate. -/
structure Duplicated (h : Usage) (d : Dup) (str : UInt64) (t : List UInt8) (grant : Bool)
    (h' : Usage) (q : UInt64) : Prop where
  nonnull : q ≠ 0
  ret : d.perform str grant h.proc = some (q, h'.proc)
  live : h'.live = ⟨q, askedFor t⟩ :: h.live
  size : sizeOf h' q = askedFor t
  others : ∀ b ∈ h.live, SameBlock h.proc.mem h'.proc.mem (sizeOf h b.ptr) b.ptr
  text : Holds (some ∘ h'.proc.mem) q (t ++ [0])

theorem exec_fill (d : Dup) (h : Usage) (q : UInt64) (t : List UInt8) :
    exec step h (d.fill q t) = some { h with proc.mem := d.filled h.proc.mem q t } := by
  cases d with
  | strdup => exact exec_writes h q 0 (t ++ [0])
  | strndup size => exact exec_writes (after h (.write q t.length 0)) q 0 t

theorem along_fill (d : Dup) (hlive : IsLive h q)
    (hroom : metadataSize.toNat + (sizeOf h q).toNat < 2 ^ 64)
    (hsize : t.length + 1 ≤ (sizeOf h q).toNat) : Along step WellUsed h (d.fill q t) := by
  cases d with
  | strdup => exact along_writes hlive hroom (by simpa using hsize)
  | strndup size =>
    have hsame : sizeOf (after h (.write q t.length 0)) q = sizeOf h q :=
      write_sizeOf 0 (by omega)
    refine along_cons_of_step rfl ⟨⟨hlive, by omega⟩, trivial⟩ (along_writes hlive ?_ ?_)
    · rwa [hsame]
    · rw [hsame]
      omega

/-- Once `malloc` has found a block. -/
theorem duplicated_of_found (hs : Sound h) (ht : d.Text h.proc.mem str t)
    (hapart : DupApart h d str t grant) {m : UInt64 × Process}
    (hm : malloc (askedFor t) grant h.proc = m) (hq : m.1 ≠ 0) :
    ∃ h', dupStep h (.dup d str grant) = some h' ∧
      exec step h (d.history h t grant) = some h' ∧
      Along step WellUsed h (d.history h t grant) ∧ Duplicated h d str t grant h' m.1 := by
  have hlen := ht.length_lt
  have hasked := askedFor_toNat hlen
  have hroom := room_of_apart ht hapart (hm ▸ hq)
  have hfound := malloc_found (c := .malloc (askedFor t)) hapart.1 (hm ▸ hq)
  have hperform := perform_dup ht hapart
  have hafter : after h (.call (.malloc (askedFor t)) grant) =
      ⟨m.2, ⟨m.1, askedFor t⟩ :: h.live⟩ := by
    rw [after_malloc hs, hm, handedOut, if_neg hq]
    rfl
  have hhistory : d.history h t grant =
      .call (.malloc (askedFor t)) grant :: d.fill m.1 t := by
    simp only [Dup.history, hm, if_neg hq]
  have hused : WellUsed h (.call (.malloc (askedFor t)) grant) := ⟨trivial, hapart.1⟩
  simp only [hm, if_neg hq] at hperform
  simp only [Call.size, hm] at hfound
  have hsize : ∀ mem' : UInt64 → UInt8,
      (∀ a, (∀ i, i ≤ t.length → a ≠ m.1 + .ofNat i) → mem' a = m.2.mem a) →
        recorded mem' m.1 = askedFor t := by
    intro mem' hsame
    refine (loadSize_congr fun j hj => hsame _ fun i hi => ?_).trans hfound.size
    exact (data_ne_header (by omega) hj).symm
  have hfilled := hsize (d.filled m.2.mem m.1 t) fun a ha => filled_outside ha
  refine ⟨⟨{ m.2 with mem := d.filled m.2.mem m.1 t }, ⟨m.1, askedFor t⟩ :: h.live⟩, ?_, ?_, ?_,
    hq, hperform, rfl, hfilled, fun b hb a ha => ?_, holds_filled hlen⟩
  · rw [dupStep, hperform]
    refine congrArg some (congrArg (Usage.mk _) ?_)
    rw [if_neg hq]
    exact congrArg (fun size => (⟨m.1, size⟩ : Live) :: h.live) hfilled
  · rw [hhistory, exec_cons]
    change exec step (after h (.call (.malloc (askedFor t)) grant)) (d.fill m.1 t) = _
    rw [hafter]
    exact exec_fill d _ m.1 t
  · rw [hhistory]
    refine along_cons_of_step rfl hused ?_
    rw [hafter]
    have hrecorded : sizeOf ⟨m.2, ⟨m.1, askedFor t⟩ :: h.live⟩ m.1 = askedFor t := hfound.size
    refine along_fill d ⟨_, List.mem_cons_self, rfl⟩ ?_ ?_
    · rwa [hrecorded]
    · rw [hrecorded, hasked]
  · have happart : Apart (askedFor t) m.1 (sizeOf h b.ptr) b.ptr := hfound.apart b hb
    refine (filled_outside fun i hi heq => ?_).trans (hfound.same b hb a ha)
    exact happart a (heq ▸ inBlock_data (by omega)) ha

theorem dup_cases (hs : Sound h) (ht : d.Text h.proc.mem str t)
    (hapart : DupApart h d str t grant) :
    ∃ h', dupStep h (.dup d str grant) = some h' ∧
      exec step h (d.history h t grant) = some h' ∧
      Along step WellUsed h (d.history h t grant) ∧
      ((d.perform str grant h.proc = some (0, h'.proc) ∧ h'.proc.mem = h.proc.mem ∧
          h'.live = h.live) ∨
        ∃ q, Duplicated h d str t grant h' q) := by
  by_cases hq : (malloc (askedFor t) grant h.proc).1 = 0
  · have hperform := perform_dup ht hapart
    have hafter := after_malloc hs (askedFor t) grant
    have hmem := ((malloc_cases (askedFor t) grant h.proc).resolve_right fun hn => hn.1 hq).2
    have hhistory : d.history h t grant = [.call (.malloc (askedFor t)) grant] := by
      simp only [Dup.history, if_pos hq]
    simp only [if_pos hq] at hperform
    rw [handedOut, if_pos hq, List.nil_append] at hafter
    refine ⟨⟨(malloc (askedFor t) grant h.proc).2, h.live⟩, ?_, ?_, ?_,
      .inl ⟨hperform, hmem, rfl⟩⟩
    · rw [dupStep, hperform]
      rfl
    · rw [hhistory, ← hafter]
      rfl
    · rw [hhistory]
      exact ⟨⟨trivial, hapart.1⟩, fun _ _ => trivial⟩
  · obtain ⟨h', hstep, hexec, hused, hdup⟩ := duplicated_of_found hs ht hapart rfl hq
    exact ⟨h', hstep, hexec, hused, .inr ⟨_, hdup⟩⟩

end Step

section Run

variable {h h' : Usage} {q : UInt64} {mem : UInt64 → UInt8} {n : UInt64}

/-- The block at `q` is neither given back nor written to. -/
def SparesBlock (q : UInt64) : Action → Prop
  | .call (.free p) _ | .call (.realloc p _) _ => p ≠ q
  | .write p _ _ => p ≠ q
  | .call _ _ => True

def SparesDup (q : UInt64) : Act → Prop
  | .plain a => SparesBlock q a
  | .dup _ _ _ => True

/-- A block of size `n` that holds the bytes of `mem`. -/
abbrev Holding (mem : UInt64 → UInt8) (q n : UInt64) (h : Usage) : Prop := Kept mem q ⟨h, q, [n]⟩

theorem holding_step {a : Action} (hk : Holding mem q n h) (hused : WellUsed h a)
    (hspares : SparesBlock q a) : Holding mem q n (after h a) := by
  have hfollow : follow ⟨h, q, [n]⟩ a = none := by
    cases a with
    | write p i b => rfl
    | call c grant =>
      cases c with
      | realloc p m => exact if_neg fun hp => hspares hp.1
      | _ => rfl
  have hspares' : Spares ⟨h, q, [n]⟩ a := by
    cases a with
    | write p i b => exact hspares
    | call c grant =>
      cases c with
      | free p => exact hspares
      | _ => trivial
  refine kept_step hk ⟨hused, hspares'⟩ ?_
  rw [watchStep, hfollow]

theorem holding_run {as : List Action} (hk : Holding mem q n h)
    (hused : Along step WellUsed h as) (hspares : ∀ a ∈ as, SparesBlock q a)
    (hrun : exec step h as = some h') : Holding mem q n h' := by
  refine inv_of_exec (Q := fun h a => WellUsed h a ∧ SparesBlock q a)
    (fun h a h' hk hq hs => ?_) hk (hused.and (along_of_forall hspares h)) hrun
  obtain rfl := Option.some.inj hs
  exact holding_step hk hq.1 hq.2

theorem spares_writes {p : UInt64} (hp : p ≠ q) (k : Nat) (bs : List UInt8) :
    ∀ a ∈ writes p k bs, SparesBlock q a := by
  induction bs generalizing k with
  | nil => exact fun _ ha => absurd ha List.not_mem_nil
  | cons b bs ih => exact List.forall_mem_cons.mpr ⟨hp, ih (k + 1)⟩

theorem spares_fill {p : UInt64} (hp : p ≠ q) (d : Dup) (t : List UInt8) :
    ∀ a ∈ d.fill p t, SparesBlock q a := by
  cases d with
  | strdup => exact spares_writes hp 0 (t ++ [0])
  | strndup size => exact List.forall_mem_cons.mpr ⟨hp, spares_writes hp 0 t⟩

theorem spares_history {d : Dup} {str : UInt64} {t : List UInt8} {grant : Bool}
    (hapart : DupApart h d str t grant) (hlive : IsLive h q) :
    ∀ a ∈ d.history h t grant, SparesBlock q a := by
  refine List.forall_mem_cons.mpr ⟨trivial, ?_⟩
  by_cases hq : (malloc (askedFor t) grant h.proc).1 = 0
  · rw [if_pos hq]
    exact fun _ ha => absurd ha List.not_mem_nil
  · rw [if_neg hq]
    apply spares_fill
    obtain ⟨b, hb, rfl⟩ := hlive
    intro heq
    -- the new block is apart from the old one, and so at another place
    have hself : Apart (askedFor t) (malloc (askedFor t) grant h.proc).1 (sizeOf h b.ptr) b.ptr :=
      hapart.1.resolve_left hq b hb
    rw [heq] at hself
    exact hself (getMeta b.ptr) inBlock_self inBlock_self

theorem sound_run {as : List Action} (hs : Sound h) (hused : Along step WellUsed h as)
    (hrun : exec step h as = some h') : Sound h' :=
  inv_of_exec (fun _ _ _ hs hq heq => Option.some.inj heq ▸ sound_after hs hq) hs hused hrun

/-- A history with duplicates is a history without them. -/
theorem plain_step {a : Act} (hs : Sound h) (hused : DupUsed h a) :
    ∃ h' as, dupStep h a = some h' ∧ exec step h as = some h' ∧ Along step WellUsed h as ∧
      ∀ q, IsLive h q → SparesDup q a → ∀ b ∈ as, SparesBlock q b := by
  cases a with
  | plain a =>
    refine ⟨after h a, [a], rfl, rfl, ⟨hused, fun _ _ => trivial⟩, fun q _ hq b hb => ?_⟩
    rwa [List.mem_singleton.mp hb]
  | dup d str grant =>
    obtain ⟨t, ht, hapart⟩ := hused
    obtain ⟨h', hstep, hexec, halong, _⟩ := dup_cases hs ht hapart
    exact ⟨h', _, hstep, hexec, halong, fun q hq _ => spares_history hapart hq⟩

theorem along_append {as bs : List Action} (ha : Along step WellUsed h as)
    (hrun : exec step h as = some h') (hb : Along step WellUsed h' bs) :
    Along step WellUsed h (as ++ bs) := by
  induction as generalizing h with
  | nil =>
    obtain rfl := Option.some.inj hrun
    exact hb
  | cons a as ih =>
    exact along_cons_of_step rfl ha.1 (ih (ha.2 _ rfl) hrun)

/-- In runs of duplicates the invariant of plain runs holds. -/
theorem progress_dup {I : Usage → Prop} {Q : Usage → Act → Prop}
    (hsound : ∀ h, I h → Sound h) (hused : ∀ h a, Q h a → DupUsed h a)
    (hplain : ∀ h h' a as, I h → Q h a → exec step h as = some h' → Along step WellUsed h as →
      (∀ q, IsLive h q → SparesDup q a → ∀ b ∈ as, SparesBlock q b) → I h') :
    Progress dupStep Q I := by
  intro h a hi hq
  obtain ⟨h', as, hstep, hexec, halong, hspares⟩ := plain_step (hsound h hi) (hused h a hq)
  exact ⟨h', hstep, hplain h h' a as hi hq hexec halong hspares⟩

end Run

/-- In every history, duplicates among the calls: `strdup` and `strndup` return NULL and change
nothing, or a new block with the text in it, and all other blocks stay. From then on the duplicate
keeps its text as long as nobody writes to it or gives it back, whatever becomes of the original.
To the heap such a history is one without duplicates. -/
theorem duplicates_stay (proc : Process) (as : List Act)
    (hused : Along dupStep DupUsed ⟨proc, []⟩ as) :
    ∃ h, exec dupStep ⟨proc, []⟩ as = some h ∧ Sound h ∧
      (∃ bs, exec step ⟨proc, []⟩ bs = some h ∧ Along step WellUsed ⟨proc, []⟩ bs) ∧
      ∀ d str t grant, d.Text h.proc.mem str t → DupApart h d str t grant →
        ∃ h', dupStep h (.dup d str grant) = some h' ∧
          ((d.perform str grant h.proc = some (0, h'.proc) ∧ h'.proc.mem = h.proc.mem ∧
              h'.live = h.live) ∨
            ∃ q, Duplicated h d str t grant h' q ∧
              ∀ more, Along dupStep (fun h a => DupUsed h a ∧ SparesDup q a) h' more →
                ∃ h'', exec dupStep h' more = some h'' ∧ IsLive h'' q ∧
                  Holds (some ∘ h''.proc.mem) q (t ++ [0])) := by
  have hplain : Progress dupStep DupUsed fun h => Sound h ∧
      ∃ bs, exec step ⟨proc, []⟩ bs = some h ∧ Along step WellUsed ⟨proc, []⟩ bs := by
    refine progress_dup (fun h hi => hi.1) (fun _ _ hq => hq) ?_
    intro h h' a as hi _ hexec halong _
    obtain ⟨hs, bs, hbs, hused⟩ := hi
    refine ⟨sound_run hs halong hexec, bs ++ as, ?_, along_append hused hbs halong⟩
    rw [exec_append, hbs]
    exact hexec
  obtain ⟨h, hexec, hs, hbs⟩ := exec_of_progress hplain
    ⟨sound_start proc, [], rfl, trivial⟩ hused
  refine ⟨h, hexec, hs, hbs, fun d str t grant ht hapart => ?_⟩
  obtain ⟨h', hstep, hexec', halong, hcases⟩ := dup_cases hs ht hapart
  refine ⟨h', hstep, hcases.imp_right ?_⟩
  rintro ⟨q, hdup⟩
  refine ⟨q, hdup, fun more hmore => ?_⟩
  have hlive : IsLive h' q := by
    rw [IsLive, hdup.live]
    exact ⟨_, List.mem_cons_self, rfl⟩
  have hholding : Holding h'.proc.mem q (askedFor t) h' :=
    ⟨sound_run hs halong hexec', hlive, by rw [hdup.size]; exact List.mem_singleton_self _,
      fun _ _ => rfl⟩
  have hkeep : Progress dupStep (fun h a => DupUsed h a ∧ SparesDup q a)
      (Holding h'.proc.mem q (askedFor t)) :=
    progress_dup (fun _ hk => hk.sound) (fun _ _ hq => hq.1)
      fun _ _ _ _ hk hq hexec halong hspares =>
        holding_run hk halong (hspares q hk.live hq.2) hexec
  obtain ⟨h'', hexec'', hk⟩ := exec_of_progress hkeep hholding hmore
  refine ⟨h'', hexec'', hk.live, hdup.text.congr fun i hi => congrArg some (hk.bytes i ?_)⟩
  rw [List.length_append, List.length_singleton] at hi
  intro n hn
  rw [List.mem_singleton.mp hn, askedFor_toNat ht.length_lt]
  exact hi

instance (size p a : UInt64) : Decidable (InBlock size p a) := inferInstanceAs (Decidable (_ < _))

/-- A block of 4 bytes with `hi` in it. -/
def hiActs : List Act :=
  [.plain (.call (.malloc 4) true), .plain (.write 4104 0 104), .plain (.write 4104 1 105)]

def hiUsage : Usage :=
  after (after (after ⟨⟨4096, fun _ => 0, 0⟩, []⟩ (.call (.malloc 4) true)) (.write 4104 0 104))
    (.write 4104 1 105)

/-- The original is overwritten once it has been duplicated. -/
theorem duplicates_stay_hi : ∃ h' h'' q, dupStep hiUsage (.dup .strdup 4104 true) = some h' ∧
    exec dupStep h' [.plain (.write 4104 0 0)] = some h'' ∧
    Duplicated hiUsage .strdup 4104 [104, 105] true h' q ∧
      Holds (some ∘ h''.proc.mem) q [104, 105, 0] := by
  have hused : Along dupStep DupUsed ⟨⟨4096, fun _ => 0, 0⟩, []⟩ hiActs :=
    along_cons_of_step rfl ⟨trivial, .inr fun b hb => absurd hb List.not_mem_nil⟩
      (along_cons_of_step rfl ⟨⟨⟨⟨4104, 4⟩, by decide, rfl⟩, by decide⟩, trivial⟩
        (along_cons_of_step rfl ⟨⟨⟨⟨4104, 4⟩, by decide, rfl⟩, by decide⟩, trivial⟩ trivial))
  obtain ⟨h, hexec, hs, _, hdups⟩ := duplicates_stay ⟨4096, fun _ => 0, 0⟩ hiActs hused
  obtain rfl : hiUsage = h := Option.some.inj hexec
  have ht : Dup.strdup.Text hiUsage.proc.mem 4104 [104, 105] := by
    refine ⟨by decide, by decide, by decide, by decide, ?_⟩
    decide
  have hapart : DupApart hiUsage .strdup 4104 [104, 105] true :=
    ⟨mallocApart_of_above (by decide) (by decide), .inr (by decide)⟩
  obtain ⟨h', hstep, hcases⟩ := hdups .strdup 4104 [104, 105] true ht hapart
  have hperform := perform_dup ht hapart
  have hfound : (malloc (askedFor [104, 105]) true hiUsage.proc).1 = 4116 := by decide
  have hne : (4116 : UInt64) ≠ 0 := by decide
  simp only [hfound, if_neg hne] at hperform
  rcases hcases with ⟨hnull, _⟩ | ⟨q, hdup, hstays⟩
  · rw [hnull] at hperform
    cases hperform
  · have hq : q = 4116 := by
      rw [hdup.ret] at hperform
      exact congrArg Prod.fst (Option.some.inj hperform)
    have hlive : IsLive h' 4104 := by
      rw [IsLive, hdup.live]
      exact ⟨⟨4104, 4⟩, List.mem_cons_of_mem _ (by decide), rfl⟩
    have hsize : sizeOf h' 4104 = sizeOf hiUsage 4104 :=
      (hdup.others ⟨4104, 4⟩ (by decide)).recorded_eq
    have hroom : 0 < (sizeOf h' 4104).toNat := by
      rw [hsize]
      decide
    have hspares : (4104 : UInt64) ≠ q := by
      rw [hq]
      decide
    obtain ⟨h'', hexec'', _, htext⟩ := hstays [.plain (.write 4104 0 0)]
      (along_cons_of_step rfl ⟨⟨⟨hlive, hroom⟩, trivial⟩, hspares⟩ trivial)
    exact ⟨h', h'', q, hstep, hexec'', hdup, htext⟩

end StringDuplicates
