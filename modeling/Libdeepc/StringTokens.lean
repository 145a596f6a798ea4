import Libdeepc.CString
import Libdeepc.Memory

/-!
# Tokens of a string

`strspn`, `strcspn` and on top of them `strtok_r`, which walks through a string
in memory and ends each token it returns with a NUL. The tokens are spans of the
text that the string had before the first call.
-/

namespace StringTokens

open CString Memory

section Spans

/-- The inner loop of `strspn`: is `c` there before the terminator? -/
def accepts (c : UInt8) : List UInt8 → Option Bool
  | [] => none
  | s :: src => if s = c then some true else if s = 0 then some false else accepts c src

def strspn : List UInt8 → List UInt8 → Option Nat
  | [], _ => none
  | c :: dest, src =>
    if c = 0 then some 0
    else (accepts c src).bind fun found =>
      if found then (strspn dest src).map (· + 1) else some 0

/-- The inner loop of `strcspn` asks for the terminator first. -/
def rejects (c : UInt8) : List UInt8 → Option Bool
  | [] => none
  | s :: src => if s = 0 then some false else if s = c then some true else rejects c src

def strcspn : List UInt8 → List UInt8 → Option Nat
  | [], _ => none
  | c :: dest, src =>
    if c = 0 then some 0
    else (rejects c src).bind fun found =>
      if found then some 0 else (strcspn dest src).map (· + 1)

variable {c : UInt8} {d t rest rest' : List UInt8}

theorem accepts_eq (hc : c ≠ 0) (hd : 0 ∉ d) :
    accepts c (d ++ 0 :: rest) = some (decide (c ∈ d)) := by
  induction d with
  | nil => simp [accepts, hc.symm]
  | cons s d ih =>
    have hs : s ≠ 0 := fun h => hd (h ▸ List.mem_cons_self)
    rw [List.cons_append, accepts, ih fun h => hd (List.mem_cons_of_mem s h)]
    by_cases hsc : s = c
    · simp [hsc]
    · simp [hsc, hs, Ne.symm hsc]

/-- For a byte that is not the terminator the order of the two questions does not matter. -/
theorem rejects_eq_accepts (hc : c ≠ 0) (s : List UInt8) : rejects c s = accepts c s := by
  induction s with
  | nil => rfl
  | cons b s ih =>
    rw [rejects, accepts, ih]
    by_cases hb : b = 0
    · rw [if_pos hb, if_neg (hb ▸ hc.symm), if_pos hb]
    · rw [if_neg hb, if_neg hb]

theorem strspn_eq (ht : 0 ∉ t) (hd : 0 ∉ d) :
    strspn (t ++ 0 :: rest) (d ++ 0 :: rest') = some (t.takeWhile (· ∈ d)).length := by
  induction t with
  | nil => rfl
  | cons c t ih =>
    have hc : c ≠ 0 := fun h => ht (h ▸ List.mem_cons_self)
    rw [List.cons_append, strspn, if_neg hc, accepts_eq hc hd,
      ih fun h => ht (List.mem_cons_of_mem c h)]
    by_cases hmem : c ∈ d
    · simp [hmem]
    · simp [hmem]

theorem strcspn_eq (ht : 0 ∉ t) (hd : 0 ∉ d) :
    strcspn (t ++ 0 :: rest) (d ++ 0 :: rest') = some (t.takeWhile (· ∉ d)).length := by
  induction t with
  | nil => rfl
  | cons c t ih =>
    have hc : c ≠ 0 := fun h => ht (h ▸ List.mem_cons_self)
    rw [List.cons_append, strcspn, if_neg hc, rejects_eq_accepts hc, accepts_eq hc hd,
      ih fun h => ht (List.mem_cons_of_mem c h)]
    by_cases hmem : c ∈ d
    · simp [hmem]
    · simp [hmem]

end Spans

section Memory

/-- The text `t` and its terminator stand at `p`. -/
structure StringAt (mem : Mem) (p : Nat) (t : List UInt8) : Prop where
  nonnull : 0 < p
  inSpace : p + t.length < 2 ^ 64
  bytes : ∀ i, i ≤ t.length → mem (p + i) = (t ++ [0])[i]?
  noZero : 0 ∉ t

variable {mem mem' : Mem} {p : Nat} {t : List UInt8}

theorem readable_append {u : List UInt8} {fuel : Nat} (hlen : u.length ≤ fuel)
    (h : ∀ i, i < u.length → mem (p + i) = u[i]?) :
    ∃ rest, readable mem fuel p = u ++ rest := by
  induction u generalizing p fuel with
  | nil => exact ⟨readable mem fuel p, rfl⟩
  | cons c u ih =>
    obtain ⟨fuel, rfl⟩ := Nat.exists_eq_succ_of_ne_zero (Nat.ne_of_gt (Nat.lt_of_lt_of_le
      (Nat.succ_pos u.length) hlen))
    have hhead : mem p = some c := h 0 (Nat.succ_pos _)
    obtain ⟨rest, hrest⟩ := ih (p := p + 1) (Nat.le_of_succ_le_succ hlen) fun i hi => by
      rw [Nat.add_right_comm, Nat.add_assoc]
      exact h (i + 1) (Nat.succ_lt_succ hi)
    refine ⟨rest, ?_⟩
    simp only [readable, hhead, hrest, List.cons_append]

theorem StringAt.bytesAt_eq (h : StringAt mem p t) : ∃ rest, bytesAt mem p = t ++ 0 :: rest := by
  have hlen : (t ++ [0]).length = t.length + 1 := List.length_append
  have hroom : (t ++ [0]).length ≤ 2 ^ 64 - p := by
    have := h.inSpace
    omega
  obtain ⟨rest, hrest⟩ := readable_append hroom fun i hi => h.bytes i (by omega)
  exact ⟨rest, by rw [bytesAt, hrest, List.append_assoc]; rfl⟩

theorem StringAt.byte_lt (h : StringAt mem p t) {i : Nat} (hi : i < t.length) :
    mem (p + i) = some t[i] := by
  rw [h.bytes i hi.le, List.getElem?_append_left hi, List.getElem?_eq_getElem hi]

theorem StringAt.byte_end (h : StringAt mem p t) : mem (p + t.length) = some 0 := by
  rw [h.bytes _ (Nat.le_refl _), List.getElem?_concat_length]

theorem StringAt.drop (h : StringAt mem p t) {n : Nat} (hn : n ≤ t.length) :
    StringAt mem (p + n) (t.drop n) where
  nonnull := Nat.add_pos_left h.nonnull n
  inSpace := by
    have := h.inSpace
    rw [List.length_drop]
    omega
  bytes i hi := by
    rw [List.length_drop] at hi
    have happend : t.drop n ++ [0] = (t ++ [0]).drop n := (List.drop_append_of_le_length hn).symm
    rw [happend, List.getElem?_drop, Nat.add_assoc]
    exact h.bytes (n + i) (by omega)
  noZero hmem := h.noZero (List.mem_of_mem_drop hmem)

theorem StringAt.congr (h : StringAt mem p t)
    (hsame : ∀ a, p ≤ a → a ≤ p + t.length → mem' a = mem a) : StringAt mem' p t where
  nonnull := h.nonnull
  inSpace := h.inSpace
  bytes i hi := by rw [hsame (p + i) (by omega) (by omega), h.bytes i hi]
  noZero := h.noZero

theorem store_byte {b b' : UInt8} (h : mem p = some b) :
    store mem p [b'] = some (Function.update mem p (some b')) := by
  have hall : ∀ i, i < [b'].length → (mem (p + i)).isSome := by
    intro i hi
    obtain rfl : i = 0 := Nat.lt_one_iff.mp hi
    rw [Nat.add_zero, h]
    rfl
  rw [store, if_pos hall]
  refine congrArg some (funext fun a => ?_)
  rw [Function.update_apply]
  by_cases ha : a = p
  · simp [ha]
  · rw [if_neg ha, if_neg]
    simp only [List.length_singleton]
    omega

end Memory

section Calls

/-- What a call leaves behind: memory, the pointer in `*state`, and the result. `0` is `NULL`. -/
structure Outcome where
  mem : Mem
  state : Nat
  ret : Nat

def strtokR (mem : Mem) (str delim state : Nat) : Option Outcome :=
  let str := if str = 0 then state else str
  (strspn (bytesAt mem str) (bytesAt mem delim)).bind fun n =>
    let t := str + n
    (mem t).bind fun c =>
      if c = 0 then some { mem, state := 0, ret := 0 }
      else (strcspn (bytesAt mem t) (bytesAt mem delim)).bind fun m =>
        let tEnd := t + m
        (mem tEnd).bind fun e =>
          if e = 0 then some { mem, state := tEnd, ret := t }
          else (store mem tEnd [0]).map fun mem => { mem, state := tEnd + 1, ret := t }

/-- The state of `strtok` is the static variable `main_strtok_state`. -/
def strtok (mem : Mem) (str delim mainStrtokState : Nat) : Option Outcome :=
  strtokR mem str delim mainStrtokState

/-- The calls on one string, one for each delimiter string, until `NULL` comes back. All but the
first pass `NULL`. -/
def tokenCalls (f : Mem → Nat → Nat → Nat → Option Outcome) (mem : Mem) (str state : Nat) :
    List Nat → Option (Mem × List Nat)
  | [] => some (mem, [])
  | delim :: delims => (f mem str delim state).bind fun o =>
    if o.ret = 0 then some (o.mem, [0])
    else (tokenCalls f o.mem 0 o.state delims).map fun r => (r.1, o.ret :: r.2)

end Calls

section Law

/-- The token `t[start], …, t[stop - 1]` of a text. -/
structure Span where
  start : Nat
  stop : Nat
  deriving DecidableEq

def Span.text (t : List UInt8) (k : Span) : List UInt8 := (t.take k.stop).drop k.start

/-- Skip the longest run of delimiters from `pos` on, then take the longest run without any. -/
def nextToken (t d : List UInt8) (pos : Nat) : Option Span :=
  let start := pos + ((t.drop pos).takeWhile (· ∈ d)).length
  if start < t.length then
    some { start, stop := start + ((t.drop start).takeWhile (· ∉ d)).length }
  else none

/-- Past the delimiter that ends the token, or at the terminator. -/
def Span.next (t : List UInt8) (k : Span) : Nat :=
  if k.stop < t.length then k.stop + 1 else k.stop

/-- The tokens from `pos` on, up to and including the first `none`. -/
def tokens (t : List UInt8) (pos : Nat) : List (List UInt8) → List (Option Span)
  | [] => []
  | d :: ds => match nextToken t d pos with
    | none => [none]
    | some k => some k :: tokens t (k.next t) ds

/-- The pointer to a token of the string at `s`. -/
def pointer (s : Nat) : Option Span → Nat
  | none => 0
  | some k => s + k.start

/-- The address of the delimiter that ends a token, if it is not the terminator that does. -/
def cut (s : Nat) (t : List UInt8) : Option Span → Option Nat
  | none => none
  | some k => if k.stop < t.length then some (s + k.stop) else none

variable {mem : Mem} {s d pos : Nat} {t delim : List UInt8} {k : Span}

theorem Span.stop_le_next : k.stop ≤ k.next t := by
  rw [Span.next]
  split
  · exact Nat.le_succ k.stop
  · exact Nat.le_refl k.stop

theorem Span.next_le (h : k.stop ≤ t.length) : k.next t ≤ t.length := by
  rw [Span.next]
  split
  · rename_i hlt
    exact hlt
  · exact h

theorem nextToken_eq_some (h : nextToken t delim pos = some k) : pos ≤ k.start ∧
    k.start = pos + ((t.drop pos).takeWhile (· ∈ delim)).length ∧ k.start < t.length ∧
    k.stop = k.start + ((t.drop k.start).takeWhile (· ∉ delim)).length ∧ k.stop ≤ t.length := by
  rw [nextToken] at h
  split at h
  · rename_i hlt
    cases h
    refine ⟨Nat.le_add_right .., rfl, hlt, rfl, ?_⟩
    have hle := (List.takeWhile_sublist (fun c => decide (c ∉ delim))
      (l := t.drop (pos + ((t.drop pos).takeWhile (· ∈ delim)).length))).length_le
    rw [List.length_drop] at hle
    change _ + _ ≤ t.length
    omega
  · cases h

theorem strtokR_none (h : StringAt mem (s + pos) (t.drop pos)) (hpos : pos ≤ t.length)
    (hd : StringAt mem d delim) {str state : Nat}
    (hstr : (if str = 0 then state else str) = s + pos) (hnone : nextToken t delim pos = none) :
    strtokR mem str d state = some { mem, state := 0, ret := 0 } := by
  obtain ⟨rest, hrest⟩ := h.bytesAt_eq
  obtain ⟨rest', hrest'⟩ := hd.bytesAt_eq
  have hle := (List.takeWhile_sublist (fun c => decide (c ∈ delim)) (l := t.drop pos)).length_le
  have hend : ((t.drop pos).takeWhile (· ∈ delim)).length = (t.drop pos).length := by
    rw [nextToken] at hnone
    split at hnone
    · cases hnone
    · rw [List.length_drop] at hle ⊢
      omega
  simp only [strtokR, hstr, hrest, hrest', strspn_eq h.noZero hd.noZero, Option.bind_some, hend,
    h.byte_end, if_true]

theorem strtokR_some (h : StringAt mem (s + pos) (t.drop pos)) (hpos : pos ≤ t.length)
    (hd : StringAt mem d delim) {str state : Nat}
    (hstr : (if str = 0 then state else str) = s + pos) (hsome : nextToken t delim pos = some k) :
    strtokR mem str d state = some
      { mem := if k.stop < t.length then Function.update mem (s + k.stop) (some 0) else mem
        state := s + k.next t
        ret := s + k.start } := by
  obtain ⟨hle, hstart, hlt, hstop, hstopLe⟩ := nextToken_eq_some hsome
  obtain ⟨n, hn⟩ : ∃ n, k.start = pos + n := ⟨_, hstart⟩
  have hrun : ((t.drop pos).takeWhile (· ∈ delim)).length = n := by omega
  obtain ⟨rest, hrest⟩ := h.bytesAt_eq
  obtain ⟨rest', hrest'⟩ := hd.bytesAt_eq
  have hdrop : StringAt mem (s + k.start) (t.drop k.start) := by
    have := h.drop (n := n) (by rw [List.length_drop]; omega)
    rwa [List.drop_drop, Nat.add_assoc, ← hn] at this
  obtain ⟨rest₂, hrest₂⟩ := hdrop.bytesAt_eq
  have hfirst : mem (s + k.start) = some t[k.start] := by
    have := hdrop.byte_lt (i := 0) (by rw [List.length_drop]; omega)
    simpa using this
  have hne : t[k.start] ≠ 0 := by
    intro hzero
    exact hdrop.noZero (List.mem_iff_getElem.mpr ⟨0, by rw [List.length_drop]; omega, by simpa⟩)
  obtain ⟨m, hm⟩ : ∃ m, k.stop = k.start + m := ⟨_, hstop⟩
  have hrun₂ : ((t.drop k.start).takeWhile (· ∉ delim)).length = m := by omega
  have hcalls : s + pos + n = s + k.start := by omega
  have hcalls₂ : s + k.start + m = s + k.stop := by omega
  simp only [strtokR, hstr, hrest, hrest', strspn_eq h.noZero hd.noZero, Option.bind_some, hrun,
    hcalls, hfirst, if_neg hne, hrest₂, strcspn_eq hdrop.noZero hd.noZero, hrun₂, hcalls₂]
  by_cases hcut : k.stop < t.length
  · have hbyte : mem (s + k.stop) = some t[k.stop] := by
      have := hdrop.byte_lt (i := m) (by rw [List.length_drop]; omega)
      rw [Nat.add_assoc, ← hm] at this
      simpa [hm] using this
    have hne₂ : t[k.stop] ≠ 0 := by
      intro hzero
      refine h.noZero (List.mem_iff_getElem.mpr ⟨k.stop - pos, by rw [List.length_drop]; omega, ?_⟩)
      rw [← hzero, List.getElem_drop]
      congr 1
      omega
    simp only [hbyte, Option.bind_some, if_neg hne₂, store_byte hbyte, Option.map_some, hcut,
      if_true, Span.next, Nat.add_assoc]
  · have hbyte : mem (s + k.stop) = some 0 := by
      have := hdrop.byte_end
      rw [List.length_drop] at this
      rwa [show s + k.start + (t.length - k.start) = s + k.stop by omega] at this
    simp only [hbyte, Option.bind_some, if_true, hcut, if_false, Span.next]

theorem mem_tokens {ds : List (List UInt8)} (h : some k ∈ tokens t pos ds) :
    pos ≤ k.start ∧ k.start < t.length ∧ k.start ≤ k.stop ∧ k.stop ≤ t.length := by
  induction ds generalizing pos with
  | nil => exact absurd h List.not_mem_nil
  | cons d ds ih =>
    cases hnext : nextToken t d pos with
    | none =>
      simp only [tokens, hnext, List.mem_singleton] at h
      cases h
    | some k' =>
      obtain ⟨hle, _, hlt, hstop, hstopLe⟩ := nextToken_eq_some hnext
      simp only [tokens, hnext, List.mem_cons, Option.some.injEq] at h
      rcases h with rfl | h
      · exact ⟨hle, hlt, hstop ▸ Nat.le_add_right .., hstopLe⟩
      · obtain ⟨hnextLe, hrest⟩ := ih h
        refine ⟨?_, hrest⟩
        have hnext' := k'.stop_le_next (t := t)
        omega

theorem mem_cuts {toks : List (Option Span)} {a : Nat} :
    a ∈ toks.filterMap (cut s t) ↔ ∃ k, some k ∈ toks ∧ k.stop < t.length ∧ a = s + k.stop := by
  rw [List.mem_filterMap]
  constructor
  · rintro ⟨_ | k, hk, hcut⟩
    · cases hcut
    · rw [cut] at hcut
      split at hcut
      · exact ⟨k, hk, ‹_›, (Option.some.inj hcut).symm⟩
      · cases hcut
  · rintro ⟨k, hk, hlt, rfl⟩
    exact ⟨some k, hk, if_pos hlt⟩

/-- No token is cut short by the end of another. -/
theorem stop_outside {ds : List (List UInt8)} {k' : Span} (h : some k ∈ tokens t pos ds)
    (h' : some k' ∈ tokens t pos ds) (hcut : k'.stop < t.length) :
    k'.stop < k.start ∨ k.stop ≤ k'.stop := by
  induction ds generalizing pos with
  | nil => exact absurd h List.not_mem_nil
  | cons d ds ih =>
    cases hnext : nextToken t d pos with
    | none =>
      simp only [tokens, hnext, List.mem_singleton] at h
      cases h
    | some k₀ =>
      simp only [tokens, hnext, List.mem_cons, Option.some.injEq] at h h'
      rcases h with rfl | h
      · rcases h' with rfl | h'
        · exact .inr (Nat.le_refl _)
        · obtain ⟨hle, _, hstop, _⟩ := mem_tokens h'
          refine .inr ?_
          have hnext' := k.stop_le_next (t := t)
          omega
      · rcases h' with rfl | h'
        · obtain ⟨hle, _⟩ := mem_tokens h
          rw [Span.next, if_pos hcut] at hle
          exact .inl hle
        · exact ih h h'

/-- A delimiter string does not overlap the string that is cut, as `restrict` promises. -/
def Apart (d : Nat) (delim : List UInt8) (s : Nat) (t : List UInt8) : Prop :=
  d + delim.length < s ∨ s + t.length < d

/-- What the next call needs: the rest of the text at `pos`, and the delimiter strings of the calls
to come. -/
structure Ready (mem : Mem) (s : Nat) (t : List UInt8) (pos : Nat) (ds : List (Nat × List UInt8)) :
    Prop where
  nonnull : 0 < s
  rest : StringAt mem (s + pos) (t.drop pos)
  inText : pos ≤ t.length
  delims : ∀ d ∈ ds, StringAt mem d.1 d.2 ∧ Apart d.1 d.2 s t

theorem StringAt.ready {ds : List (Nat × List UInt8)} (h : StringAt mem s t)
    (hds : ∀ d ∈ ds, StringAt mem d.1 d.2 ∧ Apart d.1 d.2 s t) : Ready mem s t 0 ds :=
  ⟨h.nonnull, h, Nat.zero_le _, hds⟩

/-- The memory after a call that has found the token `k`. -/
def afterToken (mem : Mem) (s : Nat) (t : List UInt8) (k : Span) : Mem :=
  if k.stop < t.length then Function.update mem (s + k.stop) (some 0) else mem

/-- What stands behind the delimiter is as it was. -/
theorem afterToken_same (pos : Nat) {a : Nat} (hlt : pos ≤ k.stop)
    (ha : a < s + pos ∨ s + k.next t ≤ a ∨ s + t.length < a) :
    afterToken mem s t k a = mem a := by
  rw [afterToken]
  split
  · rename_i hcut
    rw [Span.next, if_pos hcut] at ha
    exact Function.update_of_ne (by omega) ..
  · rfl

section Call

variable {d : Nat × List UInt8} {ds : List (Nat × List UInt8)} {str state : Nat}

theorem Ready.call_none (h : Ready mem s t pos (d :: ds))
    (hstr : (if str = 0 then state else str) = s + pos) (hnone : nextToken t d.2 pos = none) :
    strtokR mem str d.1 state = some { mem, state := 0, ret := 0 } :=
  strtokR_none h.rest h.inText (h.delims d List.mem_cons_self).1 hstr hnone

theorem Ready.call_some (h : Ready mem s t pos (d :: ds))
    (hstr : (if str = 0 then state else str) = s + pos) (hsome : nextToken t d.2 pos = some k) :
    strtokR mem str d.1 state = some
      { mem := afterToken mem s t k, state := s + k.next t, ret := s + k.start } :=
  strtokR_some h.rest h.inText (h.delims d List.mem_cons_self).1 hstr hsome

theorem Ready.after (h : Ready mem s t pos (d :: ds)) (hsome : nextToken t d.2 pos = some k) :
    Ready (afterToken mem s t k) s t (k.next t) ds := by
  obtain ⟨hle, _, hlt, hstop, hstopLe⟩ := nextToken_eq_some hsome
  have hstopNext := k.stop_le_next (t := t)
  have hnextLe : pos ≤ k.next t ∧ k.next t ≤ t.length := ⟨by omega, Span.next_le hstopLe⟩
  obtain ⟨n, hn⟩ := Nat.exists_eq_add_of_le hnextLe.1
  have hrest : StringAt mem (s + k.next t) (t.drop (k.next t)) := by
    have := h.rest.drop (n := n) (by rw [List.length_drop]; omega)
    rwa [List.drop_drop, Nat.add_assoc, ← hn] at this
  refine ⟨h.nonnull, hrest.congr fun a ha _ => ?_, hnextLe.2, fun e he => ?_⟩
  · exact afterToken_same pos (by omega) (.inr (.inl ha))
  · obtain ⟨hstring, hapart⟩ := h.delims e (List.mem_cons_of_mem d he)
    refine ⟨hstring.congr fun a ha ha' => ?_, hapart⟩
    refine afterToken_same pos (by omega) ?_
    rcases hapart with hbefore | hbehind
    · exact .inl (by omega)
    · exact .inr (.inr (by omega))

end Call

theorem tokenCalls_spec {ds : List (Nat × List UInt8)} {mem : Mem} {pos str state : Nat}
    (h : Ready mem s t pos ds) (hstr : (if str = 0 then state else str) = s + pos) :
    ∃ mem', tokenCalls strtokR mem str state (ds.map Prod.fst) =
        some (mem', (tokens t pos (ds.map Prod.snd)).map (pointer s)) ∧
      ∀ a, mem' a =
        if a ∈ (tokens t pos (ds.map Prod.snd)).filterMap (cut s t) then some 0 else mem a := by
  induction ds generalizing mem pos str state with
  | nil => exact ⟨mem, rfl, fun _ => rfl⟩
  | cons d ds ih =>
    cases hnext : nextToken t d.2 pos with
    | none =>
      refine ⟨mem, ?_, fun a => ?_⟩
      · simp only [List.map_cons, tokenCalls, h.call_none hstr hnext, Option.bind_some,
          if_true, tokens, hnext, List.map_nil, pointer]
      · simp only [List.map_cons, tokens, hnext, List.filterMap_cons, cut, List.filterMap_nil,
          List.not_mem_nil, if_false]
    | some k =>
      have hsafe : s + k.start ≠ 0 := by
        have := h.nonnull
        omega
      have hstate : (if (0 : Nat) = 0 then s + k.next t else 0) = s + k.next t := if_pos rfl
      obtain ⟨mem', hcalls, hmem'⟩ := ih (h.after hnext) hstate
      refine ⟨mem', ?_, fun a => ?_⟩
      · simp only [List.map_cons, tokenCalls, h.call_some hstr hnext, Option.bind_some,
          if_neg hsafe, hcalls, Option.map_some, tokens, hnext, pointer]
      · rw [hmem']
        simp only [List.map_cons, tokens, hnext, List.filterMap_cons, cut, afterToken]
        by_cases hcut : k.stop < t.length
        · simp only [hcut, if_true, List.mem_cons, Function.update_apply]
          by_cases ha : a = s + k.stop
          · simp [ha]
          · simp [ha]
        · simp only [hcut, if_false]

/-- In the end every token is a terminated string at its own address. -/
theorem stringAt_token {mem' : Mem} {ds : List (List UInt8)} (h : StringAt mem s t)
    (hmem' : ∀ a, mem' a = if a ∈ (tokens t 0 ds).filterMap (cut s t) then some 0 else mem a)
    (hk : some k ∈ tokens t 0 ds) : StringAt mem' (s + k.start) (k.text t) := by
  obtain ⟨_, hlt, hle, hstop⟩ := mem_tokens hk
  have hlen : (k.text t).length = k.stop - k.start := by
    rw [Span.text, List.length_drop, List.length_take, Nat.min_eq_left hstop]
  refine ⟨?_, ?_, fun i hi => ?_, fun hzero => ?_⟩
  · have := h.nonnull
    omega
  · have := h.inSpace
    omega
  · rw [hlen] at hi
    rw [hmem']
    rcases Nat.lt_or_eq_of_le hi with hin | hend
    · -- inside the token
      rw [if_neg, Nat.add_assoc, h.byte_lt (by omega)]
      · rw [List.getElem?_append_left (by omega), Span.text, List.getElem?_drop,
          List.getElem?_take_of_lt (by omega), List.getElem?_eq_getElem]
      · intro hcut
        obtain ⟨k', hk', hlt', heq⟩ := mem_cuts.mp hcut
        have := stop_outside hk hk' hlt'
        omega
    · -- behind the token
      rw [hend, ← hlen, List.getElem?_concat_length, hlen, Nat.add_assoc, Nat.add_sub_cancel' hle]
      by_cases hcut : k.stop < t.length
      · exact if_pos (mem_cuts.mpr ⟨k, hk, hcut, rfl⟩)
      · have hlast : k.stop = t.length := Nat.le_antisymm hstop (Nat.not_lt.mp hcut)
        rw [hlast, h.byte_end, if_neg]
        intro hmem
        obtain ⟨k', _, hlt', heq⟩ := mem_cuts.mp hmem
        omega
  · exact h.noZero (List.mem_of_mem_take (List.mem_of_mem_drop hzero))

/-- The bytes that the calls may read: the string, the delimiter strings and their terminators. -/
def Readable (s : Nat) (t : List UInt8) (ds : List (Nat × List UInt8)) (a : Nat) : Prop :=
  (s ≤ a ∧ a ≤ s + t.length) ∨ ∃ d ∈ ds, d.1 ≤ a ∧ a ≤ d.1 + d.2.length

/-- The calls return the tokens of the text in order, each a terminated string at its own address,
and change nothing but the delimiter behind each token, which becomes a NUL. They go the same way
when no byte past the terminators can be accessed. -/
theorem tokenCalls_eq_tokens (f : Mem → Nat → Nat → Nat → Option Outcome)
    (hf : f = strtok ∨ f = strtokR) (mem : Mem) (s state : Nat) (t : List UInt8)
    (hs : StringAt mem s t) (ds : List (Nat × List UInt8))
    (hds : ∀ d ∈ ds, StringAt mem d.1 d.2 ∧ Apart d.1 d.2 s t) :
    ∃ mem', tokenCalls f mem s state (ds.map Prod.fst) =
        some (mem', (tokens t 0 (ds.map Prod.snd)).map (pointer s)) ∧
      (∀ a, mem' a =
        if a ∈ (tokens t 0 (ds.map Prod.snd)).filterMap (cut s t) then some 0 else mem a) ∧
      (∀ k, some k ∈ tokens t 0 (ds.map Prod.snd) → StringAt mem' (s + k.start) (k.text t)) ∧
      ∀ mem₂ : Mem, (∀ a, Readable s t ds a → mem₂ a = mem a) →
        ∃ mem₂', tokenCalls f mem₂ s state (ds.map Prod.fst) =
            some (mem₂', (tokens t 0 (ds.map Prod.snd)).map (pointer s)) ∧
          ∀ a, ¬ Readable s t ds a → mem₂' a = mem₂ a := by
  have hcalls : f = strtokR := hf.elim id id
  subst hcalls
  have hrun : ∀ m, StringAt m s t → (∀ d ∈ ds, StringAt m d.1 d.2 ∧ Apart d.1 d.2 s t) →
      ∃ m', tokenCalls strtokR m s state (ds.map Prod.fst) =
          some (m', (tokens t 0 (ds.map Prod.snd)).map (pointer s)) ∧
        ∀ a, m' a =
          if a ∈ (tokens t 0 (ds.map Prod.snd)).filterMap (cut s t) then some 0 else m a :=
    fun m h h' => tokenCalls_spec (h.ready h') (if_neg (Nat.ne_of_gt h.nonnull))
  obtain ⟨mem', hmem', hcut⟩ := hrun mem hs hds
  refine ⟨mem', hmem', hcut, fun k hk => stringAt_token hs hcut hk, fun mem₂ hsame => ?_⟩
  obtain ⟨mem₂', hmem₂', hcut₂⟩ := hrun mem₂
    (hs.congr fun a ha ha' => hsame a (.inl ⟨ha, ha'⟩)) fun d hd =>
      ⟨(hds d hd).1.congr fun a ha ha' => hsame a (.inr ⟨d, hd, ha, ha'⟩), (hds d hd).2⟩
  refine ⟨mem₂', hmem₂', fun a ha => ?_⟩
  rw [hcut₂, if_neg]
  intro hmem
  obtain ⟨k, _, hlt, rfl⟩ := mem_cuts.mp hmem
  exact ha (.inl ⟨Nat.le_add_right .., by omega⟩)

/-- `",ab;c"` at 16, `",;"` at 24 and `";"` at 28. -/
def shelf : Mem := fun a =>
  if a < 16 then none
  else [44, 97, 98, 59, 99, 0, 0, 0, 44, 59, 0, 0, 59, 0][a - 16]?

theorem shelf_text : StringAt shelf 16 [44, 97, 98, 59, 99] :=
  ⟨by decide, by decide, by decide, by decide⟩

theorem shelf_delims {ds : List (Nat × List UInt8)}
    (hds : ∀ d ∈ ds, d = (24, [44, 59]) ∨ d = (28, [59])) :
    ∀ d ∈ ds, StringAt shelf d.1 d.2 ∧ Apart d.1 d.2 16 [44, 97, 98, 59, 99] := by
  intro d hd
  rcases hds d hd with rfl | rfl
  · exact ⟨⟨by decide, by decide, by decide, by decide⟩, .inr (by decide)⟩
  · exact ⟨⟨by decide, by decide, by decide, by decide⟩, .inr (by decide)⟩

theorem tokenCalls_eq_tokens_two : ∃ mem', tokenCalls strtok shelf 16 0 [24, 28, 28] =
      some (mem', [17, 20, 0]) ∧ mem' 19 = some 0 ∧ StringAt mem' 17 [97, 98] ∧
      StringAt mem' 20 [99] := by
  obtain ⟨mem', hcalls, hcut, htokens, _⟩ := tokenCalls_eq_tokens strtok (.inl rfl) shelf 16 0
    [44, 97, 98, 59, 99] shelf_text [(24, [44, 59]), (28, [59]), (28, [59])]
    (shelf_delims (by decide))
  refine ⟨mem', hcalls, ?_, htokens ⟨1, 3⟩ (by decide), htokens ⟨4, 5⟩ (by decide)⟩
  exact (hcut 19).trans (if_pos (by decide))

end Law

end StringTokens
