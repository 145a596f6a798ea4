import Libdeepc.StringTokens

/-!
# Calls past the last token

A caller that goes on asking after `NULL`. The call that found no token has left
`NULL` in `*state`, and `strtok_r` takes its string from there without asking.
-/

namespace TokenExhaustion

open CString Memory StringTokens

/-- The calls on one string, one for each delimiter string. All but the first pass `NULL`, and they
go on after `NULL` came back. -/
def tokenRun (f : Mem → Nat → Nat → Nat → Option Outcome) (mem : Mem) (str state : Nat) :
    List Nat → Option (Mem × List Nat)
  | [] => some (mem, [])
  | delim :: delims => (f mem str delim state).bind fun o =>
    (tokenRun f o.mem 0 o.state delims).map fun r => (r.1, o.ret :: r.2)

/-- Behind a `NULL` there is nothing but `NULL`. -/
def StaysNull (rets : List Nat) : Prop := rets.Pairwise fun a b => a = 0 → b = 0

variable {mem : Mem} {s pos : Nat} {t : List UInt8} {k : Span}
  {d e : Nat × List UInt8} {ds : List (Nat × List UInt8)} {str state : Nat} {rets : List Nat}

theorem staysNull_cons {p : Nat} (hp : p ≠ 0) : StaysNull (p :: rets) ↔ StaysNull rets := by
  rw [StaysNull, List.pairwise_cons, StaysNull]
  exact ⟨And.right, fun h => ⟨fun _ _ h0 => absurd h0 hp, h⟩⟩

/-- Where nothing can be read `strspn` does not come back. -/
theorem strtokR_null (hnull : mem 0 = none) (delim : Nat) : strtokR mem 0 delim 0 = none := by
  have hread : bytesAt mem 0 = [] := by
    rw [bytesAt]
    cases 2 ^ 64 - 0 with
    | zero => rfl
    | succ fuel => rw [readable, hnull]
  simp only [strtokR, if_true, hread, strspn, Option.bind_none]

theorem afterToken_null (h : 0 < s) (hnull : mem 0 = none) : afterToken mem s t k 0 = none := by
  rw [afterToken]
  split
  · rw [Function.update_of_ne (by omega), hnull]
  · exact hnull

/-- The call after one that found no token. -/
theorem tokenRun_exhausted (hnull : mem 0 = none) (h : Ready mem s t pos (d :: e :: ds))
    (hstr : (if str = 0 then state else str) = s + pos) (hnone : nextToken t d.2 pos = none) :
    tokenRun strtokR mem str state ((d :: e :: ds).map Prod.fst) = none := by
  simp only [List.map_cons, tokenRun, h.call_none hstr hnone, Option.bind_some,
    strtokR_null hnull, Option.bind_none, Option.map_none]

theorem tokenRun_last (h : Ready mem s t pos [d])
    (hstr : (if str = 0 then state else str) = s + pos) :
    ∃ mem' p, tokenRun strtokR mem str state [d.1] = some (mem', [p]) := by
  cases hnext : nextToken t d.2 pos with
  | none =>
    refine ⟨mem, 0, ?_⟩
    simp only [tokenRun, h.call_none hstr hnext, Option.bind_some, Option.map_some]
  | some k =>
    refine ⟨afterToken mem s t k, s + k.start, ?_⟩
    simp only [tokenRun, h.call_some hstr hnext, Option.bind_some, Option.map_some]

/-- A call that finds a token leaves the rest of the run to the rest of the text. -/
theorem tokenRun_some (h : Ready mem s t pos (d :: ds))
    (hstr : (if str = 0 then state else str) = s + pos) (hsome : nextToken t d.2 pos = some k) :
    tokenRun strtokR mem str state ((d :: ds).map Prod.fst) =
      (tokenRun strtokR (afterToken mem s t k) 0 (s + k.next t) (ds.map Prod.fst)).map
        fun r => (r.1, (s + k.start) :: r.2) := by
  simp only [List.map_cons, tokenRun, h.call_some hstr hsome, Option.bind_some]

theorem tokenRun_iff (hnull : mem 0 = none) (h : Ready mem s t pos ds)
    (hstr : (if str = 0 then state else str) = s + pos) :
    (∃ mem' rets, tokenRun strtokR mem str state (ds.map Prod.fst) = some (mem', rets) ∧
      StaysNull rets) ↔ none ∉ tokens t pos (ds.dropLast.map Prod.snd) := by
  induction ds generalizing mem pos str state with
  | nil => exact ⟨fun _ => List.not_mem_nil, fun _ => ⟨mem, [], rfl, List.Pairwise.nil⟩⟩
  | cons d ds ih =>
    cases ds with
    | nil =>
      obtain ⟨mem', p, hrun⟩ := tokenRun_last h hstr
      exact ⟨fun _ => List.not_mem_nil,
        fun _ => ⟨mem', [p], hrun, List.pairwise_singleton _ p⟩⟩
    | cons e ds =>
      cases hnext : nextToken t d.2 pos with
      | none =>
        have htoks : tokens t pos ((d :: e :: ds).dropLast.map Prod.snd) = [none] := by
          rw [List.dropLast_cons_cons, List.map_cons, tokens, hnext]
        rw [tokenRun_exhausted hnull h hstr hnext, htoks]
        constructor
        · rintro ⟨mem', rets, hrun, _⟩
          cases hrun
        · intro hmem
          exact absurd List.mem_cons_self hmem
      | some k =>
        have hstart : s + k.start ≠ 0 := by
          have := h.nonnull
          omega
        have htoks : tokens t pos ((d :: e :: ds).dropLast.map Prod.snd) =
            some k :: tokens t (k.next t) ((e :: ds).dropLast.map Prod.snd) := by
          rw [List.dropLast_cons_cons, List.map_cons, tokens, hnext]
        have hstate : (if (0 : Nat) = 0 then s + k.next t else 0) = s + k.next t := if_pos rfl
        have hrest := ih (afterToken_null h.nonnull hnull) (h.after hnext) hstate
        rw [tokenRun_some h hstr hnext, htoks, List.mem_cons,
          or_iff_right (Option.some_ne_none k).symm, ← hrest]
        constructor
        · rintro ⟨mem', rets, hrun, hstays⟩
          obtain ⟨⟨mem₁, rets₁⟩, hrun₁, heq⟩ := Option.map_eq_some_iff.mp hrun
          obtain ⟨rfl, rfl⟩ := Prod.mk.inj heq
          exact ⟨mem₁, rets₁, hrun₁, (staysNull_cons hstart).mp hstays⟩
        · rintro ⟨mem', rets, hrun, hstays⟩
          exact ⟨mem', _, by rw [hrun]; rfl, (staysNull_cons hstart).mpr hstays⟩

/-- Every call of a run comes back, and behind the first `NULL` all return `NULL`, just when the
text still holds a token for each delimiter string but the last: the call after a `NULL` walks
from the null pointer. -/
theorem tokenRun_returns_iff (f : Mem → Nat → Nat → Nat → Option Outcome)
    (hf : f = strtok ∨ f = strtokR) (mem : Mem) (hnull : mem 0 = none) (s state : Nat)
    (t : List UInt8) (hs : StringAt mem s t) (ds : List (Nat × List UInt8))
    (hds : ∀ d ∈ ds, StringAt mem d.1 d.2 ∧ Apart d.1 d.2 s t) :
    (∃ mem' rets, tokenRun f mem s state (ds.map Prod.fst) = some (mem', rets) ∧
      StaysNull rets) ↔ none ∉ tokens t 0 (ds.dropLast.map Prod.snd) := by
  have hcalls : f = strtokR := hf.elim id id
  subst hcalls
  exact tokenRun_iff hnull (hs.ready hds) (if_neg (Nat.ne_of_gt hs.nonnull))

theorem tokenRun_returns_iff_two : ∃ mem' rets,
    tokenRun strtok shelf 16 0 [24, 28, 28] = some (mem', rets) ∧ StaysNull rets :=
  (tokenRun_returns_iff strtok (.inl rfl) shelf rfl 16 0 [44, 97, 98, 59, 99] shelf_text
    [(24, [44, 59]), (28, [59]), (28, [59])] (shelf_delims (by decide))).mpr (by decide)

/-- `",ab;c"` has two tokens: the third call returns `NULL`, and the fourth does not return. -/
theorem fourth_call_fails : StringAt shelf 16 [44, 97, 98, 59, 99] ∧
    tokens [44, 97, 98, 59, 99] 0 [[44, 59], [59], [59]] = [some ⟨1, 3⟩, some ⟨4, 5⟩, none] ∧
    ¬∃ mem' rets, tokenRun strtok shelf 16 0 [24, 28, 28, 28] = some (mem', rets) ∧
      StaysNull rets := by
  refine ⟨shelf_text, by decide, fun hruns => ?_⟩
  have hready : Ready shelf 16 [44, 97, 98, 59, 99] 0
      [(24, [44, 59]), (28, [59]), (28, [59]), (28, [59])] :=
    shelf_text.ready (shelf_delims (by decide))
  exact absurd ((tokenRun_iff rfl hready rfl).mp hruns) (by decide)

end TokenExhaustion
