import Mathlib.Data.List.Basic
import Mathlib.Logic.Function.Basic
import Libdeepc.Runs

/-!
# Linked queues

`insque` and `remque` on nodes that point at each other. A path is a sequence of
nodes that spells its links in both directions. The pointer `NULL` stands at both
ends of a linear queue, so such a queue is a path from `NULL` to itself, and a
circular one is a path from any of its nodes to itself.
-/

namespace QueueLinks

open Runs

section Code

structure Queue where
  next : Nat
  prev : Nat

/-- The nodes by their addresses. There is none at address 0. -/
abbrev Nodes := Nat → Option Queue

def setNext (h : Nodes) (a v : Nat) : Option Nodes :=
  (h a).map fun n => Function.update h a (some { n with next := v })

def setPrev (h : Nodes) (a v : Nat) : Option Nodes :=
  (h a).map fun n => Function.update h a (some { n with prev := v })

def insque (h : Nodes) (e p : Nat) : Option Nodes :=
  if p = 0 then (setNext h e 0).bind fun h => setPrev h e 0
  else
    (h p).bind fun pred =>
    (setNext h e pred.next).bind fun h =>
    (setNext h p e).bind fun h =>
    (setPrev h e p).bind fun h =>
    (h e).bind fun element =>
      if element.next ≠ 0 then setPrev h element.next e else some h

def remque (h : Nodes) (e : Nat) : Option Nodes :=
  (h e).bind fun element =>
  (if element.next ≠ 0 then setPrev h element.next element.prev else some h).bind fun h =>
  (h e).bind fun element =>
    if element.prev ≠ 0 then setNext h element.prev element.next else some h

/-- The caller links the first node of a circular queue to itself. -/
def linkSelf (h : Nodes) (e : Nat) : Option Nodes :=
  (setNext h e e).bind fun h => setPrev h e e

end Code

section Fields

def nextOf (h : Nodes) (a : Nat) : Option Nat := (h a).map Queue.next

def prevOf (h : Nodes) (a : Nat) : Option Nat := (h a).map Queue.prev

variable {h h' : Nodes} {a b v : Nat}

theorem node_ext {q x : Nat} (hnext : nextOf h a = some q) (hprev : prevOf h a = some x) :
    h a = some ⟨q, x⟩ := by
  obtain ⟨n, hn, rfl⟩ := Option.map_eq_some_iff.mp hnext
  rw [prevOf, hn] at hprev
  rw [hn, ← Option.some.inj hprev]

theorem isSome_of_nextOf {q : Nat} (hnext : nextOf h a = some q) : (h a).isSome = true := by
  obtain ⟨n, hn, _⟩ := Option.map_eq_some_iff.mp hnext
  rw [hn]
  rfl

theorem isSome_of_prevOf {q : Nat} (hprev : prevOf h a = some q) : (h a).isSome = true := by
  obtain ⟨n, hn, _⟩ := Option.map_eq_some_iff.mp hprev
  rw [hn]
  rfl

/-- A write to one field of a node. -/
theorem setNext_spec (ha : (h a).isSome = true) (v : Nat) :
    ∃ h', setNext h a v = some h' ∧ (∀ b, b ≠ a → h' b = h b) ∧ nextOf h' a = some v ∧
      ∀ b, prevOf h' b = prevOf h b := by
  obtain ⟨n, hn⟩ := Option.isSome_iff_exists.mp ha
  refine ⟨Function.update h a (some { n with next := v }), by rw [setNext, hn]; rfl,
    fun b hb => Function.update_of_ne hb .., ?_, fun b => ?_⟩
  · rw [nextOf, Function.update_self]
    rfl
  · by_cases hb : b = a
    · rw [hb, prevOf, prevOf, Function.update_self, hn]
      rfl
    · rw [prevOf, prevOf, Function.update_of_ne hb]

theorem setPrev_spec (ha : (h a).isSome = true) (v : Nat) :
    ∃ h', setPrev h a v = some h' ∧ (∀ b, b ≠ a → h' b = h b) ∧ prevOf h' a = some v ∧
      ∀ b, nextOf h' b = nextOf h b := by
  obtain ⟨n, hn⟩ := Option.isSome_iff_exists.mp ha
  refine ⟨Function.update h a (some { n with prev := v }), by rw [setPrev, hn]; rfl,
    fun b hb => Function.update_of_ne hb .., ?_, fun b => ?_⟩
  · rw [prevOf, Function.update_self]
    rfl
  · by_cases hb : b = a
    · rw [hb, nextOf, nextOf, Function.update_self, hn]
      rfl
    · rw [nextOf, nextOf, Function.update_of_ne hb]

end Fields

section Calls

variable {h h' : Nodes} {e p q x : Nat}

/-- What the insertion of `e` between `p` and `q` does to the links. -/
structure Inserted (h h' : Nodes) (e p q : Nat) : Prop where
  nextNew : nextOf h' e = some q
  prevNew : prevOf h' e = some p
  nextPred : nextOf h' p = some e
  prevSucc : q ≠ 0 → prevOf h' q = some e
  nextOther : ∀ a, a ≠ e → a ≠ p → nextOf h' a = nextOf h a
  prevOther : ∀ a, a ≠ e → a ≠ q → prevOf h' a = prevOf h a
  other : ∀ a, a ≠ e → a ≠ p → (q ≠ 0 → a ≠ q) → h' a = h a

/-- What the removal of the node between `x` and `q` does to the links. -/
structure Removed (h h' : Nodes) (x q : Nat) : Prop where
  nextPred : x ≠ 0 → nextOf h' x = some q
  prevSucc : q ≠ 0 → prevOf h' q = some x
  nextOther : ∀ a, a ≠ x → nextOf h' a = nextOf h a
  prevOther : ∀ a, a ≠ q → prevOf h' a = prevOf h a
  other : ∀ a, (x ≠ 0 → a ≠ x) → (q ≠ 0 → a ≠ q) → h' a = h a

theorem nextOf_congr {a : Nat} (ha : h' a = h a) : nextOf h' a = nextOf h a := by
  rw [nextOf, nextOf, ha]

theorem prevOf_congr {a : Nat} (ha : h' a = h a) : prevOf h' a = prevOf h a := by
  rw [prevOf, prevOf, ha]

theorem insque_spec (he : (h e).isSome = true) (hp : p ≠ 0) (hep : e ≠ p)
    (hnext : nextOf h p = some q) (hq : q ≠ 0 → (h q).isSome = true) (heq : e ≠ q) :
    ∃ h', insque h e p = some h' ∧ Inserted h h' e p q := by
  obtain ⟨pred, hpred, rfl⟩ := Option.map_eq_some_iff.mp hnext
  obtain ⟨h₁, hset₁, hold₁, hnext₁, hprev₁⟩ := setNext_spec he pred.next
  obtain ⟨h₂, hset₂, hold₂, hnext₂, hprev₂⟩ :=
    setNext_spec (h := h₁) (a := p) (by rw [hold₁ p hep.symm, hpred]; rfl) e
  obtain ⟨h₃, hset₃, hold₃, hprev₃, hsame₃⟩ :=
    setPrev_spec (h := h₂) (a := e) (by rw [hold₂ e hep]; exact isSome_of_nextOf hnext₁) p
  have hnext₃ : nextOf h₃ e = some pred.next := by
    rw [hsame₃, nextOf_congr (hold₂ e hep), hnext₁]
  obtain ⟨element, helement, helementNext⟩ := Option.map_eq_some_iff.mp hnext₃
  have hcode : insque h e p =
      if pred.next ≠ 0 then setPrev h₃ pred.next e else some h₃ := by
    simp only [insque, if_neg hp, hpred, hset₁, hset₂, hset₃, helement, Option.bind_some,
      helementNext]
  have hins : ∀ h', (∀ a, nextOf h' a = nextOf h₃ a) →
      (∀ a, (pred.next ≠ 0 → a ≠ pred.next) → h' a = h₃ a) →
      (pred.next ≠ 0 → prevOf h' pred.next = some e) →
      Inserted h h' e p pred.next := by
    intro h' hsame hold hprev
    have hprevNew := (prevOf_congr (hold e fun _ => heq)).trans hprev₃
    refine ⟨(hsame e).trans hnext₃, hprevNew, ?_, hprev, ?_, ?_, ?_⟩
    · rw [hsame, hsame₃, hnext₂]
    · intro a hae hap
      rw [hsame, hsame₃, nextOf_congr (hold₂ a hap), nextOf_congr (hold₁ a hae)]
    · intro a hae haq
      rw [prevOf_congr (hold a fun _ => haq), prevOf_congr (hold₃ a hae), hprev₂, hprev₁]
    · intro a hae hap haq
      rw [hold a haq, hold₃ a hae, hold₂ a hap, hold₁ a hae]
  by_cases hzero : pred.next = 0
  · refine ⟨h₃, ?_, hins h₃ (fun _ => rfl) (fun _ _ => rfl) fun hne => absurd hzero hne⟩
    rw [hcode, if_neg (not_not.mpr hzero)]
  · have hsome : (h₃ pred.next).isSome = true := by
      rw [hold₃ _ heq.symm]
      by_cases hself : pred.next = p
      · rw [hself]
        exact isSome_of_nextOf hnext₂
      · rw [hold₂ _ hself, hold₁ _ heq.symm]
        exact hq hzero
    obtain ⟨h₄, hset₄, hold₄, hprev₄, hsame₄⟩ := setPrev_spec hsome e
    refine ⟨h₄, ?_, hins h₄ hsame₄ (fun a ha => hold₄ a (ha hzero)) fun _ => hprev₄⟩
    rw [hcode, if_pos hzero, hset₄]

theorem remque_spec (he : h e = some ⟨q, x⟩) (heq : e ≠ q) (hq : q ≠ 0 → (h q).isSome = true)
    (hx : x ≠ 0 → (h x).isSome = true) :
    ∃ h', remque h e = some h' ∧ Removed h h' x q := by
  obtain ⟨h₁, hset₁, hold₁, hprev₁, hsame₁⟩ : ∃ h₁, (if q ≠ 0 then setPrev h q x else some h) =
      some h₁ ∧ (∀ b, (q ≠ 0 → b ≠ q) → h₁ b = h b) ∧ (q ≠ 0 → prevOf h₁ q = some x) ∧
      ∀ b, nextOf h₁ b = nextOf h b := by
    by_cases hzero : q = 0
    · exact ⟨h, if_neg (not_not.mpr hzero), fun _ _ => rfl, fun hne => absurd hzero hne,
        fun _ => rfl⟩
    · obtain ⟨h₁, hset, hold, hprev, hsame⟩ := setPrev_spec (hq hzero) x
      exact ⟨h₁, (if_pos hzero).trans hset, fun b hb => hold b (hb hzero), fun _ => hprev, hsame⟩
  have hcode : remque h e = if x ≠ 0 then setNext h₁ x q else some h₁ := by
    simp only [remque, he, Option.bind_some, hset₁, hold₁ e fun _ => heq]
  by_cases hzero : x = 0
  · refine ⟨h₁, by rw [hcode, if_neg (not_not.mpr hzero)], fun hne => absurd hzero hne, hprev₁,
      fun a _ => hsame₁ a, fun a ha => prevOf_congr (hold₁ a fun _ => ha), fun a _ => hold₁ a⟩
  · have hsome : (h₁ x).isSome = true := by
      by_cases hself : x = q
      · rw [hself]
        exact isSome_of_prevOf (hprev₁ (hself ▸ hzero))
      · rw [hold₁ x fun _ => hself]
        exact hx hzero
    obtain ⟨h₂, hset₂, hold₂, hnext₂, hsame₂⟩ := setNext_spec hsome q
    refine ⟨h₂, by rw [hcode, if_pos hzero, hset₂], fun _ => hnext₂, fun hne => ?_, ?_, ?_, ?_⟩
    · rw [hsame₂, hprev₁ hne]
    · intro a ha
      rw [nextOf_congr (hold₂ a ha), hsame₁]
    · intro a ha
      rw [hsame₂, prevOf_congr (hold₁ a fun _ => ha)]
    · intro a hax haq
      rw [hold₂ a (hax hzero), hold₁ a haq]

end Calls

end QueueLinks
