import Libdeepc.TreeContext
import Libdeepc.TreeSearch

/-!
# Trees in the heap

A tree whose labels are the address and the key of each node is represented when
every node holds its key and the addresses of its children. A context is
represented around the address in its hole; a write to the parent fills the
hole, and touches nothing else.
-/

namespace TreeHeap

open CellHeap TreeContext TreeSearch

variable {V : Type}

/-- The pointer to a tree. -/
def addr : BinaryTree (Nat × V) → Nat
  | .nil => 0
  | .node x _ _ => x.1

def addrs (xs : List (Nat × V)) : List Nat := xs.map Prod.fst

def Reps (h : Heap (Bnode V)) : BinaryTree (Nat × V) → Prop
  | .nil => True
  | .node x l r => x.1 ≠ 0 ∧ get h x.1 = some ⟨x.2, addr l, addr r⟩ ∧ Reps h l ∧ Reps h r

/-- The context is in the heap, with the pointer `hole` in its hole. -/
def RepsContext (h : Heap (Bnode V)) : Context (Nat × V) → Nat → Prop
  | .top, _ => True
  | .left above x r, hole =>
    x.1 ≠ 0 ∧ get h x.1 = some ⟨x.2, hole, addr r⟩ ∧ Reps h r ∧ RepsContext h above x.1
  | .right above x l, hole =>
    x.1 ≠ 0 ∧ get h x.1 = some ⟨x.2, addr l, hole⟩ ∧ Reps h l ∧ RepsContext h above x.1

def rootOf : Context (Nat × V) → Nat → Nat
  | .top, hole => hole
  | .left above x _, _ => rootOf above x.1
  | .right above x _, _ => rootOf above x.1

def parentOf : Context (Nat × V) → Nat
  | .top => 0
  | .left _ x _ => x.1
  | .right _ x _ => x.1

/-- The heap after a write of `hole` to the child pointer that is the hole. -/
def fillHole (h : Heap (Bnode V)) : Context (Nat × V) → Nat → Heap (Bnode V)
  | .top, _ => h
  | .left _ x r, hole => put h x.1 ⟨x.2, hole, addr r⟩
  | .right _ x l, hole => put h x.1 ⟨x.2, addr l, hole⟩

section Reps

variable {h h' : Heap (Bnode V)} {c : Context (Nat × V)} {t : BinaryTree (Nat × V)}

theorem addr_plug (c : Context (Nat × V)) (t : BinaryTree (Nat × V)) :
    addr (plug c t) = rootOf c (addr t) := by
  induction c generalizing t with
  | top => rfl
  | left above x r ih => exact ih _
  | right above x l ih => exact ih _

theorem reps_plug : Reps h (plug c t) ↔ RepsContext h c (addr t) ∧ Reps h t := by
  induction c generalizing t with
  | top => simp [plug, RepsContext]
  | left above x r ih =>
    rw [plug, ih, Reps, RepsContext, addr]
    tauto
  | right above x l ih =>
    rw [plug, ih, Reps, RepsContext, addr]
    tauto

theorem addr_eq_zero_iff (hreps : Reps h t) : addr t = 0 ↔ t = .nil := by
  cases t with
  | nil => simp [addr]
  | node x l r => simpa [addr] using hreps.1

theorem addr_mem (ht : t ≠ .nil) : addr t ∈ addrs (inorder t) := by
  cases t with
  | nil => exact absurd rfl ht
  | node x l r => simp [addrs, inorder, addr]

/-- Every node of a represented tree is in use. -/
theorem exists_get (hreps : Reps h t) : ∀ a ∈ addrs (inorder t), ∃ n, get h a = some n := by
  induction t with
  | nil => simp [addrs, inorder]
  | node x l r ihl ihr =>
    obtain ⟨_, hx, hl, hr⟩ := hreps
    intro a ha
    simp only [addrs, inorder, List.map_append, List.map_cons, List.mem_append,
      List.mem_cons] at ha
    rcases ha with ha | rfl | ha
    · exact ihl hl a ha
    · exact ⟨_, hx⟩
    · exact ihr hr a ha

theorem zero_notMem_addrs (hreps : Reps h t) : 0 ∉ addrs (inorder t) := by
  induction t with
  | nil => simp [addrs, inorder]
  | node x l r ihl ihr =>
    obtain ⟨hne, _, hl, hr⟩ := hreps
    simp only [addrs, inorder, List.map_append, List.map_cons, List.mem_append,
      List.mem_cons, not_or]
    exact ⟨ihl hl, hne.symm, ihr hr⟩

/-- A heap with the same nodes at the addresses of the tree represents it too. -/
theorem Reps.frame (hreps : Reps h t)
    (hsame : ∀ a ∈ addrs (inorder t), get h' a = get h a) : Reps h' t := by
  induction t with
  | nil => trivial
  | node x l r ihl ihr =>
    obtain ⟨hne, hx, hl, hr⟩ := hreps
    simp only [addrs, inorder, List.map_append, List.map_cons, List.mem_append,
      List.mem_cons] at hsame
    exact ⟨hne, (hsame x.1 (by simp)).trans hx, ihl hl fun a ha => hsame a (Or.inl ha),
      ihr hr fun a ha => hsame a (Or.inr (Or.inr ha))⟩

/-- The addresses of the nodes around the hole. -/
def aroundAddrs (c : Context (Nat × V)) : List Nat := addrs (before c) ++ addrs (after c)

theorem RepsContext.frame {hole : Nat} (hreps : RepsContext h c hole)
    (hsame : ∀ a ∈ aroundAddrs c, get h' a = get h a) : RepsContext h' c hole := by
  induction c generalizing hole with
  | top => trivial
  | left above x r ih =>
    obtain ⟨hne, hx, hr, habove⟩ := hreps
    simp only [aroundAddrs, addrs, before, after, List.map_cons, List.map_append,
      List.mem_append, List.mem_cons] at hsame
    refine ⟨hne, (hsame x.1 (by simp)).trans hx, hr.frame fun a ha => hsame a ?_,
      ih habove fun a ha => hsame a ?_⟩
    · exact Or.inr (Or.inr (Or.inl ha))
    · exact (List.mem_append.mp ha).imp_right fun h => Or.inr (Or.inr h)
  | right above x l ih =>
    obtain ⟨hne, hx, hl, habove⟩ := hreps
    simp only [aroundAddrs, addrs, before, after, List.map_cons, List.map_append, List.map_nil,
      List.mem_append, List.mem_cons] at hsame
    refine ⟨hne, (hsame x.1 (by simp)).trans hx, hl.frame fun a ha => hsame a ?_,
      ih habove fun a ha => hsame a ?_⟩
    · exact Or.inl (Or.inr (Or.inl ha))
    · exact (List.mem_append.mp ha).imp_left Or.inl

theorem parentOf_mem (hc : c ≠ .top) : parentOf c ∈ aroundAddrs c := by
  cases c with
  | top => exact absurd rfl hc
  | left above x r => simp [parentOf, aroundAddrs, addrs, after]
  | right above x l => simp [parentOf, aroundAddrs, addrs, before]

theorem get_fillHole_ne {hole a : Nat} (hne : a ≠ parentOf c) :
    get (fillHole h c hole) a = get h a := by
  cases c with
  | top => rfl
  | left above x r => exact get_put_ne h _ hne
  | right above x l => exact get_put_ne h _ hne

/-- Filling the hole leaves the rest of the context as it is. -/
theorem repsContext_fillHole {old : Nat} (hreps : RepsContext h c old)
    (hnodup : (aroundAddrs c).Nodup) (new : Nat) :
    RepsContext (fillHole h c new) c new := by
  cases c with
  | top => trivial
  | left above x r =>
    obtain ⟨hne, _, hr, habove⟩ := hreps
    simp only [aroundAddrs, addrs, before, after, List.map_cons, List.map_append] at hnodup
    have hx : x.1 ∉ (before above).map Prod.fst ++
        ((inorder r).map Prod.fst ++ (after above).map Prod.fst) :=
      (List.nodup_middle.mp hnodup).notMem
    simp only [List.mem_append, not_or] at hx
    refine ⟨hne, get_put_self h _ _, hr.frame fun a ha => ?_, habove.frame fun a ha => ?_⟩
    · exact get_put_ne h _ fun he => hx.2.1 (he ▸ ha)
    · refine get_put_ne h _ fun he => ?_
      exact (List.mem_append.mp (he ▸ ha)).elim hx.1 hx.2.2
  | right above x l =>
    obtain ⟨hne, _, hl, habove⟩ := hreps
    simp only [aroundAddrs, addrs, before, after, List.map_cons, List.map_append, List.map_nil,
      List.append_assoc, List.singleton_append] at hnodup
    rw [← List.append_assoc] at hnodup
    have hx : x.1 ∉ (before above).map Prod.fst ++ (inorder l).map Prod.fst ++
        (after above).map Prod.fst := (List.nodup_middle.mp hnodup).notMem
    simp only [List.mem_append, not_or] at hx
    refine ⟨hne, get_put_self h _ _, hl.frame fun a ha => ?_, habove.frame fun a ha => ?_⟩
    · exact get_put_ne h _ fun he => hx.1.2 (he ▸ ha)
    · refine get_put_ne h _ fun he => ?_
      exact (List.mem_append.mp (he ▸ ha)).elim hx.1.1 hx.2

theorem length_inorder (t : BinaryTree (Nat × V)) : (inorder t).length = t.numNodes := by
  induction t with
  | nil => rfl
  | node x l r ihl ihr =>
    simp only [inorder, List.length_append, List.length_cons, BinaryTree.numNodes, ihl, ihr]
    omega

theorem numNodes_le (hreps : Reps h t) (hnodup : (addrs (inorder t)).Nodup) :
    t.numNodes ≤ h.length := by
  have hle := length_le_of_nodup hnodup (exists_get hreps)
  rwa [addrs, List.length_map, length_inorder] at hle

end Reps

section Loops

variable {compar : V → V → Int} {h : Heap (Bnode V)}

/-- The descent ends where `locate` does, with the parent and the address there. -/
theorem tfindWithParentConst_eq (key : V) {t : BinaryTree (Nat × V)} (hreps : Reps h t)
    (c : Context (Nat × V)) {fuel : Nat} (hfuel : t.numNodes < fuel) :
    tfindWithParentConst compar h key fuel (parentOf c) (addr t) =
      some (parentOf (locate (fun x => compar key x.2) c t).1,
        addr (locate (fun x => compar key x.2) c t).2) := by
  induction t generalizing c fuel with
  | nil =>
    obtain ⟨fuel, rfl⟩ := Nat.exists_eq_succ_of_ne_zero (by omega : fuel ≠ 0)
    rfl
  | node x l r ihl ihr =>
    obtain ⟨fuel, rfl⟩ := Nat.exists_eq_succ_of_ne_zero (by omega : fuel ≠ 0)
    obtain ⟨hne, hx, hl, hr⟩ := hreps
    simp only [BinaryTree.numNodes] at hfuel
    simp only [tfindWithParentConst, addr, ne_eq, hne, not_false_eq_true, if_true, hx,
      Option.bind_eq_bind, Option.bind_some, locate]
    split_ifs
    · rfl
    · exact ihl hl (.left c x r) (by omega)
    · exact ihr hr (.right c x l) (by omega)

/-- The walk to the right ends at the node under which `attach` hangs a tree. -/
theorem rightmost_spec {l : BinaryTree (Nat × V)} (hne : l ≠ .nil) (hreps : Reps h l) {fuel : Nat}
    (hfuel : l.numNodes < fuel) :
    ∃ m v lm, rightmost h fuel (addr l) = some m ∧ get h m = some ⟨v, lm, 0⟩ ∧
      m ∈ addrs (inorder l) ∧
      ∀ s, Reps h s → (addrs (inorder l) ++ addrs (inorder s)).Nodup →
        Reps (put h m ⟨v, lm, addr s⟩) (attach l s) := by
  induction l generalizing fuel with
  | nil => exact absurd rfl hne
  | node x l r _ ih =>
    obtain ⟨fuel, rfl⟩ := Nat.exists_eq_succ_of_ne_zero (by omega : fuel ≠ 0)
    obtain ⟨hx0, hx, hl, hr⟩ := hreps
    have hstep : rightmost h (fuel + 1) (addr (.node x l r)) =
        if addr r ≠ 0 then rightmost h fuel (addr r) else some x.1 := by
      rw [show addr (.node x l r) = x.1 from rfl, rightmost, hx]
      rfl
    simp only [BinaryTree.numNodes] at hfuel
    by_cases hnil : r = .nil
    · subst hnil
      refine ⟨x.1, x.2, addr l, hstep.trans (by simp [addr]), hx, by simp [addrs, inorder], ?_⟩
      intro s hs hnodup
      simp only [addrs, inorder, List.map_append, List.map_cons, List.map_nil, List.append_assoc,
        List.singleton_append] at hnodup
      have hxs := (List.nodup_middle.mp hnodup).notMem
      simp only [List.mem_append, not_or] at hxs
      refine ⟨hx0, get_put_self h _ _, hl.frame fun a ha => ?_, hs.frame fun a ha => ?_⟩
      · exact get_put_ne h _ fun he => hxs.1 (he ▸ ha)
      · exact get_put_ne h _ fun he => hxs.2 (he ▸ ha)
    · obtain ⟨m, v, lm, hloop, hm, hmem, hattach⟩ := ih hnil hr (by omega : r.numNodes < fuel)
      have hr0 : addr r ≠ 0 := fun h0 => hnil ((addr_eq_zero_iff hr).mp h0)
      refine ⟨m, v, lm, hstep.trans ((if_pos hr0).trans hloop), hm, ?_, ?_⟩
      · simp only [addrs, inorder, List.map_append, List.map_cons, List.mem_append, List.mem_cons]
        exact Or.inr (Or.inr hmem)
      · intro s hs hnodup
        simp only [addrs, inorder, List.map_append, List.map_cons, List.append_assoc,
          List.cons_append] at hnodup
        obtain ⟨_, hrest, hdisj⟩ := List.nodup_append.mp hnodup
        obtain ⟨hxrest, hrs⟩ := List.nodup_cons.mp hrest
        have hattached : addr (attach r s) = addr r := by
          cases r with
          | nil => exact absurd rfl hnil
          | node y ll rr => rfl
        have hmx : x.1 ≠ m := fun he => hxrest (List.mem_append_left _ (he ▸ hmem))
        refine ⟨hx0, ?_, hl.frame fun a ha => get_put_ne h _ ?_, hattach s hs hrs⟩
        · rw [get_put_ne h _ hmx, hx, hattached]
        · exact hdisj a ha m (List.mem_cons_of_mem _ (List.mem_append_left _ hmem))

end Loops

end TreeHeap
