import Libdeepc.TreeLaw

/-!
# What tdelete returns

The parent at which the search ended: a node of the tree unless the search ended
at the root, and there `NULL`, which is also the answer for an absent key.
-/

namespace TreeDeletion

open CellHeap TreeContext TreeSearch TreeHeap TreeLaw Runs

variable {V : Type} {compar : V → V → Int} {st : TreeState V} {t : BinaryTree (Nat × V)}
  {key : V}

/-- A node of the tree with the child `a`. -/
def IsParent (st : TreeState V) (t : BinaryTree (Nat × V)) (p a : Nat) : Prop :=
  p ∈ addrs (inorder t) ∧ ∃ n, get st.heap p = some n ∧ (n.l = a ∨ n.r = a)

/-- `NULL` for an absent key only, and otherwise the parent that the deleted node had, where it had
one. -/
def ToldApart (compar : V → V → Int) (st : TreeState V) (t : BinaryTree (Nat × V)) (key : V) :
    Prop :=
  ∃ p st', tdelete compar st key = some (p, st') ∧ (p = 0 ↔ Absent compar key t) ∧
    ∀ x ∈ inorder t, compar key x.2 = 0 → x.1 ≠ st.root → IsParent st t p x.1

/-- The tree is empty, or its root holds another key. -/
def RootSpared (compar : V → V → Int) (st : TreeState V) (key : V) : Prop :=
  st.root = 0 ∨ ∃ n, get st.heap st.root = some n ∧ compar key n.val ≠ 0

theorem rootOf_mem {c : Context (Nat × V)} (hc : c ≠ .top) (hole : Nat) :
    rootOf c hole ∈ aroundAddrs c := by
  induction c generalizing hole with
  | top => exact absurd rfl hc
  | left above x r ih =>
    by_cases htop : above = .top
    · subst htop
      simp [rootOf, aroundAddrs, addrs, after]
    · have hmem := ih htop x.1
      simp only [aroundAddrs, addrs, before, after, List.map_cons, List.map_append,
        List.mem_append, List.mem_cons] at hmem ⊢
      tauto
  | right above x l ih =>
    by_cases htop : above = .top
    · subst htop
      simp [rootOf, aroundAddrs, addrs, before]
    · have hmem := ih htop x.1
      simp only [aroundAddrs, addrs, before, after, List.map_cons, List.map_append,
        List.mem_append, List.mem_cons] at hmem ⊢
      tauto

/-- The root is spared just when no node at the root address holds the key. -/
theorem rootSpared_iff (hrep : Represents compar st t) :
    RootSpared compar st key ↔ ∀ x ∈ inorder t, compar key x.2 = 0 → x.1 ≠ st.root := by
  cases t with
  | nil => exact ⟨fun _ _ hx => absurd hx List.not_mem_nil, fun _ => .inl hrep.root.symm⟩
  | node y l r =>
    obtain ⟨hne, hy, _, _⟩ := hrep.reps
    have hroot : y.1 = st.root := hrep.root
    have hmem : y ∈ inorder (.node y l r) := by simp [inorder]
    constructor
    · rintro (hzero | ⟨n, hn, hkey⟩) x hx hx0 heq
      · exact hne (hroot.trans hzero)
      · -- addresses are different, so this node is the root
        obtain rfl : x = y := List.inj_on_of_nodup_map hrep.nodup hx hmem (heq.trans hroot.symm)
        rw [← hroot, hy] at hn
        exact hkey (Option.some.inj hn ▸ hx0)
    · intro h
      exact .inr ⟨_, hroot ▸ hy, fun hkey => h y hmem hkey hroot⟩

theorem isParent_parentOf {c : Context (Nat × V)} {x : Nat × V} {l r : BinaryTree (Nat × V)}
    (hrep : Represents compar st (plug c (.node x l r))) (hc : c ≠ .top) :
    IsParent st (plug c (.node x l r)) (parentOf c) x.1 := by
  constructor
  · have hmem := parentOf_mem hc
    simp only [aroundAddrs, inorder_plug, addrs, List.map_append, List.mem_append] at hmem ⊢
    tauto
  · have hctx := hrep.context.1
    cases c with
    | top => exact absurd rfl hc
    | left above y s => exact ⟨_, hctx.2.1, .inl rfl⟩
    | right above y s => exact ⟨_, hctx.2.1, .inr rfl⟩

theorem parentOf_ne_zero {c : Context (Nat × V)} {s : BinaryTree (Nat × V)}
    (hrep : Represents compar st (plug c s)) (hc : c ≠ .top) : parentOf c ≠ 0 := by
  have hctx := hrep.context.1
  cases c with
  | top => exact absurd rfl hc
  | left above y r => exact hctx.1
  | right above y l => exact hctx.1

theorem toldApart_iff (hcmp : Comparator compar) (hrep : Represents compar st t) :
    ToldApart compar st t key ↔ RootSpared compar st key := by
  rw [rootSpared_iff hrep]
  rcases descent_cases hcmp hrep key with
    ⟨c, rfl, hloop, hbefore, hafter⟩ | ⟨c, x, l, r, rfl, hloop, hzero⟩
  · have habsent := absent_hole hbefore hafter
    have hrun : tdelete compar st key = some (0, st) := by simp [tdelete, hloop]
    constructor
    · intro _ x hx hx0
      exact absurd hx0 (habsent x hx)
    · intro _
      exact ⟨0, st, hrun, ⟨fun _ => habsent, fun _ => rfl⟩,
        fun x hx hx0 => absurd hx0 (habsent x hx)⟩
  · obtain ⟨st', hrun, _⟩ := tdelete_node hrep hloop
    have hold := (inorder_delete c x l r).1
    have hmem : x ∈ inorder (plug c (.node x l r)) := by simp [hold]
    have hroot := hrep.context.2.2
    have honly : ∀ y ∈ inorder (plug c (.node x l r)), compar key y.2 = 0 → y = x := by
      intro y hy hy0
      have hinc := hrep.increasing
      rw [hold] at hinc hy
      exact eq_of_compar hcmp hinc hzero hy hy0
    by_cases hc : c = .top
    · subst hc
      constructor
      · rintro ⟨p, st₂, hrun₂, hnull, _⟩
        rw [hrun, Option.some.injEq, Prod.mk.injEq] at hrun₂
        exact absurd hzero (hnull.mp hrun₂.1.symm x hmem)
      · intro h
        exact absurd hroot (h x hmem hzero)
    · constructor
      · intro _ y hy hy0 heq
        obtain rfl := honly y hy hy0
        have hin : y.1 ∈ aroundAddrs c := by
          rw [heq, ← hroot]
          exact rootOf_mem hc _
        exact (nodup_plug hrep.nodup).2.2 y.1 hin (by simp [addrs, inorder])
      · intro _
        have hpresent : ¬Absent compar key (plug c (.node x l r)) := fun h => h x hmem hzero
        refine ⟨parentOf c, st', hrun, iff_of_false (parentOf_ne_zero hrep hc) hpresent, ?_⟩
        intro y hy hy0 _
        obtain rfl := honly y hy hy0
        exact isParent_parentOf hrep hc

/-- In the state after any run of calls, the result of a deletion tells what happened just when
the key is not the one at the root. -/
theorem deletion_told_iff (hcmp : Comparator compar) (calls : List (Call V))
    (hfresh : Along (step compar) FreshCalloc emptyTree calls) (key : V) :
    ∃ st t, exec (step compar) emptyTree calls = some st ∧ Represents compar st t ∧
      (ToldApart compar st t key ↔ RootSpared compar st key) := by
  obtain ⟨st, t, hexec, hrep, _⟩ := run_refines hcmp represents_empty (List.Perm.refl []) hfresh
  exact ⟨st, t, hexec, hrep, toldApart_iff hcmp hrep⟩

/-- Insert 2 and 1 and delete 1. -/
theorem deletion_told_iff_leaf : ∃ st t,
    exec (step fun a b : Int => a - b) emptyTree [.search 2 (some 16), .search 1 (some 24)] =
      some st ∧ Represents (fun a b => a - b) st t ∧
    (ToldApart (fun a b => a - b) st t 1 ↔ RootSpared (fun a b => a - b) st 1) :=
  deletion_told_iff comparator_sub [.search 2 (some 16), .search 1 (some 24)]
    (along_cons_of_step rfl ⟨by decide, rfl⟩
      (along_cons_of_step rfl ⟨by decide, rfl⟩ trivial)) 1

/-- The only node of a tree is deleted, and the answer is that of an absent key. -/
theorem root_deletion_returns_null : ∃ st t,
    exec (step fun a b : Int => a - b) emptyTree [.search 2 (some 16)] = some st ∧
    Represents (fun a b => a - b) st t ∧ ¬Absent (fun a b => a - b) 2 t ∧
    (tdelete (fun a b => a - b) st 2).map Prod.fst = some 0 ∧
    ¬ToldApart (fun a b => a - b) st t 2 := by
  have hrep : Represents (fun a b : Int => a - b) ⟨16, [(16, ⟨2, 0, 0⟩)], []⟩
      (.node (16, 2) .nil .nil) :=
    ⟨rfl, ⟨by decide, rfl, trivial, trivial⟩, List.nodup_singleton _,
      List.pairwise_singleton _ _⟩
  have hpresent : ¬Absent (fun a b : Int => a - b) 2 (.node (16, 2) .nil .nil) :=
    fun h => h (16, 2) (by simp [inorder]) rfl
  have hrun : (tdelete (fun a b : Int => a - b) ⟨16, [(16, ⟨2, 0, 0⟩)], []⟩ 2).map Prod.fst =
      some 0 := rfl
  refine ⟨⟨16, [(16, ⟨2, 0, 0⟩)], []⟩, _, rfl, hrep, hpresent, hrun, ?_⟩
  rintro ⟨p, st', htdelete, hnull, _⟩
  rw [htdelete] at hrun
  exact hpresent (hnull.mp (Option.some.inj hrun))

end TreeDeletion
