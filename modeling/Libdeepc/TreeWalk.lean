import Libdeepc.MachineInt
import Libdeepc.TreeLaw

/-!
# The walk over a tree

`twalk` as the sequence of the calls of `action` that it makes. They stand as
the tree does: a node with children has its calls around those of its branches.
-/

namespace TreeWalk

open CellHeap TreeContext TreeSearch TreeHeap TreeLaw Runs MachineInt

variable {V : Type} {compar : V → V → Int}

inductive Visit where
  | preorder
  | postorder
  | endorder
  | leaf
  deriving DecidableEq

/-- A call `action(cur, visit, depth)`. -/
structure ActionCall where
  cur : Nat
  visit : Visit
  depth : Int
  deriving DecidableEq

/-- A read through NULL has no outcome. -/
def deref (heap : Heap (Bnode V)) (a : Nat) : Option (Bnode V) :=
  if a = 0 then none else get heap a

/-- The recursion takes one unit of fuel a level. -/
def twalkInternal (heap : Heap (Bnode V)) : Nat → Nat → Int → Option (List ActionCall)
  | 0, _, _ => none
  | fuel + 1, cur, depth => do
    let n ← deref heap cur
    if n.l = 0 ∧ n.r = 0 then some [⟨cur, .leaf, depth⟩]
    else
      let left ← (if n.l ≠ 0 then (checkedInt (depth + 1)).bind (twalkInternal heap fuel n.l)
        else some [])
      let right ← (if n.r ≠ 0 then (checkedInt (depth + 1)).bind (twalkInternal heap fuel n.r)
        else some [])
      some (⟨cur, .preorder, depth⟩ :: (left ++ ⟨cur, .postorder, depth⟩ ::
        (right ++ [⟨cur, .endorder, depth⟩])))

/-- `*rootp` is what `twalk` gets for `root`. -/
def twalk (st : TreeState V) : Option (List ActionCall) :=
  twalkInternal st.heap (st.heap.length + 1) st.root 0

section Calls

/-- The calls for a tree whose root is at depth `d`. -/
def walk : BinaryTree (Nat × V) → Int → List ActionCall
  | .nil, _ => []
  | .node x l r, d =>
    match l, r with
    | .nil, .nil => [⟨x.1, .leaf, d⟩]
    | l, r => ⟨x.1, .preorder, d⟩ :: (walk l (d + 1) ++ ⟨x.1, .postorder, d⟩ ::
        (walk r (d + 1) ++ [⟨x.1, .endorder, d⟩]))

variable {t l r : BinaryTree (Nat × V)} {x : Nat × V} {d : Int}

theorem walk_leaf : walk (.node x .nil .nil) d = [⟨x.1, .leaf, d⟩] := rfl

theorem walk_node (h : ¬(l = .nil ∧ r = .nil)) : walk (.node x l r) d =
    ⟨x.1, .preorder, d⟩ :: (walk l (d + 1) ++ ⟨x.1, .postorder, d⟩ ::
      (walk r (d + 1) ++ [⟨x.1, .endorder, d⟩])) := by
  cases l with
  | nil =>
    cases r with
    | nil => exact absurd ⟨rfl, rfl⟩ h
    | node y ll rr => rfl
  | node y ll rr => rfl

theorem cur_mem_walk {e : ActionCall} (he : e ∈ walk t d) : e.cur ∈ addrs (inorder t) := by
  induction t generalizing d with
  | nil => exact absurd he List.not_mem_nil
  | node x l r ihl ihr =>
    simp only [inorder, addrs, List.map_append, List.map_cons, List.mem_append, List.mem_cons]
    by_cases hleaf : l = .nil ∧ r = .nil
    · obtain ⟨rfl, rfl⟩ := hleaf
      rw [walk_leaf, List.mem_singleton] at he
      exact .inr (.inl (he ▸ rfl))
    · rw [walk_node hleaf] at he
      simp only [List.mem_cons, List.mem_append, List.not_mem_nil, or_false] at he
      rcases he with rfl | he | rfl | he | rfl
      · exact .inr (.inl rfl)
      · exact .inl (ihl he)
      · exact .inr (.inl rfl)
      · exact .inr (.inr (ihr he))
      · exact .inr (.inl rfl)

/-- Whether the call is the one at which a node is visited in order. -/
def ActionCall.inOrder (e : ActionCall) : Bool := e.visit = .leaf ∨ e.visit = .postorder

theorem map_cur_walk : ((walk t d).filter ActionCall.inOrder).map ActionCall.cur =
    addrs (inorder t) := by
  induction t generalizing d with
  | nil => rfl
  | node x l r ihl ihr =>
    by_cases hleaf : l = .nil ∧ r = .nil
    · obtain ⟨rfl, rfl⟩ := hleaf
      rfl
    · rw [walk_node hleaf]
      simp [ActionCall.inOrder, List.filter_append, ihl, ihr, addrs, inorder]

theorem child_eq {heap : Heap (Bnode V)} {fuel : Nat} (hd0 : 0 ≤ d) (hd : d ≤ intMax)
    (hreps : Reps heap t)
    (ih : t ≠ .nil → d + 1 ≤ intMax → twalkInternal heap fuel (addr t) (d + 1) =
      if d + 1 + t.height ≤ 2 ^ 31 then some (walk t (d + 1)) else none) :
    (if addr t ≠ 0 then (checkedInt (d + 1)).bind (twalkInternal heap fuel (addr t))
      else some []) = if d + 1 + t.height ≤ 2 ^ 31 then some (walk t (d + 1)) else none := by
  simp only [intMax] at hd ih
  by_cases hnil : t = .nil
  · subst hnil
    have hroom : d + 1 + ((BinaryTree.nil : BinaryTree (Nat × V)).height : Int) ≤ 2 ^ 31 := by
      simp only [BinaryTree.height]
      omega
    rw [if_pos hroom]
    rfl
  · have haddr : addr t ≠ 0 := fun h0 => hnil ((addr_eq_zero_iff hreps).mp h0)
    rw [if_pos haddr]
    by_cases hnext : d + 1 ≤ 2 ^ 31 - 1
    · rw [checkedInt_of_le (by simp only [intMin]; omega) hnext, Option.bind_some]
      exact ih hnil hnext
    · have hpos : 0 < t.height := by
        cases t with
        | nil => exact absurd rfl hnil
        | node x l r => exact Nat.succ_pos _
      have hover : checkedInt (d + 1) = none := if_neg fun h => hnext h.2
      rw [hover, if_neg (by omega)]
      rfl

/-- The walk comes back when the depth of every node is an `int`. -/
theorem twalkInternal_eq {heap : Heap (Bnode V)} (hreps : Reps heap t) (ht : t ≠ .nil) {fuel : Nat}
    (hfuel : t.numNodes < fuel) (hd0 : 0 ≤ d) (hd : d ≤ intMax) :
    twalkInternal heap fuel (addr t) d =
      if d + t.height ≤ 2 ^ 31 then some (walk t d) else none := by
  induction t generalizing fuel d with
  | nil => exact absurd rfl ht
  | node x l r ihl ihr =>
    obtain ⟨fuel, rfl⟩ := Nat.exists_eq_succ_of_ne_zero (by omega : fuel ≠ 0)
    obtain ⟨hne, hx, hl, hr⟩ := hreps
    simp only [BinaryTree.numNodes] at hfuel
    have hread : deref heap x.1 = some ⟨x.2, addr l, addr r⟩ := by rw [deref, if_neg hne, hx]
    have hleft := child_eq hd0 hd hl fun h hd' => ihl hl h (by omega : l.numNodes < fuel)
      (by omega) hd'
    have hright := child_eq hd0 hd hr fun h hd' => ihr hr h (by omega : r.numNodes < fuel)
      (by omega) hd'
    have hheight : ((BinaryTree.node x l r).height : Int) = max l.height r.height + 1 := by
      simp [BinaryTree.height]
    rw [show addr (.node x l r) = x.1 from rfl]
    simp only [twalkInternal, hread, Option.bind_eq_bind, Option.bind_some, hleft, hright]
    by_cases hleaf : l = .nil ∧ r = .nil
    · obtain ⟨rfl, rfl⟩ := hleaf
      simp only [intMax] at hd
      rw [if_pos ⟨rfl, rfl⟩, if_pos (by simp [BinaryTree.height]; omega), walk_leaf]
    · have hchild : ¬(addr l = 0 ∧ addr r = 0) := by
        rwa [addr_eq_zero_iff hl, addr_eq_zero_iff hr]
      rw [if_neg hchild, walk_node hleaf]
      by_cases hroom : d + ((BinaryTree.node x l r).height : Int) ≤ 2 ^ 31
      · rw [if_pos hroom, if_pos (by omega), if_pos (by omega)]
        rfl
      · rw [if_neg hroom]
        by_cases hroomLeft : d + 1 + (l.height : Int) ≤ 2 ^ 31
        · rw [if_pos hroomLeft, if_neg (by omega)]
          rfl
        · rw [if_neg hroomLeft]
          rfl

end Calls

section Contexts

variable {t l r s : BinaryTree (Nat × V)} {x : Nat × V} {c : Context (Nat × V)} {e : ActionCall}

/-- The distance of the hole from the root. -/
def depthOf : Context (Nat × V) → Nat
  | .top => 0
  | .left above _ _ => depthOf above + 1
  | .right above _ _ => depthOf above + 1

def walkBefore : Context (Nat × V) → List ActionCall
  | .top => []
  | .left above x _ => walkBefore above ++ [⟨x.1, .preorder, depthOf above⟩]
  | .right above x l => walkBefore above ++ ⟨x.1, .preorder, depthOf above⟩ ::
      (walk l (depthOf above + 1) ++ [⟨x.1, .postorder, depthOf above⟩])

def walkAfter : Context (Nat × V) → List ActionCall
  | .top => []
  | .left above x r => ⟨x.1, .postorder, depthOf above⟩ ::
      (walk r (depthOf above + 1) ++ ⟨x.1, .endorder, depthOf above⟩ :: walkAfter above)
  | .right above x _ => ⟨x.1, .endorder, depthOf above⟩ :: walkAfter above

theorem walk_plug (c : Context (Nat × V)) (hs : s ≠ .nil) :
    walk (plug c s) 0 = walkBefore c ++ (walk s (depthOf c) ++ walkAfter c) := by
  induction c generalizing s with
  | top => simp [plug, walkBefore, walkAfter, depthOf]
  | left above x r ih =>
    rw [plug, ih (by simp), walk_node fun h => hs h.1]
    simp [walkBefore, walkAfter, depthOf]
  | right above x l ih =>
    rw [plug, ih (by simp), walk_node fun h => hs h.2]
    simp [walkBefore, walkAfter, depthOf]

theorem cur_mem_walkBefore (he : e ∈ walkBefore c) : e.cur ∈ aroundAddrs c := by
  induction c with
  | top => exact absurd he List.not_mem_nil
  | left above x r ih =>
    simp only [walkBefore, List.mem_append, List.mem_singleton] at he
    simp only [aroundAddrs, addrs, before, after, List.map_cons, List.map_append,
      List.mem_append, List.mem_cons] at ih ⊢
    rcases he with he | rfl
    · have := ih he
      tauto
    · exact .inr (.inl rfl)
  | right above x l ih =>
    simp only [walkBefore, List.mem_append, List.mem_cons, List.not_mem_nil, or_false] at he
    simp only [aroundAddrs, addrs, before, after, List.map_cons, List.map_append, List.map_nil,
      List.mem_append, List.mem_cons, List.not_mem_nil, or_false] at ih ⊢
    rcases he with he | rfl | he | rfl
    · have := ih he
      tauto
    · exact .inl (.inr (.inr rfl))
    · exact .inl (.inr (.inl (cur_mem_walk he)))
    · exact .inl (.inr (.inr rfl))

theorem cur_mem_walkAfter (he : e ∈ walkAfter c) : e.cur ∈ aroundAddrs c := by
  induction c with
  | top => exact absurd he List.not_mem_nil
  | left above x r ih =>
    simp only [walkAfter, List.mem_append, List.mem_cons] at he
    simp only [aroundAddrs, addrs, before, after, List.map_cons, List.map_append,
      List.mem_append, List.mem_cons] at ih ⊢
    rcases he with rfl | he | rfl | he
    · exact .inr (.inl rfl)
    · exact .inr (.inr (.inl (cur_mem_walk he)))
    · exact .inr (.inl rfl)
    · have := ih he
      tauto
  | right above x l ih =>
    simp only [walkAfter, List.mem_cons] at he
    simp only [aroundAddrs, addrs, before, after, List.map_cons, List.map_append, List.map_nil,
      List.mem_append, List.mem_cons, List.not_mem_nil, or_false] at ih ⊢
    rcases he with rfl | he
    · exact .inl (.inr (.inr rfl))
    · have := ih he
      tauto

end Contexts

section Law

/-- The calls for the node `a` itself. -/
def nodeCalls (a : Nat) (l r : BinaryTree (Nat × V)) (d : Int) : List ActionCall :=
  match l, r with
  | .nil, .nil => [⟨a, .leaf, d⟩]
  | _, _ => [⟨a, .preorder, d⟩, ⟨a, .postorder, d⟩, ⟨a, .endorder, d⟩]

/-- The calls for the nodes of a branch. -/
def callsOf (s : BinaryTree (Nat × V)) (trace : List ActionCall) : List ActionCall :=
  trace.filter fun e => e.cur ∈ addrs (inorder s)

/-- What the calls of a walk have to be. -/
structure Walked (compar : V → V → Int) (t : BinaryTree (Nat × V)) (trace : List ActionCall) :
    Prop where
  nodes : ∀ e ∈ trace, e.cur ∈ addrs (inorder t)
  calls : ∀ c x l r, t = plug c (.node x l r) →
    (trace.filter fun e => e.cur = x.1) = nodeCalls x.1 l r (depthOf c)
  nested : ∀ c x l r, t = plug c (.node x l r) → ¬(l = .nil ∧ r = .nil) →
    ∃ pre post, trace = pre ++ ⟨x.1, .preorder, depthOf c⟩ :: (callsOf l trace ++
      ⟨x.1, .postorder, depthOf c⟩ :: (callsOf r trace ++
        ⟨x.1, .endorder, depthOf c⟩ :: post))
  ordered : (trace.filter ActionCall.inOrder).map ActionCall.cur = addrs (inorder t)
  increasing : Increasing compar (inorder t)

variable {st : TreeState V} {t l r : BinaryTree (Nat × V)} {x : Nat × V} {c : Context (Nat × V)}

theorem nodeCalls_node (h : ¬(l = .nil ∧ r = .nil)) (a : Nat) (d : Int) :
    nodeCalls a l r d = [⟨a, .preorder, d⟩, ⟨a, .postorder, d⟩, ⟨a, .endorder, d⟩] := by
  cases l with
  | nil =>
    cases r with
    | nil => exact absurd ⟨rfl, rfl⟩ h
    | node y ll rr => rfl
  | node y ll rr => rfl

theorem filter_none {p : ActionCall → Bool} {q : Nat → Prop} {trace : List ActionCall}
    (h : ∀ e ∈ trace, q e.cur) (hp : ∀ e, q e.cur → p e = false) : trace.filter p = [] :=
  List.filter_eq_nil_iff.mpr fun e he => by simp [hp e (h e he)]

theorem filter_middle {p : ActionCall → Bool} {pre mid post : List ActionCall}
    (hpre : ∀ e ∈ pre, p e = false) (hmid : ∀ e ∈ mid, p e = true)
    (hpost : ∀ e ∈ post, p e = false) : (pre ++ (mid ++ post)).filter p = mid := by
  rw [List.filter_append, List.filter_append, List.filter_eq_self.mpr hmid,
    List.filter_eq_nil_iff.mpr fun e he => by simp [hpre e he],
    List.filter_eq_nil_iff.mpr fun e he => by simp [hpost e he], List.nil_append, List.append_nil]

/-- Around the hole and the three parts of the node in it no address occurs twice. -/
theorem parts_apart (hnodup : (addrs (inorder (plug c (.node x l r)))).Nodup) :
    (∀ a ∈ aroundAddrs c, a ∉ addrs (inorder l) ∧ a ≠ x.1 ∧ a ∉ addrs (inorder r)) ∧
    (∀ a ∈ addrs (inorder l), a ≠ x.1 ∧ a ∉ addrs (inorder r)) ∧
    ∀ a ∈ addrs (inorder r), a ≠ x.1 := by
  obtain ⟨_, hnode, hcross⟩ := nodup_plug hnodup
  have hsplit : addrs (inorder (.node x l r)) = addrs (inorder l) ++ x.1 :: addrs (inorder r) := by
    simp [addrs, inorder]
  rw [hsplit] at hnode
  obtain ⟨_, hright, hlr⟩ := List.nodup_append.mp hnode
  refine ⟨fun a ha => ?_, fun a ha => ⟨?_, fun hr => ?_⟩, fun a ha heq => ?_⟩
  · have hout := hcross a ha
    rw [hsplit, List.mem_append, List.mem_cons] at hout
    tauto
  · exact hlr a ha x.1 List.mem_cons_self
  · exact hlr a ha a (List.mem_cons_of_mem _ hr) rfl
  · exact (List.nodup_cons.mp hright).1 (heq ▸ ha)

theorem walk_calls (hnodup : (addrs (inorder (plug c (.node x l r)))).Nodup) :
    ((walk (plug c (.node x l r)) 0).filter fun e => e.cur = x.1) =
      nodeCalls x.1 l r (depthOf c) := by
  obtain ⟨haround, hleft, hright⟩ := parts_apart hnodup
  have hbefore : (walkBefore c).filter (fun e => e.cur = x.1) = [] :=
    filter_none (q := (· ≠ x.1)) (fun e he => (haround _ (cur_mem_walkBefore he)).2.1) (by simp)
  have hafter : (walkAfter c).filter (fun e => e.cur = x.1) = [] :=
    filter_none (q := (· ≠ x.1)) (fun e he => (haround _ (cur_mem_walkAfter he)).2.1) (by simp)
  have hl : ∀ d, (walk l d).filter (fun e => e.cur = x.1) = [] := fun d =>
    filter_none (q := (· ≠ x.1)) (fun e he => (hleft _ (cur_mem_walk he)).1) (by simp)
  have hr : ∀ d, (walk r d).filter (fun e => e.cur = x.1) = [] := fun d =>
    filter_none (q := (· ≠ x.1)) (fun e he => hright _ (cur_mem_walk he)) (by simp)
  rw [walk_plug c (by simp), List.filter_append, List.filter_append, hbefore, hafter,
    List.nil_append, List.append_nil]
  by_cases hleaf : l = .nil ∧ r = .nil
  · obtain ⟨rfl, rfl⟩ := hleaf
    simp [walk_leaf, nodeCalls]
  · rw [walk_node hleaf, nodeCalls_node hleaf]
    simp [List.filter_append, hl, hr]

theorem walk_nested (hnodup : (addrs (inorder (plug c (.node x l r)))).Nodup)
    (hleaf : ¬(l = .nil ∧ r = .nil)) {trace : List ActionCall}
    (htrace : walk (plug c (.node x l r)) 0 = trace) :
    trace = walkBefore c ++ ⟨x.1, .preorder, depthOf c⟩ :: (callsOf l trace ++
      ⟨x.1, .postorder, depthOf c⟩ :: (callsOf r trace ++
        ⟨x.1, .endorder, depthOf c⟩ :: walkAfter c)) := by
  obtain ⟨haround, hleft, hright⟩ := parts_apart hnodup
  have hsplit : trace = walkBefore c ++ ⟨x.1, .preorder, depthOf c⟩ ::
      (walk l (depthOf c + 1) ++ ⟨x.1, .postorder, depthOf c⟩ :: (walk r (depthOf c + 1) ++
        ⟨x.1, .endorder, depthOf c⟩ :: walkAfter c)) := by
    rw [← htrace, walk_plug c (by simp), walk_node hleaf]
    simp
  have hbefore := fun e he => haround _ (cur_mem_walkBefore (e := e) he)
  have hafter := fun e he => haround _ (cur_mem_walkAfter (e := e) he)
  have hl : callsOf l trace = walk l (depthOf c + 1) := by
    have hparts : trace = (walkBefore c ++ [⟨x.1, .preorder, depthOf c⟩]) ++
        (walk l (depthOf c + 1) ++ ⟨x.1, .postorder, depthOf c⟩ :: (walk r (depthOf c + 1) ++
          ⟨x.1, .endorder, depthOf c⟩ :: walkAfter c)) := hsplit.trans (by simp)
    rw [callsOf, hparts]
    refine filter_middle (fun e he => ?_) (fun e he => ?_) fun e he => ?_
    · simp only [List.mem_append, List.mem_singleton] at he
      rcases he with he | rfl
      · exact decide_eq_false (hbefore e he).1
      · exact decide_eq_false fun h => (hleft _ h).1 rfl
    · exact decide_eq_true (cur_mem_walk he)
    · simp only [List.mem_append, List.mem_cons] at he
      rcases he with rfl | he | rfl | he
      · exact decide_eq_false fun h => (hleft _ h).1 rfl
      · exact decide_eq_false fun h => (hleft _ h).2 (cur_mem_walk he)
      · exact decide_eq_false fun h => (hleft _ h).1 rfl
      · exact decide_eq_false (hafter e he).1
  have hr : callsOf r trace = walk r (depthOf c + 1) := by
    have hparts : trace = (walkBefore c ++ ⟨x.1, .preorder, depthOf c⟩ ::
        (walk l (depthOf c + 1) ++ [⟨x.1, .postorder, depthOf c⟩])) ++
        (walk r (depthOf c + 1) ++ ⟨x.1, .endorder, depthOf c⟩ :: walkAfter c) :=
      hsplit.trans (by simp)
    rw [callsOf, hparts]
    refine filter_middle (fun e he => ?_) (fun e he => ?_) fun e he => ?_
    · simp only [List.mem_append, List.mem_cons, List.not_mem_nil, or_false] at he
      rcases he with he | rfl | he | rfl
      · exact decide_eq_false (hbefore e he).2.2
      · exact decide_eq_false fun h => hright _ h rfl
      · exact decide_eq_false (hleft _ (cur_mem_walk he)).2
      · exact decide_eq_false fun h => hright _ h rfl
    · exact decide_eq_true (cur_mem_walk he)
    · simp only [List.mem_cons] at he
      rcases he with rfl | he
      · exact decide_eq_false fun h => hright _ h rfl
      · exact decide_eq_false (hafter e he).2.2
  rw [hl, hr]
  exact hsplit

theorem walked_walk (hrep : Represents compar st t) : Walked compar t (walk t 0) where
  nodes _ he := cur_mem_walk he
  calls c x l r ht := by
    subst ht
    exact walk_calls hrep.nodup
  nested c x l r ht hleaf := by
    subst ht
    exact ⟨walkBefore c, walkAfter c, walk_nested hrep.nodup hleaf rfl⟩
  ordered := map_cur_walk
  increasing := hrep.increasing

/-- A walk over the empty tree starts with a read through its null root. -/
theorem twalk_eq (hrep : Represents compar st t) : twalk st =
    if st.root ≠ 0 ∧ t.height ≤ 2 ^ 31 then some (walk t 0) else none := by
  by_cases hnil : t = .nil
  · subst hnil
    have hroot : st.root = 0 := hrep.root.symm
    rw [if_neg fun h => h.1 hroot, twalk, hroot]
    rfl
  · have hroot : st.root ≠ 0 := by
      rw [← hrep.root]
      exact fun h0 => hnil ((addr_eq_zero_iff hrep.reps).mp h0)
    have hfuel : t.numNodes < st.heap.length + 1 :=
      Nat.lt_succ_of_le (numNodes_le hrep.reps hrep.nodup)
    have hdepth : (0 : Int) + t.height ≤ 2 ^ 31 ↔ t.height ≤ 2 ^ 31 := by omega
    rw [twalk, ← hrep.root, twalkInternal_eq hrep.reps hnil hfuel (Int.le_refl 0) (by decide)]
    simp only [hdepth, hrep.root, hroot, ne_eq, not_false_eq_true, true_and]

/-- After any run of calls, the walk over the tree makes the calls it has to make just when there
is a node and the depth of every node is an `int`. -/
theorem walk_ordered_iff (hcmp : Comparator compar) (calls : List (Call V))
    (hfresh : Along (step compar) FreshCalloc emptyTree calls) :
    ∃ st t, exec (step compar) emptyTree calls = some st ∧ Represents compar st t ∧
      ((∃ trace, twalk st = some trace ∧ Walked compar t trace) ↔
        st.root ≠ 0 ∧ t.height ≤ 2 ^ 31) := by
  obtain ⟨st, t, hexec, hrep, _⟩ := run_refines hcmp represents_empty (List.Perm.refl []) hfresh
  refine ⟨st, t, hexec, hrep, ?_⟩
  constructor
  · rintro ⟨trace, hrun, _⟩
    rw [twalk_eq hrep] at hrun
    by_contra hcond
    rw [if_neg hcond] at hrun
    cases hrun
  · intro h
    exact ⟨walk t 0, (twalk_eq hrep).trans (if_pos h), walked_walk hrep⟩

/-- Insert 2, 1 and 3. -/
theorem walk_ordered_iff_213 : ∃ st t,
    exec (step fun a b : Int => a - b) emptyTree
      [.search 2 (some 16), .search 1 (some 24), .search 3 (some 32)] = some st ∧
    Represents (fun a b => a - b) st t ∧
    ((∃ trace, twalk st = some trace ∧ Walked (fun a b => a - b) t trace) ↔
      st.root ≠ 0 ∧ t.height ≤ 2 ^ 31) :=
  walk_ordered_iff comparator_sub
    [.search 2 (some 16), .search 1 (some 24), .search 3 (some 32)]
    (along_cons_of_step rfl ⟨by decide, rfl⟩ (along_cons_of_step rfl ⟨by decide, rfl⟩
      (along_cons_of_step rfl ⟨by decide, rfl⟩ trivial)))

/-- The only node is inserted and deleted, and the walk reads through the null root. -/
theorem empty_walk_fails : ∃ st t,
    exec (step fun a b : Int => a - b) emptyTree [.search 2 (some 16), .delete 2] = some st ∧
    Represents (fun a b => a - b) st t ∧ st.root = 0 ∧
    ¬∃ trace, twalk st = some trace ∧ Walked (fun a b => a - b) t trace := by
  refine ⟨⟨0, [], [16]⟩, .nil, rfl, ⟨rfl, trivial, List.nodup_nil, List.Pairwise.nil⟩, rfl, ?_⟩
  rintro ⟨trace, hrun, _⟩
  cases hrun

example : (exec (step fun a b : Int => a - b) emptyTree
      [.search 2 (some 16), .search 1 (some 24)]).bind twalk =
    some [⟨16, .preorder, 0⟩, ⟨24, .leaf, 1⟩, ⟨16, .postorder, 0⟩, ⟨16, .endorder, 0⟩] := rfl

end Law

end TreeWalk
