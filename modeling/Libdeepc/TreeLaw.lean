import Libdeepc.TreeHeap

/-!
# The tree functions refine an increasing sequence of nodes

The state represents a tree whose nodes, in order, increase under the
comparator. Each call reads or changes that sequence as its purpose says: a
search adds a leaf, a deletion takes out one node, and all other nodes stay.
-/

namespace TreeLaw

open CellHeap TreeContext TreeSearch TreeHeap Runs

variable {V : Type} {compar : V → V → Int}

/-- A total order; keys that compare equal are the same key. -/
structure Comparator (compar : V → V → Int) : Prop where
  self : ∀ a, compar a a = 0
  swap : ∀ a b, 0 < compar a b ↔ compar b a < 0
  trans : ∀ a b c, compar a b ≤ 0 → compar b c ≤ 0 → compar a c ≤ 0

theorem Comparator.lt_of_le_of_lt (h : Comparator compar) {a b c : V} (hab : compar a b ≤ 0)
    (hbc : compar b c < 0) : compar a c < 0 := by
  by_contra hac
  have hca : compar c a ≤ 0 := by
    by_contra hpos
    have := (h.swap c a).mp (by omega)
    omega
  have hcb := h.trans c a b hca hab
  have := (h.swap c b).mpr hbc
  omega

def Increasing (compar : V → V → Int) (xs : List (Nat × V)) : Prop :=
  xs.Pairwise fun x y => compar x.2 y.2 < 0

structure Represents (compar : V → V → Int) (st : TreeState V) (t : BinaryTree (Nat × V)) :
    Prop where
  root : addr t = st.root
  reps : Reps st.heap t
  nodup : (addrs (inorder t)).Nodup
  increasing : Increasing compar (inorder t)

/-- No node of the tree holds the key. -/
def Absent (compar : V → V → Int) (key : V) (t : BinaryTree (Nat × V)) : Prop :=
  ∀ x ∈ inorder t, compar key x.2 ≠ 0

section Descent

variable {st : TreeState V} {t : BinaryTree (Nat × V)}

theorem represents_empty : Represents compar (emptyTree : TreeState V) .nil where
  root := rfl
  reps := trivial
  nodup := List.nodup_nil
  increasing := List.Pairwise.nil

/-- A key splits an increasing sequence: above, at, and below it. -/
theorem cut_of_increasing (hcmp : Comparator compar) {xs : List (Nat × V)}
    (h : Increasing compar xs) (key : V) : Cut (fun x => compar key x.2) xs :=
  h.imp fun hxy hx => hcmp.lt_of_le_of_lt hx hxy

/-- The nodes next to one that holds the key do not hold it. -/
theorem other_nodes (hcmp : Comparator compar) {key : V} {pre post : List (Nat × V)}
    {x : Nat × V} (h : Increasing compar (pre ++ x :: post)) (hx : compar key x.2 = 0) :
    ∀ y ∈ pre ++ post, compar key y.2 ≠ 0 := by
  obtain ⟨_, hpost, hcross⟩ := List.pairwise_append.mp h
  intro y hy hzero
  rcases List.mem_append.mp hy with hy | hy
  · have := hcmp.lt_of_le_of_lt (Int.le_of_eq hzero) (hcross y hy x List.mem_cons_self)
    omega
  · have := hcmp.lt_of_le_of_lt (Int.le_of_eq hx) ((List.pairwise_cons.mp hpost).1 y hy)
    omega

/-- How the descent ends: in the hole where the key belongs, or at its node. -/
theorem descent_cases (hcmp : Comparator compar) (hrep : Represents compar st t) (key : V) :
    (∃ c, t = plug c .nil ∧ tfindWithParent compar st key = some (parentOf c, 0) ∧
      (∀ x ∈ before c, 0 < compar key x.2) ∧ ∀ x ∈ after c, compar key x.2 < 0) ∨
    ∃ c x l r, t = plug c (.node x l r) ∧
      tfindWithParent compar st key = some (parentOf c, x.1) ∧ compar key x.2 = 0 := by
  have hfuel : t.numNodes < st.heap.length + 1 :=
    Nat.lt_succ_of_le (numNodes_le hrep.reps hrep.nodup)
  have hloop : tfindWithParent compar st key =
      some (parentOf (locate (fun x => compar key x.2) .top t).1,
        addr (locate (fun x => compar key x.2) .top t).2) := by
    rw [tfindWithParent, ← hrep.root]
    exact tfindWithParentConst_eq key hrep.reps .top hfuel
  have hplug := plug_locate (fun x => compar key x.2) .top t
  have hlocated := located_locate (c := .top) (cut_of_increasing hcmp hrep.increasing key)
    (fun x hx => by simp [before] at hx) fun x hx => by simp [after] at hx
  generalize locate (fun x => compar key x.2) .top t = p at hloop hplug hlocated
  obtain ⟨c, s⟩ := p
  obtain ⟨hbefore, hafter, rfl | ⟨x, l, r, rfl, hzero⟩⟩ := hlocated
  · exact Or.inl ⟨c, hplug.symm, hloop, hbefore, hafter⟩
  · exact Or.inr ⟨c, x, l, r, hplug.symm, hloop, hzero⟩

theorem absent_hole {key : V} {c : Context (Nat × V)}
    (hbefore : ∀ x ∈ before c, 0 < compar key x.2) (hafter : ∀ x ∈ after c, compar key x.2 < 0) :
    Absent compar key (plug c .nil) := by
  intro x hx
  rw [inorder_plug] at hx
  rcases List.mem_append.mp hx with hx | hx
  · have := hbefore x hx
    omega
  · rcases List.mem_append.mp hx with hx | hx
    · simp [inorder] at hx
    · have := hafter x hx
      omega

end Descent

section Operations

variable {st : TreeState V} {t : BinaryTree (Nat × V)}

/-- The nodes of a represented tree around and below a hole. -/
theorem nodup_plug {c : Context (Nat × V)} {s : BinaryTree (Nat × V)}
    (h : (addrs (inorder (plug c s))).Nodup) :
    (aroundAddrs c).Nodup ∧ (addrs (inorder s)).Nodup ∧
      ∀ a ∈ aroundAddrs c, a ∉ addrs (inorder s) := by
  simp only [inorder_plug, addrs, List.map_append] at h
  obtain ⟨hb, hsa, hcross⟩ := List.nodup_append.mp h
  obtain ⟨hs, ha, hsafter⟩ := List.nodup_append.mp hsa
  refine ⟨List.nodup_append.mpr ⟨hb, ha, fun a hab b hbb => ?_⟩, hs, fun a hmem hin => ?_⟩
  · exact hcross a hab b (List.mem_append_right _ hbb)
  · rcases List.mem_append.mp hmem with hmem | hmem
    · exact hcross a hmem a (List.mem_append_left _ hin) rfl
    · exact hsafter a hin a hmem rfl

theorem Represents.context {c : Context (Nat × V)} {s : BinaryTree (Nat × V)}
    (hrep : Represents compar st (plug c s)) :
    RepsContext st.heap c (addr s) ∧ Reps st.heap s ∧ rootOf c (addr s) = st.root := by
  obtain ⟨hctx, hs⟩ := reps_plug.mp hrep.reps
  exact ⟨hctx, hs, (addr_plug c s).symm.trans hrep.root⟩

/-- `tdelete` writes to the pointer that is the hole. -/
theorem writeDst_eq {c : Context (Nat × V)} {s : BinaryTree (Nat × V)}
    (hrep : Represents compar st (plug c s)) (hs : s ≠ .nil) (new : Nat) :
    writeDst st (parentOf c) (addr s) new =
      some ⟨rootOf c new, fillHole st.heap c new, st.freed⟩ := by
  obtain ⟨hctx, hreps, hroot⟩ := hrep.context
  have hmem := addr_mem hs
  cases c with
  | top => rfl
  | left above x r =>
    obtain ⟨hne, hx, _, _⟩ := hctx
    simp [writeDst, parentOf, hne, hx, fillHole, ← hroot, rootOf]
  | right above x l =>
    obtain ⟨hne, hx, hl, _⟩ := hctx
    have hsibling : addr l ≠ addr s := by
      intro he
      by_cases hnil : l = .nil
      · exact hs ((addr_eq_zero_iff hreps).mp (he ▸ (addr_eq_zero_iff hl).mpr hnil))
      · refine (nodup_plug hrep.nodup).2.2 (addr l) ?_ (he ▸ hmem)
        simp only [aroundAddrs, addrs, before, List.map_append, List.mem_append]
        exact Or.inl (Or.inr (Or.inl (addr_mem hnil)))
    simp [writeDst, parentOf, hne, hx, fillHole, ← hroot, rootOf, hsibling]

theorem notMem_of_get_none {h : Heap (Bnode V)} {s : BinaryTree (Nat × V)} (hreps : Reps h s)
    {a : Nat} (ha : get h a = none) : a ∉ addrs (inorder s) := by
  intro hmem
  obtain ⟨n, hn⟩ := exists_get hreps a hmem
  rw [ha] at hn
  cases hn

/-- A search for an absent key hangs the new node into the hole it ends in. -/
theorem tsearch_hole (hcmp : Comparator compar) {c : Context (Nat × V)} {key : V}
    (hrep : Represents compar st (plug c .nil))
    (hloop : tfindWithParent compar st key = some (parentOf c, 0))
    (hbefore : ∀ x ∈ before c, 0 < compar key x.2) (hafter : ∀ x ∈ after c, compar key x.2 < 0)
    {a : Nat} (ha : a ≠ 0) (hfresh : get st.heap a = none) :
    ∃ st', tsearch compar st key (some a) = some (a, st') ∧
      Represents compar st' (plug c (.node (a, key) .nil .nil)) ∧ st'.freed = st.freed := by
  obtain ⟨hctx, _, hroot⟩ := hrep.context
  have hin := notMem_of_get_none hrep.reps hfresh
  have haround : a ∉ aroundAddrs c := by
    simpa [inorder_plug, addrs, aroundAddrs, inorder] using hin
  have hparent : a ≠ parentOf c := by
    intro he
    by_cases htop : c = .top
    · exact ha (by rw [he, htop]; rfl)
    · exact haround (he ▸ parentOf_mem htop)
  have hkept : ∀ b ∈ aroundAddrs c, get (put st.heap a ⟨key, 0, 0⟩) b = get st.heap b :=
    fun b hb => get_put_ne st.heap _ fun he => haround (he ▸ hb)
  have hctx' := hctx.frame hkept
  refine ⟨⟨rootOf c a, fillHole (put st.heap a ⟨key, 0, 0⟩) c a, st.freed⟩, ?_, ?_, rfl⟩
  · cases c with
    | top => simp [tsearch, hloop, parentOf, rootOf, fillHole]
    | left above x r =>
      have hneg := hafter x (by simp [after])
      obtain ⟨hne, hx, _, _⟩ := hctx'
      simp [tsearch, hloop, parentOf, hne, hx, hneg, fillHole, rootOf, ← hroot]
    | right above x l =>
      have hpos := hbefore x (by simp [before])
      have hneg : ¬compar key x.2 < 0 := by omega
      obtain ⟨hne, hx, _, _⟩ := hctx'
      simp [tsearch, hloop, parentOf, hne, hx, hneg, fillHole, rootOf, ← hroot]
  · refine ⟨addr_plug c _, reps_plug.mpr ⟨?_, ha, ?_, trivial, trivial⟩, ?_, ?_⟩
    · exact repsContext_fillHole hctx' (nodup_plug hrep.nodup).1 a
    · exact (get_fillHole_ne hparent).trans (get_put_self st.heap a _)
    · simp only [inorder_plug, inorder, addrs, List.map_append, List.map_cons, List.nil_append,
        List.cons_append]
      exact List.nodup_middle.mpr (List.nodup_cons.mpr ⟨haround, (nodup_plug hrep.nodup).1⟩)
    · have hinc := hrep.increasing
      simp only [Increasing, inorder_plug, inorder, List.nil_append, List.cons_append] at hinc ⊢
      obtain ⟨hb, haf, hcross⟩ := List.pairwise_append.mp hinc
      refine List.pairwise_append.mpr ⟨hb, List.pairwise_cons.mpr ⟨hafter, haf⟩, ?_⟩
      intro y hy z hz
      rcases List.mem_cons.mp hz with rfl | hz
      · exact (hcmp.swap key y.2).mp (hbefore y hy)
      · exact hcross y hy z hz

/-- The deleted node stands between what is around and below its children. -/
theorem inorder_delete (c : Context (Nat × V)) (x : Nat × V) (l r : BinaryTree (Nat × V)) :
    inorder (plug c (.node x l r)) =
        (before c ++ inorder l) ++ x :: (inorder r ++ after c) ∧
      inorder (plug c (attach l r)) = (before c ++ inorder l) ++ (inorder r ++ after c) := by
  simp [inorder_plug, inorder_attach, inorder]

/-- Any heap that holds the tree without the node, and still the node, is what
`free` makes the result of the deletion of. -/
theorem represents_freed {c : Context (Nat × V)} {x : Nat × V} {l r : BinaryTree (Nat × V)}
    (hrep : Represents compar st (plug c (.node x l r))) {h : Heap (Bnode V)}
    (hreps : Reps h (plug c (attach l r))) {n : Bnode V} (hx : get h x.1 = some n) :
    ∃ st', free ⟨rootOf c (addr (attach l r)), h, st.freed⟩ x.1 = some st' ∧
      Represents compar st' (plug c (attach l r)) ∧ st'.freed = st.freed ++ [x.1] ∧
      get st'.heap x.1 = none := by
  obtain ⟨hold, hnew⟩ := inorder_delete c x l r
  have hnodup := hrep.nodup
  have hinc := hrep.increasing
  rw [hold] at hnodup hinc
  simp only [addrs, List.map_append, List.map_cons] at hnodup
  have hmid := List.nodup_cons.mp (List.nodup_middle.mp hnodup)
  refine ⟨⟨rootOf c (addr (attach l r)), erase h x.1, st.freed ++ [x.1]⟩, by simp [free, hx], ?_,
    rfl, get_erase_self h x.1⟩
  refine ⟨addr_plug c _, hreps.frame fun a ha => get_erase_ne h fun he => hmid.1 ?_, ?_, ?_⟩
  · rw [hnew] at ha
    simpa [addrs, he] using ha
  · rw [hnew]
    simpa [addrs] using hmid.2
  · rw [hnew]
    exact hinc.sublist (List.Sublist.append_left (List.sublist_cons_self x _) _)

/-- A write to the hole leaves the node there and both its branches as they are. -/
theorem fillHole_keeps {c : Context (Nat × V)} {x : Nat × V} {l r : BinaryTree (Nat × V)}
    (hrep : Represents compar st (plug c (.node x l r))) (new : Nat) :
    RepsContext (fillHole st.heap c new) c new ∧ Reps (fillHole st.heap c new) l ∧
      Reps (fillHole st.heap c new) r ∧
      get (fillHole st.heap c new) x.1 = some ⟨x.2, addr l, addr r⟩ := by
  obtain ⟨hctx, hnode, _⟩ := hrep.context
  obtain ⟨haround, _, hcross⟩ := nodup_plug hrep.nodup
  have hkept : ∀ a ∈ addrs (inorder (.node x l r)),
      get (fillHole st.heap c new) a = get st.heap a := by
    intro a ha
    refine get_fillHole_ne fun he => ?_
    by_cases htop : c = .top
    · refine zero_notMem_addrs (t := .node x l r) hnode ?_
      rwa [he, htop] at ha
    · exact hcross _ (parentOf_mem htop) (he ▸ ha)
  have hsplit : addrs (inorder (.node x l r)) = addrs (inorder l) ++ x.1 :: addrs (inorder r) := by
    simp [addrs, inorder]
  rw [hsplit] at hkept
  obtain ⟨_, hx, hl, hr⟩ := hnode
  refine ⟨repsContext_fillHole hctx haround new, hl.frame fun a ha => ?_,
    hr.frame fun a ha => ?_, (hkept x.1 (by simp)).trans hx⟩
  · exact hkept a (List.mem_append_left _ ha)
  · exact hkept a (List.mem_append_right _ (List.mem_cons_of_mem _ ha))

/-- Up to the `free`: the right branch hangs under the left one, and the node is still there. -/
theorem tdelete_unlinks {c : Context (Nat × V)} {x : Nat × V} {l r : BinaryTree (Nat × V)}
    {key : V} (hrep : Represents compar st (plug c (.node x l r)))
    (hloop : tfindWithParent compar st key = some (parentOf c, x.1)) :
    ∃ h n, get h x.1 = some n ∧ Reps h (plug c (attach l r)) ∧
      tdelete compar st key = (free ⟨rootOf c (addr (attach l r)), h, st.freed⟩ x.1).map
        fun st' => (parentOf c, st') := by
  obtain ⟨_, ⟨hx0, hx, hl, hr⟩, _⟩ := hrep.context
  have hwrite : ∀ new, writeDst st (parentOf c) x.1 new =
      some ⟨rootOf c new, fillHole st.heap c new, st.freed⟩ := writeDst_eq hrep (by simp)
  have hnil : addr (.nil : BinaryTree (Nat × V)) = 0 := rfl
  by_cases hlnil : l = .nil
  · subst hlnil
    obtain ⟨hctx', _, hr', hnode⟩ := fillHole_keeps hrep (addr r)
    refine ⟨_, _, hnode, reps_plug.mpr ⟨hctx', hr'⟩, ?_⟩
    simp only [tdelete, hloop, Option.bind_eq_bind, Option.bind_some, hx0, if_false, hx, hnil,
      if_true, hwrite, attach, Option.map_eq_bind]
    rfl
  have hl0 : addr l ≠ 0 := fun h0 => hlnil ((addr_eq_zero_iff hl).mp h0)
  obtain ⟨hctx', hl', hr', hnode⟩ := fillHole_keeps hrep (addr l)
  by_cases hrnil : r = .nil
  · subst hrnil
    refine ⟨_, _, hnode, ?_, ?_⟩
    · rw [attach_nil]
      exact reps_plug.mpr ⟨hctx', hl'⟩
    · simp only [tdelete, hloop, Option.bind_eq_bind, Option.bind_some, hx0, if_false, hx, hl0,
        hnil, if_true, hwrite, attach_nil, Option.map_eq_bind]
      rfl
  have hr0 : addr r ≠ 0 := fun h0 => hrnil ((addr_eq_zero_iff hr).mp h0)
  obtain ⟨_, hbelow, hcross⟩ := nodup_plug hrep.nodup
  simp only [addrs, inorder, List.map_append, List.map_cons] at hbelow
  obtain ⟨hxlr, hlr⟩ := List.nodup_cons.mp (List.nodup_middle.mp hbelow)
  have hfuel : l.numNodes < (fillHole st.heap c (addr l)).length + 1 :=
    Nat.lt_succ_of_le (numNodes_le hl' (List.nodup_append.mp hlr).1)
  obtain ⟨m, v, lm, hrightmost, hm, hmem, hattach⟩ := rightmost_spec hlnil hl' hfuel
  have hmx : x.1 ≠ m := fun he => hxlr (List.mem_append_left _ (he ▸ hmem))
  have hattached : addr (attach l r) = addr l := by
    cases l with
    | nil => exact absurd rfl hlnil
    | node y ll lr => rfl
  refine ⟨put (fillHole st.heap c (addr l)) m ⟨v, lm, addr r⟩, _,
    (get_put_ne _ _ hmx).trans hnode, reps_plug.mpr ⟨?_, hattach r hr' hlr⟩, ?_⟩
  · rw [hattached]
    refine hctx'.frame fun a ha => get_put_ne _ _ fun he => hcross a ha ?_
    simp only [addrs, inorder, List.map_append, List.mem_append]
    exact Or.inl (he ▸ hmem)
  · simp only [tdelete, hloop, Option.bind_eq_bind, Option.bind_some, hx0, if_false, hx, hl0,
      hr0, hwrite, hrightmost, hm, hnode, hattached, Option.map_eq_bind]
    rfl

/-- A deletion takes the node out and hangs its right branch under its left one. -/
theorem tdelete_node {c : Context (Nat × V)} {x : Nat × V} {l r : BinaryTree (Nat × V)}
    {key : V} (hrep : Represents compar st (plug c (.node x l r)))
    (hloop : tfindWithParent compar st key = some (parentOf c, x.1)) :
    ∃ st', tdelete compar st key = some (parentOf c, st') ∧
      Represents compar st' (plug c (attach l r)) ∧ st'.freed = st.freed ++ [x.1] ∧
      get st'.heap x.1 = none := by
  obtain ⟨h, n, hn, hreps, hrun⟩ := tdelete_unlinks hrep hloop
  obtain ⟨st', hfree, hst'⟩ := represents_freed hrep hreps hn
  refine ⟨st', ?_, hst'⟩
  rw [hrun, hfree]
  rfl

end Operations

section Calls

/-- A present key is found and nothing changes; an absent one becomes the key of
one new leaf, or nothing changes when there is no memory. -/
def SearchLaw (compar : V → V → Int) (st : TreeState V) (t : BinaryTree (Nat × V)) (key : V)
    (calloc : Option Nat) : Prop :=
  (∀ x ∈ inorder t, compar key x.2 = 0 → tsearch compar st key calloc = some (x.1, st)) ∧
  (Absent compar key t →
    (calloc = none → tsearch compar st key calloc = some (0, st)) ∧
    ∀ a, calloc = some a → ∃ c st', t = plug c .nil ∧
      tsearch compar st key calloc = some (a, st') ∧
      Represents compar st' (plug c (.node (a, key) .nil .nil)) ∧ st'.freed = st.freed)

def FindLaw (compar : V → V → Int) (st : TreeState V) (t : BinaryTree (Nat × V)) (key : V) :
    Prop :=
  (∀ x ∈ inorder t, compar key x.2 = 0 → tfind compar st key = some x.1) ∧
  (Absent compar key t → tfind compar st key = some 0)

/-- The node of a present key is taken out and freed, once; no other node changes. -/
def DeleteLaw (compar : V → V → Int) (st : TreeState V) (t : BinaryTree (Nat × V)) (key : V) :
    Prop :=
  (∀ x ∈ inorder t, compar key x.2 = 0 → ∃ p st' t' pre post,
    tdelete compar st key = some (p, st') ∧ inorder t = pre ++ x :: post ∧
    inorder t' = pre ++ post ∧ Represents compar st' t' ∧ st'.freed = st.freed ++ [x.1] ∧
    get st'.heap x.1 = none) ∧
  (Absent compar key t → tdelete compar st key = some (0, st))

def CallLaw (compar : V → V → Int) (st : TreeState V) (call : Call V) : Prop :=
  ∃ t, Represents compar st t ∧ match call with
    | .search key calloc => SearchLaw compar st t key calloc
    | .find key => FindLaw compar st t key
    | .delete key => DeleteLaw compar st t key

/-- `calloc` returns NULL or a node that is not in use. -/
def FreshCalloc (st : TreeState V) : Call V → Prop
  | .search _ (some a) => a ≠ 0 ∧ get st.heap a = none
  | _ => True

/-- The nodes inserted and not since deleted. -/
def liveNodes (compar : V → V → Int) (m : List (Nat × V)) : Call V → List (Nat × V)
  | .search key (some a) => if m.any fun x => compar key x.2 = 0 then m else (a, key) :: m
  | .search _ none => m
  | .find _ => m
  | .delete key => m.filter fun x => compar key x.2 ≠ 0

variable {st : TreeState V} {t : BinaryTree (Nat × V)} {m : List (Nat × V)}

/-- The node that holds the key is the only one. -/
theorem eq_of_compar (hcmp : Comparator compar) {key : V} {pre post : List (Nat × V)}
    {x y : Nat × V} (h : Increasing compar (pre ++ x :: post)) (hx : compar key x.2 = 0)
    (hy : y ∈ pre ++ x :: post) (hzero : compar key y.2 = 0) : y = x := by
  by_contra hne
  refine other_nodes hcmp h hx y ?_ hzero
  simp only [List.mem_append, List.mem_cons] at hy ⊢
  tauto

theorem any_iff (hperm : (inorder t).Perm m) (key : V) :
    (m.any fun x => compar key x.2 = 0) = true ↔ ∃ x ∈ inorder t, compar key x.2 = 0 := by
  simp only [List.any_eq_true, decide_eq_true_eq]
  exact exists_congr fun x => and_congr_left fun _ => hperm.mem_iff.symm

theorem not_any_of_absent (hperm : (inorder t).Perm m) {key : V} (h : Absent compar key t) :
    ¬(m.any fun x => compar key x.2 = 0) = true := by
  rw [any_iff hperm]
  rintro ⟨x, hx, hzero⟩
  exact h x hx hzero

theorem search_refines (hcmp : Comparator compar) (hrep : Represents compar st t)
    (hperm : (inorder t).Perm m) (key : V) (calloc : Option Nat)
    (hfresh : FreshCalloc st (.search key calloc)) :
    SearchLaw compar st t key calloc ∧ ∃ r st' t', tsearch compar st key calloc = some (r, st') ∧
      Represents compar st' t' ∧
      (inorder t').Perm (liveNodes compar m (.search key calloc)) := by
  rcases descent_cases hcmp hrep key with
    ⟨c, rfl, hloop, hbefore, hafter⟩ | ⟨c, x, l, r, rfl, hloop, hzero⟩
  · have habsent := absent_hole hbefore hafter
    have hany := not_any_of_absent hperm habsent
    cases calloc with
    | none =>
      have hrun : tsearch compar st key none = some (0, st) := by simp [tsearch, hloop]
      exact ⟨⟨fun x hx hx0 => absurd hx0 (habsent x hx), fun _ => ⟨fun _ => hrun, by simp⟩⟩,
        0, st, _, hrun, hrep, hperm⟩
    | some a =>
      obtain ⟨st', hrun, hrep', hfreed⟩ :=
        tsearch_hole hcmp hrep hloop hbefore hafter hfresh.1 hfresh.2
      refine ⟨⟨fun x hx hx0 => absurd hx0 (habsent x hx), fun _ => ⟨by simp, ?_⟩⟩,
        a, st', _, hrun, hrep', ?_⟩
      · rintro b hb
        obtain rfl := Option.some.inj hb
        exact ⟨c, st', rfl, hrun, hrep', hfreed⟩
      · rw [liveNodes, if_neg hany]
        refine List.Perm.trans ?_ (List.Perm.cons (a, key) hperm)
        simp only [inorder_plug, inorder, List.nil_append, List.cons_append]
        exact List.perm_middle
  · have hxmem : x ∈ inorder (plug c (.node x l r)) := by
      rw [(inorder_delete c x l r).1]
      simp
    have hx0 : x.1 ≠ 0 := hrep.context.2.1.1
    have hrun : tsearch compar st key calloc = some (x.1, st) := by simp [tsearch, hloop, hx0]
    refine ⟨⟨fun y hy hy0 => ?_, fun h => absurd hzero (h x hxmem)⟩, x.1, st, _, hrun, hrep, ?_⟩
    · have hinc := hrep.increasing
      rw [(inorder_delete c x l r).1] at hinc hy
      rw [eq_of_compar hcmp hinc hzero hy hy0]
      exact hrun
    · have hany := (any_iff hperm key).mpr ⟨x, hxmem, hzero⟩
      cases calloc with
      | none => exact hperm
      | some a => rwa [liveNodes, if_pos hany]

theorem find_refines (hcmp : Comparator compar) (hrep : Represents compar st t) (key : V) :
    FindLaw compar st t key ∧ ∃ a, tfind compar st key = some a := by
  rcases descent_cases hcmp hrep key with
    ⟨c, rfl, hloop, hbefore, hafter⟩ | ⟨c, x, l, r, rfl, hloop, hzero⟩
  · have habsent := absent_hole hbefore hafter
    have hrun : tfind compar st key = some 0 := by simp [tfind, hloop]
    exact ⟨⟨fun x hx hx0 => absurd hx0 (habsent x hx), fun _ => hrun⟩, 0, hrun⟩
  · have hold := (inorder_delete c x l r).1
    have hrun : tfind compar st key = some x.1 := by simp [tfind, hloop]
    have hinc := hrep.increasing
    rw [hold] at hinc
    refine ⟨⟨fun y hy hy0 => ?_, fun h => absurd hzero (h x (by simp [hold]))⟩, x.1, hrun⟩
    rw [hold] at hy
    rw [eq_of_compar hcmp hinc hzero hy hy0]
    exact hrun

theorem delete_refines (hcmp : Comparator compar) (hrep : Represents compar st t)
    (hperm : (inorder t).Perm m) (key : V) :
    DeleteLaw compar st t key ∧ ∃ r st' t', tdelete compar st key = some (r, st') ∧
      Represents compar st' t' ∧ (inorder t').Perm (liveNodes compar m (.delete key)) := by
  have hfilter := hperm.filter fun x => compar key x.2 ≠ 0
  rcases descent_cases hcmp hrep key with
    ⟨c, rfl, hloop, hbefore, hafter⟩ | ⟨c, x, l, r, rfl, hloop, hzero⟩
  · have habsent := absent_hole hbefore hafter
    have hrun : tdelete compar st key = some (0, st) := by simp [tdelete, hloop]
    refine ⟨⟨fun x hx hx0 => absurd hx0 (habsent x hx), fun _ => hrun⟩, 0, st, _, hrun, hrep, ?_⟩
    rwa [List.filter_eq_self.mpr fun x hx => by simpa using habsent x hx] at hfilter
  · obtain ⟨hold, hnew⟩ := inorder_delete c x l r
    obtain ⟨st', hrun, hrep', hfreed, hgone⟩ := tdelete_node hrep hloop
    have hinc := hrep.increasing
    rw [hold] at hinc hfilter
    refine ⟨⟨fun y hy hy0 => ?_, fun h => absurd hzero (h x (by simp [hold]))⟩,
      parentOf c, st', _, hrun, hrep', ?_⟩
    · rw [hold] at hy
      rw [eq_of_compar hcmp hinc hzero hy hy0]
      exact ⟨_, st', _, _, _, hrun, hold, hnew, hrep', hfreed, hgone⟩
    · have hothers := other_nodes hcmp hinc hzero
      have hkeep : (before c ++ inorder l ++ x :: (inorder r ++ after c)).filter
          (fun x => compar key x.2 ≠ 0) = inorder (plug c (attach l r)) := by
        rw [hnew, List.filter_append, List.filter_cons_of_neg (by simp [hzero]),
          ← List.filter_append]
        exact List.filter_eq_self.mpr fun y hy => by simpa using hothers y hy
      rwa [hkeep] at hfilter

/-- What each call does in a state that represents a tree, and what it leaves. -/
theorem call_refines (hcmp : Comparator compar) (hrep : Represents compar st t)
    (hperm : (inorder t).Perm m) (call : Call V) (hfresh : FreshCalloc st call) :
    CallLaw compar st call ∧ ∃ st' t', step compar st call = some st' ∧
      Represents compar st' t' ∧ (inorder t').Perm (liveNodes compar m call) := by
  cases call with
  | search key calloc =>
    obtain ⟨hlaw, r, st', t', hrun, hrep', hperm'⟩ :=
      search_refines hcmp hrep hperm key calloc hfresh
    exact ⟨⟨t, hrep, hlaw⟩, st', t', by simp [step, hrun], hrep', hperm'⟩
  | find key =>
    obtain ⟨hlaw, a, hrun⟩ := find_refines hcmp hrep key
    exact ⟨⟨t, hrep, hlaw⟩, st, t, by simp [step, hrun], hrep, hperm⟩
  | delete key =>
    obtain ⟨hlaw, r, st', t', hrun, hrep', hperm'⟩ := delete_refines hcmp hrep hperm key
    exact ⟨⟨t, hrep, hlaw⟩, st', t', by simp [step, hrun], hrep', hperm'⟩

/-- The run, next to the nodes inserted and not since deleted. -/
theorem run_refines (hcmp : Comparator compar) {calls : List (Call V)}
    (hrep : Represents compar st t) (hperm : (inorder t).Perm m)
    (hfresh : Along (step compar) FreshCalloc st calls) :
    ∃ st' t', exec (step compar) st calls = some st' ∧ Represents compar st' t' ∧
      (inorder t').Perm (calls.foldl (liveNodes compar) m) := by
  induction calls generalizing st t m with
  | nil => exact ⟨st, t, rfl, hrep, hperm⟩
  | cons call calls ih =>
    obtain ⟨_, st₁, t₁, hstep, hrep₁, hperm₁⟩ := call_refines hcmp hrep hperm call hfresh.1
    obtain ⟨st', t', hexec, hrep', hperm'⟩ := ih hrep₁ hperm₁ (hfresh.2 st₁ hstep)
    exact ⟨st', t', by rw [exec_cons, hstep]; exact hexec, hrep', hperm'⟩

end Calls

/-- From the empty tree, every run of calls comes back, each call does what its
law says, and the tree holds the nodes inserted and not since deleted, in order. -/
theorem tree_calls_refine_nodes (hcmp : Comparator compar) (calls : List (Call V))
    (hfresh : Along (step compar) FreshCalloc emptyTree calls) :
    Along (step compar) (CallLaw compar) emptyTree calls ∧
    ∃ st t, exec (step compar) emptyTree calls = some st ∧ Represents compar st t ∧
      (inorder t).Perm (calls.foldl (liveNodes compar) []) := by
  refine ⟨?_, run_refines hcmp represents_empty (List.Perm.refl []) hfresh⟩
  refine Along.of_inv (Q := FreshCalloc) (I := fun st => ∃ t, Represents compar st t)
    ?_ ?_ ⟨.nil, represents_empty⟩ hfresh
  · rintro st call ⟨t, hrep⟩ hok
    exact (call_refines hcmp hrep (List.Perm.refl _) call hok).1
  · rintro st call st' ⟨t, hrep⟩ hok hstep
    obtain ⟨_, st₁, t₁, hstep₁, hrep₁, _⟩ :=
      call_refines hcmp hrep (List.Perm.refl _) call hok
    rw [hstep] at hstep₁
    exact ⟨t₁, Option.some.inj hstep₁ ▸ hrep₁⟩

theorem comparator_sub : Comparator fun a b : Int => a - b where
  self := by intro a; omega
  swap := by intro a b; omega
  trans := by intro a b c; omega

/-- Insert 2, 1 and 3 and delete the root. -/
theorem tree_calls_refine_nodes_213 :
    let calls : List (Call Int) := [.search 2 (some 16), .search 1 (some 24),
      .search 3 (some 32), .delete 2]
    Along (step fun a b => a - b) (CallLaw fun a b => a - b) emptyTree calls ∧
    ∃ st t, exec (step fun a b => a - b) emptyTree calls = some st ∧
      Represents (fun a b => a - b) st t ∧ (inorder t).Perm [(32, 3), (24, 1)] :=
  tree_calls_refine_nodes comparator_sub _
    (along_cons_of_step rfl ⟨by decide, rfl⟩ (along_cons_of_step rfl ⟨by decide, rfl⟩
      (along_cons_of_step rfl ⟨by decide, rfl⟩ (along_cons_of_step rfl trivial trivial))))

end TreeLaw
