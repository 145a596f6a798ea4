import Libdeepc.CellHeap
import Libdeepc.Runs

/-!
# The binary tree of search.c

A node pointer is its address, with 0 for NULL. The comparator is a function of
the two keys. `calloc` answers a request with NULL or the address of a zeroed
node, so a call of `tsearch` carries that answer. A read through NULL or of a
node that is not in use has no outcome.
-/

namespace TreeSearch

open CellHeap

variable {V : Type} (compar : V → V → Int)

structure Bnode (V : Type) where
  val : V
  l : Nat
  r : Nat
  deriving DecidableEq

/-- `*rootp`, the nodes in use, and what was given back to `free` so far. -/
structure TreeState (V : Type) where
  root : Nat
  heap : Heap (Bnode V)
  freed : List Nat
  deriving DecidableEq

def emptyTree : TreeState V := ⟨0, [], []⟩

/-- `*parent` and `*cur` after the loop; one unit of fuel a round. -/
def tfindWithParentConst (heap : Heap (Bnode V)) (key : V) : Nat → Nat → Nat → Option (Nat × Nat)
  | 0, _, _ => none
  | fuel + 1, parent, cur =>
    if cur ≠ 0 then do
      let n ← get heap cur
      let c := compar key n.val
      if c = 0 then some (parent, cur)
      else if c < 0 then tfindWithParentConst heap key fuel cur n.l
      else tfindWithParentConst heap key fuel cur n.r
    else some (parent, cur)

/-- As all callers start it: with no parent, at the root. A descent visits no
node twice. -/
def tfindWithParent (st : TreeState V) (key : V) : Option (Nat × Nat) :=
  tfindWithParentConst compar st.heap key (st.heap.length + 1) 0 st.root

/-- `*dst = x` for the `dst` that `tdelete` chooses. -/
def writeDst (st : TreeState V) (parent cur x : Nat) : Option (TreeState V) :=
  if parent = 0 then some { st with root := x }
  else do
    let p ← get st.heap parent
    if p.l = cur then some { st with heap := put st.heap parent { p with l := x } }
    else some { st with heap := put st.heap parent { p with r := x } }

/-- `while (cur->r != NULL) cur = cur->r;` -/
def rightmost (heap : Heap (Bnode V)) : Nat → Nat → Option Nat
  | 0, _ => none
  | fuel + 1, cur => do
    let n ← get heap cur
    if n.r ≠ 0 then rightmost heap fuel n.r else some cur

def free (st : TreeState V) (a : Nat) : Option (TreeState V) := do
  let _ ← get st.heap a
  some { st with heap := erase st.heap a, freed := st.freed ++ [a] }

def tdelete (st : TreeState V) (key : V) : Option (Nat × TreeState V) := do
  let (parent, cur) ← tfindWithParent compar st key
  if cur = 0 then some (0, st)
  else
    let n ← get st.heap cur
    let st ← (if n.l = 0 then writeDst st parent cur n.r
      else if n.r = 0 then writeDst st parent cur n.l
      else do
        -- Promote the left branch.
        let st ← writeDst st parent cur n.l
        let m ← rightmost st.heap (st.heap.length + 1) n.l
        let last ← get st.heap m
        let original ← get st.heap cur
        some { st with heap := put st.heap m { last with r := original.r } })
    let st ← free st cur
    some (parent, st)

def tfind (st : TreeState V) (key : V) : Option Nat :=
  (tfindWithParent compar st key).map Prod.snd

def tsearch (st : TreeState V) (key : V) (calloc : Option Nat) : Option (Nat × TreeState V) := do
  let (parent, child) ← tfindWithParent compar st key
  if child ≠ 0 then some (child, st)
  else match calloc with
    | none => some (0, st)
    | some n =>
      let st := { st with heap := put st.heap n ⟨key, 0, 0⟩ }
      if parent = 0 then some (n, { st with root := n })
      else
        let p ← get st.heap parent
        let c := compar key p.val
        if c < 0 then some (n, { st with heap := put st.heap parent { p with l := n } })
        else some (n, { st with heap := put st.heap parent { p with r := n } })

inductive Call (V : Type) where
  | search (key : V) (calloc : Option Nat)
  | find (key : V)
  | delete (key : V)

def step (st : TreeState V) : Call V → Option (TreeState V)
  | .search key calloc => (tsearch compar st key calloc).map Prod.snd
  | .find key => (tfind compar st key).map fun _ => st
  | .delete key => (tdelete compar st key).map Prod.snd

end TreeSearch
