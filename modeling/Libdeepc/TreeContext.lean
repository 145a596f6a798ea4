import Mathlib.Data.Tree.Basic
import Mathlib.Data.Int.Basic

/-!
# Binary trees with a hole

A context is a tree with a hole in place of one subtree; what stands before and
after the hole in order is known. A search that compares with the labels on its
way down ends in a context, with a subtree whose root is the label it looks for,
or none.
-/

namespace TreeContext

universe u
variable {α : Type u}

def inorder : BinaryTree α → List α
  | .nil => []
  | .node x l r => inorder l ++ x :: inorder r

/-- The hole is the left or the right child of a node that fills another hole. -/
inductive Context (α : Type u) where
  | top
  | left (above : Context α) (x : α) (r : BinaryTree α)
  | right (above : Context α) (x : α) (l : BinaryTree α)

def plug : Context α → BinaryTree α → BinaryTree α
  | .top, t => t
  | .left above x r, t => plug above (.node x t r)
  | .right above x l, t => plug above (.node x l t)

def before : Context α → List α
  | .top => []
  | .left above _ _ => before above
  | .right above x l => before above ++ (inorder l ++ [x])

def after : Context α → List α
  | .top => []
  | .left above x r => x :: (inorder r ++ after above)
  | .right above _ _ => after above

theorem inorder_plug (c : Context α) (t : BinaryTree α) :
    inorder (plug c t) = before c ++ (inorder t ++ after c) := by
  induction c generalizing t with
  | top => simp [plug, before, after]
  | left above x r ih => simp [plug, before, after, ih, inorder]
  | right above x l ih => simp [plug, before, after, ih, inorder]

/-- Hang a tree under the rightmost node of another. -/
def attach : BinaryTree α → BinaryTree α → BinaryTree α
  | .nil, s => s
  | .node x l r, s => .node x l (attach r s)

theorem inorder_attach (t s : BinaryTree α) : inorder (attach t s) = inorder t ++ inorder s := by
  induction t with
  | nil => rfl
  | node x l r _ ih => simp [attach, inorder, ih]

@[simp] theorem attach_nil (t : BinaryTree α) : attach t .nil = t := by
  induction t with
  | nil => rfl
  | node x l r _ ih => rw [attach, ih]

section Locate

variable (f : α → Int)

/-- Go left where `f` is negative, right where it is positive. -/
def locate (c : Context α) : BinaryTree α → Context α × BinaryTree α
  | .nil => (c, .nil)
  | .node x l r =>
    if f x = 0 then (c, .node x l r)
    else if f x < 0 then locate (.left c x r) l
    else locate (.right c x l) r

theorem plug_locate (c : Context α) (t : BinaryTree α) :
    plug (locate f c t).1 (locate f c t).2 = plug c t := by
  induction t generalizing c with
  | nil => rfl
  | node x l r ihl ihr =>
    rw [locate]
    split_ifs
    · rfl
    · exact ihl _
    · exact ihr _

/-- The sign of `f` is positive, then at most once zero, then negative. -/
def Cut (xs : List α) : Prop := xs.Pairwise fun x y => f x ≤ 0 → f y < 0

variable {f}

/-- Positive before the hole, negative after it, zero at the root that fills it. -/
structure Located (p : Context α × BinaryTree α) : Prop where
  before : ∀ x ∈ before p.1, 0 < f x
  after : ∀ x ∈ after p.1, f x < 0
  root : p.2 = .nil ∨ ∃ x l r, p.2 = .node x l r ∧ f x = 0

theorem located_locate {c : Context α} {t : BinaryTree α} (hcut : Cut f (inorder t))
    (hbefore : ∀ x ∈ before c, 0 < f x) (hafter : ∀ x ∈ after c, f x < 0) :
    Located (f := f) (locate f c t) := by
  induction t generalizing c with
  | nil => exact ⟨hbefore, hafter, Or.inl rfl⟩
  | node x l r ihl ihr =>
    obtain ⟨hl, hright, hcross⟩ := List.pairwise_append.mp hcut
    obtain ⟨hx, hr⟩ := List.pairwise_cons.mp hright
    rw [locate]
    split_ifs with hzero hneg
    · exact ⟨hbefore, hafter, Or.inr ⟨x, l, r, rfl, hzero⟩⟩
    · refine ihl hl hbefore fun y hy => ?_
      rcases List.mem_cons.mp hy with rfl | hy
      · exact hneg
      · rcases List.mem_append.mp hy with hy | hy
        · exact hx y hy (by omega)
        · exact hafter y hy
    · have hpos : 0 < f x := by omega
      refine ihr hr (fun y hy => ?_) hafter
      rcases List.mem_append.mp hy with hy | hy
      · exact hbefore y hy
      · rcases List.mem_append.mp hy with hy | hy
        · by_contra hle
          have := hcross y hy x List.mem_cons_self (by omega)
          omega
        · rwa [List.mem_singleton.mp hy]

end Locate

end TreeContext
