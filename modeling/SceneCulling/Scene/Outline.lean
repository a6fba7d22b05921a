import SceneCulling.Scene.Hierarchy

/-!
# Outlines

An outline is a finite forest with labelled nodes: the part of a scene that a traversal
visits. A node stands in front of its next sibling, and its children hang below it, so a
recursion on outlines meets each node once, in the order of painting.
-/

namespace SceneCulling

/-- A sequence of trees: none, or a node with its children and the trees after it. -/
inductive Outline (α : Type) where
  | nil
  | node (label : α) (below next : Outline α)
deriving DecidableEq, Repr

namespace Outline

variable {α β : Type}

/-- The labels in depth-first order, each node before its children. -/
def preorder : Outline α → List α
  | nil => []
  | node a below next => a :: (preorder below ++ preorder next)

/-- The labels in depth-first order, each node before its children, with the last child
first. -/
def reversePreorder : Outline α → List α
  | nil => []
  | node a below next => reversePreorder next ++ a :: reversePreorder below

/-- The number of nodes. -/
def size : Outline α → Nat
  | nil => 0
  | node _ below next => 1 + size below + size next

def map (f : α → β) : Outline α → Outline β
  | nil => nil
  | node a below next => node (f a) (map f below) (map f next)

@[simp] theorem length_preorder (o : Outline α) : o.preorder.length = o.size := by
  induction o with
  | nil => rfl
  | node a below next ihb ihn => simp [preorder, size, ihb, ihn]; omega

@[simp] theorem size_map (f : α → β) (o : Outline α) : (o.map f).size = o.size := by
  induction o with
  | nil => rfl
  | node a below next ihb ihn => simp [map, size, ihb, ihn]

@[simp] theorem preorder_map (f : α → β) (o : Outline α) :
    (o.map f).preorder = o.preorder.map f := by
  induction o with
  | nil => rfl
  | node a below next ihb ihn => simp [map, preorder, ihb, ihn]

/-- The trees on some roots, cut off below the given number of levels. -/
def unfold (children : α → List α) : (levels : Nat) → (roots : List α) → Outline α
  | 0, _ => nil
  | levels + 1, roots =>
    roots.foldr (fun a next => node a (unfold children levels (children a)) next) nil

end Outline

namespace Hierarchy

variable {K : Type}

/-- The nodes below a root. -/
def below (tree : Hierarchy K) (root : NodeKey) : Outline NodeKey :=
  .unfold tree.children tree.depth (tree.children root)

/-- The nodes under a root, itself included. -/
def outline (tree : Hierarchy K) (root : NodeKey) : Outline NodeKey :=
  .node root (tree.below root) .nil

end Hierarchy

end SceneCulling
