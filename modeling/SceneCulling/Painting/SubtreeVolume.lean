import SceneCulling.Scene.Outline
import SceneCulling.Scene.Placement
import SceneCulling.Volume.Pool
import SceneCulling.Volume.Union

/-!
# Subtree volumes

The subtree volume of a node encloses what the node paints and the subtree volumes of its
children, in the space of the node. If something below a node cannot be bounded, the node
is unbounded.

Subtree volumes are computed from the leaves up, each in a slot of a pool. The result is
the outline of the nodes, in which each node is labelled with its slot.
-/

namespace SceneCulling

/-- Where the subtree volume of a node is kept, if there is one. -/
inductive Bound where
  /-- All that is painted lies in the volume of this slot. -/
  | inSlot (slot : Nat)
  | unbounded
deriving DecidableEq, Repr

/-- The volume that a bound refers to. -/
def Bound.volume? {K : Type} [Scalar K] (pool : VolumePool K) : Bound → Option (Volume K)
  | inSlot slot => pool.get? slot
  | unbounded => none

namespace Hierarchy

variable {K : Type} [Scalar K]

/-- Starts the subtree volume of a node with the node's own volume. The result is the
slot, and whether the node itself is bounded. A node that paints nothing has an empty
volume; a node with a size but without a volume is unbounded. -/
def openVolume (tree : Hierarchy K) (node : NodeKey) :
    StateT (VolumePool K) Logged (Nat × Bool) := fun pool => do
  let (slot, pool) := pool.allocate (some node)
  match ← tree.ownVolume node with
  | some own => return ((slot, true), pool.set slot own)
  | none =>
    let paints := (tree.size? node).any fun size => size.width != 0 && size.height != 0
    return ((slot, !paints), pool)

/-- Encloses the volume of a child, which is in the child's space, in that of a node. -/
def enclose (tree : Hierarchy K) (node : NodeKey) (child : Volume K) :
    Edit (Volume K) Unit := do
  let moved ← Edit.onCopy child (tree.takeTo (some node))
  Volume.union moved

/-- Encloses the subtree volume of a child in that of a node, and tells whether the node
is still bounded. An unbounded node takes in nothing more, and an empty child adds
nothing. If the volumes cannot be joined, the node is unbounded from then on, with a
warning. -/
def merge (tree : Hierarchy K) (node : NodeKey) (slot : Nat) (bounded : Bool)
    (child : NodeKey) (bound : Bound) : StateT (VolumePool K) Logged Bool := fun pool =>
  match bound with
  | .unbounded => return (false, pool)
  | .inSlot childSlot =>
    if !bounded then return (false, pool)
    else match pool.get? childSlot, pool.get? slot with
    | some below, some own =>
      if below.flags.empty then return (true, pool)
      else do
        let (result, own) ← (tree.enclose node below).perform own
        let pool := pool.set slot own
        match result with
        | .ok () => return (true, pool)
        | .error _ => do
          Logged.note .warn .culler
            ("could not merge " ++ child.text ++ " into " ++ node.text)
          return (false, pool)
    | _, _ => return (true, pool)

/-- Computes the subtree volumes of the children of a node, which are given as an
outline, and encloses each in the volume of the node in turn. `bounded` tells whether
the node is bounded so far. The volumes of all nodes below are computed even if the node
is unbounded, because each of them may still be bounded itself. -/
def measureBelow (tree : Hierarchy K) (node : NodeKey) (slot : Nat) :
    Outline NodeKey → (bounded : Bool) →
      StateT (VolumePool K) Logged (Outline (NodeKey × Bound) × Bool)
  | .nil, bounded => return (.nil, bounded)
  | .node child below next, bounded => do
    let (childSlot, childBounded) ← tree.openVolume child
    let (below, childBounded) ← tree.measureBelow child childSlot below childBounded
    let bound := if childBounded then Bound.inSlot childSlot else .unbounded
    let bounded ← tree.merge node slot bounded child bound
    let (next, bounded) ← tree.measureBelow node slot next bounded
    return (.node (child, bound) below next, bounded)

/-- Computes the subtree volumes of a root and of all nodes below it. -/
def measure (tree : Hierarchy K) (root : NodeKey) :
    StateT (VolumePool K) Logged (Outline (NodeKey × Bound)) := do
  let (slot, bounded) ← tree.openVolume root
  let (below, bounded) ← tree.measureBelow root slot (tree.below root) bounded
  return .node (root, if bounded then .inSlot slot else .unbounded) below .nil

end Hierarchy

end SceneCulling
