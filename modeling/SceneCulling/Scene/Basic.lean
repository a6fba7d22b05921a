import SceneCulling.Scene.Outline
import SceneCulling.KeyStore

/-!
# Scenes

A scene holds nodes under keys. A node knows its parent and its children, its transform
to the space of the parent, its size in the layout and its effects. Stages stand on nodes
without parent.

The questions about a node go up along the parents, to the topmost ancestor, or down
along the children, by an outline. Both are bounded by the number of slots in the store,
since no node is below itself.
-/

namespace SceneCulling

/-- A node of a scene. -/
structure Node (K : Type) where
  parent : Option NodeKey
  /-- The children in the order in which they are painted. -/
  children : List NodeKey := []
  /-- From the space of the node to the space of its parent. -/
  transform : Mat4 K
  size : Option (Size K) := none
  effects : List (Effect K) := []

/-- Nodes under keys, and stages by the key of their root. -/
structure Scene (K : Type) where
  nodes : KeyStore (Node K) := .empty
  stages : List (NodeKey × Stage K) := []

namespace Scene

variable {K : Type}

def empty : Scene K := {}

def contains (scene : Scene K) (key : NodeKey) : Bool := scene.nodes.contains key

/-- The number of nodes. -/
def count (scene : Scene K) : Nat := scene.nodes.count

def parent? (scene : Scene K) (key : NodeKey) : Option NodeKey := do
  (← scene.nodes.get? key).parent

def transform? (scene : Scene K) (key : NodeKey) : Option (Mat4 K) :=
  (scene.nodes.get? key).map (·.transform)

def size? (scene : Scene K) (key : NodeKey) : Option (Size K) := do
  (← scene.nodes.get? key).size

def children (scene : Scene K) (key : NodeKey) : List NodeKey :=
  (scene.nodes.get? key).elim [] (·.children)

def effects (scene : Scene K) (key : NodeKey) : List (Effect K) :=
  (scene.nodes.get? key).elim [] (·.effects)

/-- The stage that stands on a root. -/
def stage? (scene : Scene K) (root : NodeKey) : Option (Stage K) := scene.stages.lookup root

/-- No chain of parents is longer than the number of slots. -/
def depth (scene : Scene K) : Nat := scene.nodes.slots.size

/-- A node, its parent, and so on up to the node without parent, at most `bound` of
them. -/
def lineageWithin (scene : Scene K) : (bound : Nat) → NodeKey → List (NodeKey × Node K)
  | 0, _ => []
  | bound + 1, key =>
    match scene.nodes.get? key with
    | none => []
    | some node => (key, node) :: node.parent.elim [] (scene.lineageWithin bound)

/-- A node, its parent, and so on up to the node without parent. -/
def lineage (scene : Scene K) (key : NodeKey) : List (NodeKey × Node K) :=
  scene.lineageWithin scene.depth key

/-- The topmost ancestor of a node, which may be the node itself. -/
def root? (scene : Scene K) (key : NodeKey) : Option NodeKey :=
  (scene.lineage key).getLast?.map (·.1)

/-- The stage on the topmost ancestor of a node. -/
def stageOf? (scene : Scene K) (key : NodeKey) : Option (Stage K) := do
  scene.stage? (← scene.root? key)

/-- The transform from the space of a node to that of an ancestor, by the transforms of
the nodes on the way. A key is its own ancestor even if it names no node. -/
def modelview? [Scalar K] (scene : Scene K) (key ancestor : NodeKey) : Option (Mat4 K) :=
  if key = ancestor then some .identity
  else
    let lineage := scene.lineage key
    if lineage.any fun entry => decide (entry.1 = ancestor) then
      some ((lineage.takeWhile fun entry => decide (entry.1 ≠ ancestor)).foldl
        (fun m entry => entry.2.transform * m) .identity)
    else none

/-- The scene as culling sees it. -/
def hierarchy [Scalar K] (scene : Scene K) : Hierarchy K where
  size? := scene.size?
  modelview? := scene.modelview?
  stageOf? := scene.stageOf?
  children := scene.children
  effects := scene.effects
  depth := scene.depth

end Scene

end SceneCulling
