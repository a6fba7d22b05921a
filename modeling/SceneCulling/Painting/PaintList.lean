import SceneCulling.Volume.Visibility
import SceneCulling.Geometry.Viewport

/-!
# Paint lists

The outcome of culling: the nodes to paint, in the order of painting, and the number of
nodes that are skipped.
-/

namespace SceneCulling

/-- A node to paint. -/
structure PaintItem (K : Type) where
  node : NodeKey
  /-- How the volume of the node lies to the view. A node that was not tested has none. -/
  visibility : Option Visibility
  /-- The pixels that the volume covers, if there is a volume. -/
  pixels : Option (Rect K)

/-- The nodes to paint. -/
structure PaintList (K : Type) where
  items : List (PaintItem K) := []
  /-- The number of nodes that are not painted. -/
  culled : Nat := 0

namespace PaintList

variable {K : Type}

def empty : PaintList K := {}

/-- The list with a single node. -/
def single (item : PaintItem K) : PaintList K := ⟨[item], 0⟩

/-- The list with no node, for a number of nodes that are skipped. -/
def skipped (count : Nat) : PaintList K := ⟨[], count⟩

/-- The nodes of one part of a scene before those of another. -/
instance : Append (PaintList K) := ⟨fun a b => ⟨a.items ++ b.items, a.culled + b.culled⟩⟩

@[simp] theorem items_append (a b : PaintList K) :
    (a ++ b).items = a.items ++ b.items := rfl

@[simp] theorem culled_append (a b : PaintList K) : (a ++ b).culled = a.culled + b.culled := rfl

/-- The number of nodes to paint. -/
def count (list : PaintList K) : Nat := list.items.length

/-- The item of a node. A node that is met more than once has the item of the last
time. -/
def item? (list : PaintList K) (node : NodeKey) : Option (PaintItem K) :=
  list.items.reverse.find? (·.node == node)

def isVisible (list : PaintList K) (node : NodeKey) : Bool := (list.item? node).isSome

end PaintList

end SceneCulling
