import SceneCulling.Painting.Selection

/-!
# Culling

A culler lists the visible nodes under the root of a stage, one frame after another. It
keeps the storage for the subtree volumes from frame to frame, and nothing else.

The other list is that of every node. Nothing is tested for it. A node with a volume of its own is
listed with the pixels that it covers.
-/

namespace SceneCulling

variable {K : Type} [Scalar K]

/-- The scratch storage for culling. -/
structure Culler (K : Type) where
  pool : VolumePool K

namespace Culler

/-- A culler without storage from earlier frames. -/
def new (settings : Settings) : Culler K := ⟨.new settings⟩

/-- The greatest number of scratch volumes that one frame has needed so far. -/
def highWater (culler : Culler K) : Nat := culler.pool.highWater

/-- The visible nodes under the root of a stage. The settings may ask for a record of what
became of each node. -/
def cull (tree : Hierarchy K) (stage : Stage K) (settings : Settings) :
    StateT (Culler K) Logged (PaintList K) := fun culler => do
  let (outline, pool) ← tree.measure stage.root culler.pool
  let list ← tree.select stage settings.traceCulling pool false outline
  Logged.note .debug .culler
    (toString list.count ++ " nodes to paint, " ++ toString list.culled ++ " culled")
  return (list, ⟨pool.release⟩)

end Culler

/-! ## Painting everything -/

/-- The item of a node that is not tested. -/
def Hierarchy.untestedItem (tree : Hierarchy K) (stage : Stage K) (node : NodeKey) :
    Logged (PaintItem K) := do
  let pixels ← match ← tree.ownVolume node with
    | some v => do
      let pixels ← (tree.pixelRect stage v).run
      pure pixels.toOption
    | none => pure none
  return { node, visibility := none, pixels }

/-- All nodes under the root of a stage, in the order of painting. -/
def Hierarchy.paintAll (tree : Hierarchy K) (stage : Stage K) : Logged (PaintList K) := do
  let items ← (tree.outline stage.root).preorder.mapM (tree.untestedItem stage)
  return ⟨items, 0⟩

end SceneCulling
