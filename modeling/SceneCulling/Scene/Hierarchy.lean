import SceneCulling.Volume.Extent
import SceneCulling.Stage

/-!
# Hierarchies

What culling has to know of the nodes of a scene. Their layout and their other properties
belong to the host program, which answers a few questions about a node by its key.
`Scene` answers them from nodes of its own.

An effect changes what a node paints: a shadow paints outside of the node, a shader may
paint anywhere. Each effect of a node adjusts the volume of the node in turn.
-/

namespace SceneCulling

/-! ## Effects -/

/-- Adjusts the volume of a node, in the node's space, and tells whether a volume can
bound what is painted. -/
structure Effect (K : Type) where
  adjust : StateT (Volume K) Logged Bool

/-- How far an effect paints beyond each side of a node. -/
structure Margins (K : Type) where
  left : K
  top : K
  right : K
  bottom : K

variable {K : Type} [Scalar K]

namespace Margins

/-- The same margin at each side. -/
def uniform (margin : K) : Margins K := ⟨margin, margin, margin, margin⟩

/-- Adds the margins to an aligned volume. Margins that are negative by more than the
extent leave no extent. -/
def pad (margins : Margins K) : Edit (Volume K) Unit := do
  let width := (← Volume.width) + margins.left + margins.right
  let height := (← Volume.height) + margins.top + margins.bottom
  Volume.setOrigin ((← get).origin - ⟨margins.left, margins.top, 0⟩)
  Volume.setWidth (Scalar.greater width 0)
  Volume.setHeight (Scalar.greater height 0)

end Margins

namespace Effect

omit [Scalar K] in
/-- An effect that leaves the volume alone. -/
def plain : Effect K := ⟨pure true⟩

omit [Scalar K] in
/-- An effect whose painting no volume can bound. -/
def unbounded : Effect K := ⟨pure false⟩

omit [Scalar K] in
/-- An effect that edits the volume. If the edit is refused, no volume bounds it. -/
def ofEdit (edit : Edit (Volume K) Unit) : Effect K := ⟨edit.succeeds⟩

omit [Scalar K] in
/-- An effect that changes the volume and always bounds it. -/
def ofMap (f : Volume K → Volume K) : Effect K := ⟨fun v => pure (true, f v)⟩

/-- An effect that paints beyond the sides of a node. A node without a volume of its own
stays without. -/
def padding (margins : Margins K) : Effect K where
  adjust v := if v.flags.empty then pure (true, v) else margins.pad.succeeds v

omit [Scalar K] in
/-- Adjusts a volume by each effect in turn. If one of them cannot bound its painting,
the later ones are not asked. -/
def adjustAll : List (Effect K) → Volume K → Logged (Option (Volume K))
  | [], v => return some v
  | effect :: effects, v => do
    let (bounded, v) ← effect.adjust v
    if bounded then adjustAll effects v else return none

end Effect

/-! ## Nodes -/

/-- The size that the layout gave to a node. -/
structure Size (K : Type) where
  width : K
  height : K

/-- The answers of a host program about its nodes. -/
structure Hierarchy (K : Type) where
  /-- The size of a node in the layout, if it has one. -/
  size? : NodeKey → Option (Size K)
  /-- The transform from the space of a node to that of an ancestor or of the node
  itself. The transform of the ancestor is not part of it. -/
  modelview? : (node ancestor : NodeKey) → Option (Mat4 K)
  /-- The stage that a node is on. -/
  stageOf? : NodeKey → Option (Stage K)
  /-- The children in the order in which they are painted. -/
  children : NodeKey → List NodeKey
  /-- The effects in the order in which they are applied. -/
  effects : NodeKey → List (Effect K)
  /-- No chain of nodes below a node, each a child of the one before, is longer than
  this. -/
  depth : Nat

end SceneCulling
