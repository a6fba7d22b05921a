import SceneCulling.Scene.Hierarchy
import SceneCulling.Volume.Transform

/-!
# Placement

The volume of a node follows from its size and its effects. It can be taken to the space
of an ancestor, to eye space, and to the window. It moves by one transform of its vertices, after
which its space is re-labelled; its pixels are those of its projection from the space that it is
labelled with.
-/

namespace SceneCulling

variable {K : Type} [Scalar K]

namespace Hierarchy

/-- The transform from the space of a node under a stage's root to eye space. -/
def eyeTransform (tree : Hierarchy K) (stage : Stage K) (node : NodeKey) :
    Attempt (Mat4 K) :=
  match tree.modelview? node stage.root with
  | some m => return stage.eye * m
  | none => Attempt.raise (.notUnderRoot node stage.root)

/-- Gives a volume the width and the height of a node. A node without a size, or with no
width or no height, adds nothing, and the answer is no. -/
def fitSize (tree : Hierarchy K) (node : NodeKey) : Edit (Volume K) Bool :=
  match tree.size? node with
  | none => return false
  | some size =>
    if size.width == 0 || size.height == 0 then return false
    else do
      Volume.setWidth size.width
      Volume.setHeight size.height
      return true

/-- The volume that a node itself paints in: its size, then its effects. There is none
if the node has no size or if an effect cannot be bounded. -/
def ownVolume (tree : Hierarchy K) (node : NodeKey) : Logged (Option (Volume K)) := do
  let (fitted, v) ← (tree.fitSize node).perform (.new (some node))
  match fitted with
  | .ok true => Effect.adjustAll (tree.effects node) v
  | _ => return none

/-- Takes a volume to the space of an ancestor of its node, or to eye space if no
ancestor is given. A node on no stage has no eye space; its volume stays where it is,
with a warning. -/
def takeTo (tree : Hierarchy K) (ancestor : Option NodeKey) : Edit (Volume K) Unit := do
  match (← get).reference with
  | none => Edit.raise (.noReference .changeSpace)
  | some node =>
    match ancestor with
    | some a =>
      match tree.modelview? node a with
      | some m => modify fun v => (v.transform m).withReference (some a)
      | none => Edit.raise (.notAncestor a node)
    | none =>
      match tree.stageOf? node with
      | none =>
        Edit.ofAttempt (Logged.note .warn .volume
          ("node " ++ node.text ++ " is not on a stage; volume left in its local space"))
      | some stage =>
        let m ← Edit.ofAttempt (tree.eyeTransform stage node)
        modify fun v => (v.transform m).withReference none

/-- The pixels that a volume covers on a stage. A volume of no node is in eye space. -/
def pixelRect (tree : Hierarchy K) (stage : Stage K) (v : Volume K) : Attempt (Rect K) := do
  let modelview ← match v.reference with
    | some node => tree.eyeTransform stage node
    | none => pure Mat4.identity
  return (v.project modelview stage.projection stage.viewport).boundingRect.toPixels

/-! ## Outcomes -/

variable {tree : Hierarchy K} {stage : Stage K} {node ancestor : NodeKey} {m : Mat4 K}
  {v : Volume K}

/-- A volume is taken to the space of an ancestor of its node. -/
theorem perform_takeTo (hreference : v.reference = some node)
    (hm : tree.modelview? node ancestor = some m) :
    (tree.takeTo (some ancestor)).perform v =
      ⟨(.ok (), (v.transform m).withReference (some ancestor)), []⟩ := by
  rw [takeTo, Edit.perform_bind_of_silent (Edit.perform_get v), hreference]
  simp only [hm]
  rfl

theorem run_eyeTransform (hm : tree.modelview? node stage.root = some m) :
    (tree.eyeTransform stage node).run = ⟨.ok (stage.eye * m), []⟩ := by
  rw [eyeTransform, hm]
  rfl

/-- A volume of a node on a stage is taken to eye space. -/
theorem perform_takeTo_eye (hreference : v.reference = some node)
    (hstage : tree.stageOf? node = some stage) (hm : tree.modelview? node stage.root = some m) :
    (tree.takeTo none).perform v =
      ⟨(.ok (), (v.transform (stage.eye * m)).withReference none), []⟩ := by
  have heye : (Edit.ofAttempt (tree.eyeTransform stage node) : Edit (Volume K) _).perform v =
      ⟨(.ok (stage.eye * m), v), []⟩ := by
    rw [Edit.perform_ofAttempt, run_eyeTransform hm]
  rw [takeTo, Edit.perform_bind_of_silent (Edit.perform_get v), hreference]
  simp only [hstage]
  rw [Edit.perform_bind_of_silent heye]
  rfl

/-- The pixels of a volume in the space of a node under the root of a stage. -/
theorem run_pixelRect (hreference : v.reference = some node)
    (hm : tree.modelview? node stage.root = some m) : (tree.pixelRect stage v).run =
      ⟨.ok (v.project (stage.eye * m) stage.projection stage.viewport).boundingRect.toPixels,
        []⟩ := by
  have heye := run_eyeTransform hm
  rw [pixelRect, hreference]
  simp only
  rw [ExceptT.run_bind, heye]
  rfl

/-- The pixels of a volume in eye space. -/
theorem run_pixelRect_eye (tree : Hierarchy K) (stage : Stage K) (hreference : v.reference = none) :
    (tree.pixelRect stage v).run =
      ⟨.ok (v.project .identity stage.projection stage.viewport).boundingRect.toPixels, []⟩ := by
  rw [pixelRect, hreference]
  rfl

end Hierarchy

end SceneCulling
