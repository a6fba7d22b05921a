import SceneCulling.Painting.SubtreeVolume
import SceneCulling.Painting.PaintList

/-!
# Selection

The nodes that are visible by their subtree volumes, from the root down. A node that is
outside of the view is skipped with all nodes below it, and below a node that is inside
nothing is tested. An unbounded node is always painted, and its children are tested.
-/

namespace SceneCulling.Hierarchy

variable {K : Type} [Scalar K]

/-- How the subtree volume of a node lies to the view. An empty volume is not visible.
Below a node that is inside, all is inside. A node that is not under the root of the
stage cannot be tested and counts as partly visible. -/
def test (tree : Hierarchy K) (stage : Stage K) (parentInside : Bool) (node : NodeKey)
    (v : Volume K) : Logged Visibility :=
  if v.flags.empty then return .outside
  else if parentInside then return .inside
  else do
    match ← (tree.eyeTransform stage node).run with
    | .ok m => ((v.transform m).withReference none).visibility stage.planes
    | .error _ => return .partly

/-- The text in which an optional visibility is shown. -/
def visibilityText : Option Visibility → String
  | some visibility => "Some(" ++ visibility.text ++ ")"
  | none => "None"

/-- Records what became of a node, if that is asked for. -/
def noteIf (trace : Bool) (message : String) : Logged Unit :=
  if trace then Logged.note .trace .culler message else return ()

/-- Decides about a node by its subtree volume. The result is the item of the node, or
none if the node is skipped with all `size` nodes of its subtree. -/
def decideItem (tree : Hierarchy K) (stage : Stage K) (trace parentInside : Bool)
    (node : NodeKey) (volume : Option (Volume K)) (size : Nat) :
    Logged (Option (PaintItem K)) := do
  match volume with
  | none =>
    noteIf trace (node.text ++ " -> " ++ visibilityText none)
    return some { node, visibility := none, pixels := none }
  | some v =>
    let visibility ← tree.test stage parentInside node v
    if visibility = .outside then
      noteIf trace (node.text ++ " culled (" ++ toString size ++ " nodes)")
      return none
    else
      let pixels ← (tree.pixelRect stage v).run
      noteIf trace (node.text ++ " -> " ++ visibilityText (some visibility))
      return some { node, visibility := some visibility, pixels := pixels.toOption }

/-- Lists the visible nodes of an outline. `inside` tells whether the parent of its roots
is inside the view. -/
def select (tree : Hierarchy K) (stage : Stage K) (trace : Bool) (pool : VolumePool K)
    (inside : Bool) : Outline (NodeKey × Bound) → Logged (PaintList K)
  | .nil => return .empty
  | .node (node, bound) below next => do
    let size := 1 + below.size
    match ← tree.decideItem stage trace inside node (bound.volume? pool) size with
    | none =>
      let rest ← tree.select stage trace pool inside next
      return .skipped size ++ rest
    | some item =>
      let descendants ← tree.select stage trace pool (item.visibility == some .inside) below
      let rest ← tree.select stage trace pool inside next
      return .single item ++ descendants ++ rest

end SceneCulling.Hierarchy
