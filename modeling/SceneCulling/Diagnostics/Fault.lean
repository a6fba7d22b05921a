import SceneCulling.KeyStore
import SceneCulling.Diagnostics.Entry

/-!
# Faults

Why an operation refused its input. A fault is a cause; its kind, the component that
notices it and its wording follow from the cause.
-/

namespace SceneCulling

/-- What is wrong with a refused request. -/
inductive FaultKind where
  /-- The volume is not in a state that allows the operation. -/
  | invalidState
  /-- An argument is outside the range of the operation. -/
  | invalidArgument
  /-- No transform connects two spaces. -/
  | missingCoordinateSpace
  /-- A key names no node. -/
  | unknownNode
deriving DecidableEq, Repr

/-- The heading of a kind in the text of a fault. -/
def FaultKind.heading : FaultKind → String
  | .invalidState => "Invalid state"
  | .invalidArgument => "Invalid argument"
  | .missingCoordinateSpace => "Missing coordinate space"
  | .unknownNode => "Unknown node"

/-- The operations on volumes that can be refused. -/
inductive Operation where
  | setOrigin
  | setWidth
  | setHeight
  | setDepth
  | width
  | height
  | depth
  | union
  | changeSpace
deriving DecidableEq, Repr

/-- The name of an operation in messages. -/
def Operation.text : Operation → String
  | setOrigin => "set_origin"
  | setWidth => "set_width"
  | setHeight => "set_height"
  | setDepth => "set_depth"
  | width => "width"
  | height => "height"
  | depth => "depth"
  | union => "union"
  | changeSpace => "transform_relative"

/-- The components that report events. -/
inductive Component where
  | volume
  | scene
  | culler
  | settings
deriving DecidableEq, Repr

/-- The name of a component in the log. -/
def Component.text : Component → String
  | volume => "stagekit::PaintVolume"
  | scene => "stagekit::SceneTree"
  | culler => "stagekit::FrustumCuller"
  | settings => "stagekit::Toolkit"

/-- Why an operation was refused. -/
inductive Fault where
  /-- The operation needs a volume whose edges follow the axes. -/
  | notAligned (operation : Operation)
  /-- An extent is negative, infinite or missing. It is kept as it is shown. -/
  | badExtent (operation : Operation) (extent : String)
  /-- A volume off the axes has lost the vertices that it is realigned from. -/
  | incompleteVolume
  /-- The operation needs a volume in the space of some node. -/
  | noReference (operation : Operation)
  | notAncestor (ancestor node : NodeKey)
  | notUnderRoot (node root : NodeKey)
  | unknownNode (node : NodeKey)
  /-- A stage can only stand on a node without parent. -/
  | rootHasParent (root : NodeKey)
  /-- Scratch storage needs room for one volume at least. -/
  | noCapacity
  /-- A fault of the host program, in its own words, with the place where it arose. -/
  | reported (kind : FaultKind) (source message file : String) (line : Nat)
deriving DecidableEq, Repr

namespace Fault

def kind : Fault → FaultKind
  | notAligned _ | incompleteVolume | noReference _ => .invalidState
  | badExtent _ _ | rootHasParent _ | noCapacity => .invalidArgument
  | notAncestor _ _ | notUnderRoot _ _ => .missingCoordinateSpace
  | unknownNode _ => .unknownNode
  | reported kind _ _ _ _ => kind

/-- The component that notices the fault, as it is named in the log. -/
def source : Fault → String
  | unknownNode _ | rootHasParent _ => Component.scene.text
  | noCapacity => Component.settings.text
  | reported _ source _ _ _ => source
  | _ => Component.volume.text

/-- What is wrong, in words. -/
def message : Fault → String
  | notAligned operation =>
    operation.text ++ " requires an axis-aligned volume; call axis_align() first"
  | badExtent operation extent =>
    operation.text ++ " expects a finite, non-negative extent (got " ++ extent ++ ")"
  | incompleteVolume => "axis_align requires a complete volume"
  | noReference operation =>
    operation.text ++ " needs a volume expressed in a node's local space"
  | notAncestor ancestor node => ancestor.text ++ " is not an ancestor of " ++ node.text
  | notUnderRoot node root =>
    "node " ++ node.text ++ " is not under stage root " ++ root.text
  | unknownNode node => "node " ++ node.text ++ " does not exist"
  | rootHasParent root => "stage root " ++ root.text ++ " has a parent"
  | noCapacity => "volume_stack_capacity must be at least 1"
  | reported _ _ message _ _ => message

/-- The text of a fault: its kind and what is wrong. -/
def text (fault : Fault) : String := fault.kind.heading ++ ": " ++ fault.message

/-- The file and the line that the entry of a fault names. The console shows them, so
each cause has a fixed place. The files are named from the directory of the library. -/
def place : Fault → String × Nat
  | badExtent _ _ => ("src/volume/paint_volume.rs", 225)
  | notAligned _ => ("src/volume/paint_volume.rs", 258)
  | incompleteVolume => ("src/volume/transform.rs", 100)
  | notAncestor _ _ => ("src/scene/relative.rs", 76)
  | notUnderRoot _ _ => ("src/scene/relative.rs", 128)
  | noReference _ => ("src/scene/relative.rs", 141)
  | rootHasParent _ => ("src/scene/scene_tree.rs", 63)
  | unknownNode _ => ("src/scene/scene_tree.rs", 175)
  | noCapacity => ("src/toolkit.rs", 86)
  | reported _ _ _ file line => (file, line)

/-- The entry that records a fault. It always has a location. -/
def entry (fault : Fault) : Entry where
  severity := .error
  source := fault.source
  message := fault.message
  file := some fault.place.1
  line := some fault.place.2

end Fault

end SceneCulling
