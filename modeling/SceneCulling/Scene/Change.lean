import SceneCulling.Scene.Basic

/-!
# Changes to a scene

Nodes are added one at a time, below a node or as roots. Removing a node removes all
nodes below it and the stages that stand on them. A request about a key that names no
node is refused and changes nothing.
-/

namespace SceneCulling.Scene

variable {K : Type} [Scalar K]

/-! ## Adding -/

/-- Takes a new node without children, and lists it last among the children of its
parent. -/
def attach (scene : Scene K) (node : Node K) : NodeKey × Scene K :=
  let (key, nodes) := scene.nodes.insert node
  let linked := match node.parent with
    | some parent => nodes.modify parent fun p => { p with children := p.children ++ [key] }
    | none => nodes
  (key, { scene with nodes := linked })

/-- Puts a stage on its root in place of the one that stands there. -/
def putStage (scene : Scene K) (stage : Stage K) : Scene K :=
  { scene with stages := (stage.root, stage) :: scene.stages.filter (·.1 != stage.root) }

/-- Adds a root of the given size with a default stage on it. -/
def createStage [Approximation K] (width height : K) (scene : Scene K) : NodeKey × Scene K :=
  let (root, scene) := scene.attach
    { parent := none, transform := .identity, size := some ⟨width, height⟩ }
  (root, scene.putStage (.ofSize root width height))

/-- Adds a node, as the last child of the given parent or as a root. -/
def createNode (parent : Option NodeKey) (transform : Mat4 K) : Edit (Scene K) NodeKey := do
  let scene ← get
  if let some key := parent then
    unless scene.contains key do
      Edit.raise (.unknownNode key)
  let (key, scene) := scene.attach { parent, transform }
  set scene
  return key

/-! ## Changing -/

/-- Puts a stage on its root, which has to be a node without parent. -/
def setStage (stage : Stage K) : Edit (Scene K) Unit := do
  match (← get).nodes.get? stage.root with
  | none => Edit.raise (.unknownNode stage.root)
  | some node =>
    if node.parent.isSome then Edit.raise (.rootHasParent stage.root)
    modify (·.putStage stage)

/-- Changes how the stage on a root is seen. Without a stage nothing changes. -/
def changeStage [Approximation K] (root : NodeKey) (change : StageChange K) (scene : Scene K) :
    Scene K :=
  { scene with stages := scene.stages.map fun (key, stage) =>
      (key, if key = root then stage.change change else stage) }

/-- Changes a node in place. The key has to name one. -/
def changeNode (key : NodeKey) (f : Node K → Node K) : Edit (Scene K) Unit := do
  unless (← get).contains key do
    Edit.raise (.unknownNode key)
  modify fun scene => { scene with nodes := scene.nodes.modify key f }

def setTransform (key : NodeKey) (transform : Mat4 K) : Edit (Scene K) Unit :=
  changeNode key ({ · with transform })

/-- Sets the size that the layout gave to a node, or takes it away. -/
def setSize (key : NodeKey) (size : Option (Size K)) : Edit (Scene K) Unit :=
  changeNode key ({ · with size })

/-- Adds an effect after those that a node has. -/
def addEffect (key : NodeKey) (effect : Effect K) : Edit (Scene K) Unit :=
  changeNode key fun node => { node with effects := node.effects ++ [effect] }

/-! ## Removing -/

/-- Removes a key from the children of its parent. -/
def detach (scene : Scene K) (key : NodeKey) : Scene K :=
  match scene.parent? key with
  | some parent =>
    { scene with nodes := scene.nodes.modify parent fun p =>
        { p with children := p.children.filter (· != key) } }
  | none => scene

/-- Removes a single node and the stage on it. -/
def drop (scene : Scene K) (key : NodeKey) : Scene K :=
  { nodes := scene.nodes.erase key, stages := scene.stages.filter (·.1 != key) }

/-- Removes a node with all nodes below it, and tells whether there was one. Of the
children the last one goes first, with all below it; this decides which slots are used
again first. -/
def removeNode (key : NodeKey) (scene : Scene K) : Bool × Scene K :=
  if scene.contains key then
    (true, (scene.hierarchy.outline key).reversePreorder.foldl drop (scene.detach key))
  else (false, scene)

end SceneCulling.Scene
