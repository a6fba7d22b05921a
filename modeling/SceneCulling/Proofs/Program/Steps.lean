import SceneCulling.Painting.Culler
import SceneCulling.Proofs.Volume.Completion
import SceneCulling.Scene.Change

/-!
# Programs

A program holds volumes, pools of volumes, stages, cullers and a scene, and makes one public
step after another on them. A step is an edit of all that the program holds: it may be refused,
it may leave diagnostics, and it gives an answer. What a program can read without a step is a
function of what it holds, so one step that shows everything stands for all readings.

The settings in force are an argument of a step, which may look at them where it likes.
-/

namespace SceneCulling

/-- An edit of a part of a value. -/
def Edit.zoom {σ τ α : Type} (part : σ → τ) (replace : τ → σ → σ) (edit : Edit τ α) : Edit σ α :=
  ExceptT.mk fun s =>
    let outcome := edit.perform (part s)
    ⟨(outcome.value.1, replace outcome.value.2 s), outcome.log⟩

namespace Program

variable {K : Type}

/-- All that a program holds, by numbers, except for its one scene. -/
structure Holdings (K : Type) where
  volumes : Volume.Bank K
  pools : ℕ → VolumePool K
  stages : ℕ → Stage K
  cullers : ℕ → Culler K
  scene : Scene K

namespace Holdings

def putVolume (i : ℕ) (v : Volume K) (holdings : Holdings K) : Holdings K :=
  { holdings with volumes := Function.update holdings.volumes i v }

def putPool (i : ℕ) (pool : VolumePool K) (holdings : Holdings K) : Holdings K :=
  { holdings with pools := Function.update holdings.pools i pool }

def putStage (i : ℕ) (stage : Stage K) (holdings : Holdings K) : Holdings K :=
  { holdings with stages := Function.update holdings.stages i stage }

def putCuller (i : ℕ) (culler : Culler K) (holdings : Holdings K) : Holdings K :=
  { holdings with cullers := Function.update holdings.cullers i culler }

end Holdings

/-- What a step gives back if it is not refused. -/
inductive Answer (K : Type) where
  | nothing
  /-- The slot is not handed out, so there is no volume to work on. -/
  | gone
  | truth (b : Bool)
  | reading (r : Volume.Reading K)
  | visibility (visibility : Visibility)
  | volume (v : Option (Volume K))
  | slot (slot : ℕ)
  | node (key : NodeKey)
  | list (list : PaintList K)
  | everything (holdings : Holdings K)

/-- The nodes that a step is about: those of the scene, or nodes that the host program keeps
itself. -/
inductive Graph (K : Type) where
  | scene
  | host (tree : Hierarchy K)

/-! ## Steps on volumes -/

/-- Where a volume is kept. -/
inductive Place where
  | alone (i : ℕ)
  | inPool (pool slot : ℕ)

/-- A step on a volume. -/
inductive VolumeStep (K : Type) where
  | ask (request : Volume.Request K)
  | complete
  | classify (planes : SidePlanes K)
  /-- Classifies against the side planes of a stage. -/
  | classifyOn (stage : ℕ)
  | fitSize (graph : Graph K) (node : NodeKey)
  | takeTo (graph : Graph K) (ancestor : Option NodeKey)
  | pixelRect (graph : Graph K) (stage : ℕ)
  | adjust (effect : Effect K)

/-! ## Steps on pools, stages and the scene -/

/-- A step on a pool. -/
inductive PoolStep where
  /-- A new pool, with the given room or with the room that the settings ask for. -/
  | new (capacity : Option ℕ)
  | allocate (reference : Option NodeKey)
  | allocateCopy (volume : ℕ)
  /-- Copies the volume of a slot. -/
  | fetch (slot volume : ℕ)
  | release

/-- A step on a stage that the program holds. -/
inductive StageStep (K : Type) where
  | new (root : NodeKey) (projection : Mat4 K) (viewport : Viewport K)
  | ofSize (root : NodeKey) (width height : K)
  | change (request : StageChange K)
  /-- Copies the stage that stands on a root of the scene. -/
  | fetch (root : NodeKey)

/-- A step on the scene. -/
inductive SceneStep (K : Type) where
  /-- A new scene in place of the one before. -/
  | new
  | createStage (width height : K)
  | createNode (parent : Option NodeKey) (transform : Mat4 K)
  | removeNode (key : NodeKey)
  | setTransform (key : NodeKey) (transform : Mat4 K)
  | setSize (key : NodeKey) (size : Option (Size K))
  | addEffect (key : NodeKey) (effect : Effect K)
  /-- Puts a copy of a stage on its root. -/
  | setStage (stage : ℕ)
  | changeStage (root : NodeKey) (change : StageChange K)

/-! ## Steps of a program -/

inductive Step (K : Type) where
  | newVolume (i : ℕ) (reference : Option NodeKey)
  /-- Computes the volume that a node itself paints in, and keeps it if there is one. -/
  | ownVolume (graph : Graph K) (node : NodeKey) (i : ℕ)
  | onVolume (place : Place) (step : VolumeStep K)
  | onPool (i : ℕ) (step : PoolStep)
  | onStage (i : ℕ) (step : StageStep K)
  | onScene (step : SceneStep K)
  | newCuller (i : ℕ)
  | cull (graph : Graph K) (stage culler : ℕ)
  | paintAll (graph : Graph K) (stage : ℕ)
  | look

variable [Scalar K]

def Graph.hierarchy (holdings : Holdings K) : Graph K → Hierarchy K
  | .scene => holdings.scene.hierarchy
  | .host tree => tree

/-- The edit of the volume, where the program holds `holdings` before it. -/
def VolumeStep.edit (holdings : Holdings K) : VolumeStep K → Edit (Volume K) (Answer K)
  | .ask request => do return .reading (← request.edit holdings.volumes)
  | .complete => do
    modify Volume.complete
    return .nothing
  | .classify planes => do return .visibility (← (← get).visibility planes)
  | .classifyOn stage => do
    return .visibility (← (← get).visibility (holdings.stages stage).planes)
  | .fitSize graph node => do return .truth (← (graph.hierarchy holdings).fitSize node)
  | .takeTo graph ancestor => do
    (graph.hierarchy holdings).takeTo ancestor
    return .nothing
  | .pixelRect graph stage => do
    let attempt := (graph.hierarchy holdings).pixelRect (holdings.stages stage) (← get)
    return .reading (.rect (← Edit.ofAttempt attempt))
  | .adjust effect => do return .truth (← effect.adjust)

/-- The step on the volume of a place, unless there is none. -/
def VolumeStep.editAt (place : Place) (step : VolumeStep K) :
    Edit (Holdings K) (Answer K) := do
  let holdings ← get
  match place with
  | .alone i => Edit.zoom (·.volumes i) (Holdings.putVolume i) (step.edit holdings)
  | .inPool i slot =>
    match (holdings.pools i).get? slot with
    | none => return .gone
    | some v =>
      Edit.zoom (fun _ => v) (fun v holdings => holdings.putPool i ((holdings.pools i).set slot v))
        (step.edit holdings)

def PoolStep.edit (settings : Settings) (i : ℕ) : PoolStep → Edit (Holdings K) (Answer K)
  | .new capacity => do
    modify (Holdings.putPool i (capacity.elim (.new settings) .withCapacity))
    return .nothing
  | .allocate reference => do
    let (slot, pool) := ((← get).pools i).allocate reference
    modify (Holdings.putPool i pool)
    return .slot slot
  | .allocateCopy volume => do
    let holdings ← get
    let (slot, pool) := (holdings.pools i).allocateCopy (holdings.volumes volume)
    modify (Holdings.putPool i pool)
    return .slot slot
  | .fetch slot volume => do
    match ((← get).pools i).get? slot with
    | none => return .gone
    | some v =>
      modify (Holdings.putVolume volume v)
      return .nothing
  | .release => do
    modify fun holdings => holdings.putPool i (holdings.pools i).release
    return .nothing

/-- One frame of a culler, where the program holds `holdings` before it. -/
def frame (settings : Settings) (graph : Graph K) (stage culler : ℕ) (holdings : Holdings K) :
    Edit (Holdings K) (PaintList K) :=
  Edit.zoom (·.cullers culler) (Holdings.putCuller culler)
    (Culler.cull (graph.hierarchy holdings) (holdings.stages stage) settings)

variable [Approximation K]

def StageStep.edit (i : ℕ) : StageStep K → Edit (Holdings K) (Answer K)
  | .new root projection viewport => do
    modify (Holdings.putStage i (.new root projection viewport))
    return .nothing
  | .ofSize root width height => do
    modify (Holdings.putStage i (.ofSize root width height))
    return .nothing
  | .change request => do
    modify fun holdings => holdings.putStage i ((holdings.stages i).change request)
    return .nothing
  | .fetch root => do
    match (← get).scene.stage? root with
    | none => return .truth false
    | some stage =>
      modify (Holdings.putStage i stage)
      return .truth true

/-- The edit of the scene, where `stages` are the stages that the program holds. -/
def SceneStep.edit (stages : ℕ → Stage K) : SceneStep K → Edit (Scene K) (Answer K)
  | .new => do
    set (Scene.empty : Scene K)
    return .nothing
  | .createStage width height => do
    let (root, scene) := (← get).createStage width height
    set scene
    return .node root
  | .createNode parent transform => do return .node (← Scene.createNode parent transform)
  | .removeNode key => do
    let (removed, scene) := (← get).removeNode key
    set scene
    return .truth removed
  | .setTransform key transform => do
    Scene.setTransform key transform
    return .nothing
  | .setSize key size => do
    Scene.setSize key size
    return .nothing
  | .addEffect key effect => do
    Scene.addEffect key effect
    return .nothing
  | .setStage stage => do
    Scene.setStage (stages stage)
    return .nothing
  | .changeStage root change => do
    modify (Scene.changeStage root change)
    return .nothing

/-- What a step does under the settings in force. -/
def Step.edit (settings : Settings) : Step K → Edit (Holdings K) (Answer K)
  | .newVolume i reference => do
    modify (Holdings.putVolume i (.new reference))
    return .nothing
  | .ownVolume graph node i => do
    let own ← (graph.hierarchy (← get)).ownVolume node
    if let some v := own then
      modify (Holdings.putVolume i v)
    return .volume own
  | .onVolume place step => step.editAt place
  | .onPool i step => step.edit settings i
  | .onStage i step => step.edit i
  | .onScene step => do
    Edit.zoom (·.scene) (fun scene holdings => { holdings with scene })
      (step.edit (← get).stages)
  | .newCuller i => do
    modify (Holdings.putCuller i (.new settings))
    return .nothing
  | .cull graph stage culler => do
    return .list (← frame settings graph stage culler (← get))
  | .paintAll graph stage => do
    let holdings ← get
    return .list (← (graph.hierarchy holdings).paintAll (holdings.stages stage))
  | .look => do return .everything (← get)

/-- The answers to some steps, one after the other. A refused step does not stop the rest. -/
def run (settings : Settings) :
    List (Step K) → StateT (Holdings K) Logged (List (Except Fault (Answer K)))
  | [] => return []
  | step :: steps => do
    let answer ← (step.edit settings).run
    let answers ← run settings steps
    return answer :: answers

end Program

end SceneCulling
