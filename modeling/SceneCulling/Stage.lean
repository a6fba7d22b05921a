import SceneCulling.Geometry.SidePlanes
import SceneCulling.Geometry.Viewport
import SceneCulling.KeyStore

/-!
# Stages

A stage stands on the root of a tree of nodes and says how its space is seen: where the
eye is, how eye space is projected, and which part of the window shows it. It keeps the
side planes of its projection.

A program makes either kind of new stage and changes it by any sequence of the setters. Only a
setter of the projection touches the side planes, and it computes them anew, so the planes of a
stage are those of its projection at any time.
-/

namespace SceneCulling

/-- How the space of a root node is seen. -/
structure Stage (K : Type) where
  root : NodeKey
  /-- From the space of the root to eye space. -/
  eye : Mat4 K
  /-- From eye space to clip space. -/
  projection : Mat4 K
  viewport : Viewport K
  /-- The side planes of the projection, in eye space. -/
  planes : SidePlanes K

/-- A change to how a stage is seen. -/
inductive StageChange (K : Type) where
  | eye (m : Mat4 K)
  | projection (m : Mat4 K)
  | viewport (view : Viewport K)

namespace Stage

variable {K : Type} [Scalar K] [Approximation K]

/-- The stage whose root has the space of the eye. -/
def new (root : NodeKey) (projection : Mat4 K) (viewport : Viewport K) : Stage K where
  root := root
  eye := .identity
  projection := projection
  viewport := viewport
  planes := .ofProjection projection

/-- The transform to eye space of a plane of pixels at the distance `depth` from the eye,
which just fills the view of a perspective projection. The y axis of the plane points
down. The field of view is an angle in degrees. -/
def pixelPlane (fovy aspect near depth width height : K) : Mat4 K :=
  let top := near * Approximation.tan (fovy * Approximation.degree * (1 / 2))
  let right := top * aspect
  let leftEdge := -right / near * depth
  let rightEdge := right / near * depth
  let bottomEdge := -top / near * depth
  let topEdge := top / near * depth
  let xScale := (rightEdge - leftEdge) / width
  let yScale := (topEdge - bottomEdge) / height
  .shift ⟨leftEdge, topEdge, -depth⟩ * .scaling ⟨xScale, -yScale, xScale⟩

/-- The vertical field of view of a default stage, in degrees. -/
def defaultFovy : K := 60

/-- The distance at which the view of a default stage begins. -/
def defaultNear : K := 1 / 10

/-- The distance at which the view of a default stage ends. -/
def defaultFar : K := 100

/-- The distance at which the units of a default stage are pixels. -/
def defaultPixelDepth : K := 50

/-- The stage on a window of the given size whose points without depth are the pixels of
the window. -/
def ofSize (root : NodeKey) (width height : K) : Stage K :=
  let aspect := width / height
  let projection :=
    Mat4.perspective (defaultFovy * Approximation.degree) aspect defaultNear defaultFar
  { new root projection (.ofRect 0 0 width height) with
    eye := pixelPlane defaultFovy aspect defaultNear defaultPixelDepth width height }

/-- Changes how a stage is seen. The planes follow the projection. -/
def change (stage : Stage K) : StageChange K → Stage K
  | .eye m => { stage with eye := m }
  | .projection m => { stage with projection := m, planes := .ofProjection m }
  | .viewport view => { stage with viewport := view }

omit [Approximation K] in
/-- The window position of a point in the space of the root. -/
def windowPoint (stage : Stage K) (p : Vec3 K) : Vec3 K :=
  stage.viewport.windowPoint (stage.projection * stage.eye) p

/-! ## Reachable stages -/

variable {stage : Stage K}

/-- What the setters make of new stages. -/
inductive Reachable : Stage K → Prop where
  | new (root : NodeKey) (projection : Mat4 K) (viewport : Viewport K) :
      Reachable (.new root projection viewport)
  | ofSize (root : NodeKey) (width height : K) : Reachable (.ofSize root width height)
  | change {stage : Stage K} (change : StageChange K) :
      Reachable stage → Reachable (stage.change change)

/-- The planes are those of the projection. -/
def Current (stage : Stage K) : Prop := stage.planes = .ofProjection stage.projection

theorem Current.change (h : stage.Current) (change : StageChange K) :
    (stage.change change).Current := by
  cases change with
  | eye => exact h
  | projection => rfl
  | viewport => exact h

theorem Reachable.current (h : stage.Reachable) : stage.Current := by
  induction h with
  | new | ofSize => rfl
  | change change _ ih => exact ih.change change

theorem root_change (stage : Stage K) (change : StageChange K) :
    (stage.change change).root = stage.root := by
  cases change <;> rfl

end Stage

end SceneCulling
