import SceneCulling.Volume.Basic
import SceneCulling.Geometry.Viewport
import SceneCulling.Diagnostics.Edit

/-!
# Transforms and alignment

A transform moves the vertices that count. After it the derived vertices can no longer be
found from the key vertices, so the volume is completed first. The result is not taken
for aligned, whatever the transform was. Of an empty volume only the position moves.

What a volume in the window covers is the rectangle around its vertices, without regard to depth.

A volume that was transformed need not follow the axes. Alignment replaces it by the
least box along the axes that holds its vertices. If the vertices already are those of
such a box, in the order of a box, they are kept.
-/

namespace SceneCulling.Volume

variable {K : Type} [Scalar K]

/-- Moves the vertices that count. -/
def mapVertices (f : Vec3 K → Vec3 K) (v : Volume K) : Volume K :=
  if v.flags.empty then { v with front.topLeft := f v.front.topLeft }
  else
    let v := v.complete
    { v with
      front := v.front.map f
      back := if v.flags.flat then v.back else v.back.map f
      flags.aligned := false }

/-- The volume under a transform of space. -/
def transform (m : Mat4 K) (v : Volume K) : Volume K := v.mapVertices m.applyPoint

/-- The volume in the window: through the eye space and the clip space to the viewport. -/
def project (modelview projection : Mat4 K) (view : Viewport K) (v : Volume K) : Volume K :=
  v.mapVertices (view.windowPoint (projection * modelview))

/-- The rectangle around some points, which include the first. -/
def rectAround (p : Vec3 K) (ps : List (Vec3 K)) : Rect K :=
  ps.foldl (fun r q => r.extend q.x q.y) (.point p.x p.y)

/-- The rectangle around the vertices that count. The volume is completed for this. An
empty volume gives the rectangle of its position. -/
def boundingRect (v : Volume K) : Rect K :=
  rectAround v.front.topLeft v.complete.vertices.tail

/-! ## Alignment -/

/-- The key edges of the front face run along the axes in the positive direction, and
its derived vertex is where completion puts it. -/
def frontIsBox (v : Volume K) : Bool :=
  let a := v.front.topLeft
  let b := v.front.topRight
  let d := v.front.bottomLeft
  b.y == a.y && b.z == a.z && decide (a.x ≤ b.x) &&
  (d.x == a.x && d.z == a.z && decide (a.y ≤ d.y)) &&
  v.front.bottomRight == ⟨b.x, d.y, a.z⟩

/-- The same for the edge to the back face and the vertices derived there. -/
def backIsBox (v : Volume K) : Bool :=
  let a := v.front.topLeft
  let b := v.front.topRight
  let d := v.front.bottomLeft
  let e := v.back.topLeft
  e.x == a.x && e.y == a.y && decide (a.z ≤ e.z) &&
  v.back.topRight == ⟨b.x, a.y, e.z⟩ &&
  v.back.bottomRight == ⟨b.x, d.y, e.z⟩ &&
  v.back.bottomLeft == ⟨a.x, d.y, e.z⟩

/-- The vertices that count are those of a box along the axes, in the order of a box. -/
def isBox (v : Volume K) : Bool := v.frontIsBox && (v.flags.flat || v.backIsBox)

/-- A volume whose vertices are those of a box follows the axes as it stands. The back
face of a flat volume may be anywhere and is brought to the front first. -/
def markAligned (v : Volume K) : Volume K :=
  let rear := if v.flags.flat then v.front.topLeft else v.back.topLeft
  { v with
    back.topLeft := rear
    flags.flat := rear.z == v.front.topLeft.z
    flags.aligned := true }

/-- The least corner of the box around a list of points, which includes the first. -/
def leastCorner (p : Vec3 K) (ps : List (Vec3 K)) : Vec3 K := ps.foldl Vec3.lesser p

/-- The greatest corner of the box around a list of points, which includes the first. -/
def greatestCorner (p : Vec3 K) (ps : List (Vec3 K)) : Vec3 K := ps.foldl Vec3.greater p

/-- The box between two corners. Only its key vertices are written. -/
def spanned (v : Volume K) (least greatest : Vec3 K) : Volume K :=
  { v with
    front.topLeft := least
    front.topRight := ⟨greatest.x, least.y, least.z⟩
    front.bottomLeft := ⟨least.x, greatest.y, least.z⟩
    back.topLeft := ⟨least.x, least.y, greatest.z⟩
    flags.flat := greatest.z == least.z
    flags.complete := false
    flags.aligned := true }

/-- The box along the axes around the vertices that count. -/
def enclosingBox (v : Volume K) : Volume K :=
  let others := v.vertices.tail
  v.spanned (leastCorner v.front.topLeft others) (greatestCorner v.front.topLeft others)

/-- Replaces a volume by the box along the axes around it. Empty and aligned volumes
stay as they are. Any other volume has to be complete, because its derived vertices
cannot be found again from the key vertices. -/
def align : Edit (Volume K) Unit := do
  let v ← get
  unless v.flags.empty || v.flags.aligned do
    unless v.flags.complete do
      Edit.raise .incompleteVolume
    set (if v.isBox then v.markAligned else v.enclosingBox)

/-! ## Outcomes of alignment -/

theorem perform_align_of_empty {v : Volume K} (h : v.flags.empty = true) :
    align.perform v = ⟨(.ok (), v), []⟩ := by
  rw [align, Edit.perform_bind_of_silent (Edit.perform_get v), h]
  rfl

theorem perform_align_of_aligned {v : Volume K} (h : v.flags.aligned = true) :
    align.perform v = ⟨(.ok (), v), []⟩ := by
  rw [align, Edit.perform_bind_of_silent (Edit.perform_get v), h, Bool.or_true]
  rfl

theorem perform_align {v : Volume K} (he : v.flags.empty = false)
    (ha : v.flags.aligned = false) (hc : v.flags.complete = true) :
    align.perform v = ⟨(.ok (), if v.isBox then v.markAligned else v.enclosingBox), []⟩ := by
  rw [align, Edit.perform_bind_of_silent (Edit.perform_get v), he, ha, hc]
  rfl

end SceneCulling.Volume
