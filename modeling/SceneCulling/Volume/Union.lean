import SceneCulling.Volume.Extent
import SceneCulling.Volume.Transform

/-!
# Union

An aligned volume takes in others one at a time. It grows to the least box along the
axes around both; an empty volume adds nothing, not even its position.
-/

namespace SceneCulling.Volume

variable {K : Type} [Scalar K]

/-- Moves the left face to the left. -/
def reachLeft (x : K) (v : Volume K) : Volume K :=
  if x < v.front.topLeft.x then
    { v with front.topLeft.x := x, front.bottomLeft.x := x, back.topLeft.x := x }
  else v

/-- Moves the right face to the right. -/
def reachRight (x : K) (v : Volume K) : Volume K :=
  if v.front.topRight.x < x then { v with front.topRight.x := x } else v

/-- Moves the top face up. -/
def reachTop (y : K) (v : Volume K) : Volume K :=
  if y < v.front.topLeft.y then
    { v with front.topLeft.y := y, front.topRight.y := y, back.topLeft.y := y }
  else v

/-- Moves the bottom face down. -/
def reachBottom (y : K) (v : Volume K) : Volume K :=
  if v.front.bottomLeft.y < y then { v with front.bottomLeft.y := y } else v

/-- Moves the front face to the front. -/
def reachFront (z : K) (v : Volume K) : Volume K :=
  if z < v.front.topLeft.z then
    { v with front.topLeft.z := z, front.topRight.z := z, front.bottomLeft.z := z }
  else v

/-- Moves the back face to the back. -/
def reachBack (z : K) (v : Volume K) : Volume K :=
  if v.back.topLeft.z < z then { v with back.topLeft.z := z } else v

/-- Moves each face outward as far as another aligned volume reaches. -/
def grow (v other : Volume K) : Volume K :=
  let grown := v |>.reachLeft other.front.topLeft.x |>.reachRight other.front.topRight.x
    |>.reachTop other.front.topLeft.y |>.reachBottom other.front.bottomLeft.y
    |>.reachFront other.front.topLeft.z |>.reachBack other.back.topLeft.z
  { grown with flags.flat := grown.back.topLeft.z == grown.front.topLeft.z }

/-- Takes over the box of another aligned volume. -/
def becomeBox (v other : Volume K) : Volume K :=
  { v with
    front.topLeft := other.front.topLeft
    front.topRight := other.front.topRight
    front.bottomLeft := other.front.bottomLeft
    back.topLeft := other.back.topLeft
    flags.flat := other.flags.flat }

/-- Encloses another aligned volume that is not empty. -/
def enclose (v other : Volume K) : Volume K :=
  let v := if v.flags.empty then v.becomeBox other else v.grow other
  { v with flags.empty := false, flags.complete := false }

/-- Grows an aligned volume to the least box around it and another volume. A volume that
is not aligned is aligned on a copy first. -/
def union (other : Volume K) : Edit (Volume K) Unit := do
  requireAligned .union
  unless other.flags.empty do
    let box ← Edit.onCopy other align
    modify fun v => v.enclose box

/-! ## Outcomes -/

theorem perform_union_refused {v : Volume K} (other : Volume K) (h : v.flags.aligned = false) :
    (union other).perform v =
      ⟨(.error (.notAligned .union), v), [(Fault.notAligned .union).entry]⟩ := by
  rw [union, Edit.perform_bind_of_error (perform_requireAligned_refused h)]

theorem perform_union_of_empty {v other : Volume K} (h : v.flags.aligned = true)
    (he : other.flags.empty = true) : (union other).perform v = ⟨(.ok (), v), []⟩ := by
  rw [union, Edit.perform_bind_of_silent (perform_requireAligned h), he]
  rfl

theorem perform_union {v other box : Volume K} (h : v.flags.aligned = true)
    (he : other.flags.empty = false) (hb : align.perform other = ⟨(.ok (), box), []⟩) :
    (union other).perform v = ⟨(.ok (), v.enclose box), []⟩ := by
  rw [union, Edit.perform_bind_of_silent (perform_requireAligned h), he]
  exact Edit.perform_bind_of_silent (Edit.perform_onCopy_of_ok hb v) _

end SceneCulling.Volume
