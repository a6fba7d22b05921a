import SceneCulling.Volume.Basic
import SceneCulling.Diagnostics.Edit

/-!
# Position and extents

The position and the three extents of an aligned volume are read and written through its
key vertices. A volume without any extent is empty, and of an empty volume only the
position can be trusted, so the other key vertices are drawn to it before an extent is
written.
-/

namespace SceneCulling.Volume

variable {K : Type} [Scalar K]

/-- Refuses a volume whose edges do not follow the axes. -/
def requireAligned (operation : Operation) : Edit (Volume K) Unit := do
  unless (← get).flags.aligned do
    Edit.raise (.notAligned operation)

/-- Draws the key vertices of an empty volume to its position. -/
def gathered (v : Volume K) : Volume K :=
  if v.flags.empty then
    let p := v.front.topLeft
    { v with front.topRight := p, front.bottomLeft := p, back.topLeft := p }
  else v

/-- Notes that a key vertex has changed: the derived vertices are out of date, and the
volume is empty iff no extent is left. -/
def extentChanged (v : Volume K) : Volume K :=
  let a := v.front.topLeft
  { v with
    flags.complete := false
    flags.empty :=
      a.x == v.front.topRight.x && a.y == v.front.bottomLeft.y && a.z == v.back.topLeft.z }

/-- An extent has to be finite and not negative. -/
def isExtent (x : K) : Bool := Scalar.isFinite x && !decide (x < 0)

/-- The volume with a new extent along the x axis. -/
def withWidth (v : Volume K) (width : K) : Volume K :=
  extentChanged { v.gathered with front.topRight.x := v.front.topLeft.x + width }

/-- The volume with a new extent along the y axis. -/
def withHeight (v : Volume K) (height : K) : Volume K :=
  extentChanged { v.gathered with front.bottomLeft.y := v.front.topLeft.y + height }

/-- The volume with a new extent along the z axis. Without depth it is flat. -/
def withDepth (v : Volume K) (depth : K) : Volume K :=
  extentChanged { v.gathered with
    back.topLeft.z := v.front.topLeft.z + depth
    flags.flat := depth == 0 }

/-- The volume with its position at the given point and its key vertices moved along. -/
def movedTo (v : Volume K) (p : Vec3 K) : Volume K :=
  let shift := p - v.front.topLeft
  { v with
    front.topLeft := v.front.topLeft + shift
    front.topRight := v.front.topRight + shift
    front.bottomLeft := v.front.bottomLeft + shift
    back.topLeft := v.back.topLeft + shift
    flags.complete := false }

/-- Refuses a new extent of a volume that is not aligned, and a number that is no
extent. -/
def requireExtent (operation : Operation) (extent : K) : Edit (Volume K) Unit := do
  requireAligned operation
  unless isExtent extent do
    Edit.raise (.badExtent operation (Scalar.text extent))

/-- Sets the extent of an aligned volume along the x axis. -/
def setWidth (width : K) : Edit (Volume K) Unit := do
  requireExtent .setWidth width
  modify (·.withWidth width)

/-- Sets the extent of an aligned volume along the y axis. -/
def setHeight (height : K) : Edit (Volume K) Unit := do
  requireExtent .setHeight height
  modify (·.withHeight height)

/-- Sets the extent of an aligned volume along the z axis. -/
def setDepth (depth : K) : Edit (Volume K) Unit := do
  requireExtent .setDepth depth
  modify (·.withDepth depth)

/-- Moves an aligned volume, so that its position is the given point. -/
def setOrigin (p : Vec3 K) : Edit (Volume K) Unit := do
  requireAligned .setOrigin
  modify (·.movedTo p)

/-- Reads an extent of an aligned volume, which is zero if the volume is empty. -/
def readExtent (operation : Operation) (extent : Volume K → K) : Edit (Volume K) K := do
  requireAligned operation
  let v ← get
  return if v.flags.empty then 0 else extent v

/-- The extent of an aligned volume along the x axis. -/
def width : Edit (Volume K) K :=
  readExtent .width fun v => v.front.topRight.x - v.front.topLeft.x

/-- The extent of an aligned volume along the y axis. -/
def height : Edit (Volume K) K :=
  readExtent .height fun v => v.front.bottomLeft.y - v.front.topLeft.y

/-- The extent of an aligned volume along the z axis. -/
def depth : Edit (Volume K) K :=
  readExtent .depth fun v => v.back.topLeft.z - v.front.topLeft.z

/-! ## Outcomes -/

section Outcomes

variable {v : Volume K} {operation : Operation} {x : K}

omit [Scalar K] in
theorem perform_requireAligned (h : v.flags.aligned = true) :
    (requireAligned operation).perform v = ⟨(.ok (), v), []⟩ := by
  rw [requireAligned, Edit.perform_bind_of_silent (Edit.perform_get v), h]
  rfl

omit [Scalar K] in
theorem perform_requireAligned_refused (h : v.flags.aligned = false) :
    (requireAligned operation).perform v =
      ⟨(.error (.notAligned operation), v), [(Fault.notAligned operation).entry]⟩ := by
  rw [requireAligned, Edit.perform_bind_of_silent (Edit.perform_get v), h]
  rfl

theorem perform_requireExtent (h : v.flags.aligned = true) (hx : isExtent x = true) :
    (requireExtent operation x).perform v = ⟨(.ok (), v), []⟩ := by
  rw [requireExtent, Edit.perform_bind_of_silent (perform_requireAligned h), hx]
  rfl

theorem perform_requireExtent_refused (h : v.flags.aligned = true) (hx : isExtent x = false) :
    (requireExtent operation x).perform v =
      ⟨(.error (.badExtent operation (Scalar.text x)), v),
        [(Fault.badExtent operation (Scalar.text x)).entry]⟩ := by
  rw [requireExtent, Edit.perform_bind_of_silent (perform_requireAligned h), hx]
  rfl

theorem perform_requireExtent_not_aligned (h : v.flags.aligned = false) :
    (requireExtent operation x).perform v =
      ⟨(.error (.notAligned operation), v), [(Fault.notAligned operation).entry]⟩ := by
  rw [requireExtent, Edit.perform_bind_of_error (perform_requireAligned_refused h)]

theorem perform_setWidth (h : v.flags.aligned = true) (hx : isExtent x = true) :
    (setWidth x).perform v = ⟨(.ok (), v.withWidth x), []⟩ := by
  rw [setWidth, Edit.perform_bind_of_silent (perform_requireExtent h hx)]
  rfl

theorem perform_setHeight (h : v.flags.aligned = true) (hx : isExtent x = true) :
    (setHeight x).perform v = ⟨(.ok (), v.withHeight x), []⟩ := by
  rw [setHeight, Edit.perform_bind_of_silent (perform_requireExtent h hx)]
  rfl

theorem perform_setDepth (h : v.flags.aligned = true) (hx : isExtent x = true) :
    (setDepth x).perform v = ⟨(.ok (), v.withDepth x), []⟩ := by
  rw [setDepth, Edit.perform_bind_of_silent (perform_requireExtent h hx)]
  rfl

theorem perform_setOrigin {p : Vec3 K} (h : v.flags.aligned = true) :
    (setOrigin p).perform v = ⟨(.ok (), v.movedTo p), []⟩ := by
  rw [setOrigin, Edit.perform_bind_of_silent (perform_requireAligned h)]
  rfl

theorem perform_readExtent {extent : Volume K → K} (h : v.flags.aligned = true) :
    (readExtent operation extent).perform v =
      ⟨(.ok (if v.flags.empty then 0 else extent v), v), []⟩ := by
  rw [readExtent, Edit.perform_bind_of_silent (perform_requireAligned h)]
  rfl

end Outcomes

end SceneCulling.Volume
