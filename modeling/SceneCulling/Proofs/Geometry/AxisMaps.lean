import Mathlib.Data.Fintype.Sets
import SceneCulling.Proofs.Geometry.Inverse

/-!
# Transforms that keep the axes

An affine transform keeps the axes if its linear part has a single entry other than zero in
each row and in each column. Each coordinate of an image then depends on one coordinate of the
point: it is scaled, possibly turned over, and shifted. Such a transform can be undone.
-/

namespace SceneCulling

/-- The axes of space. -/
inductive Axis where
  | x
  | y
  | z
deriving DecidableEq

instance : Fintype Axis := ⟨{.x, .y, .z}, fun axis => by cases axis <;> decide⟩

/-- The coordinate of a point along an axis. -/
def Vec3.along (p : Vec3 Rat) : Axis → Rat
  | .x => p.x
  | .y => p.y
  | .z => p.z

namespace Mat4

variable {m : Mat4 Rat} {row col : Axis}

/-- An entry of the linear part: how much the coordinate along `col` counts for the coordinate
of the image along `row`. -/
def entry (m : Mat4 Rat) (row : Axis) : Axis → Rat
  | .x => m.c0.xyz.along row
  | .y => m.c1.xyz.along row
  | .z => m.c2.xyz.along row

/-- The transform takes the direction of each axis to that of one axis. -/
structure KeepsAxes (m : Mat4 Rat) : Prop where
  affine : m.IsAffine
  row : ∀ row, ∃! col, m.entry row col ≠ 0
  col : ∀ col, ∃! row, m.entry row col ≠ 0

instance : Decidable m.IsAffine := inferInstanceAs (Decidable (_ ∧ _ ∧ _ ∧ _))

instance {p : Axis → Prop} [DecidablePred p] : Decidable (∃! axis, p axis) :=
  inferInstanceAs (Decidable (∃ axis, p axis ∧ ∀ other, p other → other = axis))

instance : Decidable m.KeepsAxes :=
  decidable_of_iff (m.IsAffine ∧ (∀ row, ∃! col, m.entry row col ≠ 0) ∧
      ∀ col, ∃! row, m.entry row col ≠ 0)
    ⟨fun ⟨affine, row, col⟩ => ⟨affine, row, col⟩, fun h => ⟨h.affine, h.row, h.col⟩⟩

theorem along_applyPoint (h : m.IsAffine) (row : Axis) (p : Vec3 Rat) :
    (m.applyPoint p).along row = m.entry row .x * p.along .x + m.entry row .y * p.along .y +
      m.entry row .z * p.along .z + m.c3.xyz.along row := by
  rw [applyPoint_of_isAffine h]
  cases row <;> simp only [Vec3.along, entry, apply, Vec3.withWeight, Vec4.scale, Vec4.xyz,
    Vec4.add_x, Vec4.add_y, Vec4.add_z, mul_one]

theorem det_eq_entries (h : m.IsAffine) : m.det =
    m.entry .x .x * (m.entry .y .y * m.entry .z .z - m.entry .y .z * m.entry .z .y) +
    m.entry .y .x * (m.entry .z .y * m.entry .x .z - m.entry .z .z * m.entry .x .y) +
    m.entry .z .x * (m.entry .x .y * m.entry .y .z - m.entry .x .z * m.entry .y .y) :=
  h.det_eq

namespace KeepsAxes

theorem entry_eq_zero (h : m.KeepsAxes) (hentry : m.entry row col ≠ 0) (other : Axis)
    (hother : other ≠ col) : m.entry row other = 0 := by
  by_contra hnonzero
  exact hother ((h.row row).unique hnonzero hentry)

theorem col_entry_eq_zero (h : m.KeepsAxes) (hentry : m.entry row col ≠ 0) (other : Axis)
    (hother : other ≠ row) : m.entry other col = 0 := by
  by_contra hnonzero
  exact hother ((h.col col).unique hnonzero hentry)

/-- A coordinate of the image is a coordinate of the point, scaled and shifted. -/
theorem along_applyPoint (h : m.KeepsAxes) (hentry : m.entry row col ≠ 0) (p : Vec3 Rat) :
    (m.applyPoint p).along row = m.entry row col * p.along col + m.c3.xyz.along row := by
  have hzero := h.entry_eq_zero hentry
  rw [Mat4.along_applyPoint h.affine]
  cases col with
  | x =>
      rw [hzero .y (by decide), hzero .z (by decide)]
      ring
  | y =>
      rw [hzero .x (by decide), hzero .z (by decide)]
      ring
  | z =>
      rw [hzero .x (by decide), hzero .y (by decide)]
      ring

/-- The directions of two axes go to different axes. -/
theorem row_ne (h : m.KeepsAxes) {row' col' : Axis} (hentry : m.entry row col ≠ 0)
    (hentry' : m.entry row' col' ≠ 0) (hcol : col ≠ col') : row ≠ row' := by
  rintro rfl
  exact hcol ((h.row row).unique hentry hentry')

/-- The determinant is one product of three entries, up to its sign. -/
theorem det_ne_zero (h : m.KeepsAxes) : m.det ≠ 0 := by
  obtain ⟨rx, hx, -⟩ := h.col .x
  obtain ⟨ry, hy, -⟩ := h.col .y
  obtain ⟨rz, hz, -⟩ := h.col .z
  have hxy : rx ≠ ry := h.row_ne hx hy (by decide)
  have hxz : rx ≠ rz := h.row_ne hx hz (by decide)
  have hyz : ry ≠ rz := h.row_ne hy hz (by decide)
  have zero_x := h.col_entry_eq_zero hx
  have zero_y := h.col_entry_eq_zero hy
  have zero_z := h.col_entry_eq_zero hz
  rw [det_eq_entries h.affine]
  -- six of the choices of three rows are left, and each leaves one product
  cases rx <;> cases ry <;> cases rz <;> first
    | contradiction
    | simp [zero_x, zero_y, zero_z, hx, hy, hz]

end KeepsAxes

end Mat4

end SceneCulling
