import Mathlib.Tactic.Linarith
import Mathlib.Tactic.Ring
import SceneCulling.Geometry.Matrix
import SceneCulling.Geometry.SidePlanes
import SceneCulling.Geometry.Viewport
import SceneCulling.Scalar

/-!
# Affine transforms in exact arithmetic

Without rounding, the product of two matrices composes their transforms. An affine
transform never divides by a weight, so on points of space it composes as well and takes
segments to segments. The signed distance from a plane changes evenly along a segment.
-/

namespace SceneCulling

attribute [ext] Vec3 Vec4 Mat4

namespace Mat4

theorem apply_mul (a b : Mat4 Rat) (v : Vec4 Rat) : (a * b).apply v = a.apply (b.apply v) := by
  change (Mat4.mk (a.apply b.c0) (a.apply b.c1) (a.apply b.c2) (a.apply b.c3)).apply v = _
  ext <;> simp only [apply, Vec4.scale, Vec4.add_x, Vec4.add_y, Vec4.add_z, Vec4.add_w] <;> ring

@[simp] theorem apply_identity (v : Vec4 Rat) : (identity : Mat4 Rat).apply v = v := by
  ext <;> simp only [apply, identity, Vec4.scale, Vec4.add_x, Vec4.add_y, Vec4.add_z,
    Vec4.add_w] <;> ring

theorem mul_assoc (a b c : Mat4 Rat) : a * b * c = a * (b * c) :=
  Mat4.ext (apply_mul a b c.c0) (apply_mul a b c.c1) (apply_mul a b c.c2) (apply_mul a b c.c3)

@[simp] theorem identity_mul (m : Mat4 Rat) : identity * m = m :=
  Mat4.ext (apply_identity m.c0) (apply_identity m.c1) (apply_identity m.c2) (apply_identity m.c3)

/-- The columns of a matrix are the images of the unit vectors. -/
@[simp] theorem mul_identity (m : Mat4 Rat) : m * identity = m := by
  change Mat4.mk (m.apply ⟨1, 0, 0, 0⟩) (m.apply ⟨0, 1, 0, 0⟩) (m.apply ⟨0, 0, 1, 0⟩)
    (m.apply ⟨0, 0, 0, 1⟩) = m
  ext <;> simp only [apply, Vec4.scale, Vec4.add_x, Vec4.add_y, Vec4.add_z, Vec4.add_w] <;> ring

theorem isAffine_identity : (identity : Mat4 Rat).IsAffine := ⟨rfl, rfl, rfl, rfl⟩

/-- The x axis turns into the y axis. -/
def quarterTurn : Mat4 Rat := ⟨⟨0, 1, 0, 0⟩, ⟨-1, 0, 0, 0⟩, ⟨0, 0, 1, 0⟩, ⟨0, 0, 0, 1⟩⟩

theorem isAffine_quarterTurn : quarterTurn.IsAffine := ⟨rfl, rfl, rfl, rfl⟩

theorem weight_apply {m : Mat4 Rat} (h : m.IsAffine) (v : Vec4 Rat) : (m.apply v).w = v.w := by
  obtain ⟨h0, h1, h2, h3⟩ := h
  simp only [apply, Vec4.scale, Vec4.add_w, h0, h1, h2, h3]
  ring

theorem IsAffine.mul {a b : Mat4 Rat} (ha : a.IsAffine) (hb : b.IsAffine) :
    (a * b).IsAffine := by
  obtain ⟨h0, h1, h2, h3⟩ := hb
  exact ⟨(weight_apply ha b.c0).trans h0, (weight_apply ha b.c1).trans h1,
    (weight_apply ha b.c2).trans h2, (weight_apply ha b.c3).trans h3⟩

/-- An affine transform never divides. -/
theorem applyPoint_of_isAffine {m : Mat4 Rat} (h : m.IsAffine) (p : Vec3 Rat) :
    m.applyPoint p = (m.apply (p.withWeight 1)).xyz := by
  have hw : (m.apply (p.withWeight 1)).w = 1 := weight_apply h _
  simp [applyPoint, hw]

/-- The image of a point of space is one again. -/
theorem withWeight_applyPoint {m : Mat4 Rat} (h : m.IsAffine) (p : Vec3 Rat) :
    (m.applyPoint p).withWeight 1 = m.apply (p.withWeight 1) := by
  have hw : (m.apply (p.withWeight 1)).w = 1 := weight_apply h _
  rw [applyPoint_of_isAffine h]
  exact Vec4.ext rfl rfl rfl hw.symm

theorem applyPoint_mul {a b : Mat4 Rat} (ha : a.IsAffine) (hb : b.IsAffine) (p : Vec3 Rat) :
    (a * b).applyPoint p = a.applyPoint (b.applyPoint p) := by
  rw [applyPoint_of_isAffine (ha.mul hb), applyPoint_of_isAffine ha, apply_mul,
    withWeight_applyPoint hb]

end Mat4

/-- The window position of a point after an affine transform. -/
theorem Viewport.windowPoint_applyPoint {m : Mat4 Rat} (h : m.IsAffine) (view : Viewport Rat)
    (projection : Mat4 Rat) (p : Vec3 Rat) :
    view.windowPoint projection (m.applyPoint p) = view.windowPoint (projection * m) p := by
  rw [windowPoint, windowPoint, Mat4.withWeight_applyPoint h, Mat4.apply_mul]

/-! ## Segments -/

/-- The point of the segment from `a` to `b` at the part `t` of the way. -/
def Vec3.between (a b : Vec3 Rat) (t : Rat) : Vec3 Rat :=
  ⟨a.x + t * (b.x - a.x), a.y + t * (b.y - a.y), a.z + t * (b.z - a.z)⟩

theorem Mat4.applyPoint_between {m : Mat4 Rat} (h : m.IsAffine) (a b : Vec3 Rat) (t : Rat) :
    m.applyPoint (a.between b t) = (m.applyPoint a).between (m.applyPoint b) t := by
  rw [applyPoint_of_isAffine h, applyPoint_of_isAffine h, applyPoint_of_isAffine h]
  ext <;> simp only [Vec3.between, Vec3.withWeight, apply, Vec4.scale, Vec4.xyz, Vec4.add_x,
    Vec4.add_y, Vec4.add_z] <;> ring

theorem Plane.signedDistance_between (plane : Plane Rat) (a b : Vec3 Rat) (t : Rat) :
    plane.signedDistance (a.between b t) =
      plane.signedDistance a + t * (plane.signedDistance b - plane.signedDistance a) := by
  simp only [signedDistance, Vec3.between, Vec3.dot, Vec3.sub_x, Vec3.sub_y, Vec3.sub_z]
  ring

end SceneCulling
