import Mathlib.Algebra.Order.Field.Basic
import Mathlib.Tactic.LinearCombination
import SceneCulling.Geometry.SidePlanes
import SceneCulling.Proofs.Geometry.Inverse

/-!
# Clip planes and clip space

A side plane is computed in eye space from three points that are taken back from clip space
and from the centre of the view. In clip space the same side is a linear form: the weight plus
or minus a coordinate. The signed distance from the plane is a positive multiple of this form
at the projected point, so a point is outside of the plane iff the form is negative there.
-/

namespace SceneCulling

/-! ## Planes through three points -/

namespace Vec3

/-- The product of the normals of two pairs of vectors. -/
theorem cross_dot_cross (a b c d : Vec3 Rat) :
    (a.cross b).dot (c.cross d) = a.dot c * b.dot d - a.dot d * b.dot c := by
  simp only [cross, dot]
  ring

/-- A vector with no part along either edge lies along their normal. -/
theorem normal_dot {u e f : Vec3 Rat} (he : u.dot e = 0) (hf : u.dot f = 0) (q : Vec3 Rat) :
    (e.cross f).dot (e.cross f) * u.dot q = u.dot (e.cross f) * (e.cross f).dot q := by
  have hf' : (e.cross (e.cross f)).dot q * u.dot f = 0 := by rw [hf, mul_zero]
  have he' : (f.cross (e.cross f)).dot q * u.dot e = 0 := by rw [he, mul_zero]
  simp only [cross, dot] at he' hf' ⊢
  linear_combination he' - hf'

theorem dot_self_pos {m n : Vec3 Rat} (h : m.dot n ≠ 0) : 0 < n.dot n := by
  have hne : n.x ≠ 0 ∨ n.y ≠ 0 ∨ n.z ≠ 0 := by
    by_contra hzero
    simp only [ne_eq, not_or, not_not] at hzero
    obtain ⟨hx, hy, hz⟩ := hzero
    exact h (by simp [dot, hx, hy, hz])
  simp only [dot]
  have hx := mul_self_nonneg n.x
  have hy := mul_self_nonneg n.y
  have hz := mul_self_nonneg n.z
  rcases hne with hne | hne | hne
  · linarith [mul_self_pos.mpr hne]
  · linarith [mul_self_pos.mpr hne]
  · linarith [mul_self_pos.mpr hne]

theorem dot_neg (a b : Vec3 Rat) : (-a).dot b = -a.dot b := by
  simp only [dot, neg_x, neg_y, neg_z]
  ring

theorem scale_dot (a b : Vec3 Rat) (k : Rat) : (a.scale k).dot b = k * a.dot b := by
  simp only [dot, scale]
  ring

/-- Unless it is zero, a vector is normalized by a positive factor. -/
theorem normalize_eq [Approximation Rat] (hsqrt : ∀ x : Rat, 0 < x → 0 < Approximation.sqrt x)
    {a : Vec3 Rat} (ha : 0 < a.dot a) : ∃ r, 0 < r ∧ a.normalize = a.scale r := by
  have hr : 0 < 1 / Approximation.sqrt (a.dot a) := one_div_pos.mpr (hsqrt _ ha)
  have hproper : (Scalar.isFinite (1 / Approximation.sqrt (a.dot a)) &&
      decide (0 < 1 / Approximation.sqrt (a.dot a))) = true := by
    rw [decide_eq_true hr]
    rfl
  exact ⟨_, hr, if_pos hproper⟩

end Vec3

namespace SidePlanes

variable [Approximation Rat]

/-- A vector `u` that is perpendicular to two edges of a plane, and along which its inner point
is ahead of its first point, is a positive multiple of the normal of the plane. So the signed
distance is how far a point is ahead along `u`, up to a positive factor. -/
theorem signedDistance_through (hsqrt : ∀ x : Rat, 0 < x → 0 < Approximation.sqrt x)
    {u a b c inner : Vec3 Rat} (hb : u.dot (b - a) = 0) (hc : u.dot (c - a) = 0)
    (hinner : 0 < u.dot (inner - a))
    (hn : 0 < ((b - a).cross (c - a)).dot ((b - a).cross (c - a))) :
    ∃ k, 0 < k ∧ ∀ p, (through a b c inner).signedDistance p = k * u.dot (p - a) := by
  have halong := Vec3.normal_dot hb hc
  obtain ⟨r, hr, hnormal⟩ := Vec3.normalize_eq hsqrt hn
  simp only [through, Plane.signedDistance, hnormal, Vec3.scale_dot]
  generalize (b - a).cross (c - a) = n at *
  -- The normal points along `u` or against it, and the inner point tells which.
  have hside : 0 < u.dot n * n.dot (inner - a) := by
    rw [← halong]
    exact mul_pos hn hinner
  have hne : u.dot n ≠ 0 := fun h => by simp [h] at hside
  have hdistance : ∀ q, n.dot q = n.dot n / u.dot n * u.dot q := by
    intro q
    rw [div_mul_eq_mul_div, halong, mul_div_cancel_left₀ _ hne]
  rcases mul_pos_iff.mp hside with ⟨hu, hahead⟩ | ⟨hu, hbehind⟩
  · refine ⟨r * (n.dot n / u.dot n), mul_pos hr (div_pos hn hu), fun p => ?_⟩
    rw [if_neg (not_lt.mpr (mul_pos hr hahead).le), Vec3.scale_dot, hdistance]
    ring
  · have hk : 0 < -(n.dot n / u.dot n) := neg_pos.mpr (div_neg_of_pos_of_neg hn hu)
    refine ⟨r * -(n.dot n / u.dot n), mul_pos hr hk, fun p => ?_⟩
    rw [if_pos (mul_neg_of_pos_of_neg hr hbehind), Vec3.dot_neg, Vec3.scale_dot, hdistance]
    ring

end SidePlanes

/-! ## Linear forms of clip space -/

def Vec4.dot (a b : Vec4 Rat) : Rat := a.x * b.x + a.y * b.y + a.z * b.z + a.w * b.w

theorem Vec4.dot_scale (a b : Vec4 Rat) (k : Rat) : a.dot (b.scale k) = k * a.dot b := by
  simp only [dot, scale]
  ring

namespace Mat4

/-- The linear form with the given coefficients at the image of a point. -/
def form (m : Mat4 Rat) (k : Vec4 Rat) (p : Vec3 Rat) : Rat := k.dot (m.apply (p.withWeight 1))

/-- The direction in which a linear form of clip space grows. -/
def gradient (m : Mat4 Rat) (k : Vec4 Rat) : Vec3 Rat := ⟨k.dot m.c0, k.dot m.c1, k.dot m.c2⟩

theorem gradient_dot (m : Mat4 Rat) (k : Vec4 Rat) (p a : Vec3 Rat) :
    (m.gradient k).dot (p - a) = m.form k p - m.form k a := by
  simp only [gradient, form, apply, Vec3.dot, Vec4.dot, Vec4.scale, Vec3.withWeight, Vec3.sub_x,
    Vec3.sub_y, Vec3.sub_z, Vec4.add_x, Vec4.add_y, Vec4.add_z, Vec4.add_w]
  ring

/-- A linear form at a point that is taken back from clip space. -/
theorem form_applyProjective_inverse {m : Mat4 Rat} (hdet : m.det ≠ 0) (k : Vec4 Rat)
    {q : Vec3 Rat} (hw : (m.inverse.apply (q.withWeight 1)).w ≠ 0) :
    m.form k (m.inverse.applyProjective q) =
      1 / (m.inverse.apply (q.withWeight 1)).w * k.dot (q.withWeight 1) := by
  rw [form, apply_applyProjective_inverse hdet hw, Vec4.dot_scale]

end Mat4

/-! ## The sides of a view -/

/-- The four sides of the square that is visible in clip space. -/
inductive Side where
  | left
  | right
  | bottom
  | top
deriving DecidableEq

namespace Side

def plane (planes : SidePlanes Rat) : Side → Plane Rat
  | left => planes.left
  | right => planes.right
  | bottom => planes.bottom
  | top => planes.top

/-- The side that meets a side at the corner where its plane starts. -/
def before : Side → Side
  | left => bottom
  | right => top
  | bottom => right
  | top => left

/-- The side that meets a side at the other corner. -/
def after : Side → Side
  | left => top
  | right => bottom
  | bottom => left
  | top => right

/-- The corner where the plane of a side starts, at a depth of the projection. -/
def corner (depth : Rat) : Side → Vec3 Rat
  | left => ⟨-1, -1, depth⟩
  | right => ⟨1, 1, depth⟩
  | bottom => ⟨1, -1, depth⟩
  | top => ⟨-1, 1, depth⟩

/-- The linear form of clip space that is zero on a side and positive within. -/
def coefficients : Side → Vec4 Rat
  | left => ⟨1, 0, 0, 1⟩
  | right => ⟨-1, 0, 0, 1⟩
  | bottom => ⟨0, 1, 0, 1⟩
  | top => ⟨0, -1, 0, 1⟩

/-- How far a point of clip space is within a side. -/
def margin (side : Side) (clip : Vec4 Rat) : Rat := side.coefficients.dot clip

theorem forall_mem_toList {planes : SidePlanes Rat} {P : Plane Rat → Prop} :
    (∀ plane ∈ planes.toList, P plane) ↔ ∀ side : Side, P (side.plane planes) := by
  simp only [SidePlanes.toList, List.forall_mem_cons, List.not_mem_nil, false_imp_iff,
    implies_true, and_true]
  constructor
  · intro h side
    obtain ⟨hleft, hright, hbottom, htop⟩ := h
    cases side with
    | left => exact hleft
    | right => exact hright
    | bottom => exact hbottom
    | top => exact htop
  · exact fun h => ⟨h .left, h .right, h .bottom, h .top⟩

theorem exists_mem_toList {planes : SidePlanes Rat} {P : Plane Rat → Prop} :
    (∃ plane ∈ planes.toList, P plane) ↔ ∃ side : Side, P (side.plane planes) := by
  rw [← not_iff_not]
  push Not
  exact forall_mem_toList

/-- A corner lies on the two sides that meet there, at any depth. -/
theorem margin_corner (side : Side) (depth : Rat) :
    side.margin ((side.corner depth).withWeight 1) = 0 ∧
      side.margin ((side.after.corner depth).withWeight 1) = 0 ∧
      side.before.margin ((side.corner depth).withWeight 1) = 0 ∧
      side.before.margin ((side.after.corner depth).withWeight 1) = 2 := by
  cases side <;> norm_num [margin, coefficients, corner, after, before, Vec4.dot, Vec3.withWeight]

end Side

/-- The conditions under which the side planes of a projection are those of its view: the
projection has an inverse, the points that are taken back from clip space are not taken to
infinity, and the centre of the view is in front of the eye. -/
structure Mat4.Regular (m : Mat4 Rat) : Prop where
  invertible : m.det ≠ 0
  corners : ∀ side : Side, ∀ depth : Rat, depth = 0 ∨ depth = 1 / 2 →
    (m.inverse.apply ((side.corner depth).withWeight 1)).w ≠ 0
  centre : (m.inverse.apply (Vec3.zero.withWeight 1)).w ≠ 0
  facing : 0 < (m.apply ((m.inverse.applyProjective Vec3.zero).withWeight 1)).w

namespace Side

variable {m : Mat4 Rat}

/-- The three points of the plane of a side do not lie on a line: the second differs from the
first along the side, the third in depth. -/
theorem normal_pos (h : m.Regular) (side : Side) {e f : Vec3 Rat}
    (he : e = m.inverse.applyProjective (side.after.corner 0) -
      m.inverse.applyProjective (side.corner 0))
    (hf : f = m.inverse.applyProjective (side.corner (1 / 2)) -
      m.inverse.applyProjective (side.corner 0)) :
    0 < (e.cross f).dot (e.cross f) := by
  have hstart := h.corners side 0 (.inl rfl)
  have hstop := h.corners side.after 0 (.inl rfl)
  have hdeep := h.corners side (1 / 2) (.inr rfl)
  obtain ⟨-, -, hbefore, hbeforeStop⟩ := side.margin_corner 0
  obtain ⟨-, -, hbeforeDeep, -⟩ := side.margin_corner (1 / 2)
  simp only [margin] at hbefore hbeforeStop hbeforeDeep
  let depth : Vec4 Rat := ⟨0, 0, 1, 0⟩
  have hdepth : ∀ (corner : Side) (z : Rat), depth.dot ((corner.corner z).withWeight 1) = z := by
    intro corner z
    cases corner <;> simp [depth, Vec4.dot, Vec3.withWeight, Side.corner]
  have hde : (m.gradient depth).dot e = 0 := by
    rw [he, Mat4.gradient_dot, Mat4.form_applyProjective_inverse h.invertible _ hstop,
      Mat4.form_applyProjective_inverse h.invertible _ hstart, hdepth, hdepth]
    ring
  have hdf : (m.gradient depth).dot f ≠ 0 := by
    rw [hf, Mat4.gradient_dot, Mat4.form_applyProjective_inverse h.invertible _ hdeep,
      Mat4.form_applyProjective_inverse h.invertible _ hstart, hdepth, hdepth]
    simpa using hdeep
  have hbe : (m.gradient side.before.coefficients).dot e ≠ 0 := by
    rw [he, Mat4.gradient_dot, Mat4.form_applyProjective_inverse h.invertible _ hstop,
      Mat4.form_applyProjective_inverse h.invertible _ hstart, hbefore, hbeforeStop]
    simpa using hstop
  apply Vec3.dot_self_pos (m := (m.gradient depth).cross (m.gradient side.before.coefficients))
  rw [Vec3.cross_dot_cross, hde, zero_mul, zero_sub]
  exact neg_ne_zero.mpr (mul_ne_zero hdf hbe)

theorem plane_ofProjection [Approximation Rat] (side : Side) (m : Mat4 Rat) :
    side.plane (.ofProjection m) =
      SidePlanes.through (m.inverse.applyProjective (side.corner 0))
        (m.inverse.applyProjective (side.after.corner 0))
        (m.inverse.applyProjective (side.corner (1 / 2)))
        (m.inverse.applyProjective Vec3.zero) := by
  cases side <;> rfl

/-- The signed distance from the plane of a side is how far the projected point is within the
side, up to a positive factor. -/
theorem signedDistance_ofProjection [Approximation Rat]
    (hsqrt : ∀ x : Rat, 0 < x → 0 < Approximation.sqrt x) (h : m.Regular) (side : Side) :
    ∃ k, 0 < k ∧ ∀ p, (side.plane (.ofProjection m)).signedDistance p =
      k * side.margin (m.apply (p.withWeight 1)) := by
  have hstart := h.corners side 0 (.inl rfl)
  have hstop := h.corners side.after 0 (.inl rfl)
  have hdeep := h.corners side (1 / 2) (.inr rfl)
  obtain ⟨hside, hsideStop, -, -⟩ := side.margin_corner 0
  obtain ⟨hsideDeep, -, -, -⟩ := side.margin_corner (1 / 2)
  simp only [margin] at hside hsideStop hsideDeep
  have hform := fun (q : Vec3 Rat) => Mat4.form_applyProjective_inverse (q := q) h.invertible
    side.coefficients
  have hzero : m.form side.coefficients (m.inverse.applyProjective (side.corner 0)) = 0 := by
    rw [hform _ hstart, hside, mul_zero]
  have hcentre : m.form side.coefficients (m.inverse.applyProjective Vec3.zero) =
      (m.apply ((m.inverse.applyProjective Vec3.zero).withWeight 1)).w := by
    rw [Mat4.form, Mat4.apply_applyProjective_inverse h.invertible h.centre]
    cases side <;> simp [coefficients, Vec4.dot, Vec4.scale, Vec3.withWeight, Vec3.zero]
  have hb : (m.gradient side.coefficients).dot (m.inverse.applyProjective (side.after.corner 0) -
      m.inverse.applyProjective (side.corner 0)) = 0 := by
    rw [Mat4.gradient_dot, hzero, hform _ hstop, hsideStop, mul_zero, sub_zero]
  have hc : (m.gradient side.coefficients).dot (m.inverse.applyProjective (side.corner (1 / 2)) -
      m.inverse.applyProjective (side.corner 0)) = 0 := by
    rw [Mat4.gradient_dot, hzero, hform _ hdeep, hsideDeep, mul_zero, sub_zero]
  have hinner : 0 < (m.gradient side.coefficients).dot (m.inverse.applyProjective Vec3.zero -
      m.inverse.applyProjective (side.corner 0)) := by
    rw [Mat4.gradient_dot, hzero, sub_zero, hcentre]
    exact h.facing
  obtain ⟨k, hk, hdistance⟩ :=
    SidePlanes.signedDistance_through hsqrt hb hc hinner (normal_pos h side rfl rfl)
  rw [plane_ofProjection]
  refine ⟨k, hk, fun p => ?_⟩
  rw [hdistance, Mat4.gradient_dot, hzero, sub_zero]
  rfl

end Side

end SceneCulling
