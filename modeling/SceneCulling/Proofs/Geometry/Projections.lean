import Mathlib.Data.Sign.Basic
import SceneCulling.Proofs.Geometry.ClipPlanes
import SceneCulling.Proofs.Scalar.Ranked

/-!
# Side planes of the usual projections

A point is ahead of a side plane, on it or behind it just as the matching linear form of clip
space is positive, zero or negative at the projected point. This needs the planes to come from
a regular projection. Perspectives with the eye anywhere behind the window are regular, and so
are parallel projections, whether the visible depths start at -1 or at 0.
-/

namespace SceneCulling

/-! ## Signs -/

namespace Side

variable [Approximation Rat] {m : Mat4 Rat}

theorem sign_signedDistance (hsqrt : ∀ x : Rat, 0 < x → 0 < Approximation.sqrt x)
    (h : m.Regular) (side : Side) (p : Vec3 Rat) :
    SignType.sign ((side.plane (.ofProjection m)).signedDistance p) =
      SignType.sign (side.margin (m.apply (p.withWeight 1))) := by
  obtain ⟨k, hk, hdistance⟩ := side.signedDistance_ofProjection hsqrt h
  rw [hdistance, sign_mul, sign_pos hk, one_mul]

/-- The distance would be zero everywhere, but the centre of the view is within all sides. -/
theorem normal_ne_zero (hsqrt : ∀ x : Rat, 0 < x → 0 < Approximation.sqrt x) (h : m.Regular)
    (side : Side) : (side.plane (.ofProjection m)).normal ≠ Vec3.zero := by
  intro hzero
  obtain ⟨k, hk, hdistance⟩ := side.signedDistance_ofProjection hsqrt h
  have hcentre := hdistance (m.inverse.applyProjective Vec3.zero)
  have hmargin : side.margin (m.apply ((m.inverse.applyProjective Vec3.zero).withWeight 1)) =
      (m.apply ((m.inverse.applyProjective Vec3.zero).withWeight 1)).w := by
    rw [Mat4.apply_applyProjective_inverse h.invertible h.centre]
    cases side <;> simp [margin, coefficients, Vec4.dot, Vec4.scale, Vec3.withWeight, Vec3.zero]
  rw [hmargin] at hcentre
  have hnone : (side.plane (.ofProjection m)).signedDistance
      (m.inverse.applyProjective Vec3.zero) = 0 := by
    simp [Plane.signedDistance, hzero, Vec3.dot, Vec3.zero]
  exact (mul_pos hk h.facing).ne' (hcentre.symm.trans hnone)

end Side

/-! ## Projections -/

namespace Mat4

/-- A projection along the z axis, to the negative side, with these factors of the coordinates,
these slants of the axis and this form of the depth. -/
def slanted (a b s t c d : Rat) : Mat4 Rat :=
  ⟨⟨a, 0, 0, 0⟩, ⟨0, b, 0, 0⟩, ⟨s, t, c, -1⟩, ⟨0, 0, d, 0⟩⟩

section Slanted

variable {a b s t c d : Rat}

theorem slanted_apply (v : Vec4 Rat) : (slanted a b s t c d).apply v =
    ⟨a * v.x + s * v.z, b * v.y + t * v.z, c * v.z + d * v.w, -v.z⟩ := by
  ext <;> simp only [slanted, apply, Vec4.scale, Vec4.add_x, Vec4.add_y, Vec4.add_z,
    Vec4.add_w] <;> ring

theorem det_slanted : (slanted a b s t c d).det = a * b * d := by
  simp only [slanted, det, Vec3.triple, Vec3.dot, Vec3.cross]
  ring

/-- The weight of a point that is taken back depends on its depth only. -/
theorem weight_inverse_slanted (hdet : (slanted a b s t c d).det ≠ 0) (v : Vec4 Rat) :
    d * ((slanted a b s t c d).inverse.apply v).w = v.z + c * v.w := by
  have himage := apply_inverse hdet v
  rw [slanted_apply] at himage
  have hz : c * ((slanted a b s t c d).inverse.apply v).z +
      d * ((slanted a b s t c d).inverse.apply v).w = v.z := congrArg Vec4.z himage
  have hw : -((slanted a b s t c d).inverse.apply v).z = v.w := congrArg Vec4.w himage
  linear_combination hz + c * hw

/-- The depths from zero to one half are in front of the eye. -/
theorem regular_slanted (ha : a ≠ 0) (hb : b ≠ 0) (hc : c < -1 / 2) (hd : d < 0) :
    (slanted a b s t c d).Regular := by
  have hdet : (slanted a b s t c d).det ≠ 0 := by
    rw [det_slanted]
    exact mul_ne_zero (mul_ne_zero ha hb) hd.ne
  have hweight : ∀ q : Vec3 Rat, q.z ≤ 1 / 2 →
      0 < ((slanted a b s t c d).inverse.apply (q.withWeight 1)).w := by
    intro q hq
    have hform : d * ((slanted a b s t c d).inverse.apply (q.withWeight 1)).w = q.z + c * 1 :=
      weight_inverse_slanted hdet (q.withWeight 1)
    refine pos_of_mul_neg_right ?_ hd.le
    rw [hform]
    linarith
  have hcentre := hweight Vec3.zero (by norm_num [Vec3.zero])
  refine ⟨hdet, fun side depth hdepth => (hweight _ ?_).ne', hcentre.ne', ?_⟩
  · cases side <;> rcases hdepth with rfl | rfl <;> norm_num [Side.corner]
  · rw [apply_applyProjective_inverse hdet hcentre.ne']
    simpa [Vec4.scale, Vec3.withWeight] using hcentre

end Slanted

/-- An affine projection keeps the weight of every point at one. -/
theorem IsAffine.regular {m : Mat4 Rat} (h : m.IsAffine) (hdet : m.det ≠ 0) : m.Regular where
  invertible := hdet
  corners side depth _ := by
    rw [weight_apply (h.inverse hdet)]
    exact one_ne_zero
  centre := by
    rw [weight_apply (h.inverse hdet)]
    exact one_ne_zero
  facing := by
    rw [weight_apply h]
    exact one_pos

end Mat4

/-- The depths that a projection keeps end at one. They start at -1 or at 0. -/
inductive DepthRange where
  | fromMinusOne
  | fromZero
deriving DecidableEq

def DepthRange.start : DepthRange → Rat
  | fromMinusOne => -1
  | fromZero => 0

/-- What a projection shows: a window of the plane at the near distance in front of the eye, and
what is in line with it as far as the far distance. -/
structure ViewBounds where
  left : Rat
  right : Rat
  bottom : Rat
  top : Rat
  near : Rat
  far : Rat

namespace ViewBounds

/-- The perspective through the window. -/
def frustum (depths : DepthRange) (view : ViewBounds) : Mat4 Rat :=
  .slanted (2 * view.near / (view.right - view.left)) (2 * view.near / (view.top - view.bottom))
    ((view.right + view.left) / (view.right - view.left))
    ((view.top + view.bottom) / (view.top - view.bottom))
    ((view.far - depths.start * view.near) / (view.near - view.far))
    ((1 - depths.start) * view.near * view.far / (view.near - view.far))

/-- The parallel projection along the axis of the eye. -/
def orthographic (depths : DepthRange) (view : ViewBounds) : Mat4 Rat :=
  ⟨⟨2 / (view.right - view.left), 0, 0, 0⟩, ⟨0, 2 / (view.top - view.bottom), 0, 0⟩,
    ⟨0, 0, (1 - depths.start) / (view.near - view.far), 0⟩,
    ⟨-(view.right + view.left) / (view.right - view.left),
      -(view.top + view.bottom) / (view.top - view.bottom),
      depths.start + (1 - depths.start) * view.near / (view.near - view.far), 1⟩⟩

variable (depths : DepthRange) {view : ViewBounds}

theorem regular_frustum (hwidth : view.left ≠ view.right) (hheight : view.bottom ≠ view.top)
    (hnear : 0 < view.near) (hfar : view.near < view.far) : (view.frustum depths).Regular := by
  have hspan : view.near - view.far < 0 := by linarith
  have hahead : 0 < view.near * view.far := mul_pos hnear (hnear.trans hfar)
  apply Mat4.regular_slanted
  · exact div_ne_zero (mul_pos two_pos hnear).ne' (sub_ne_zero.mpr hwidth.symm)
  · exact div_ne_zero (mul_pos two_pos hnear).ne' (sub_ne_zero.mpr hheight.symm)
  · rw [div_lt_iff_of_neg hspan]
    cases depths <;> simp only [DepthRange.start] <;> linarith
  · refine div_neg_of_pos_of_neg ?_ hspan
    cases depths <;> simp only [DepthRange.start] <;> linarith

theorem isAffine_orthographic : (view.orthographic depths).IsAffine := ⟨rfl, rfl, rfl, rfl⟩

theorem regular_orthographic (hwidth : view.left ≠ view.right) (hheight : view.bottom ≠ view.top)
    (hdepth : view.near ≠ view.far) : (view.orthographic depths).Regular := by
  refine (isAffine_orthographic depths).regular ?_
  have hrange : (1 : Rat) - depths.start ≠ 0 := by
    cases depths <;> norm_num [DepthRange.start]
  have hdet : (view.orthographic depths).det = 2 / (view.right - view.left) *
      (2 / (view.top - view.bottom)) * ((1 - depths.start) / (view.near - view.far)) := by
    rw [(isAffine_orthographic depths).det_eq]
    simp only [orthographic, Vec3.triple, Vec3.dot, Vec3.cross, Vec4.xyz]
    ring
  rw [hdet]
  exact mul_ne_zero (mul_ne_zero (div_ne_zero two_ne_zero (sub_ne_zero.mpr hwidth.symm))
    (div_ne_zero two_ne_zero (sub_ne_zero.mpr hheight.symm)))
    (div_ne_zero hrange (sub_ne_zero.mpr hdepth))

end ViewBounds

section Perspective

variable [Approximation Rat] {fovy aspect near far : Rat}

/-- A perspective with an angle of view goes through the window that the angle spans at the near
distance. -/
theorem Mat4.perspective_eq_frustum (htan : Approximation.tan (1 / 2 * fovy) ≠ 0)
    (haspect : aspect ≠ 0) (hnear : near ≠ 0) : perspective fovy aspect near far =
      ViewBounds.frustum .fromMinusOne ⟨-(near * Approximation.tan (1 / 2 * fovy) * aspect),
        near * Approximation.tan (1 / 2 * fovy) * aspect,
        -(near * Approximation.tan (1 / 2 * fovy)), near * Approximation.tan (1 / 2 * fovy),
        near, far⟩ := by
  simp only [perspective, ViewBounds.frustum, slanted, DepthRange.start]
  generalize Approximation.tan (1 / 2 * fovy) = tan at htan
  congr 2
  · field_simp
    ring
  · field_simp
    ring
  · ring
  · ring
  · ring
  · ring

/-- A perspective looks ahead through a window that is not empty. -/
theorem Mat4.regular_perspective (htan : 0 < Approximation.tan (1 / 2 * fovy))
    (haspect : 0 < aspect) (hnear : 0 < near) (hfar : near < far) :
    (perspective fovy aspect near far).Regular := by
  have hheight : 0 < near * Approximation.tan (1 / 2 * fovy) := mul_pos hnear htan
  have hwidth : 0 < near * Approximation.tan (1 / 2 * fovy) * aspect := mul_pos hheight haspect
  rw [perspective_eq_frustum htan.ne' haspect.ne' hnear.ne']
  exact ViewBounds.regular_frustum _ (neg_lt_self hwidth).ne (neg_lt_self hheight).ne hnear hfar

end Perspective

/-! ## The sides of the view -/

namespace SidePlanes

/-- The planes of a regular projection are proper planes. The signed distance of a point from
each of them has the sign of the matching linear form of clip space at the projected point.
Parallel projections and perspectives are regular, in both ranges of depths and also if the
window is not centred. -/
theorem sign_ofProjection [Approximation Rat]
    (hsqrt : ∀ x : Rat, 0 < x → 0 < Approximation.sqrt x) :
    (∀ m : Mat4 Rat, m.Regular →
      (∀ plane ∈ (ofProjection m).toList, plane.normal ≠ Vec3.zero) ∧
      ∀ p clip, m.apply (p.withWeight 1) = clip →
        SignType.sign ((ofProjection m).left.signedDistance p) =
            SignType.sign (clip.w + clip.x) ∧
          SignType.sign ((ofProjection m).right.signedDistance p) =
            SignType.sign (clip.w - clip.x) ∧
          SignType.sign ((ofProjection m).bottom.signedDistance p) =
            SignType.sign (clip.w + clip.y) ∧
          SignType.sign ((ofProjection m).top.signedDistance p) =
            SignType.sign (clip.w - clip.y)) ∧
    ∀ (depths : DepthRange) (view : ViewBounds),
      view.left ≠ view.right → view.bottom ≠ view.top →
        (view.near ≠ view.far → (view.orthographic depths).Regular) ∧
        (0 < view.near → view.near < view.far → (view.frustum depths).Regular) := by
  refine ⟨fun m h => ⟨?_, ?_⟩, fun depths view hwidth hheight => ⟨?_, ?_⟩⟩
  · rw [Side.forall_mem_toList]
    exact Side.normal_ne_zero hsqrt h
  · intro p clip hclip
    have hsign := Side.sign_signedDistance hsqrt h
    have hmargin : Side.left.margin clip = clip.w + clip.x ∧
        Side.right.margin clip = clip.w - clip.x ∧ Side.bottom.margin clip = clip.w + clip.y ∧
        Side.top.margin clip = clip.w - clip.y := by
      refine ⟨?_, ?_, ?_, ?_⟩ <;> simp only [Side.margin, Side.coefficients, Vec4.dot] <;> ring
    obtain ⟨hleft, hright, hbottom, htop⟩ := hmargin
    rw [← hleft, ← hright, ← hbottom, ← htop, ← hclip]
    exact ⟨hsign .left p, hsign .right p, hsign .bottom p, hsign .top p⟩
  · exact ViewBounds.regular_orthographic depths hwidth hheight
  · exact ViewBounds.regular_frustum depths hwidth hheight

/-- A perspective that shows more to the right than to the left. -/
def lopsided : ViewBounds := ⟨-1, 3, -1, 1, 1, 2⟩

/-- A point above the left part of what `lopsided` shows is out of view on the left and on the
plane at the top. -/
theorem sign_lopsided :
    let _ := Approximation.ofSquares
    let planes : SidePlanes Rat := .ofProjection (lopsided.frustum .fromZero)
    (∀ x : Rat, 0 < x → 0 < Approximation.sqrt x) ∧ (lopsided.frustum .fromZero).Regular ∧
    (∀ plane ∈ planes.toList, plane.normal ≠ Vec3.zero) ∧
    SignType.sign (planes.left.signedDistance ⟨-2, 1, -1⟩) = -1 ∧
    SignType.sign (planes.right.signedDistance ⟨-2, 1, -1⟩) = 1 ∧
    SignType.sign (planes.bottom.signedDistance ⟨-2, 1, -1⟩) = 1 ∧
    SignType.sign (planes.top.signedDistance ⟨-2, 1, -1⟩) = 0 := by
  let _ := Approximation.ofSquares
  have hsqrt : ∀ x : Rat, 0 < x → 0 < Approximation.sqrt x := fun _ => sqrt_ofSquares_pos
  obtain ⟨hsides, husual⟩ := sign_ofProjection hsqrt
  obtain ⟨-, hperspective⟩ :=
    husual .fromZero lopsided (by norm_num [lopsided]) (by norm_num [lopsided])
  have regular := hperspective (by norm_num [lopsided]) (by norm_num [lopsided])
  obtain ⟨hnormal, hsign⟩ := hsides _ regular
  have hclip : (lopsided.frustum .fromZero).apply ((⟨-2, 1, -1⟩ : Vec3 Rat).withWeight 1) =
      ⟨-3 / 2, 1, 0, 1⟩ := by
    rw [ViewBounds.frustum, Mat4.slanted_apply]
    norm_num [lopsided, DepthRange.start, Vec3.withWeight]
  obtain ⟨hleft, hright, hbottom, htop⟩ := hsign _ _ hclip
  exact ⟨hsqrt, regular, hnormal, hleft.trans (by decide +kernel),
    hright.trans (by decide +kernel), hbottom.trans (by decide +kernel),
    htop.trans (by decide +kernel)⟩

end SidePlanes

end SceneCulling
