import Mathlib.Tactic.FieldSimp
import SceneCulling.Proofs.Geometry.Affine

/-!
# Inverse matrices in exact arithmetic

The inverse is the matrix of cofactors divided by a determinant. Here the determinant is
expanded along the first column, and the cofactors undo a matrix up to this factor. So a
matrix and its inverse undo each other if the determinant is not zero, and a point that a
projection is taken back to is projected to where it came from.
-/

namespace SceneCulling

/-- The determinant of the matrix with these columns. -/
def Vec3.triple (a b c : Vec3 Rat) : Rat := a.dot (b.cross c)

namespace Mat4

/-- The determinant, by the first column. -/
def det (m : Mat4 Rat) : Rat :=
  let minor (row : Vec4 Rat → Vec3 Rat) : Rat := (row m.c1).triple (row m.c2) (row m.c3)
  m.c0.x * minor (fun c => ⟨c.y, c.z, c.w⟩) - m.c0.y * minor (fun c => ⟨c.x, c.z, c.w⟩) +
    m.c0.z * minor (fun c => ⟨c.x, c.y, c.w⟩) - m.c0.w * minor (fun c => ⟨c.x, c.y, c.z⟩)

/-- The matrix of cofactors, transposed. -/
def adjugate (m : Mat4 Rat) : Mat4 Rat :=
  let f0 := minors m.c1.z m.c2.z m.c3.z m.c1.w m.c2.w m.c3.w
  let f1 := minors m.c1.y m.c2.y m.c3.y m.c1.w m.c2.w m.c3.w
  let f2 := minors m.c1.y m.c2.y m.c3.y m.c1.z m.c2.z m.c3.z
  let f3 := minors m.c1.x m.c2.x m.c3.x m.c1.w m.c2.w m.c3.w
  let f4 := minors m.c1.x m.c2.x m.c3.x m.c1.z m.c2.z m.c3.z
  let f5 := minors m.c1.x m.c2.x m.c3.x m.c1.y m.c2.y m.c3.y
  let v0 : Vec4 Rat := ⟨m.c1.x, m.c0.x, m.c0.x, m.c0.x⟩
  let v1 : Vec4 Rat := ⟨m.c1.y, m.c0.y, m.c0.y, m.c0.y⟩
  let v2 : Vec4 Rat := ⟨m.c1.z, m.c0.z, m.c0.z, m.c0.z⟩
  let v3 : Vec4 Rat := ⟨m.c1.w, m.c0.w, m.c0.w, m.c0.w⟩
  let even : Vec4 Rat := ⟨1, -1, 1, -1⟩
  let odd : Vec4 Rat := ⟨-1, 1, -1, 1⟩
  ⟨(v1 * f0 - v2 * f1 + v3 * f2) * even, (v0 * f0 - v2 * f3 + v3 * f4) * odd,
    (v0 * f1 - v1 * f3 + v3 * f5) * even, (v0 * f2 - v1 * f4 + v2 * f5) * odd⟩

theorem inverse_eq (m : Mat4 Rat) : m.inverse =
    ⟨m.adjugate.c0.scale (1 / m.det), m.adjugate.c1.scale (1 / m.det),
      m.adjugate.c2.scale (1 / m.det), m.adjugate.c3.scale (1 / m.det)⟩ := by
  have hdet : (m.c0.x * m.adjugate.c0.x + m.c0.z * m.adjugate.c2.x) +
      (m.c0.y * m.adjugate.c1.x + m.c0.w * m.adjugate.c3.x) = m.det := by
    simp only [adjugate, det, minors, Vec3.triple, Vec3.dot, Vec3.cross, Vec4.mul_x, Vec4.add_x,
      Vec4.sub_x]
    ring
  rw [← hdet]
  rfl

theorem apply_adjugate (m : Mat4 Rat) (v : Vec4 Rat) :
    m.apply (m.adjugate.apply v) = v.scale m.det := by
  ext <;> simp only [apply, adjugate, det, minors, Vec3.triple, Vec3.dot, Vec3.cross, Vec4.scale,
    Vec4.mul_x, Vec4.mul_y, Vec4.mul_z, Vec4.mul_w, Vec4.add_x, Vec4.add_y, Vec4.add_z,
    Vec4.add_w, Vec4.sub_x, Vec4.sub_y, Vec4.sub_z, Vec4.sub_w] <;> ring

theorem adjugate_apply (m : Mat4 Rat) (v : Vec4 Rat) :
    m.adjugate.apply (m.apply v) = v.scale m.det := by
  ext <;> simp only [apply, adjugate, det, minors, Vec3.triple, Vec3.dot, Vec3.cross, Vec4.scale,
    Vec4.mul_x, Vec4.mul_y, Vec4.mul_z, Vec4.mul_w, Vec4.add_x, Vec4.add_y, Vec4.add_z,
    Vec4.add_w, Vec4.sub_x, Vec4.sub_y, Vec4.sub_z, Vec4.sub_w] <;> ring

theorem apply_scale (m : Mat4 Rat) (v : Vec4 Rat) (k : Rat) :
    m.apply (v.scale k) = (m.apply v).scale k := by
  ext <;> simp only [apply, Vec4.scale, Vec4.add_x, Vec4.add_y, Vec4.add_z, Vec4.add_w] <;> ring

theorem inverse_apply_eq (m : Mat4 Rat) (v : Vec4 Rat) :
    m.inverse.apply v = (m.adjugate.apply v).scale (1 / m.det) := by
  rw [inverse_eq]
  ext <;> simp only [apply, Vec4.scale, Vec4.add_x, Vec4.add_y, Vec4.add_z, Vec4.add_w] <;> ring

theorem scale_scale_inverse {k : Rat} (hk : k ≠ 0) (v : Vec4 Rat) :
    (v.scale k).scale (1 / k) = v := by
  ext <;> simp only [Vec4.scale] <;> field_simp

/-- A matrix undoes its inverse. -/
theorem apply_inverse {m : Mat4 Rat} (hdet : m.det ≠ 0) (v : Vec4 Rat) :
    m.apply (m.inverse.apply v) = v := by
  rw [inverse_apply_eq, apply_scale, apply_adjugate, scale_scale_inverse hdet]

/-- The inverse undoes the matrix. -/
theorem inverse_apply {m : Mat4 Rat} (hdet : m.det ≠ 0) (v : Vec4 Rat) :
    m.inverse.apply (m.apply v) = v := by
  rw [inverse_apply_eq, adjugate_apply, scale_scale_inverse hdet]

/-- A matrix that moves nothing has the unit vectors as its columns. -/
theorem eq_identity {m : Mat4 Rat} (h : ∀ v, m.apply v = v) : m = identity := by
  rw [← mul_identity m]
  exact Mat4.ext (h _) (h _) (h _) (h _)

theorem mul_inverse {m : Mat4 Rat} (hdet : m.det ≠ 0) : m * m.inverse = identity :=
  eq_identity fun v => (apply_mul m m.inverse v).trans (apply_inverse hdet v)

theorem inverse_mul {m : Mat4 Rat} (hdet : m.det ≠ 0) : m.inverse * m = identity :=
  eq_identity fun v => (apply_mul m.inverse m v).trans (inverse_apply hdet v)

/-- The point that a projection is taken back to is projected to where it came from. -/
theorem apply_applyProjective_inverse {m : Mat4 Rat} (hdet : m.det ≠ 0) {q : Vec3 Rat}
    (hw : (m.inverse.apply (q.withWeight 1)).w ≠ 0) :
    m.apply ((m.inverse.applyProjective q).withWeight 1) =
      (q.withWeight 1).scale (1 / (m.inverse.apply (q.withWeight 1)).w) := by
  have himage : m.inverse.c3 + (m.inverse.c2.scale q.z + (m.inverse.c1.scale q.y +
      m.inverse.c0.scale q.x)) = m.inverse.apply (q.withWeight 1) := by
    ext <;> simp only [apply, Vec3.withWeight, Vec4.scale, Vec4.add_x, Vec4.add_y, Vec4.add_z,
      Vec4.add_w] <;> ring
  have hpoint : (m.inverse.applyProjective q).withWeight 1 =
      (m.inverse.apply (q.withWeight 1)).scale (1 / (m.inverse.apply (q.withWeight 1)).w) := by
    simp only [applyProjective, himage]
    generalize m.inverse.apply (q.withWeight 1) = image at hw
    ext <;> simp only [Vec3.withWeight, Vec3.divide, Vec4.xyz, Vec4.scale] <;> field_simp
  rw [hpoint, apply_scale, apply_inverse hdet]

/-! ## Affine transforms -/

/-- The determinant of an affine transform is that of its linear part. -/
theorem IsAffine.det_eq {m : Mat4 Rat} (h : m.IsAffine) :
    m.det = m.c0.xyz.triple m.c1.xyz m.c2.xyz := by
  obtain ⟨h0, h1, h2, h3⟩ := h
  simp only [det, Vec3.triple, Vec3.dot, Vec3.cross, Vec4.xyz, h0, h1, h2, h3]
  ring

/-- A matrix that keeps all weights is affine. -/
theorem isAffine_of_weight {m : Mat4 Rat} (h : ∀ v, (m.apply v).w = v.w) : m.IsAffine := by
  rw [← mul_identity m]
  exact ⟨h _, h _, h _, h _⟩

theorem IsAffine.inverse {m : Mat4 Rat} (h : m.IsAffine) (hdet : m.det ≠ 0) :
    m.inverse.IsAffine := by
  refine isAffine_of_weight fun v => ?_
  rw [← weight_apply h, apply_inverse hdet]

theorem applyPoint_identity (p : Vec3 Rat) : (identity : Mat4 Rat).applyPoint p = p := by
  rw [applyPoint_of_isAffine isAffine_identity, apply_identity]
  rfl

theorem applyPoint_inverse {m : Mat4 Rat} (h : m.IsAffine) (hdet : m.det ≠ 0) (p : Vec3 Rat) :
    m.applyPoint (m.inverse.applyPoint p) = p := by
  rw [← applyPoint_mul h (h.inverse hdet), mul_inverse hdet, applyPoint_identity]

theorem inverse_applyPoint {m : Mat4 Rat} (h : m.IsAffine) (hdet : m.det ≠ 0) (p : Vec3 Rat) :
    m.inverse.applyPoint (m.applyPoint p) = p := by
  rw [← applyPoint_mul (h.inverse hdet) h, inverse_mul hdet, applyPoint_identity]

end Mat4

end SceneCulling
