import SceneCulling.Proofs.Geometry.Projections
import SceneCulling.Proofs.Stage.Window

/-!
# The pixels of a default stage

A default stage has a perspective and an eye that looks at a plane of pixels. The plane just
fills the view: its points without depth are projected to the pixels of the same coordinates,
and those that the side planes leave in view are the pixels of the window.
-/

namespace SceneCulling

/-! ## Perspectives -/

namespace Mat4

/-- A projection along the z axis, to the negative side, with these factors of the coordinates
and this form of the depth. -/
def lens (a b c d : Rat) : Mat4 Rat := ⟨⟨a, 0, 0, 0⟩, ⟨0, b, 0, 0⟩, ⟨0, 0, c, -1⟩, ⟨0, 0, d, 0⟩⟩

theorem lens_apply {a b c d : Rat} (v : Vec4 Rat) :
    (lens a b c d).apply v = ⟨a * v.x, b * v.y, c * v.z + d * v.w, -v.z⟩ := by
  ext <;> simp only [lens, apply, Vec4.scale, Vec4.add_x, Vec4.add_y, Vec4.add_z, Vec4.add_w] <;>
    ring

variable [Approximation Rat] {fovy aspect near far : Rat}

theorem perspective_apply (v : Vec4 Rat) : (perspective fovy aspect near far).apply v =
    ⟨1 / Approximation.tan (1 / 2 * fovy) / aspect * v.x,
      1 / Approximation.tan (1 / 2 * fovy) * v.y,
      (near + far) * (1 / (near - far)) * v.z + 2 * near * far * (1 / (near - far)) * v.w, -v.z⟩ :=
  lens_apply v

end Mat4

/-! ## The plane of pixels -/

namespace Stage

variable [Approximation Rat] {fovy aspect near far depth width height : Rat}

theorem isAffine_pixelPlane :
    (pixelPlane fovy aspect near depth width height).IsAffine :=
  .mul ⟨rfl, rfl, rfl, rfl⟩ ⟨rfl, rfl, rfl, rfl⟩

/-- The plane is as far from the eye as it should be, and as large as the view is there. -/
theorem pixelPlane_applyPoint (hnear : near ≠ 0) (x y : Rat) :
    (pixelPlane fovy aspect near depth width height).applyPoint ⟨x, y, 0⟩ =
      ⟨Approximation.tan (1 / 2 * (fovy * Approximation.degree)) * aspect * depth *
          (2 * x / width - 1),
        Approximation.tan (1 / 2 * (fovy * Approximation.degree)) * depth * (1 - 2 * y / height),
        -depth⟩ := by
  have hangle : fovy * Approximation.degree * (1 / 2) = 1 / 2 * (fovy * Approximation.degree) :=
    mul_comm _ _
  rw [Mat4.applyPoint_of_isAffine isAffine_pixelPlane, pixelPlane, Mat4.apply_mul, hangle]
  generalize Approximation.tan (1 / 2 * (fovy * Approximation.degree)) = tan
  ext <;> simp only [Mat4.apply, Mat4.shift, Mat4.scaling, Vec3.withWeight, Vec4.scale,
    Vec4.xyz, Vec4.add_x, Vec4.add_y, Vec4.add_z, Vec4.add_w] <;> field_simp <;> ring

theorem weight_pixelPlane (hnear : near ≠ 0) (x y : Rat) :
    ((Mat4.perspective (fovy * Approximation.degree) aspect near far).apply
      (((pixelPlane fovy aspect near depth width height).applyPoint ⟨x, y, 0⟩).withWeight 1)).w =
        depth := by
  rw [Mat4.perspective_apply, pixelPlane_applyPoint hnear]
  exact neg_neg depth

/-- A point of the plane has its depth as weight, so what the perspective makes smaller with
the distance is as large as a pixel. -/
theorem windowPoint_pixelPlane
    (htan : Approximation.tan (1 / 2 * (fovy * Approximation.degree)) ≠ 0) (haspect : aspect ≠ 0)
    (hnear : near ≠ 0) (hdepth : depth ≠ 0) (hwidth : width ≠ 0) (hheight : height ≠ 0)
    (x y : Rat) : ∃ z, (Viewport.ofRect 0 0 width height).windowPoint
      (.perspective (fovy * Approximation.degree) aspect near far)
      ((pixelPlane fovy aspect near depth width height).applyPoint ⟨x, y, 0⟩) = ⟨x, y, z⟩ := by
  rw [pixelPlane_applyPoint hnear, Viewport.windowPoint, Mat4.perspective_apply]
  generalize Approximation.tan (1 / 2 * (fovy * Approximation.degree)) = tan at htan
  have hdivided : (depth != 0) = true := by simp [hdepth]
  refine ⟨_, Vec3.ext ?_ ?_ rfl⟩
  · simp only [Viewport.place, Viewport.ofRect, Vec3.withWeight, Vec4.xyz, Vec3.divide, neg_neg,
      hdivided, if_true]
    field_simp
    ring
  · simp only [Viewport.place, Viewport.ofRect, Vec3.withWeight, Vec4.xyz, Vec3.divide, neg_neg,
      hdivided, if_true]
    field_simp
    ring

/-- A point without depth of a default stage is projected to the pixel of the same coordinates,
and in eye space it is on the visible side of all side planes iff this pixel is in the window. -/
theorem ofSize_pixels (hsqrt : ∀ x : Rat, 0 < x → 0 < Approximation.sqrt x)
    (htan : 0 < Approximation.tan (1 / 2 * (defaultFovy * Approximation.degree : Rat)))
    (root : NodeKey) (hwidth : 0 < width) (hheight : 0 < height) (x y : Rat) :
    (((ofSize root width height).windowPoint ⟨x, y, 0⟩).x = x ∧
      ((ofSize root width height).windowPoint ⟨x, y, 0⟩).y = y) ∧
    ((∀ plane ∈ (ofSize root width height).planes.toList,
        0 ≤ plane.signedDistance ((ofSize root width height).eye.applyPoint ⟨x, y, 0⟩)) ↔
      (0 ≤ x ∧ x ≤ width) ∧ 0 ≤ y ∧ y ≤ height) := by
  have haspect : 0 < width / height := div_pos hwidth hheight
  have hnear : (0 : Rat) < defaultNear := by norm_num [defaultNear]
  have hfar : (defaultNear : Rat) < defaultFar := by norm_num [defaultNear, defaultFar]
  have hdepth : (0 : Rat) < defaultPixelDepth := by norm_num [defaultPixelDepth]
  obtain ⟨z, hpixel⟩ : ∃ z, (ofSize root width height).viewport.windowPoint
      (ofSize root width height).projection
      ((ofSize root width height).eye.applyPoint ⟨x, y, 0⟩) = ⟨x, y, z⟩ :=
    windowPoint_pixelPlane htan.ne' haspect.ne' hnear.ne' hdepth.ne' hwidth.ne' hheight.ne' x y
  have hwindow : (ofSize root width height).windowPoint ⟨x, y, 0⟩ = ⟨x, y, z⟩ := by
    rw [← hpixel]
    exact (Viewport.windowPoint_applyPoint isAffine_pixelPlane _ _ _).symm
  have hfront : 0 < ((ofSize root width height).projection.apply
      (((ofSize root width height).eye.applyPoint ⟨x, y, 0⟩).withWeight 1)).w :=
    (weight_pixelPlane hnear.ne' x y).symm ▸ hdepth
  have hside := (Reachable.ofSize root width height).signedDistance_nonneg_iff hsqrt
    (Mat4.regular_perspective htan haspect hnear hfar) hwidth hheight hfront
  refine ⟨⟨congrArg Vec3.x hwindow, congrArg Vec3.y hwindow⟩, ?_⟩
  rw [Side.forall_mem_toList]
  simp only [hside, hpixel]
  rw [← Rect.holds_iff_offset]
  simp [Rect.Holds, Viewport.rect, ofSize, new, Viewport.ofRect]

omit [Approximation Rat] in
/-- The last corner of a window is in view, and the next pixel is not. -/
theorem ofSize_pixels_corner :
    let _ := Approximation.ofSquares
    let stage : Stage Rat := .ofSize ⟨1, 1⟩ 640 480
    ((∀ x : Rat, 0 < x → 0 < Approximation.sqrt x) ∧
      0 < Approximation.tan (1 / 2 * (defaultFovy * Approximation.degree : Rat)) ∧
      (0 : Rat) < 640 ∧ (0 : Rat) < 480) ∧
    ((stage.windowPoint ⟨640, 480, 0⟩).x = 640 ∧ (stage.windowPoint ⟨640, 480, 0⟩).y = 480) ∧
    (∀ plane ∈ stage.planes.toList,
      0 ≤ plane.signedDistance (stage.eye.applyPoint ⟨640, 480, 0⟩)) ∧
    ¬ ∀ plane ∈ stage.planes.toList,
      0 ≤ plane.signedDistance (stage.eye.applyPoint ⟨641, 480, 0⟩) := by
  let _ := Approximation.ofSquares
  have hsqrt : ∀ x : Rat, 0 < x → 0 < Approximation.sqrt x := fun _ => sqrt_ofSquares_pos
  have htan : 0 < Approximation.tan (1 / 2 * (defaultFovy * Approximation.degree : Rat)) := by
    decide +kernel
  have hwidth : (0 : Rat) < 640 := by norm_num
  have hheight : (0 : Rat) < 480 := by norm_num
  obtain ⟨hwindow, hcorner⟩ := ofSize_pixels hsqrt htan ⟨1, 1⟩ hwidth hheight 640 480
  obtain ⟨-, hnext⟩ := ofSize_pixels hsqrt htan ⟨1, 1⟩ hwidth hheight 641 480
  refine ⟨⟨hsqrt, htan, hwidth, hheight⟩, hwindow, hcorner.mpr (by norm_num), fun h => ?_⟩
  exact absurd (hnext.mp h) (by norm_num)

end Stage

end SceneCulling
