import Mathlib.Algebra.Order.Field.Basic
import SceneCulling.Proofs.Geometry.Affine

/-!
# Convex hulls

The hull of some points is what can be reached from them by segments. A half space that
holds the points holds their hull, a transform that keeps segments takes hulls to hulls,
and a box along the axes is the hull of its corners.
-/

namespace SceneCulling

/-- The convex hull of some points: the least set that contains them and, with any two of
its points, the segment between these. -/
inductive InHull (ps : List (Vec3 Rat)) : Vec3 Rat → Prop where
  | vertex {p : Vec3 Rat} : p ∈ ps → InHull ps p
  | between {a b : Vec3 Rat} {t : Rat} :
      InHull ps a → InHull ps b → 0 ≤ t → t ≤ 1 → InHull ps (a.between b t)

namespace InHull

variable {ps qs : List (Vec3 Rat)} {p : Vec3 Rat}

theorem mono (h : InHull ps p) (hsub : ∀ q ∈ ps, q ∈ qs) : InHull qs p := by
  induction h with
  | vertex hp => exact .vertex (hsub _ hp)
  | between _ _ h0 h1 iha ihb => exact .between iha ihb h0 h1

/-- A map that keeps segments takes the hull of some points to the hull of their images. -/
theorem map {f : Vec3 Rat → Vec3 Rat}
    (segments : ∀ a b t, f (a.between b t) = (f a).between (f b) t) (h : InHull ps p) :
    InHull (ps.map f) (f p) := by
  induction h with
  | vertex hp => exact .vertex (List.mem_map_of_mem hp)
  | between _ _ h0 h1 iha ihb =>
      rw [segments]
      exact .between iha ihb h0 h1

/-- The hull of points on the visible side of a plane is on that side. -/
theorem signedDistance_nonneg {plane : Plane Rat} (h : InHull ps p)
    (vertices : ∀ q ∈ ps, 0 ≤ plane.signedDistance q) : 0 ≤ plane.signedDistance p := by
  induction h with
  | vertex hp => exact vertices _ hp
  | @between a b t _ _ h0 h1 iha ihb =>
      rw [Plane.signedDistance_between]
      have hrest : 0 ≤ (1 - t) * plane.signedDistance a := mul_nonneg (by linarith) iha
      have hpart : 0 ≤ t * plane.signedDistance b := mul_nonneg h0 ihb
      linarith

/-- The hull of points outside of a plane is outside. -/
theorem signedDistance_neg {plane : Plane Rat} (h : InHull ps p)
    (vertices : ∀ q ∈ ps, plane.signedDistance q < 0) : plane.signedDistance p < 0 := by
  induction h with
  | vertex hp => exact vertices _ hp
  | @between a b t _ _ h0 h1 iha ihb =>
      rw [Plane.signedDistance_between]
      rcases h1.lt_or_eq with hlt | rfl
      · have hrest : (1 - t) * plane.signedDistance a < 0 :=
          mul_neg_of_pos_of_neg (by linarith) iha
        have hpart : t * plane.signedDistance b ≤ 0 :=
          mul_nonpos_of_nonneg_of_nonpos h0 ihb.le
        linarith
      · linarith

end InHull

/-! ## Boxes -/

/-- The point is in the box between two corners, whose edges follow the axes. -/
structure InBox (least greatest p : Vec3 Rat) : Prop where
  left : least.x ≤ p.x
  right : p.x ≤ greatest.x
  top : least.y ≤ p.y
  bottom : p.y ≤ greatest.y
  front : least.z ≤ p.z
  back : p.z ≤ greatest.z

/-- A part of the way between two numbers of an interval is in the interval. -/
private theorem part_mem {low high a b t : Rat} (ha : low ≤ a ∧ a ≤ high)
    (hb : low ≤ b ∧ b ≤ high) (h0 : 0 ≤ t) (h1 : t ≤ 1) :
    low ≤ a + t * (b - a) ∧ a + t * (b - a) ≤ high := by
  constructor
  · nlinarith [mul_nonneg h0 (sub_nonneg.mpr hb.1),
      mul_nonneg (sub_nonneg.mpr h1) (sub_nonneg.mpr ha.1)]
  · nlinarith [mul_nonneg h0 (sub_nonneg.mpr hb.2),
      mul_nonneg (sub_nonneg.mpr h1) (sub_nonneg.mpr ha.2)]

namespace InBox

variable {least greatest p : Vec3 Rat} {ps : List (Vec3 Rat)}

theorem between {a b : Vec3 Rat} {t : Rat} (ha : InBox least greatest a)
    (hb : InBox least greatest b) (h0 : 0 ≤ t) (h1 : t ≤ 1) :
    InBox least greatest (a.between b t) := by
  obtain ⟨left, right⟩ := part_mem ⟨ha.left, ha.right⟩ ⟨hb.left, hb.right⟩ h0 h1
  obtain ⟨top, bottom⟩ := part_mem ⟨ha.top, ha.bottom⟩ ⟨hb.top, hb.bottom⟩ h0 h1
  obtain ⟨front, back⟩ := part_mem ⟨ha.front, ha.back⟩ ⟨hb.front, hb.back⟩ h0 h1
  exact ⟨left, right, top, bottom, front, back⟩

/-- A box that contains some points contains their hull. -/
theorem of_inHull (h : InHull ps p) (vertices : ∀ q ∈ ps, InBox least greatest q) :
    InBox least greatest p := by
  induction h with
  | vertex hp => exact vertices _ hp
  | between _ _ h0 h1 iha ihb => exact iha.between ihb h0 h1

end InBox

/-- A number of an interval is a part of the way between the ends. -/
private theorem exists_part {a b x : Rat} (ha : a ≤ x) (hb : x ≤ b) :
    ∃ t, 0 ≤ t ∧ t ≤ 1 ∧ a + t * (b - a) = x := by
  rcases eq_or_lt_of_le (ha.trans hb) with rfl | hlt
  · exact ⟨0, le_refl 0, zero_le_one, by linarith⟩
  · have hpos : 0 < b - a := sub_pos.mpr hlt
    refine ⟨(x - a) / (b - a), div_nonneg (by linarith) hpos.le, ?_, ?_⟩
    · exact (div_le_one hpos).mpr (by linarith)
    · rw [div_mul_cancel₀ _ hpos.ne']
      ring

namespace InHull

variable {ps : List (Vec3 Rat)} {x y z a b : Rat}

/-- Between two points of a hull that differ in the first coordinate only. -/
theorem alongX (ha : InHull ps ⟨a, y, z⟩) (hb : InHull ps ⟨b, y, z⟩) (hax : a ≤ x)
    (hxb : x ≤ b) : InHull ps ⟨x, y, z⟩ := by
  obtain ⟨t, h0, h1, ht⟩ := exists_part hax hxb
  have h := InHull.between ha hb h0 h1
  simpa [Vec3.between, ht] using h

theorem alongY (ha : InHull ps ⟨x, a, z⟩) (hb : InHull ps ⟨x, b, z⟩) (hay : a ≤ y)
    (hyb : y ≤ b) : InHull ps ⟨x, y, z⟩ := by
  obtain ⟨t, h0, h1, ht⟩ := exists_part hay hyb
  have h := InHull.between ha hb h0 h1
  simpa [Vec3.between, ht] using h

theorem alongZ (ha : InHull ps ⟨x, y, a⟩) (hb : InHull ps ⟨x, y, b⟩) (haz : a ≤ z)
    (hzb : z ≤ b) : InHull ps ⟨x, y, z⟩ := by
  obtain ⟨t, h0, h1, ht⟩ := exists_part haz hzb
  have h := InHull.between ha hb h0 h1
  simpa [Vec3.between, ht] using h

/-- A box is in every hull that contains its corners. -/
theorem of_inBox {least greatest p : Vec3 Rat} (h : InBox least greatest p)
    (corners : ∀ x ∈ [least.x, greatest.x], ∀ y ∈ [least.y, greatest.y],
      ∀ z ∈ [least.z, greatest.z], InHull ps ⟨x, y, z⟩) : InHull ps p := by
  have edge : ∀ y ∈ [least.y, greatest.y], ∀ z ∈ [least.z, greatest.z],
      InHull ps ⟨p.x, y, z⟩ := fun y hy z hz =>
    alongX (corners _ (by simp) y hy z hz) (corners _ (by simp) y hy z hz) h.left h.right
  have face : ∀ z ∈ [least.z, greatest.z], InHull ps ⟨p.x, p.y, z⟩ := fun z hz =>
    alongY (edge _ (by simp) z hz) (edge _ (by simp) z hz) h.top h.bottom
  exact alongZ (face _ (by simp)) (face _ (by simp)) h.front h.back

end InHull

end SceneCulling
