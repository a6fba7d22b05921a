import Mathlib.Algebra.Order.Group.MinMax
import SceneCulling.Proofs.Geometry.ClipPlanes
import SceneCulling.Proofs.Scalar.Ranked
import SceneCulling.Stage
import SceneCulling.Proofs.Volume.Classification
import SceneCulling.Volume.Transform

/-!
# Side planes and the window

There are two ways to tell whether a volume is in view. Culling tests its vertices in eye
space against the side planes of the stage. Projecting takes the vertices to the window, and
the rectangle around them is compared with the viewport. For a volume in front of the eye
both ways agree, because at every vertex the distance from a plane and the distance within the
matching side of the viewport are positive multiples of one linear form of clip space.
-/

namespace SceneCulling

/-! ## Rectangles -/

namespace Side

/-- How far a point of the window is within a side of a rectangle. -/
def offset (r : Rect Rat) (p : Vec3 Rat) : Side → Rat
  | left => p.x - r.left
  | right => r.right - p.x
  | bottom => r.bottom - p.y
  | top => p.y - r.top

def opposite : Side → Side
  | left => right
  | right => left
  | bottom => top
  | top => bottom

/-- How far a side of `r` is within the same side of `s`. -/
def inset (r s : Rect Rat) : Side → Rat
  | left => r.left - s.left
  | right => s.right - r.right
  | bottom => s.bottom - r.bottom
  | top => r.top - s.top

/-- How far the opposite side of `r` is within a side of `s`. -/
def overlap (r s : Rect Rat) : Side → Rat
  | left => r.right - s.left
  | right => s.right - r.left
  | bottom => s.bottom - r.top
  | top => r.bottom - s.top

theorem offset_eq_inset (side : Side) (r s : Rect Rat) (p : Vec3 Rat) :
    side.offset s p = side.inset r s + side.offset r p := by
  cases side <;> simp only [offset, inset] <;> ring

theorem offset_eq_overlap (side : Side) (r s : Rect Rat) (p : Vec3 Rat) :
    side.offset s p = side.overlap r s - side.opposite.offset r p := by
  cases side <;> simp only [offset, overlap, opposite] <;> ring

end Side

namespace Rect

/-- Every point of `r` is a point of `s`. -/
def Within (r s : Rect Rat) : Prop :=
  s.left ≤ r.left ∧ r.right ≤ s.right ∧ r.bottom ≤ s.bottom ∧ s.top ≤ r.top

/-- All of `r` is on the far side of a single side of `s`. -/
def Beyond (r s : Rect Rat) : Prop :=
  r.right < s.left ∨ s.right < r.left ∨ s.bottom < r.top ∨ r.bottom < s.top

/-- The point is on the rectangle, its sides included. -/
def Holds (r : Rect Rat) (x y : Rat) : Prop :=
  (r.left ≤ x ∧ x ≤ r.right) ∧ r.top ≤ y ∧ y ≤ r.bottom

instance (r s : Rect Rat) : Decidable (r.Within s) := inferInstanceAs (Decidable (_ ∧ _))

instance (r s : Rect Rat) : Decidable (r.Beyond s) := inferInstanceAs (Decidable (_ ∨ _))

/-- A rectangle beyond a side of another one shares no point with it. -/
theorem Beyond.not_holds {r s : Rect Rat} (h : r.Beyond s) {x y : Rat} (hr : r.Holds x y) :
    ¬ s.Holds x y := by
  intro hs
  obtain ⟨⟨hrl, hrr⟩, hrt, hrb⟩ := hr
  obtain ⟨⟨hsl, hsr⟩, hst, hsb⟩ := hs
  rcases h with h | h | h | h
  · exact absurd (hsl.trans hrr) (not_le.mpr h)
  · exact absurd (hrl.trans hsr) (not_le.mpr h)
  · exact absurd (hrt.trans hsb) (not_le.mpr h)
  · exact absurd (hst.trans hrb) (not_le.mpr h)

/-- The rectangle holds some points, and each of its sides touches one of them. -/
structure Around (r : Rect Rat) (ps : List (Vec3 Rat)) : Prop where
  holds : ∀ side : Side, ∀ p ∈ ps, 0 ≤ side.offset r p
  touches : ∀ side : Side, ∃ p ∈ ps, side.offset r p = 0

theorem around_point (p : Vec3 Rat) : (point p.x p.y).Around [p] := by
  have hzero : ∀ side : Side, side.offset (point p.x p.y) p = 0 := by
    intro side
    cases side <;> simp [Side.offset, point]
  constructor
  · intro side q hq
    rw [List.mem_singleton.mp hq, hzero]
  · exact fun side => ⟨p, List.mem_singleton_self p, hzero side⟩

theorem Around.extend {r : Rect Rat} {ps : List (Vec3 Rat)} (h : r.Around ps) (q : Vec3 Rat) :
    (r.extend q.x q.y).Around (ps ++ [q]) := by
  -- The offset from a moved side is the larger one of that from the old side and that from `q`.
  have hoffset : ∀ side : Side, ∀ p, side.offset (r.extend q.x q.y) p =
      max (side.offset r p) (side.offset (point q.x q.y) p) := by
    intro side p
    cases side <;> simp only [Side.offset, Rect.extend, point, Volume.lesser_eq_min,
      Volume.greater_eq_max]
    · exact (max_sub_sub_left _ _ _).symm
    · exact (max_sub_sub_right _ _ _).symm
    · exact (max_sub_sub_right _ _ _).symm
    · exact (max_sub_sub_left _ _ _).symm
  constructor
  · intro side p hp
    rcases List.mem_append.mp hp with hp | hp
    · rw [hoffset]
      exact le_max_of_le_left (h.holds side p hp)
    · rw [hoffset]
      exact le_max_of_le_right ((around_point q).holds side p hp)
  · intro side
    obtain ⟨p, hp, htouch⟩ := h.touches side
    by_cases hkept : side.offset (point q.x q.y) p ≤ 0
    · exact ⟨p, List.mem_append_left _ hp, by rw [hoffset, htouch, max_eq_left hkept]⟩
    · have hmoved : side.offset r q = side.offset r p - side.offset (point q.x q.y) p := by
        cases side <;> simp only [Side.offset, point] <;> ring
      have hzero : side.offset (point q.x q.y) q = 0 := by
        cases side <;> simp [Side.offset, point]
      refine ⟨q, List.mem_append_right _ (List.mem_singleton_self q), ?_⟩
      rw [hoffset, hmoved, htouch, hzero, zero_sub]
      exact max_eq_right (neg_nonpos.mpr (not_le.mp hkept).le)

theorem around_rectAround (p : Vec3 Rat) (ps : List (Vec3 Rat)) :
    (Volume.rectAround p ps).Around (p :: ps) := by
  have hscan : ∀ (qs met : List (Vec3 Rat)) (r : Rect Rat), r.Around met →
      (qs.foldl (fun r q => r.extend q.x q.y) r).Around (met ++ qs) := by
    intro qs
    induction qs with
    | nil =>
        intro met r h
        rw [List.append_nil]
        exact h
    | cons q qs ih =>
        intro met r h
        rw [List.append_cons]
        exact ih (met ++ [q]) _ (h.extend q)
  exact hscan ps [p] _ (around_point p)

/-- A point is on a rectangle iff it is not outside of any side. -/
theorem holds_iff_offset {r : Rect Rat} {p : Vec3 Rat} :
    r.Holds p.x p.y ↔ ∀ side : Side, 0 ≤ side.offset r p := by
  constructor
  · intro h side
    obtain ⟨⟨hleft, hright⟩, htop, hbottom⟩ := h
    cases side with
    | left => exact sub_nonneg.mpr hleft
    | right => exact sub_nonneg.mpr hright
    | bottom => exact sub_nonneg.mpr hbottom
    | top => exact sub_nonneg.mpr htop
  · intro h
    exact ⟨⟨sub_nonneg.mp (h .left), sub_nonneg.mp (h .right)⟩, sub_nonneg.mp (h .top),
      sub_nonneg.mp (h .bottom)⟩

theorem within_iff_inset {r s : Rect Rat} : r.Within s ↔ ∀ side : Side, 0 ≤ side.inset r s := by
  constructor
  · intro h side
    obtain ⟨hleft, hright, hbottom, htop⟩ := h
    cases side with
    | left => exact sub_nonneg.mpr hleft
    | right => exact sub_nonneg.mpr hright
    | bottom => exact sub_nonneg.mpr hbottom
    | top => exact sub_nonneg.mpr htop
  · intro h
    exact ⟨sub_nonneg.mp (h .left), sub_nonneg.mp (h .right), sub_nonneg.mp (h .bottom),
      sub_nonneg.mp (h .top)⟩

theorem beyond_iff_overlap {r s : Rect Rat} : r.Beyond s ↔ ∃ side : Side, side.overlap r s < 0 := by
  constructor
  · intro h
    rcases h with h | h | h | h
    · exact ⟨.left, sub_neg.mpr h⟩
    · exact ⟨.right, sub_neg.mpr h⟩
    · exact ⟨.bottom, sub_neg.mpr h⟩
    · exact ⟨.top, sub_neg.mpr h⟩
  · intro h
    obtain ⟨side, h⟩ := h
    cases side with
    | left => exact .inl (sub_neg.mp h)
    | right => exact .inr (.inl (sub_neg.mp h))
    | bottom => exact .inr (.inr (.inl (sub_neg.mp h)))
    | top => exact .inr (.inr (.inr (sub_neg.mp h)))

/-- A rectangle around points is within another one iff no point is outside of any side. -/
theorem Around.within_iff {r s : Rect Rat} {ps : List (Vec3 Rat)} (h : r.Around ps) :
    r.Within s ↔ ∀ side : Side, ∀ p ∈ ps, 0 ≤ side.offset s p := by
  rw [within_iff_inset]
  constructor
  · intro hinset side p hp
    rw [side.offset_eq_inset r]
    exact add_nonneg (hinset side) (h.holds side p hp)
  · intro hin side
    obtain ⟨p, hp, htouch⟩ := h.touches side
    have hoffset := hin side p hp
    rw [side.offset_eq_inset r, htouch, add_zero] at hoffset
    exact hoffset

/-- A rectangle around points is beyond a side of another one iff all points are outside of a
single side. -/
theorem Around.beyond_iff {r s : Rect Rat} {ps : List (Vec3 Rat)} (h : r.Around ps) :
    r.Beyond s ↔ ∃ side : Side, ∀ p ∈ ps, side.offset s p < 0 := by
  rw [beyond_iff_overlap]
  constructor
  · intro hbeyond
    obtain ⟨side, hside⟩ := hbeyond
    refine ⟨side, fun p hp => ?_⟩
    rw [side.offset_eq_overlap r]
    exact (sub_le_self _ (h.holds side.opposite p hp)).trans_lt hside
  · intro hout
    obtain ⟨side, hout⟩ := hout
    obtain ⟨p, hp, htouch⟩ := h.touches side.opposite
    have hoffset := hout p hp
    rw [side.offset_eq_overlap r, htouch, sub_zero] at hoffset
    exact ⟨side, hoffset⟩

end Rect

/-! ## The viewport -/

/-- The part of the window that a viewport covers. -/
def Viewport.rect (view : Viewport Rat) : Rect Rat :=
  ⟨view.x, view.y, view.x + view.width, view.y + view.height⟩

/-- The extent of a viewport across a side. -/
def Side.extent (view : Viewport Rat) : Side → Rat
  | left | right => view.width
  | bottom | top => view.height

/-- In front of the eye, a point of the window is within a side of the viewport as far as the
point of clip space is within the side of its square, up to a positive factor. -/
theorem Side.offset_place (view : Viewport Rat) {clip : Vec4 Rat} (hw : 0 < clip.w)
    (side : Side) :
    side.offset view.rect (view.place clip) =
      side.extent view / (2 * clip.w) * side.margin clip := by
  have hdivided : (clip.w != 0) = true := by simp [hw.ne']
  have hne := hw.ne'
  cases side <;> simp only [offset, extent, Viewport.rect, Viewport.place, hdivided, if_true,
    margin, coefficients, Vec4.dot, Vec3.divide, Vec4.xyz] <;> field_simp <;> ring

/-- The bounding rectangle of a volume is around its vertices that count. -/
theorem Volume.around_boundingRect (v : Volume Rat) :
    v.boundingRect.Around v.complete.vertices := by
  have hfirst : v.complete.front.topLeft = v.front.topLeft := v.least_complete
  rw [vertices_eq_cons, hfirst, boundingRect]
  exact Rect.around_rectAround _ _

/-- The bounding rectangle of a projected volume is around the projected vertices. -/
theorem Volume.around_boundingRect_project (v : Volume Rat) (modelview projection : Mat4 Rat)
    (view : Viewport Rat) : (v.project modelview projection view).boundingRect.Around
      (v.complete.vertices.map (view.windowPoint (projection * modelview))) := by
  rw [← vertices_mapVertices]
  exact around_boundingRect _

namespace Stage

variable {stage : Stage Rat}

/-- A vertex in front of the eye is on the visible side of a plane iff it is projected to the
inner side of the matching side of the viewport. -/
theorem Reachable.signedDistance_nonneg_iff [Approximation Rat] (h : stage.Reachable)
    (hsqrt : ∀ x : Rat, 0 < x → 0 < Approximation.sqrt x) (regular : stage.projection.Regular)
    (hwidth : 0 < stage.viewport.width) (hheight : 0 < stage.viewport.height) {p : Vec3 Rat}
    (hw : 0 < (stage.projection.apply (p.withWeight 1)).w) (side : Side) :
    0 ≤ (side.plane stage.planes).signedDistance p ↔
      0 ≤ side.offset stage.viewport.rect (stage.viewport.windowPoint stage.projection p) := by
  obtain ⟨k, hk, hdistance⟩ := side.signedDistance_ofProjection hsqrt regular
  have hextent : 0 < side.extent stage.viewport / (2 * (stage.projection.apply
      (p.withWeight 1)).w) := by
    refine div_pos ?_ (mul_pos two_pos hw)
    cases side with
    | left | right => exact hwidth
    | bottom | top => exact hheight
  rw [h.current, hdistance, Viewport.windowPoint, side.offset_place _ hw,
    mul_nonneg_iff_of_pos_left hk, mul_nonneg_iff_of_pos_left hextent]

/-- Culling against the side planes agrees with the window. A complete volume in front of the
eye is in iff its projection is bounded by a rectangle within the viewport, and out iff this
rectangle is beyond a side of the viewport, so that it shares no point with it. -/
theorem Reachable.visibility_iff_window [Approximation Rat] (h : stage.Reachable)
    (hsqrt : ∀ x : Rat, 0 < x → 0 < Approximation.sqrt x) (regular : stage.projection.Regular)
    (hwidth : 0 < stage.viewport.width) (hheight : 0 < stage.viewport.height) {v : Volume Rat}
    (he : v.flags.empty = false) (hc : v.flags.complete = true) (hr : v.reference = none)
    (hfront : ∀ p ∈ v.vertices, 0 < (stage.projection.apply (p.withWeight 1)).w) {box : Rect Rat}
    (hbox : box = (v.project .identity stage.projection stage.viewport).boundingRect) :
    ((v.visibility stage.planes).value = .inside ↔ box.Within stage.viewport.rect) ∧
      ((v.visibility stage.planes).value = .outside ↔ box.Beyond stage.viewport.rect) ∧
      (box.Beyond stage.viewport.rect →
        ∀ x y, box.Holds x y → ¬ stage.viewport.rect.Holds x y) := by
  have haround :=
    Volume.around_boundingRect_project v .identity stage.projection stage.viewport
  rw [← hbox, Volume.complete_of_complete hc, Mat4.mul_identity] at haround
  have hvertex : ∀ side : Side, ∀ p ∈ v.vertices,
      0 ≤ (side.plane stage.planes).signedDistance p ↔
        0 ≤ side.offset stage.viewport.rect (stage.viewport.windowPoint stage.projection p) :=
    fun side p hp => h.signedDistance_nonneg_iff hsqrt regular hwidth hheight (hfront p hp) side
  rw [Volume.visibility_eq_classify _ he hc hr]
  refine ⟨?_, ?_, fun hbeyond x y => hbeyond.not_holds⟩
  · rw [SidePlanes.classify_eq_inside_iff v.vertices_ne_nil, haround.within_iff,
      Side.forall_mem_toList]
    refine forall_congr' fun side => ?_
    rw [List.forall_mem_map]
    exact forall₂_congr (hvertex side)
  · rw [SidePlanes.classify_eq_outside_iff, haround.beyond_iff, Side.exists_mem_toList]
    refine exists_congr fun side => ?_
    rw [List.forall_mem_map]
    refine forall₂_congr fun p hp => ?_
    rw [← not_le, ← not_le, hvertex side p hp]

/-- A perspective with a right angle of view, between the distances 1 and 2. -/
def rightAngle : Mat4 Rat := ⟨⟨1, 0, 0, 0⟩, ⟨0, 1, 0, 0⟩, ⟨0, 0, -3, -1⟩, ⟨0, 0, -4, 0⟩⟩

def rightAngleStage : Stage Rat :=
  let _ := Approximation.ofSquares
  (Stage.new ⟨1, 1⟩ .identity (.ofRect 0 0 640 480)).change (.projection rightAngle)

/-- A square that the eye sees from the distance 2. -/
def square : Volume Rat where
  front := ⟨⟨-1, -1, -2⟩, ⟨1, -1, -2⟩, ⟨1, 1, -2⟩, ⟨-1, 1, -2⟩⟩
  back := .collapsed .zero
  flags := ⟨false, true, true, true⟩
  reference := none

theorem square_inside : @Reachable Rat _ .ofSquares rightAngleStage ∧
    rightAngleStage.projection.Regular ∧
    (∀ p ∈ square.vertices, 0 < (rightAngleStage.projection.apply (p.withWeight 1)).w) ∧
    (square.visibility rightAngleStage.planes).value = .inside := by
  let _ := Approximation.ofSquares
  have h : rightAngleStage.Reachable :=
    .change (.projection rightAngle) (.new ⟨1, 1⟩ .identity (.ofRect 0 0 640 480))
  have regular : rightAngleStage.projection.Regular := by
    constructor
    · decide +kernel
    · intro side depth hdepth
      rcases hdepth with rfl | rfl
      · cases side <;> decide +kernel
      · cases side <;> decide +kernel
    · decide +kernel
    · decide +kernel
  have hfront : ∀ p ∈ square.vertices,
      0 < (rightAngleStage.projection.apply (p.withWeight 1)).w := by
    decide +kernel
  have hwindow := Reachable.visibility_iff_window h (fun _ => sqrt_ofSquares_pos) regular
    (by decide +kernel) (by decide +kernel) rfl rfl rfl hfront rfl
  exact ⟨h, regular, hfront, hwindow.1.mpr (by decide +kernel)⟩

end Stage

end SceneCulling
