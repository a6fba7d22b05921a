import SceneCulling.Proofs.Geometry.Projections
import SceneCulling.Proofs.Painting.PixelCover

/-!
# Volumes across the eye plane

The pixels of a volume are those of its vertices. A vertex behind the eye is divided by its
negative weight like any other, which mirrors its place in the window. So the pixels hold what
the vertices in front of the eye span, wherever the others are. That is all that can be seen of
a volume with all vertices in front of the eye or none, and of any volume in a parallel
projection. The condition is needed: of a box that reaches from in front of the eye to behind
it, much is in view that its pixels do not hold.
-/

namespace SceneCulling

/-- The hull of points on the eye plane and behind the eye is not in front of the eye. -/
theorem InHull.weight_nonpos {ps : List (Vec3 Rat)} {p : Vec3 Rat} {m : Mat4 Rat}
    (h : InHull ps p) (hback : ∀ q ∈ ps, (m.apply (q.withWeight 1)).w ≤ 0) :
    (m.apply (p.withWeight 1)).w ≤ 0 := by
  induction h with
  | vertex hp => exact hback _ hp
  | @between a b t _ _ h0 h1 iha ihb =>
      rw [Mat4.apply_between]
      exact add_nonpos (mul_nonpos_of_nonpos_of_nonneg iha (sub_nonneg.mpr h1))
        (mul_nonpos_of_nonpos_of_nonneg ihb h0)

namespace Stage

variable {stage : Stage Rat} {v : Volume Rat}

/-- The weight in clip space of a point of eye space. It is positive in front of the eye. -/
def weight (stage : Stage Rat) (p : Vec3 Rat) : Rat := (stage.projection.apply (p.withWeight 1)).w

/-- The place in the window of a point of eye space. -/
def place (stage : Stage Rat) (p : Vec3 Rat) : Vec3 Rat :=
  stage.viewport.windowPoint stage.projection p

/-- A point of eye space is in view: it is in front of the eye and within the four sides. -/
structure Sees (stage : Stage Rat) (p : Vec3 Rat) : Prop where
  front : 0 < stage.weight p
  across : |(stage.projection.apply (p.withWeight 1)).x| ≤ stage.weight p
  upright : |(stage.projection.apply (p.withWeight 1)).y| ≤ stage.weight p

/-- The vertices of a volume that are in front of the eye. -/
def inFront (stage : Stage Rat) (v : Volume Rat) : List (Vec3 Rat) :=
  v.complete.vertices.filter fun p => 0 < stage.weight p

/-- The pixels of a volume in eye space. -/
def eyeRect (stage : Stage Rat) (v : Volume Rat) : Rect Rat :=
  (v.project .identity stage.projection stage.viewport).boundingRect.toPixels

/-- What the vertices in front of the eye span is on the pixels of the volume. -/
theorem eyeRect_holds {q : Vec3 Rat} (hq : InHull (stage.inFront v) q) :
    (stage.eyeRect v).Holds (stage.place q).x (stage.place q).y := by
  have haround :=
    v.around_boundingRect_project .identity stage.projection stage.viewport
  rw [Mat4.mul_identity] at haround
  have hfront : ∀ p ∈ stage.inFront v, 0 < (stage.projection.apply (p.withWeight 1)).w :=
    fun p hp => of_decide_eq_true (List.mem_filter.mp hp).2
  have hplace := (hq.windowPoint stage.viewport hfront).2
  have hall : InHull (v.complete.vertices.map stage.place) (stage.place q) := by
    refine hplace.mono fun place hmem => ?_
    obtain ⟨p, hp, rfl⟩ := List.mem_map.mp hmem
    exact List.mem_map_of_mem (List.mem_filter.mp hp).1
  exact (Rect.within_toPixels _).holds (haround.holds_of_inHull hall)

theorem inFront_of_forall (h : ∀ p ∈ v.complete.vertices, 0 < stage.weight p) :
    stage.inFront v = v.complete.vertices :=
  List.filter_eq_self.mpr fun p hp => decide_eq_true (h p hp)

/-! ## Results -/

/-- The pixels of a volume in eye space hold the places of all points that its vertices in front
of the eye span. So they hold all that is in view of the volume if the projection is parallel,
if all vertices are in front of the eye, or if none is. -/
theorem pixelRect_holds (stage : Stage Rat) {v : Volume Rat} (hreference : v.reference = none) :
    ∃ rect, (∀ tree : Hierarchy Rat, (tree.pixelRect stage v).run = ⟨.ok rect, []⟩) ∧
      (∀ q, InHull (stage.inFront v) q → rect.Holds (stage.place q).x (stage.place q).y) ∧
      ((stage.projection.IsAffine ∨ (∀ p ∈ v.complete.vertices, 0 < stage.weight p) ∨
          ∀ p ∈ v.complete.vertices, stage.weight p ≤ 0) →
        ∀ q, InHull v.complete.vertices q → stage.Sees q →
          rect.Holds (stage.place q).x (stage.place q).y) := by
  refine ⟨stage.eyeRect v, fun tree => Hierarchy.run_pixelRect_eye tree stage hreference,
    fun q => eyeRect_holds, fun hcases q hq hsees => ?_⟩
  have hcovered : (∀ p ∈ v.complete.vertices, 0 < stage.weight p) →
      (stage.eyeRect v).Holds (stage.place q).x (stage.place q).y := by
    intro hfront
    rw [← inFront_of_forall hfront] at hq
    exact eyeRect_holds hq
  rcases hcases with haffine | hfront | hback
  · refine hcovered fun p _ => ?_
    rw [weight, Mat4.weight_apply haffine]
    exact one_pos
  · exact hcovered hfront
  · exact absurd hsees.front (not_lt.mpr (hq.weight_nonpos hback))

/-- A view of this window, by either kind of projection. -/
def acrossBounds : ViewBounds := ⟨-1, 1, -1, 1, 1, 2⟩

def acrossStage (projection : Mat4 Rat) : Stage Rat :=
  @Stage.new Rat _ .ofSquares ⟨1, 1⟩ projection (.ofRect 0 0 100 100)

/-- A box in eye space from the distance 4 in front of the eye to the distance 2 behind it. -/
def across : Volume Rat :=
  let v := ((Volume.setOrigin ⟨0, 0, -4⟩).perform (.new none)).value.2
  let v := ((Volume.setWidth 1).perform v).value.2
  let v := ((Volume.setHeight 1).perform v).value.2
  ((Volume.setDepth 6).perform v).value.2

theorem reachable_across : across.Reachable :=
  .setDepth 6 (.setHeight 1 (.setWidth 1 (.setOrigin ⟨0, 0, -4⟩ (.new none))))

theorem across_flags : across.reference = none ∧ across.flags.empty = false := by
  decide +kernel

/-- The middle of an edge of the box is half way between a vertex in front of the eye and one
behind it. -/
theorem inHull_across : InHull across.complete.vertices ⟨1, 1, -1⟩ := by
  have hnear : (⟨1, 1, -4⟩ : Vec3 Rat) ∈ across.complete.vertices :=
    List.contains_iff_mem.mp (by decide +kernel)
  have hrear : (⟨1, 1, 2⟩ : Vec3 Rat) ∈ across.complete.vertices :=
    List.contains_iff_mem.mp (by decide +kernel)
  have hmiddle : (⟨1, 1, -4⟩ : Vec3 Rat).between ⟨1, 1, 2⟩ (1 / 2) = ⟨1, 1, -1⟩ := by
    norm_num [Vec3.between]
  rw [← hmiddle]
  exact .between (.vertex hnear) (.vertex hrear) (by norm_num) (by norm_num)

/-- A parallel projection sees the middle of the edge, and the pixels of the box hold its
place. -/
theorem across_parallel :
    let stage := acrossStage (acrossBounds.orthographic .fromMinusOne)
    across.reference = none ∧ stage.projection.IsAffine ∧
      InHull across.complete.vertices ⟨1, 1, -1⟩ ∧ stage.Sees ⟨1, 1, -1⟩ ∧
      ∃ rect, (∀ tree : Hierarchy Rat, (tree.pixelRect stage across).run = ⟨.ok rect, []⟩) ∧
        rect.Holds (stage.place ⟨1, 1, -1⟩).x (stage.place ⟨1, 1, -1⟩).y := by
  intro stage
  have haffine : stage.projection.IsAffine := ViewBounds.isAffine_orthographic _
  have hsees : stage.Sees ⟨1, 1, -1⟩ :=
    ⟨by decide +kernel, by decide +kernel, by decide +kernel⟩
  obtain ⟨rect, hpixels, -, hcovered⟩ := pixelRect_holds stage across_flags.1
  exact ⟨across_flags.1, haffine, inHull_across, hsees, rect, hpixels,
    hcovered (.inl haffine) _ inHull_across hsees⟩

/-- The condition is needed. A perspective shows the middle of the edge in the upper right
corner of the window, but the pixels of the box end before that corner, since the rear vertices
are mirrored to the lower left. -/
theorem across_perspective :
    let stage := acrossStage (acrossBounds.frustum .fromMinusOne)
    (@Stage.Reachable Rat _ .ofSquares stage ∧ 0 < stage.viewport.width ∧
      0 < stage.viewport.height) ∧
    (across.Reachable ∧ across.reference = none ∧ across.flags.empty = false) ∧
    (InHull across.complete.vertices ⟨1, 1, -1⟩ ∧ stage.Sees ⟨1, 1, -1⟩) ∧
    (∀ tree : Hierarchy Rat,
      (tree.pixelRect stage across).run = ⟨.ok ⟨25, 37, 63, 75⟩, []⟩) ∧
    ¬ (⟨25, 37, 63, 75⟩ : Rect Rat).Holds (stage.place ⟨1, 1, -1⟩).x
      (stage.place ⟨1, 1, -1⟩).y := by
  intro stage
  have hstage : @Stage.Reachable Rat _ .ofSquares stage := @Reachable.new Rat _ .ofSquares _ _ _
  have hsees : stage.Sees ⟨1, 1, -1⟩ :=
    ⟨by decide +kernel, by decide +kernel, by decide +kernel⟩
  have hrect : stage.eyeRect across = ⟨25, 37, 63, 75⟩ := eq_of_beq (by decide +kernel)
  refine ⟨⟨hstage, by decide +kernel, by decide +kernel⟩, ⟨reachable_across, across_flags⟩,
    ⟨inHull_across, hsees⟩, fun tree => ?_, fun hholds => ?_⟩
  · rw [← hrect]
    exact Hierarchy.run_pixelRect_eye tree stage across_flags.1
  · exact absurd hholds.1.2 (by decide +kernel)

end Stage

end SceneCulling
