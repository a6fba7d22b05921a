import SceneCulling.Proofs.Painting.PixelNesting
import SceneCulling.Proofs.Program.Steps
import SceneCulling.Proofs.Scene.Composition

/-!
# Painted pixels are tight

The pixels of a volume on a stage are found from its vertices, through the product of all
matrices on the way. As long as the vertices are in front of the eye, the answer is the least
rectangle of whole pixels for all that the volume holds, where each point goes its own way: to
the space of the root and from there through the stage to the window. The rectangle covers the
hull because the places of the hull are in the hull of the places, and it is tight because each
of its sides is the one of a vertex, rounded outwards.
-/

namespace SceneCulling

/-! ## Rectangles of whole pixels -/

namespace Rect

variable {r s : Rect Rat}

/-- All sides lie between pixels. -/
def IsWhole (r : Rect Rat) : Prop := ∃ left top right bottom : ℤ, r = ⟨left, top, right, bottom⟩

theorem isWhole_toPixels (r : Rect Rat) : r.toPixels.IsWhole := ⟨_, _, _, _, rfl⟩

/-- There is nothing to round. -/
theorem IsWhole.toPixels_eq (h : r.IsWhole) : r.toPixels = r := by
  obtain ⟨left, top, right, bottom, rfl⟩ := h
  simp [toPixels, Scalar.floor, Scalar.ceil]

theorem within_toPixels (r : Rect Rat) : r.Within r.toPixels :=
  ⟨Rat.floor_le _, Rat.le_ceil, Rat.le_ceil, Rat.floor_le _⟩

theorem Within.holds (h : r.Within s) {x y : Rat} (hr : r.Holds x y) : s.Holds x y := by
  obtain ⟨hleft, hright, hbottom, htop⟩ := h
  obtain ⟨⟨hrl, hrr⟩, hrt, hrb⟩ := hr
  exact ⟨⟨hleft.trans hrl, hrr.trans hright⟩, htop.trans hrt, hrb.trans hbottom⟩

/-- The least rectangle of whole pixels that holds some places of the window. -/
structure LeastWhole (r : Rect Rat) (places : Set (Vec3 Rat)) : Prop where
  whole : r.IsWhole
  holds : ∀ p ∈ places, r.Holds p.x p.y
  least : ∀ s : Rect Rat, s.IsWhole → (∀ p ∈ places, s.Holds p.x p.y) → r.Within s

/-- A rectangle around some points holds their hull. -/
theorem Around.holds_of_inHull {ps : List (Vec3 Rat)} {p : Vec3 Rat} (h : r.Around ps)
    (hp : InHull ps p) : r.Holds p.x p.y :=
  holds_iff_offset.mpr fun side => hp.offset_nonneg (h.holds side)

/-- A rectangle around some places, rounded outwards, is the least one for all places of their
hull. -/
theorem Around.leastWhole {ps : List (Vec3 Rat)} {places : Set (Vec3 Rat)} (h : r.Around ps)
    (hps : ∀ p ∈ ps, p ∈ places) (hhull : ∀ p ∈ places, InHull ps p) :
    r.toPixels.LeastWhole places where
  whole := isWhole_toPixels r
  holds p hp := (within_toPixels r).holds (h.holds_of_inHull (hhull p hp))
  least s hs hholds := by
    have hwithin : r.Within s :=
      h.within_iff.mpr fun side p hp => holds_iff_offset.mp (hholds p (hps p hp)) side
    rw [← hs.toPixels_eq]
    exact hwithin.toPixels

end Rect

/-! ## Volumes in the window -/

namespace Volume

/-- The places in the window of a stage where the points of a volume are seen, if `toRoot` takes
its space to that of the root. -/
def places (v : Volume Rat) (stage : Stage Rat) (toRoot : Mat4 Rat) : Set (Vec3 Rat) :=
  {place | ∃ q, InHull v.complete.vertices q ∧ stage.windowPoint (toRoot.applyPoint q) = place}

variable {stage : Stage Rat} {toRoot : Mat4 Rat} {v : Volume Rat}

/-- The product of all matrices takes a point to the place where it arrives step by step. -/
theorem windowPoint_mul (haffine : toRoot.IsAffine) (q : Vec3 Rat) :
    stage.viewport.windowPoint (stage.projection * (stage.eye * toRoot)) q =
      stage.windowPoint (toRoot.applyPoint q) := by
  rw [Stage.windowPoint, Viewport.windowPoint_applyPoint haffine, Mat4.mul_assoc]

theorem leastWhole_places (haffine : toRoot.IsAffine)
    (hfront : ∀ q ∈ v.complete.vertices,
      0 < ((stage.projection * stage.eye).apply ((toRoot.applyPoint q).withWeight 1)).w) :
    (v.project (stage.eye * toRoot) stage.projection
      stage.viewport).boundingRect.toPixels.LeastWhole (v.places stage toRoot) := by
  have hweight : ∀ q ∈ v.complete.vertices,
      0 < ((stage.projection * (stage.eye * toRoot)).apply (q.withWeight 1)).w := by
    intro q hq
    have h := hfront q hq
    rwa [Mat4.withWeight_applyPoint haffine, ← Mat4.apply_mul, Mat4.mul_assoc] at h
  refine (v.around_boundingRect_project _ _ _).leastWhole ?_ ?_
  · intro place hplace
    obtain ⟨q, hq, rfl⟩ := List.mem_map.mp hplace
    exact ⟨q, .vertex hq, (windowPoint_mul haffine q).symm⟩
  · intro place hplace
    obtain ⟨q, hq, rfl⟩ := hplace
    rw [← windowPoint_mul haffine]
    exact (hq.windowPoint stage.viewport hweight).2

end Volume

/-- The step of a program answers with the pixels and leaves the volume as it is. -/
theorem Program.perform_pixelRect {holdings : Holdings Rat} {graph : Graph Rat} {i : ℕ}
    {v : Volume Rat} {rect : Rect Rat}
    (h : ((graph.hierarchy holdings).pixelRect (holdings.stages i) v).run = ⟨.ok rect, []⟩) :
    ((VolumeStep.pixelRect graph i).edit holdings).perform v =
      ⟨(.ok (.reading (.rect rect)), v), []⟩ := by
  have hpixels : (Edit.ofAttempt ((graph.hierarchy holdings).pixelRect (holdings.stages i) v) :
      Edit (Volume Rat) _).perform v = ⟨(.ok rect, v), []⟩ := by
    rw [Edit.perform_ofAttempt, h]
  rw [VolumeStep.edit, Edit.perform_bind_of_silent (Edit.perform_get v),
    Edit.perform_bind_of_silent hpixels]
  rfl

/-! ## Results -/

namespace Scene

open Outline

/-- The pixels of a volume of a node on a stage, if its vertices are in front of the eye. The
request succeeds, changes nothing and reports nothing. Its answer is the least rectangle of
whole pixels that holds the places of all points of the volume, and of the position of an empty
one. -/
theorem pixelRect_leastWhole [Approximation Rat] {scene : Scene Rat} (h : scene.Reachable)
    (haffine : ∀ key m, scene.transform? key = some m → m.IsAffine)
    {stage : Stage Rat} {node : NodeKey}
    (hnode : Under scene.children stage.root node) {v : Volume Rat}
    (hreference : v.reference = some node)
    (hfront : ∀ toRoot, scene.modelview? node stage.root = some toRoot →
      ∀ q ∈ v.complete.vertices,
        0 < ((stage.projection * stage.eye).apply ((toRoot.applyPoint q).withWeight 1)).w) :
    ∃ toRoot rect, scene.modelview? node stage.root = some toRoot ∧
      (∀ (holdings : Program.Holdings Rat) (i : ℕ), holdings.scene = scene →
        holdings.stages i = stage →
        ((Program.VolumeStep.pixelRect .scene i).edit holdings).perform v =
          ⟨(.ok (.reading (.rect rect)), v), []⟩) ∧
      rect.LeastWhole (v.places stage toRoot) := by
  have hlinked := h.consistent.toLinked
  obtain ⟨toRoot, hroot, htoRoot⟩ :=
    hlinked.modelview?_root haffine (hlinked.mem_outline_iff_under.mpr hnode)
  refine ⟨toRoot, _, hroot, ?_, Volume.leastWhole_places htoRoot (hfront toRoot hroot)⟩
  intro holdings i hscene hstage
  refine Program.perform_pixelRect ?_
  rw [Program.Graph.hierarchy, hscene, hstage]
  exact Hierarchy.run_pixelRect hreference hroot

/-- A beam of the standing square that points to the eye. -/
def beam : Volume Rat :=
  let v := ((Volume.setWidth (1 / 5)).perform (.new (some ⟨2, 1⟩))).value.2
  let v := ((Volume.setHeight 1).perform v).value.2
  ((Volume.setDepth 1).perform v).value.2

/-- What is held of `standing` and its stage. -/
def standingHeld : Program.Holdings Rat :=
  ⟨fun _ => .new none, fun _ => .new {}, fun _ => standingStage, fun _ => .new {}, standing⟩

/-- The near end of the beam looks higher and wider than the far end, by parts of a pixel. -/
theorem beam_leastWhole :
    let _ := Approximation.ofSquares
    (standing.Reachable ∧ (∀ key m, standing.transform? key = some m → m.IsAffine) ∧
      Under standing.children standingStage.root ⟨2, 1⟩ ∧ beam.reference = some ⟨2, 1⟩ ∧
      standing.modelview? ⟨2, 1⟩ standingStage.root = some towardsEye ∧
      ∀ q ∈ beam.complete.vertices, 0 < ((standingStage.projection * standingStage.eye).apply
        ((towardsEye.applyPoint q).withWeight 1)).w) ∧
    ((Program.VolumeStep.pixelRect .scene 0).edit standingHeld).perform beam =
      ⟨(.ok (.reading (.rect ⟨205, 154, 320, 240⟩)), beam), []⟩ ∧
    Rect.LeastWhole ⟨205, 154, 320, 240⟩ (beam.places standingStage towardsEye) := by
  intro _
  have haffine := (forall_isExact_iff.mp standing_isExact).1
  have hnode : Under standing.children standingStage.root ⟨2, 1⟩ := .single List.mem_cons_self
  have hroot : standing.modelview? ⟨2, 1⟩ standingStage.root = some towardsEye := by
    have hproduct : standing.modelview? ⟨2, 1⟩ standingStage.root =
        some (towardsEye * .identity) := rfl
    rw [hproduct, Mat4.mul_identity]
  have hfront : ∀ q ∈ beam.complete.vertices, 0 < ((standingStage.projection *
      standingStage.eye).apply ((towardsEye.applyPoint q).withWeight 1)).w := by
    decide +kernel
  have hreference : beam.reference = some ⟨2, 1⟩ := by decide +kernel
  obtain ⟨toRoot, rect, hroot', hperform, hleast⟩ :=
    pixelRect_leastWhole reachable_standing haffine hnode hreference fun toRoot htoRoot => by
      obtain rfl := Option.some.inj (hroot.symm.trans htoRoot)
      exact hfront
  obtain rfl := Option.some.inj (hroot.symm.trans hroot')
  have hanswer := hperform standingHeld 0 rfl rfl
  have hpixels : (standing.hierarchy.pixelRect standingStage beam).run =
      ⟨.ok ⟨205, 154, 320, 240⟩, []⟩ := by
    have hbox : (beam.project (standingStage.eye * towardsEye) standingStage.projection
        standingStage.viewport).boundingRect.toPixels = ⟨205, 154, 320, 240⟩ :=
      eq_of_beq (by decide +kernel)
    rw [← hbox]
    exact Hierarchy.run_pixelRect hreference hroot
  have hrect := hanswer.symm.trans (Program.perform_pixelRect hpixels)
  simp only [Logged.mk.injEq, Prod.mk.injEq, Except.ok.injEq, Program.Answer.reading.injEq,
    Volume.Reading.rect.injEq, and_true] at hrect
  subst hrect
  exact ⟨⟨reachable_standing, haffine, hnode, hreference, hroot, hfront⟩, hanswer, hleast⟩

end Scene

end SceneCulling
