import SceneCulling.Proofs.Volume.Corners
import SceneCulling.Volume.Visibility

/-!
# What a classification says about the region

In exact arithmetic a shape is out iff one plane has all its vertices outside, and in iff
no plane has any. Both extend to the hull of the vertices, so a shape within the hull of
another one shares the verdicts `inside` and `outside` with it, and the verdict on a volume
is one on the solid that it bounds. A program that takes the planes in turn comes to the
same verdict, in whatever order it takes them.
-/

namespace SceneCulling

namespace SidePlanes

/-! ## One plane after the other -/

section Turns

variable {K : Type} [Scalar K] {planes planes' : SidePlanes K} (ps : List (Vec3 K))

/-- The verdict of a pass over the planes. It ends at a plane with all points outside; until
then `cut` holds whether a plane had some of them outside. -/
def classifyInTurn : List (Plane K) → (cut : Bool) → Visibility
  | [], cut => if cut then .partly else .inside
  | plane :: rest, cut =>
      if plane.countOutside ps == ps.length then .outside
      else classifyInTurn rest (cut || plane.countOutside ps != 0)

/-- An earlier plane that cuts the shape does not save it from a later one that rejects it. -/
theorem classifyInTurn_eq (rest : List (Plane K)) (cut : Bool) : classifyInTurn ps rest cut =
    if rest.any fun plane => plane.countOutside ps == ps.length then .outside
    else if cut || rest.any fun plane => plane.countOutside ps != 0 then .partly
    else .inside := by
  induction rest generalizing cut with
  | nil => simp [classifyInTurn]
  | cons plane rest ih =>
      rw [classifyInTurn, ih, List.any_cons, List.any_cons, ← Bool.or_assoc]
      cases plane.countOutside ps == ps.length with
      | true => rfl
      | false => rfl

theorem classify_eq_inTurn (planes : SidePlanes K) :
    planes.classify ps = classifyInTurn ps planes.toList false := by
  rw [classifyInTurn_eq, Bool.false_or, classify]

/-- The order of the planes makes no difference. -/
theorem classify_perm (h : planes'.toList.Perm planes.toList) :
    planes'.classify ps = planes.classify ps := by
  rw [classify, classify, h.any_eq, h.any_eq]

end Turns

/-! ## Vertices and hulls -/

variable {planes : SidePlanes Rat} {ps qs : List (Vec3 Rat)}

theorem classify_eq_outside_iff : planes.classify ps = .outside ↔
    ∃ plane ∈ planes.toList, ∀ p ∈ ps, plane.signedDistance p < 0 := by
  have hany : (planes.toList.any fun plane => plane.countOutside ps == ps.length) = true ↔
      ∃ plane ∈ planes.toList, ∀ p ∈ ps, plane.signedDistance p < 0 := by
    simp [Plane.countOutside, List.countP_eq_length]
  rw [← hany, classify]
  split
  · next h => simp [h]
  · next h =>
      refine iff_of_false ?_ h
      split <;> simp

theorem classify_eq_inside_iff (hne : ps ≠ []) : planes.classify ps = .inside ↔
    ∀ plane ∈ planes.toList, ∀ p ∈ ps, 0 ≤ plane.signedDistance p := by
  have hany : (planes.toList.any fun plane => plane.countOutside ps != 0) = true ↔
      ¬ ∀ plane ∈ planes.toList, ∀ p ∈ ps, 0 ≤ plane.signedDistance p := by
    simp [Plane.countOutside, List.countP_eq_zero]
  by_cases hout : planes.classify ps = .outside
  · refine iff_of_false (by rw [hout]; decide) fun hin => ?_
    obtain ⟨plane, hplane, hneg⟩ := classify_eq_outside_iff.mp hout
    obtain ⟨p, hp⟩ := List.exists_mem_of_ne_nil ps hne
    exact absurd (hin plane hplane p hp) (not_le.mpr (hneg p hp))
  · have hfirst : ¬ (planes.toList.any fun plane => plane.countOutside ps == ps.length) = true :=
      fun h => hout (by rw [classify, if_pos h])
    rw [classify, if_neg hfirst]
    by_cases hpart : (planes.toList.any fun plane => plane.countOutside ps != 0) = true
    · rw [if_pos hpart]
      exact iff_of_false (by decide) (hany.mp hpart)
    · rw [if_neg hpart]
      exact iff_of_true rfl (not_not.mp fun h => hpart (hany.mpr h))

/-- A shape is out iff one plane has its whole hull outside. -/
theorem classify_outside_iff_hull : planes.classify ps = .outside ↔
    ∃ plane ∈ planes.toList, ∀ p, InHull ps p → plane.signedDistance p < 0 := by
  rw [classify_eq_outside_iff]
  constructor
  · rintro ⟨plane, hplane, hneg⟩
    exact ⟨plane, hplane, fun p hp => hp.signedDistance_neg hneg⟩
  · rintro ⟨plane, hplane, hneg⟩
    exact ⟨plane, hplane, fun p hp => hneg p (.vertex hp)⟩

/-- A shape is in iff no point of its hull is outside of any plane. -/
theorem classify_inside_iff_hull (hne : ps ≠ []) : planes.classify ps = .inside ↔
    ∀ plane ∈ planes.toList, ∀ p, InHull ps p → ¬ plane.signedDistance p < 0 := by
  rw [classify_eq_inside_iff hne]
  refine forall₂_congr fun plane _ => ?_
  constructor
  · intro hvertices p hp
    exact not_lt.mpr (hp.signedDistance_nonneg hvertices)
  · intro hhull p hp
    exact not_lt.mp (hhull p (.vertex hp))

/-- What is within the hull of a shape that is out, is out. -/
theorem classify_outside_of_hull (h : planes.classify qs = .outside)
    (hull : ∀ p ∈ ps, InHull qs p) : planes.classify ps = .outside := by
  obtain ⟨plane, hplane, hneg⟩ := classify_eq_outside_iff.mp h
  exact classify_eq_outside_iff.mpr
    ⟨plane, hplane, fun p hp => (hull p hp).signedDistance_neg hneg⟩

/-- What is within the hull of a shape that is in, is in. -/
theorem classify_inside_of_hull (hne : ps ≠ []) (hne' : qs ≠ [])
    (h : planes.classify qs = .inside) (hull : ∀ p ∈ ps, InHull qs p) :
    planes.classify ps = .inside := by
  rw [classify_eq_inside_iff hne'] at h
  rw [classify_eq_inside_iff hne]
  exact fun plane hplane p hp => (hull p hp).signedDistance_nonneg (h plane hplane)

/-- A shape whose hull meets the view is not out. -/
theorem classify_ne_outside_of_hull {p : Vec3 Rat} (hp : InHull ps p)
    (visible : ∀ plane ∈ planes.toList, 0 ≤ plane.signedDistance p) :
    planes.classify ps ≠ .outside := by
  intro h
  obtain ⟨plane, hplane, hneg⟩ := classify_eq_outside_iff.mp h
  exact absurd (visible plane hplane) (not_le.mpr (hp.signedDistance_neg hneg))

end SidePlanes

namespace Volume

variable {v : Volume Rat}

theorem vertices_ne_nil (v : Volume Rat) : v.vertices ≠ [] := by
  rw [vertices_eq_cons]
  exact List.cons_ne_nil _ _

/-- A complete volume in eye space is classified by its vertices. -/
theorem visibility_of_complete (planes : SidePlanes Rat) (he : v.flags.empty = false)
    (hc : v.flags.complete = true) (hr : v.reference = none) :
    v.visibility planes = ⟨planes.classify v.vertices, []⟩ := by
  rw [visibility, he, hc, hr]
  rfl

theorem visibility_eq_classify (planes : SidePlanes Rat) (he : v.flags.empty = false)
    (hc : v.flags.complete = true) (hr : v.reference = none) :
    (v.visibility planes).value = planes.classify v.vertices := by
  rw [visibility_of_complete planes he hc hr]

/-- A copy taken to eye space is classified by the images of the vertices that count. -/
theorem visibility_transform (planes : SidePlanes Rat) (m : Mat4 Rat)
    (he : v.flags.empty = false) :
    (((v.transform m).withReference none).visibility planes).value =
      planes.classify (v.complete.vertices.map m.applyPoint) := by
  have hflags : (v.transform m).flags = { v.flags with aligned := false, complete := true } :=
    flags_mapVertices m.applyPoint he
  have hempty : (v.transform m).flags.empty = false := (empty_mapVertices _ v).trans he
  have hcomplete : (v.transform m).flags.complete = true := by rw [hflags]
  rw [← vertices_of_mapVertices m.applyPoint he]
  exact visibility_eq_classify (v := (v.transform m).withReference none) planes hempty
    hcomplete rfl

/-! ## The verdict on a volume -/

/-- What a classification answers to a volume in eye space that is complete: it is out iff one
plane has all of the solid strictly outside, in iff no plane has any point of it strictly
outside, and partly visible otherwise. -/
structure Classified (v : Volume Rat) (planes : SidePlanes Rat) (answer : Visibility) : Prop where
  outside_iff : answer = .outside ↔
    ∃ plane ∈ planes.toList, ∀ p, InHull v.vertices p → plane.signedDistance p < 0
  inside_iff : answer = .inside ↔
    ∀ plane ∈ planes.toList, ∀ p, InHull v.vertices p → ¬ plane.signedDistance p < 0
  partly_iff : answer = .partly ↔
    (∃ plane ∈ planes.toList, ∃ p, InHull v.vertices p ∧ plane.signedDistance p < 0) ∧
      ∀ plane ∈ planes.toList, ∃ p, InHull v.vertices p ∧ ¬ plane.signedDistance p < 0

theorem classified_classify (v : Volume Rat) (planes : SidePlanes Rat) :
    v.Classified planes (planes.classify v.vertices) := by
  have hne := vertices_ne_nil v
  refine ⟨SidePlanes.classify_outside_iff_hull, SidePlanes.classify_inside_iff_hull hne, ?_⟩
  have hthird : planes.classify v.vertices = .partly ↔
      planes.classify v.vertices ≠ .inside ∧ planes.classify v.vertices ≠ .outside := by
    cases planes.classify v.vertices <;> decide
  rw [hthird, ne_eq, ne_eq, SidePlanes.classify_inside_iff_hull hne,
    SidePlanes.classify_outside_iff_hull]
  push Not
  rfl

theorem visibility_of_empty (planes : SidePlanes Rat) (he : v.flags.empty = true) :
    v.visibility planes = ⟨.outside, []⟩ := by
  rw [visibility, he]
  rfl

/-- A volume that cannot be classified counts as visible, with one warning. -/
theorem visibility_of_unfit (planes : SidePlanes Rat) (he : v.flags.empty = false)
    (h : v.flags.complete = false ∨ v.reference ≠ none) :
    ∃ message, v.visibility planes =
      ⟨.inside, [{ severity := .warn, source := Component.volume.text, message }]⟩ := by
  cases hc : v.flags.complete with
  | false =>
      rw [visibility, he, hc]
      exact ⟨_, rfl⟩
  | true =>
      obtain ⟨node, hr⟩ := Option.ne_none_iff_exists'.mp (h.resolve_left (by simp [hc]))
      rw [visibility, he, hc, hr]
      exact ⟨_, rfl⟩

/-- The classification of any volume against any four planes, whatever their origins and
normals. A volume that is complete and in eye space gets the verdict that its solid deserves,
without a diagnostic. It is the verdict of a pass over the planes, and any four planes that are
the same in another order give the same one. An empty volume is out. Every other volume is
taken for visible, with one warning. -/
theorem visibility_hull (v : Volume Rat) (planes : SidePlanes Rat) :
    (v.flags.empty = false → v.flags.complete = true → v.reference = none →
      ∃ answer, v.visibility planes = ⟨answer, []⟩ ∧ v.Classified planes answer ∧
        answer = SidePlanes.classifyInTurn v.vertices planes.toList false ∧
        ∀ planes' : SidePlanes Rat, planes'.toList.Perm planes.toList →
          v.visibility planes' = ⟨answer, []⟩) ∧
    (v.flags.empty = true → v.visibility planes = ⟨.outside, []⟩) ∧
    (v.flags.empty = false → (v.flags.complete = false ∨ v.reference ≠ none) →
      ∃ message, v.visibility planes =
        ⟨.inside, [{ severity := .warn, source := Component.volume.text, message }]⟩) := by
  refine ⟨fun he hc hr => ?_, visibility_of_empty planes, visibility_of_unfit planes⟩
  refine ⟨planes.classify v.vertices, visibility_of_complete planes he hc hr,
    classified_classify v planes, SidePlanes.classify_eq_inTurn v.vertices planes, ?_⟩
  intro planes' hperm
  rw [visibility_of_complete planes' he hc hr, SidePlanes.classify_perm v.vertices hperm]

/-- A plane without direction, one through the middle of `levelled`, and one beyond it. -/
def crossing : SidePlanes Rat :=
  ⟨⟨⟨0, 0, 0⟩, ⟨0, 0, 0⟩⟩, ⟨⟨1 / 2, 0, 0⟩, ⟨1, 0, 0⟩⟩, ⟨⟨0, 0, 5⟩, ⟨0, 0, 1⟩⟩,
    ⟨⟨1 / 2, 0, 0⟩, ⟨-1, 0, 0⟩⟩⟩

theorem levelled_visibility_hull :
    levelled.flags = ⟨false, true, true, false⟩ ∧ levelled.reference = none ∧
      levelled.visibility crossing = ⟨.outside, []⟩ ∧
      (∃ plane ∈ crossing.toList, ∀ p, InHull levelled.vertices p →
        plane.signedDistance p < 0) ∧
      levelled.visibility ⟨crossing.bottom, crossing.right, crossing.left, crossing.top⟩ =
        ⟨.outside, []⟩ ∧
      ∃ message, (levelled.withReference (some ⟨1, 1⟩)).visibility crossing =
        ⟨.inside, [{ severity := .warn, source := Component.volume.text, message }]⟩ := by
  have hflags : levelled.flags = ⟨false, true, true, false⟩ := by decide +kernel
  have hr : levelled.reference = none := by decide +kernel
  have he : levelled.flags.empty = false := by rw [hflags]
  have hc : levelled.flags.complete = true := by rw [hflags]
  have hpass : SidePlanes.classifyInTurn levelled.vertices crossing.toList false = .outside := by
    decide +kernel
  obtain ⟨hfit, -, -⟩ := visibility_hull levelled crossing
  obtain ⟨-, -, hunfit⟩ := visibility_hull (levelled.withReference (some ⟨1, 1⟩)) crossing
  obtain ⟨answer, hrun, hclassified, hturns, hany⟩ := hfit he hc hr
  obtain rfl : answer = .outside := hturns.trans hpass
  have hperm : [crossing.bottom, crossing.right, crossing.left, crossing.top].Perm
      crossing.toList :=
    (List.reverse_perm [crossing.left, crossing.right, crossing.bottom]).append_right _
  exact ⟨hflags, hr, hrun, hclassified.outside_iff.mp rfl, hany _ hperm,
    hunfit he (.inr (by simp [withReference]))⟩

end Volume

end SceneCulling
