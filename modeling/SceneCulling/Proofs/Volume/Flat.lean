import SceneCulling.Proofs.Volume.Reachable
import SceneCulling.Proofs.Geometry.Sameness
import SceneCulling.Proofs.Scalar.Binary32
import SceneCulling.Volume.Transform
import SceneCulling.Volume.Visibility

/-!
# Flat volumes and boxes without depth

The back face of a flat volume is never moved and never read. This has to come to the same as
to treat the volume as a box whose back face lies on its front face, wherever the volume is
taken. The two are followed side by side here: transforms and projections keep the vertices of
the box in pairs on those of the flat volume, so nothing that is read off the box differs.

The statements hold in floating point, where the same point may be written in several ways,
so they relate numbers by `Scalar.Same`.
-/

namespace SceneCulling

namespace Volume

variable {K : Type} {v : Volume K}

theorem front_mapVertices (f : Vec3 K → Vec3 K) (h : v.flags.empty = false) :
    (v.mapVertices f).front = v.complete.front.map f := by
  rw [mapVertices, h]
  rfl

theorem back_mapVertices (f : Vec3 K → Vec3 K) (h : v.flags.empty = false)
    (hdeep : v.flags.flat = false) : (v.mapVertices f).back = v.complete.back.map f := by
  rw [mapVertices, h]
  simp [hdeep]

/-- The front face after completion, where the derived vertex is either known or computed. -/
theorem front_complete (he : v.flags.empty = false) : v.complete.front =
    { v.front with
      bottomRight := if v.flags.complete then v.front.bottomRight else
        ⟨v.front.topRight.x, v.front.bottomLeft.y, v.front.topLeft.z⟩ } := by
  cases hc : v.flags.complete with
  | true => rw [complete_of_complete hc, if_pos rfl]
  | false =>
      rw [complete_of_incomplete hc he]
      rfl

end Volume

variable {K : Type} [Scalar K]

structure Face.Same (f g : Face K) : Prop where
  topLeft : f.topLeft.Same g.topLeft
  topRight : f.topRight.Same g.topRight
  bottomRight : f.bottomRight.Same g.bottomRight
  bottomLeft : f.bottomLeft.Same g.bottomLeft

theorem Face.Same.toList {f g : Face K} (h : f.Same g) :
    List.Forall₂ Vec3.Same f.toList g.toList :=
  .cons h.topLeft (.cons h.topRight (.cons h.bottomRight (.cons h.bottomLeft .nil)))

namespace Volume

/-- The same key vertices. -/
structure KeysSame (u v : Volume K) : Prop where
  topLeft : u.front.topLeft.Same v.front.topLeft
  topRight : u.front.topRight.Same v.front.topRight
  bottomLeft : u.front.bottomLeft.Same v.front.bottomLeft
  rear : u.back.topLeft.Same v.back.topLeft

/-- The key edges of the front face run along the axes, up to what arithmetic can tell. -/
structure Upright (v : Volume K) : Prop where
  topRight_y : Scalar.Same v.front.topRight.y v.front.topLeft.y
  topRight_z : Scalar.Same v.front.topRight.z v.front.topLeft.z
  bottomLeft_x : Scalar.Same v.front.bottomLeft.x v.front.topLeft.x
  bottomLeft_z : Scalar.Same v.front.bottomLeft.z v.front.topLeft.z

/-- The derived vertex of the front face lies where completion puts it. -/
def FrontDerived (v : Volume K) : Prop :=
  v.front.bottomRight.Same ⟨v.front.topRight.x, v.front.bottomLeft.y, v.front.topLeft.z⟩

variable [Ranked K]

/-! ## The front face of an aligned volume -/

namespace Upright

variable {v box : Volume K}

theorem gathered (h : v.flags.empty = false → v.Upright) : v.gathered.Upright := by
  rw [Volume.gathered]
  split
  case isTrue => exact ⟨.refl _, .refl _, .refl _, .refl _⟩
  case isFalse he => exact h (Bool.not_eq_true _ ▸ he)

theorem movedTo (h : v.Upright) (p : Vec3 K) : (v.movedTo p).Upright :=
  ⟨h.topRight_y.add (.refl _), h.topRight_z.add (.refl _), h.bottomLeft_x.add (.refl _),
    h.bottomLeft_z.add (.refl _)⟩

theorem reachLeft (h : v.Upright) (x : K) : (v.reachLeft x).Upright := by
  rw [Volume.reachLeft]
  split
  · exact ⟨h.topRight_y, h.topRight_z, .refl _, h.bottomLeft_z⟩
  · exact h

omit [Ranked K] in
theorem reachRight (h : v.Upright) (x : K) : (v.reachRight x).Upright := by
  rw [Volume.reachRight]
  split
  · exact ⟨h.topRight_y, h.topRight_z, h.bottomLeft_x, h.bottomLeft_z⟩
  · exact h

theorem reachTop (h : v.Upright) (y : K) : (v.reachTop y).Upright := by
  rw [Volume.reachTop]
  split
  · exact ⟨.refl _, h.topRight_z, h.bottomLeft_x, h.bottomLeft_z⟩
  · exact h

omit [Ranked K] in
theorem reachBottom (h : v.Upright) (y : K) : (v.reachBottom y).Upright := by
  rw [Volume.reachBottom]
  split
  · exact ⟨h.topRight_y, h.topRight_z, h.bottomLeft_x, h.bottomLeft_z⟩
  · exact h

theorem reachFront (h : v.Upright) (z : K) : (v.reachFront z).Upright := by
  rw [Volume.reachFront]
  split
  · exact ⟨h.topRight_y, .refl _, h.bottomLeft_x, .refl _⟩
  · exact h

omit [Ranked K] in
theorem reachBack (h : v.Upright) (z : K) : (v.reachBack z).Upright := by
  rw [Volume.reachBack]
  split
  · exact ⟨h.topRight_y, h.topRight_z, h.bottomLeft_x, h.bottomLeft_z⟩
  · exact h

theorem stretched (h : v.Upright) (box : Volume K) : (v.stretched box).Upright :=
  ((((((h.reachLeft _).reachRight _).reachTop _).reachBottom _).reachFront _).reachBack _)

theorem enclose (h : v.flags.empty = false → v.Upright) (hbox : box.Upright) :
    (v.enclose box).Upright := by
  cases he : v.flags.empty with
  | true =>
      rw [enclose_of_empty he]
      exact ⟨hbox.topRight_y, hbox.topRight_z, hbox.bottomLeft_x, hbox.bottomLeft_z⟩
  | false =>
      rw [enclose_of_not_empty he, grow_eq]
      have hgrown := (h he).stretched box
      exact ⟨hgrown.topRight_y, hgrown.topRight_z, hgrown.bottomLeft_x, hgrown.bottomLeft_z⟩

end Upright

/-- What is known about the front face of an aligned volume that is not empty. -/
def FrontSound (v : Volume K) : Prop :=
  v.flags.aligned = true → v.flags.empty = false →
    v.Upright ∧ (v.flags.complete = true → v.FrontDerived)

namespace FrontSound

variable {v : Volume K}

omit [Ranked K] in
/-- An operation that leaves the derived vertices out of date has to take care of the edges
only. -/
theorem of_incomplete (hc : v.flags.complete = false) (h : v.Upright) : v.FrontSound :=
  fun _ _ => ⟨h, fun hc' => absurd (hc.symm.trans hc') (by decide)⟩

theorem complete (h : v.FrontSound) : v.complete.FrontSound := by
  intro ha he
  rw [flags_complete] at ha he
  obtain ⟨hupright, hderived⟩ := h ha he
  cases hc : v.flags.complete with
  | true =>
      rw [complete_of_complete hc]
      exact ⟨hupright, hderived⟩
  | false =>
      rw [complete_of_incomplete hc he]
      exact ⟨⟨hupright.1, hupright.2, hupright.3, hupright.4⟩, fun _ => Vec3.Same.refl _⟩

omit [Ranked K] in
theorem mapVertices (v : Volume K) (f : Vec3 K → Vec3 K) : (v.mapVertices f).FrontSound := by
  intro ha he
  cases hempty : v.flags.empty with
  | true =>
      rw [flags_mapVertices_of_empty f hempty] at he
      exact absurd (hempty.symm.trans he) (by decide)
  | false =>
      rw [flags_mapVertices f hempty] at ha
      cases ha

theorem realigned (v : Volume K) : v.realigned.FrontSound := by
  intro _ _
  rw [Volume.realigned]
  split
  case isTrue hbox =>
    obtain ⟨hfront, -⟩ := Bool.and_eq_true_iff.mp hbox
    simp only [frontIsBox, Bool.and_eq_true] at hfront
    obtain ⟨⟨⟨⟨hby, hbz⟩, -⟩, ⟨hdx, hdz⟩, -⟩, hc⟩ := hfront
    exact ⟨⟨.of_beq hby, .of_beq hbz, .of_beq hdx, .of_beq hdz⟩, fun _ => .of_beq hc⟩
  case isFalse =>
    exact ⟨⟨.refl _, .refl _, .refl _, .refl _⟩, fun hc => by cases hc⟩

end FrontSound

theorem Reachable.frontSound {v : Volume K} (h : v.Reachable) : v.FrontSound := by
  refine h.induct ?new ?withReference ?complete ?movedTo ?withWidth ?withHeight ?withDepth
    ?mapVertices ?realigned ?enclose
  case new =>
    intro reference _ he
    cases he
  case withReference =>
    intro v reference hv ha he
    obtain ⟨hupright, hderived⟩ := hv ha he
    exact ⟨⟨hupright.1, hupright.2, hupright.3, hupright.4⟩, hderived⟩
  case complete => exact fun v hv => hv.complete
  case movedTo =>
    intro v p _ hv ha he
    exact ⟨(hv ha he).1.movedTo p, fun hc => by cases hc⟩
  case withWidth =>
    intro v x ha _ hv
    have hgathered := Upright.gathered fun he => (hv ha he).1
    exact .of_incomplete rfl ⟨hgathered.1, hgathered.2, hgathered.3, hgathered.4⟩
  case withHeight =>
    intro v x ha _ hv
    have hgathered := Upright.gathered fun he => (hv ha he).1
    exact .of_incomplete rfl ⟨hgathered.1, hgathered.2, hgathered.3, hgathered.4⟩
  case withDepth =>
    intro v x ha _ hv
    have hgathered := Upright.gathered fun he => (hv ha he).1
    exact .of_incomplete rfl ⟨hgathered.1, hgathered.2, hgathered.3, hgathered.4⟩
  case mapVertices => exact fun v f _ => .mapVertices v f
  case realigned => exact fun v _ _ _ _ => .realigned v
  case enclose =>
    intro v box ha he hboxAligned hv hbox
    exact .of_incomplete rfl
      (.enclose (fun he' => (hv ha he').1) (hbox hboxAligned he).1)

/-! ## A box that coincides with a flat volume -/

/-- The second volume is a box whose front and back face both are the front face of the first
volume, which is flat. -/
structure Coincide (card box : Volume K) : Prop where
  solid : card.flags.empty = false
  flat : card.flags.flat = true
  box_solid : box.flags.empty = false
  box_deep : box.flags.flat = false
  box_complete : box.flags.complete = true
  reference : card.reference = box.reference
  front : card.complete.front.Same box.front
  back : card.complete.front.Same box.back

/-- A flat volume as a box, with its derived vertices found anew. -/
def unflattened (v : Volume K) : Volume K :=
  ({ v with flags.flat := false, flags.complete := false } : Volume K).complete

/-- A change of all vertices that count, by a transform of space or by a projection to the
window. -/
inductive Motion (K : Type) where
  | transform (m : Mat4 K)
  | project (modelview projection : Mat4 K) (view : Viewport K)

def Motion.map : Motion K → Vec3 K → Vec3 K
  | .transform m => m.applyPoint
  | .project modelview projection view => view.windowPoint (projection * modelview)

def Motion.apply : Motion K → Volume K → Volume K
  | .transform m => Volume.transform m
  | .project modelview projection view => Volume.project modelview projection view

/-- The volume after some motions, one after the other. -/
def movedBy (v : Volume K) (motions : List (Motion K)) : Volume K :=
  motions.foldl (fun v motion => motion.apply v) v

omit [Ranked K] in
theorem Motion.apply_eq (motion : Motion K) (v : Volume K) :
    motion.apply v = v.mapVertices motion.map := by
  cases motion <;> rfl

theorem Motion.map_same (motion : Motion K) {p q : Vec3 K} (h : p.Same q) :
    (motion.map p).Same (motion.map q) := by
  cases motion with
  | transform m => exact m.applyPoint_same h
  | project modelview projection view => exact view.windowPoint_same _ h

theorem Motion.face_same (motion : Motion K) {f g : Face K} (h : f.Same g) :
    (f.map motion.map).Same (g.map motion.map) :=
  ⟨motion.map_same h.topLeft, motion.map_same h.topRight, motion.map_same h.bottomRight,
    motion.map_same h.bottomLeft⟩

omit [Ranked K] in
theorem Motion.flags_apply (motion : Motion K) {v : Volume K} (h : v.flags.empty = false) :
    (motion.apply v).flags = { v.flags with aligned := false, complete := true } := by
  rw [motion.apply_eq, flags_mapVertices motion.map h]

namespace Coincide

variable {card box v : Volume K}

/-- Flattening has lost nothing: the box is found again from the front face, if the vertex
behind it has been kept there. -/
theorem unflattened (h : v.FrontSound) (ha : v.flags.aligned = true)
    (he : v.flags.empty = false) (hflat : v.flags.flat = true)
    (hrear : v.back.topLeft.Same v.front.topLeft) : Coincide v v.unflattened := by
  obtain ⟨hupright, hderived⟩ := h ha he
  have hbox : v.unflattened = { v with
      front.bottomRight := ⟨v.front.topRight.x, v.front.bottomLeft.y, v.front.topLeft.z⟩
      back := ⟨v.back.topLeft, ⟨v.front.topRight.x, v.front.topLeft.y, v.back.topLeft.z⟩,
        ⟨v.front.topRight.x, v.front.bottomLeft.y, v.back.topLeft.z⟩,
        ⟨v.front.topLeft.x, v.front.bottomLeft.y, v.back.topLeft.z⟩⟩
      flags := ⟨v.flags.empty, v.flags.aligned, true, false⟩ } := by
    have hstale : ({ v with flags.flat := false, flags.complete := false } :
        Volume K).flags.complete = false := rfl
    rw [Volume.unflattened, complete_of_incomplete hstale he]
    rfl
  have hcorner : v.complete.front.bottomRight.Same
      ⟨v.front.topRight.x, v.front.bottomLeft.y, v.front.topLeft.z⟩ := by
    rw [front_complete he]
    cases hc : v.flags.complete with
    | true => exact hderived hc
    | false => exact .refl _
  rw [front_complete he] at hcorner
  rw [hbox]
  refine ⟨he, hflat, he, rfl, rfl, rfl, ?_, ?_⟩
  · rw [front_complete he]
    exact ⟨.refl _, .refl _, hcorner, .refl _⟩
  · have hz := hrear.z.symm
    rw [front_complete he]
    exact ⟨hrear.symm, ⟨.refl _, hupright.topRight_y, hupright.topRight_z.trans hz⟩,
      ⟨hcorner.x, hcorner.y, hcorner.z.trans hz⟩,
      ⟨hupright.bottomLeft_x, .refl _, hupright.bottomLeft_z.trans hz⟩⟩

theorem apply (h : Coincide card box) (motion : Motion K) :
    Coincide (motion.apply card) (motion.apply box) := by
  have hcard := motion.flags_apply h.solid
  have hbox := motion.flags_apply h.box_solid
  have hcomplete : (motion.apply card).complete = motion.apply card :=
    complete_of_complete (by rw [hcard])
  refine ⟨by rw [hcard]; exact h.solid, by rw [hcard]; exact h.flat,
    by rw [hbox]; exact h.box_solid, by rw [hbox]; exact h.box_deep, by rw [hbox], ?_, ?_, ?_⟩
  · rw [motion.apply_eq, motion.apply_eq, reference_mapVertices, reference_mapVertices,
      h.reference]
  · rw [hcomplete, motion.apply_eq, motion.apply_eq, front_mapVertices _ h.solid,
      front_mapVertices _ h.box_solid, complete_of_complete h.box_complete]
    exact motion.face_same h.front
  · rw [hcomplete, motion.apply_eq, motion.apply_eq, front_mapVertices _ h.solid,
      back_mapVertices _ h.box_solid h.box_deep, complete_of_complete h.box_complete]
    exact motion.face_same h.back

theorem movedBy (h : Coincide card box) (motions : List (Motion K)) :
    Coincide (card.movedBy motions) (box.movedBy motions) := by
  induction motions generalizing card box with
  | nil => exact h
  | cons motion motions ih => exact ih (h.apply motion)

end Coincide

/-! ## Least boxes around points that are given twice -/

section Twice

variable {p p' : Vec3 K} {ps ps' qs : List (Vec3 K)}

omit [Ranked K] in
theorem forall₂_map_same {f : Vec3 K → K}
    (hf : ∀ {a b : Vec3 K}, a.Same b → Scalar.Same (f a) (f b))
    (h : List.Forall₂ Vec3.Same ps ps') : List.Forall₂ Scalar.Same (ps.map f) (ps'.map f) := by
  rw [List.forall₂_map_left_iff, List.forall₂_map_right_iff]
  exact h.imp fun _ _ hab => hf hab

theorem foldl_map_twice {op : K → K → K}
    {pick : Ranked.Place K → Ranked.Place K → Ranked.Place K}
    [Std.Associative pick] [Std.IdempotentOp pick]
    (hop : ∀ a b, Ranked.place (op a b) = Option.merge pick (Ranked.place a) (Ranked.place b))
    {f : Vec3 K → K} (hf : ∀ {a b : Vec3 K}, a.Same b → Scalar.Same (f a) (f b))
    (hp : p.Same p') (hps : List.Forall₂ Vec3.Same ps ps')
    (hqs : List.Forall₂ Vec3.Same (p :: ps) qs) :
    Scalar.Same ((ps.map f).foldl op (f p)) (((ps' ++ qs).map f).foldl op (f p')) := by
  rw [List.map_append]
  exact .foldl_twice hop (hf hp) (forall₂_map_same hf hps) (forall₂_map_same hf hqs)

omit [Ranked K] in
theorem leastCorner_eq (p : Vec3 K) (ps : List (Vec3 K)) : leastCorner p ps =
    ⟨(ps.map Vec3.x).foldl Scalar.lesser p.x, (ps.map Vec3.y).foldl Scalar.lesser p.y,
      (ps.map Vec3.z).foldl Scalar.lesser p.z⟩ := by
  induction ps generalizing p with
  | nil => rfl
  | cons q ps ih => exact ih (p.lesser q)

omit [Ranked K] in
theorem greatestCorner_eq (p : Vec3 K) (ps : List (Vec3 K)) : greatestCorner p ps =
    ⟨(ps.map Vec3.x).foldl Scalar.greater p.x, (ps.map Vec3.y).foldl Scalar.greater p.y,
      (ps.map Vec3.z).foldl Scalar.greater p.z⟩ := by
  induction ps generalizing p with
  | nil => rfl
  | cons q ps ih => exact ih (p.greater q)

omit [Ranked K] in
theorem rectAround_eq (p : Vec3 K) (ps : List (Vec3 K)) : rectAround p ps =
    ⟨(leastCorner p ps).x, (leastCorner p ps).y, (greatestCorner p ps).x,
      (greatestCorner p ps).y⟩ := by
  have hextend (r : Rect K) (a b : Vec3 K) (hr : r = ⟨a.x, a.y, b.x, b.y⟩) :
      ps.foldl (fun r q => r.extend q.x q.y) r = ⟨(leastCorner a ps).x, (leastCorner a ps).y,
        (greatestCorner b ps).x, (greatestCorner b ps).y⟩ := by
    induction ps generalizing r a b with
    | nil => exact hr
    | cons q ps ih => exact ih _ (a.lesser q) (b.greater q) (by rw [hr]; rfl)
  exact hextend _ p p rfl

theorem leastCorner_twice (hp : p.Same p') (hps : List.Forall₂ Vec3.Same ps ps')
    (hqs : List.Forall₂ Vec3.Same (p :: ps) qs) :
    (leastCorner p ps).Same (leastCorner p' (ps' ++ qs)) := by
  rw [leastCorner_eq, leastCorner_eq]
  exact ⟨foldl_map_twice Ranked.place_lesser Vec3.Same.x hp hps hqs,
    foldl_map_twice Ranked.place_lesser Vec3.Same.y hp hps hqs,
    foldl_map_twice Ranked.place_lesser Vec3.Same.z hp hps hqs⟩

theorem greatestCorner_twice (hp : p.Same p') (hps : List.Forall₂ Vec3.Same ps ps')
    (hqs : List.Forall₂ Vec3.Same (p :: ps) qs) :
    (greatestCorner p ps).Same (greatestCorner p' (ps' ++ qs)) := by
  rw [greatestCorner_eq, greatestCorner_eq]
  exact ⟨foldl_map_twice Ranked.place_greater Vec3.Same.x hp hps hqs,
    foldl_map_twice Ranked.place_greater Vec3.Same.y hp hps hqs,
    foldl_map_twice Ranked.place_greater Vec3.Same.z hp hps hqs⟩

theorem countOutside_same (plane : Plane K) (h : List.Forall₂ Vec3.Same ps ps') :
    plane.countOutside ps = plane.countOutside ps' := by
  simp only [Plane.countOutside]
  induction h with
  | nil => rfl
  | @cons p q _ _ hpq _ ih =>
      rw [List.countP_cons, List.countP_cons, ih,
        (plane.signedDistance_same hpq).decide_lt (.refl 0)]

theorem classify_twice (planes : SidePlanes K) (hps : List.Forall₂ Vec3.Same ps ps')
    (hqs : List.Forall₂ Vec3.Same ps qs) : planes.classify ps = planes.classify (ps' ++ qs) := by
  have hcount (plane : Plane K) :
      plane.countOutside (ps' ++ qs) = plane.countOutside ps + plane.countOutside ps := by
    rw [Plane.countOutside, List.countP_append]
    exact congrArg₂ (· + ·) (countOutside_same plane hps).symm (countOutside_same plane hqs).symm
  have hlength : (ps' ++ qs).length = ps.length + ps.length := by
    rw [List.length_append, ← hps.length_eq, ← hqs.length_eq]
  have hall (plane : Plane K) : (plane.countOutside (ps' ++ qs) == (ps' ++ qs).length) =
      (plane.countOutside ps == ps.length) := by
    rw [hcount, hlength, Bool.eq_iff_iff, beq_iff_eq, beq_iff_eq]
    omega
  have hsome (plane : Plane K) : (plane.countOutside (ps' ++ qs) != 0) =
      (plane.countOutside ps != 0) := by
    rw [hcount, Bool.eq_iff_iff, bne_iff_ne, bne_iff_ne]
    omega
  simp only [SidePlanes.classify, hall, hsome]

end Twice

/-! ## What is read off the box -/

namespace Coincide

variable {card box v : Volume K}

omit [Ranked K] in
theorem vertices_card (h : Coincide card box) :
    card.complete.vertices = card.complete.front.toList := by
  have he : card.complete.flags.empty = false := by rw [flags_complete]; exact h.solid
  have hf : card.complete.flags.flat = true := by rw [flags_complete]; exact h.flat
  rw [vertices_of_not_empty he, hf]
  exact List.append_nil _

omit [Ranked K] in
theorem vertices_box (h : Coincide card box) :
    box.vertices = box.front.toList ++ box.back.toList := by
  rw [vertices_of_not_empty h.box_solid, h.box_deep]
  rfl

omit [Ranked K] in
theorem topLeft (h : Coincide card box) : card.front.topLeft.Same box.front.topLeft := by
  have htopLeft := h.front.topLeft
  rw [front_complete h.solid] at htopLeft
  exact htopLeft

theorem corners (h : Coincide card box) :
    (leastCorner card.front.topLeft card.complete.vertices.tail).Same
        (leastCorner box.front.topLeft box.vertices.tail) ∧
      (greatestCorner card.front.topLeft card.complete.vertices.tail).Same
        (greatestCorner box.front.topLeft box.vertices.tail) := by
  have hfront := h.front.toList
  have hback := h.back.toList
  rw [h.vertices_card, h.vertices_box]
  rw [front_complete h.solid] at hfront hback ⊢
  obtain ⟨htopLeft, hrest⟩ := List.forall₂_cons.mp hfront
  exact ⟨leastCorner_twice htopLeft hrest hback, greatestCorner_twice htopLeft hrest hback⟩

theorem boundingRect (h : Coincide card box) : card.boundingRect.Same box.boundingRect := by
  obtain ⟨hleast, hgreatest⟩ := h.corners
  rw [Volume.boundingRect, Volume.boundingRect, complete_of_complete h.box_complete,
    rectAround_eq, rectAround_eq]
  exact ⟨hleast.x, hleast.y, hgreatest.x, hgreatest.y⟩

theorem visibility (h : Coincide card box) (hc : card.flags.complete = true)
    (planes : SidePlanes K) : card.visibility planes = box.visibility planes := by
  have hclassify : planes.classify card.vertices = planes.classify box.vertices := by
    have hcard := h.vertices_card
    rw [complete_of_complete hc] at hcard
    have hfront := h.front.toList
    have hback := h.back.toList
    rw [complete_of_complete hc] at hfront hback
    rw [hcard, h.vertices_box]
    exact classify_twice planes hfront hback
  rw [Volume.visibility, Volume.visibility, h.solid, h.box_solid, hc, h.box_complete,
    h.reference, hclassify]

end Coincide

/-! ## Realignment -/

theorem frontIsBox_same {u v : Volume K} (h : u.front.Same v.front) :
    u.frontIsBox = v.frontIsBox := by
  have hcorner : Vec3.Same ⟨u.front.topRight.x, u.front.bottomLeft.y, u.front.topLeft.z⟩
      ⟨v.front.topRight.x, v.front.bottomLeft.y, v.front.topLeft.z⟩ :=
    ⟨h.topRight.x, h.bottomLeft.y, h.topLeft.z⟩
  simp only [frontIsBox]
  rw [h.topRight.y.beq h.topLeft.y, h.topRight.z.beq h.topLeft.z,
    h.topLeft.x.decide_le h.topRight.x, h.bottomLeft.x.beq h.topLeft.x,
    h.bottomLeft.z.beq h.topLeft.z, h.topLeft.y.decide_le h.bottomLeft.y,
    h.bottomRight.beq hcorner]

/-- If the front face is that of a box, no number of it is missing but for the sake of the
comparisons. So the same face behind it is where the box ends. -/
theorem backIsBox_of_frontIsBox {v : Volume K} (hsame : v.front.Same v.back)
    (h : v.frontIsBox = true) : v.backIsBox = true := by
  simp only [frontIsBox, Bool.and_eq_true, decide_eq_true_eq] at h
  obtain ⟨⟨⟨⟨hby, hbz⟩, hright⟩, ⟨hdx, hdz⟩, hbelow⟩, hc⟩ := h
  have hax := BEq.trans (BEq.symm hdx) hdx
  have hay := BEq.trans (BEq.symm hby) hby
  have haz := BEq.trans (BEq.symm hbz) hbz
  have hbx := Scalar.beq_self_of_le hright
  have hdy := Scalar.beq_self_of_le hbelow
  have hdepth (x y : K) : Vec3.Same ⟨x, y, v.back.topLeft.z⟩ ⟨x, y, v.front.topLeft.z⟩ :=
    ⟨.refl x, .refl y, hsame.topLeft.z.symm⟩
  simp only [backIsBox, Bool.and_eq_true, decide_eq_true_eq]
  refine ⟨⟨⟨⟨⟨?_, ?_⟩, ?_⟩, ?_⟩, ?_⟩, ?_⟩
  · rw [hsame.topLeft.x.symm.beq (.refl _), hax]
  · rw [hsame.topLeft.y.symm.beq (.refl _), hay]
  · exact ((Scalar.Same.refl _).le hsame.topLeft.z).mp (Scalar.le_of_beq haz)
  · rw [hsame.topRight.symm.beq (hdepth _ _), Vec3.beq_eq, hbx, hby, hbz]
    rfl
  · rw [hsame.bottomRight.symm.beq (hdepth _ _), hc]
  · rw [hsame.bottomLeft.symm.beq (hdepth _ _), Vec3.beq_eq, hdx, hdy, hdz]
    rfl

namespace Coincide

variable {card box v : Volume K}

theorem isBox (h : Coincide card box) (hc : card.flags.complete = true) :
    card.isBox = box.isBox := by
  have hfront := h.front
  have hback := h.back
  rw [complete_of_complete hc] at hfront hback
  have hboxes : box.front.Same box.back :=
    ⟨hfront.topLeft.symm.trans hback.topLeft, hfront.topRight.symm.trans hback.topRight,
      hfront.bottomRight.symm.trans hback.bottomRight,
      hfront.bottomLeft.symm.trans hback.bottomLeft⟩
  rw [Volume.isBox, Volume.isBox, h.flat, h.box_deep, frontIsBox_same hfront]
  cases hbox : box.frontIsBox with
  | false => rfl
  | true =>
      rw [backIsBox_of_frontIsBox hboxes hbox]
      rfl

theorem realigned (h : Coincide card box) (hc : card.flags.complete = true) :
    card.realigned.KeysSame box.realigned ∧
      card.realigned.flags.flat = box.realigned.flags.flat := by
  have hfront := h.front
  have hback := h.back
  have hcorners := h.corners
  rw [complete_of_complete hc] at hfront hback hcorners
  rw [Volume.realigned, Volume.realigned, h.isBox hc]
  split
  case isTrue hbox =>
    simp only [markAligned, h.flat, h.box_deep, if_true]
    exact ⟨⟨hfront.topLeft, hfront.topRight, hfront.bottomLeft, hback.topLeft⟩,
      hback.topLeft.z.beq hfront.topLeft.z⟩
  case isFalse =>
    obtain ⟨hleast, hgreatest⟩ := hcorners
    exact ⟨⟨hleast, ⟨hgreatest.x, hleast.y, hleast.z⟩, ⟨hleast.x, hgreatest.y, hleast.z⟩,
      ⟨hleast.x, hleast.y, hgreatest.z⟩⟩, hgreatest.z.beq hleast.z⟩

end Coincide

/-! ## Union -/

namespace KeysSame

variable {u v box box' : Volume K} {x x' : K}

omit [Ranked K] in
theorem ite {p q : Prop} [Decidable p] [Decidable q] {a a' : Volume K} (hpq : p ↔ q)
    (h : u.KeysSame v) (h' : a.KeysSame a') :
    (if p then u else a).KeysSame (if q then v else a') := by
  by_cases hp : p
  · rw [if_pos hp, if_pos (hpq.mp hp)]
    exact h
  · rw [if_neg hp, if_neg (mt hpq.mpr hp)]
    exact h'

theorem reachLeft (h : u.KeysSame v) (hx : Scalar.Same x x') :
    (u.reachLeft x).KeysSame (v.reachLeft x') :=
  .ite (hx.lt h.topLeft.x) ⟨⟨hx, h.topLeft.y, h.topLeft.z⟩, h.topRight,
    ⟨hx, h.bottomLeft.y, h.bottomLeft.z⟩, ⟨hx, h.rear.y, h.rear.z⟩⟩ h

theorem reachRight (h : u.KeysSame v) (hx : Scalar.Same x x') :
    (u.reachRight x).KeysSame (v.reachRight x') :=
  .ite (h.topRight.x.lt hx)
    ⟨h.topLeft, ⟨hx, h.topRight.y, h.topRight.z⟩, h.bottomLeft, h.rear⟩ h

theorem reachTop (h : u.KeysSame v) (hx : Scalar.Same x x') :
    (u.reachTop x).KeysSame (v.reachTop x') :=
  .ite (hx.lt h.topLeft.y) ⟨⟨h.topLeft.x, hx, h.topLeft.z⟩, ⟨h.topRight.x, hx, h.topRight.z⟩,
    h.bottomLeft, ⟨h.rear.x, hx, h.rear.z⟩⟩ h

theorem reachBottom (h : u.KeysSame v) (hx : Scalar.Same x x') :
    (u.reachBottom x).KeysSame (v.reachBottom x') :=
  .ite (h.bottomLeft.y.lt hx)
    ⟨h.topLeft, h.topRight, ⟨h.bottomLeft.x, hx, h.bottomLeft.z⟩, h.rear⟩ h

theorem reachFront (h : u.KeysSame v) (hx : Scalar.Same x x') :
    (u.reachFront x).KeysSame (v.reachFront x') :=
  .ite (hx.lt h.topLeft.z) ⟨⟨h.topLeft.x, h.topLeft.y, hx⟩, ⟨h.topRight.x, h.topRight.y, hx⟩,
    ⟨h.bottomLeft.x, h.bottomLeft.y, hx⟩, h.rear⟩ h

theorem reachBack (h : u.KeysSame v) (hx : Scalar.Same x x') :
    (u.reachBack x).KeysSame (v.reachBack x') :=
  .ite (h.rear.z.lt hx) ⟨h.topLeft, h.topRight, h.bottomLeft, ⟨h.rear.x, h.rear.y, hx⟩⟩ h

theorem refl (v : Volume K) : v.KeysSame v := ⟨.refl _, .refl _, .refl _, .refl _⟩

theorem stretched (h : u.KeysSame v) (hbox : box.KeysSame box') :
    (u.stretched box).KeysSame (v.stretched box') :=
  (((((h.reachLeft hbox.topLeft.x).reachRight hbox.topRight.x).reachTop
    hbox.topLeft.y).reachBottom hbox.bottomLeft.y).reachFront hbox.topLeft.z).reachBack
    hbox.rear.z

/-- A volume grows alike around volumes with the same key vertices. -/
theorem enclose (v : Volume K) (hbox : box.KeysSame box')
    (hflat : box.flags.flat = box'.flags.flat) :
    (v.enclose box).KeysSame (v.enclose box') ∧
      (v.enclose box).flags.flat = (v.enclose box').flags.flat := by
  cases he : v.flags.empty with
  | true =>
      rw [enclose_of_empty he, enclose_of_empty he]
      exact ⟨⟨hbox.topLeft, hbox.topRight, hbox.bottomLeft, hbox.rear⟩, hflat⟩
  | false =>
      have hgrown := (KeysSame.refl v).stretched hbox
      rw [enclose_of_not_empty he, enclose_of_not_empty he, grow_eq, grow_eq]
      exact ⟨⟨hgrown.topLeft, hgrown.topRight, hgrown.bottomLeft, hgrown.rear⟩,
        hgrown.rear.z.beq hgrown.topLeft.z⟩

end KeysSame

/-! ## Wherever the volume is taken -/

omit [Ranked K] in
theorem flags_movedBy {v : Volume K} {motions : List (Motion K)} (hne : motions ≠ [])
    (he : v.flags.empty = false) :
    (v.movedBy motions).flags = { v.flags with aligned := false, complete := true } := by
  induction motions generalizing v with
  | nil => exact absurd rfl hne
  | cons motion motions ih =>
      have hfirst := motion.flags_apply he
      cases motions with
      | nil => exact hfirst
      | cons next rest =>
          change ((motion.apply v).movedBy (next :: rest)).flags = _
          rw [ih (List.cons_ne_nil _ _) (by rw [hfirst]; exact he), hfirst]

/-- To leave the back face of a flat volume alone comes to the same as to move it along. Take
any flat volume that a program can make, with the vertex behind the position at the position,
and the box without depth that has its front face for both faces. After the same transforms
and projections of both, in any arithmetic, the front faces are the same and so are the
bounding rectangles; the two are classified alike against any side planes; realignment gives
the same key vertices and marks both flat or neither; and any aligned volume that is united
with one of them gets the same key vertices and flags as with the other one. -/
theorem Reachable.flat_as_box {v : Volume K} (h : v.Reachable)
    (ha : v.flags.aligned = true) (he : v.flags.empty = false) (hflat : v.flags.flat = true)
    (hrear : v.back.topLeft.Same v.front.topLeft) {motions : List (Motion K)}
    (hne : motions ≠ []) :
    let card := v.movedBy motions
    let box := v.unflattened.movedBy motions
    card.front.Same box.front ∧ card.boundingRect.Same box.boundingRect ∧
    (∀ planes : SidePlanes K, card.visibility planes = box.visibility planes) ∧
    (∃ card' box', Volume.align.perform card = ⟨(.ok (), card'), []⟩ ∧
      Volume.align.perform box = ⟨(.ok (), box'), []⟩ ∧ card'.KeysSame box' ∧
      card'.flags.flat = box'.flags.flat) ∧
    ∀ u : Volume K, u.flags.aligned = true → ∃ withCard withBox,
      (Volume.union card).perform u = ⟨(.ok (), withCard), []⟩ ∧
      (Volume.union box).perform u = ⟨(.ok (), withBox), []⟩ ∧ withCard.KeysSame withBox ∧
      withCard.flags.empty = withBox.flags.empty ∧ withCard.flags.flat = withBox.flags.flat := by
  intro card box
  have hstart := Coincide.unflattened h.frontSound ha he hflat hrear
  have hcoincide : Coincide card box := hstart.movedBy motions
  have hcard := flags_movedBy hne he
  have hbox := flags_movedBy hne hstart.box_solid
  have hc : card.flags.complete = true := by rw [hcard]
  have hfront := hcoincide.front
  rw [complete_of_complete hc] at hfront
  obtain ⟨hkeys, hdepth⟩ := hcoincide.realigned hc
  have halignCard : Volume.align.perform card = ⟨(.ok (), card.realigned), []⟩ :=
    perform_align hcoincide.solid (by rw [hcard]) hc
  have halignBox : Volume.align.perform box = ⟨(.ok (), box.realigned), []⟩ :=
    perform_align hcoincide.box_solid (by rw [hbox]) hcoincide.box_complete
  refine ⟨hfront, hcoincide.boundingRect, hcoincide.visibility hc,
    ⟨_, _, halignCard, halignBox, hkeys, hdepth⟩, fun u hu => ?_⟩
  obtain ⟨hgrown, hgrownDepth⟩ := KeysSame.enclose u hkeys hdepth
  exact ⟨_, _, perform_union hu hcoincide.solid halignCard,
    perform_union hu hcoincide.box_solid halignBox, hgrown, rfl, hgrownDepth⟩

/-- A card on the floor of a stage, in single precision. -/
def floorCard : Volume Float32 :=
  let wide := ((setWidth 3).perform (.new none)).value.2
  let card := ((setHeight 2).perform wide).value.2
  ((setOrigin ⟨1, 2, -10⟩).perform card).value.2

/-- A tilt out of the plane of the card, then a perspective onto a window. -/
def tiltAndProject : List (Motion Float32) :=
  [.transform ⟨⟨3 / 5, 0, 4 / 5, 0⟩, ⟨0, 1, 0, 0⟩, ⟨-4 / 5, 0, 3 / 5, 0⟩, ⟨0, 0, -20, 1⟩⟩,
    .project .identity ⟨⟨1, 0, 0, 0⟩, ⟨0, 1, 0, 0⟩, ⟨0, 0, -1, -1⟩, ⟨0, 0, -2, 0⟩⟩
      (.ofRect 0 0 640 480)]

theorem floorCard_as_box :
    let card := floorCard.movedBy tiltAndProject
    let box := floorCard.unflattened.movedBy tiltAndProject
    floorCard.Reachable ∧ floorCard.flags.aligned = true ∧ floorCard.flags.empty = false ∧
    floorCard.flags.flat = true ∧ floorCard.back.topLeft.Same floorCard.front.topLeft ∧
    tiltAndProject ≠ [] ∧ card.vertices.length = 4 ∧ box.vertices.length = 8 ∧
    card.boundingRect.Same box.boundingRect ∧
    (∀ planes : SidePlanes Float32, card.visibility planes = box.visibility planes) := by
  intro card box
  have hreachable : floorCard.Reachable := .setOrigin _ (.setHeight 2 (.setWidth 3 (.new none)))
  have ha : floorCard.flags.aligned = true := by decide +kernel
  have he : floorCard.flags.empty = false := by decide +kernel
  have hflat : floorCard.flags.flat = true := by decide +kernel
  have hrear : floorCard.back.topLeft.Same floorCard.front.topLeft := .of_beq (by decide +kernel)
  have hne : tiltAndProject ≠ [] := List.cons_ne_nil _ _
  obtain ⟨-, hrect, hvisibility, -⟩ := Reachable.flat_as_box hreachable ha he hflat hrear hne
  refine ⟨hreachable, ha, he, hflat, hrear, hne, ?_, ?_, hrect, hvisibility⟩
  · decide +kernel
  · decide +kernel

end Volume

end SceneCulling
