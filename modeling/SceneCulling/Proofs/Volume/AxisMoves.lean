import SceneCulling.Proofs.Geometry.AxisMaps
import SceneCulling.Proofs.Volume.Realignment

/-!
# Moves along the axes

A transform leaves a volume off the axes, and realignment takes it back. For an affine
transform the outcome is the least box around the image of the box before. If the transform
keeps the axes, the image is a box itself, so nothing is added: the outcome is the image, and
the inverse takes it back to the box before. The faces may change their places on the way, a
flat box may be turned on its side, and the derived vertices may never have been stored.
-/

namespace SceneCulling

/-! ## Images of boxes -/

theorem inBox_iff_along {a b p : Vec3 Rat} : InBox a b p ↔
    ∀ axis, a.along axis ≤ p.along axis ∧ p.along axis ≤ b.along axis := by
  constructor
  · intro h axis
    cases axis with
    | x => exact ⟨h.left, h.right⟩
    | y => exact ⟨h.top, h.bottom⟩
    | z => exact ⟨h.front, h.back⟩
  · intro h
    exact ⟨(h .x).1, (h .x).2, (h .y).1, (h .y).2, (h .z).1, (h .z).2⟩

theorem Vec3.along_lesser (a b : Vec3 Rat) (axis : Axis) :
    (a.lesser b).along axis = min (a.along axis) (b.along axis) := by
  cases axis <;> exact Volume.lesser_eq_min _ _

theorem Vec3.along_greater (a b : Vec3 Rat) (axis : Axis) :
    (a.greater b).along axis = max (a.along axis) (b.along axis) := by
  cases axis <;> exact Volume.greater_eq_max _ _

/-- Scaling and shifting keep the order of numbers or turn it over. -/
theorem between_scaled_iff {s t a b x : Rat} (hs : s ≠ 0) (hab : a ≤ b) :
    min (s * a + t) (s * b + t) ≤ s * x + t ∧ s * x + t ≤ max (s * a + t) (s * b + t) ↔
      a ≤ x ∧ x ≤ b := by
  obtain hneg | hpos := lt_or_gt_of_ne hs
  · have hends : s * b ≤ s * a := mul_le_mul_of_nonpos_left hab hneg.le
    rw [min_eq_right (add_le_add_left hends t), max_eq_left (add_le_add_left hends t),
      add_le_add_iff_right, add_le_add_iff_right, mul_le_mul_left_of_neg hneg,
      mul_le_mul_left_of_neg hneg, and_comm]
  · have hends : s * a ≤ s * b := mul_le_mul_of_nonneg_left hab hpos.le
    rw [min_eq_left (add_le_add_left hends t), max_eq_right (add_le_add_left hends t),
      add_le_add_iff_right, add_le_add_iff_right, mul_le_mul_iff_right₀ hpos,
      mul_le_mul_iff_right₀ hpos]

namespace Mat4.KeepsAxes

variable {m : Mat4 Rat} {a b p : Vec3 Rat}

/-- The images of two opposite corners are opposite corners of the image. -/
theorem inBox_applyPoint_iff (h : m.KeepsAxes) (hbox : InBox a b b) :
    InBox ((m.applyPoint a).lesser (m.applyPoint b)) ((m.applyPoint a).greater (m.applyPoint b))
      (m.applyPoint p) ↔ InBox a b p := by
  have hordered (axis : Axis) : a.along axis ≤ b.along axis := (inBox_iff_along.mp hbox axis).1
  have hrow {row col : Axis} (hentry : m.entry row col ≠ 0) :
      ((m.applyPoint a).lesser (m.applyPoint b)).along row ≤ (m.applyPoint p).along row ∧
        (m.applyPoint p).along row ≤
          ((m.applyPoint a).greater (m.applyPoint b)).along row ↔
      a.along col ≤ p.along col ∧ p.along col ≤ b.along col := by
    rw [Vec3.along_lesser, Vec3.along_greater, h.along_applyPoint hentry,
      h.along_applyPoint hentry, h.along_applyPoint hentry]
    exact between_scaled_iff hentry (hordered col)
  rw [inBox_iff_along, inBox_iff_along]
  constructor
  · intro himage col
    obtain ⟨row, hentry, -⟩ := h.col col
    exact (hrow hentry).mp (himage row)
  · intro hin row
    obtain ⟨col, hentry, -⟩ := h.row row
    exact (hrow hentry).mpr (hin col)

/-- The image of a box is a box. -/
theorem inBox_image_iff (h : m.KeepsAxes) (hbox : InBox a b b) :
    InBox ((m.applyPoint a).lesser (m.applyPoint b)) ((m.applyPoint a).greater (m.applyPoint b))
      p ↔ ∃ q, InBox a b q ∧ m.applyPoint q = p := by
  constructor
  · intro hp
    have hback := applyPoint_inverse h.affine h.det_ne_zero p
    rw [← hback] at hp
    exact ⟨m.inverse.applyPoint p, (h.inBox_applyPoint_iff hbox).mp hp, hback⟩
  · rintro ⟨q, hq, rfl⟩
    exact (h.inBox_applyPoint_iff hbox).mpr hq

theorem isLeastBox_image (h : m.KeepsAxes) (hleast : InBox a b a) (hgreatest : InBox a b b) :
    IsLeastBox (fun p => ∃ q, InBox a b q ∧ m.applyPoint q = p)
      ((m.applyPoint a).lesser (m.applyPoint b)) ((m.applyPoint a).greater (m.applyPoint b)) := by
  have ha := (h.inBox_applyPoint_iff hgreatest).mpr hleast
  have hb := (h.inBox_applyPoint_iff hgreatest).mpr hgreatest
  exact (IsLeastBox.self (ha.lesser hb) (ha.greater hb)).congr fun _ =>
    h.inBox_image_iff hgreatest

end Mat4.KeepsAxes

namespace Volume

/-! ## Moves -/

section Moves

variable {K : Type} [Scalar K] {v : Volume K}

/-- A transform with the realignment after it. -/
def moveAligned (m : Mat4 K) : Edit (Volume K) Unit := do
  modify (transform m)
  align

/-- The box that a move leaves. -/
def movedBox (v : Volume K) (m : Mat4 K) : Volume K := (v.transform m).realigned

theorem perform_moveAligned (h : v.FlagsSound) (he : v.flags.empty = false) (m : Mat4 K) :
    (moveAligned m).perform v = ⟨(.ok (), v.movedBox m), []⟩ := by
  have hoff : (v.transform m).flags.aligned = false := by
    rw [transform, flags_mapVertices m.applyPoint he]
  have hsound : (v.transform m).FlagsSound := h.mapVertices m.applyPoint
  rw [moveAligned, Edit.perform_bind_of_silent (Edit.perform_modify (transform m) v),
    hsound.perform_align, boxed_of_not_aligned hoff]
  rfl

theorem empty_movedBox (v : Volume K) (m : Mat4 K) :
    (v.movedBox m).flags.empty = v.flags.empty :=
  (empty_realigned (v.transform m)).trans (empty_mapVertices m.applyPoint v)

end Moves

variable {v : Volume Rat} {m : Mat4 Rat}

theorem wellFormed_movedBox (he : v.flags.empty = false) (m : Mat4 Rat) :
    (v.movedBox m).WellFormed :=
  .realigned ((empty_mapVertices m.applyPoint v).trans he)

theorem keyBox_movedBox (he : v.flags.empty = false) (m : Mat4 Rat) : KeyBox (v.movedBox m) :=
  (wellFormed_movedBox he m).keys (aligned_realigned _) ((empty_movedBox v m).trans he)

/-- Whatever an affine transform is, the outcome of the move is the least box around the image
of the box. -/
theorem WellFormed.isLeastBox_movedBox (h : v.WellFormed) (ha : v.flags.aligned = true)
    (he : v.flags.empty = false) (hm : m.IsAffine) :
    IsLeastBox (fun p => ∃ q, InBox v.least v.greatest q ∧ m.applyPoint q = p)
      (v.movedBox m).least (v.movedBox m).greatest := by
  have hsolid : (v.transform m).flags.empty = false :=
    (empty_mapVertices m.applyPoint v).trans he
  have hvertices : (v.transform m).vertices = v.complete.vertices.map m.applyPoint :=
    vertices_of_mapVertices m.applyPoint he
  refine (isLeastBox_realigned hsolid).of_same_boxes fun a b => ?_
  rw [hvertices]
  constructor
  · rintro hall _ ⟨q, hq, rfl⟩
    obtain ⟨-, hhull⟩ := (h.contains_iff ha he).mpr hq
    exact InBox.of_inHull (hhull.map (Mat4.applyPoint_between hm)) hall
  · intro hall p hp
    obtain ⟨q, hq, rfl⟩ := List.mem_map.mp hp
    exact hall _ ⟨q, (h.contains_iff ha he).mp ⟨he, .vertex hq⟩, rfl⟩

/-- A move along the axes leaves exactly the image of the box. -/
theorem WellFormed.inBox_movedBox_iff (h : v.WellFormed) (ha : v.flags.aligned = true)
    (he : v.flags.empty = false) (hm : m.KeepsAxes) {p : Vec3 Rat} :
    InBox (v.movedBox m).least (v.movedBox m).greatest p ↔
      ∃ q, InBox v.least v.greatest q ∧ m.applyPoint q = p := by
  have hkeys := (h.keys ha he).toKeyEdges
  obtain ⟨hleast, hgreatest⟩ := (h.isLeastBox_movedBox ha he hm.affine).unique
    (hm.isLeastBox_image hkeys.least_inBox hkeys.greatest_inBox)
  rw [hleast, hgreatest]
  exact hm.inBox_image_iff hkeys.greatest_inBox

/-- The move by the inverse leads back to the box before. -/
theorem WellFormed.corners_movedBack (h : v.WellFormed) (ha : v.flags.aligned = true)
    (he : v.flags.empty = false) (hm : m.KeepsAxes) :
    ((v.movedBox m).movedBox m.inverse).least = v.least ∧
      ((v.movedBox m).movedBox m.inverse).greatest = v.greatest := by
  have hdet := hm.det_ne_zero
  have hback := (wellFormed_movedBox he m).isLeastBox_movedBox (aligned_realigned _)
    ((empty_movedBox v m).trans he) (hm.affine.inverse hdet)
  refine (hback.congr fun p => ?_).unique (h.keys ha he).toKeyEdges.isLeastBox
  constructor
  · rintro ⟨_, himage, rfl⟩
    obtain ⟨q, hq, rfl⟩ := (h.inBox_movedBox_iff ha he hm).mp himage
    rw [Mat4.inverse_applyPoint hm.affine hdet]
    exact hq
  · intro hp
    exact ⟨m.applyPoint p, (h.inBox_movedBox_iff ha he hm).mpr ⟨p, hp, rfl⟩,
      Mat4.inverse_applyPoint hm.affine hdet p⟩

/-- Extents are read off the key vertices. -/
theorem SameKeys.readings {u : Volume Rat} (h : u.SameKeys v) (ha : v.flags.aligned = true)
    (hempty : u.flags.empty = v.flags.empty) : ∀ reading ∈ [width, height, depth],
      ∃ x, reading.perform v = ⟨(.ok x, v), []⟩ ∧ reading.perform u = ⟨(.ok x, u), []⟩ := by
  have hua : u.flags.aligned = true := h.aligned.trans ha
  have hread {operation : Operation} {extent : Volume Rat → Rat} (hextent : extent u = extent v) :
      ∃ x, (readExtent operation extent).perform v = ⟨(.ok x, v), []⟩ ∧
        (readExtent operation extent).perform u = ⟨(.ok x, u), []⟩ := by
    refine ⟨_, perform_readExtent ha, ?_⟩
    rw [perform_readExtent hua, hextent, hempty]
  intro reading hreading
  simp only [List.mem_cons, List.not_mem_nil, or_false] at hreading
  obtain rfl | rfl | rfl := hreading
  · exact hread (by rw [h.topRight, h.topLeft])
  · exact hread (by rw [h.bottomLeft, h.topLeft])
  · exact hread (by rw [h.behind, h.topLeft])

/-- A move of a reachable aligned volume that is not empty, by a transform that keeps the axes,
succeeds without a diagnostic. It leaves an aligned volume whose box is the image of the box
before, flat iff that has no depth. The move by the inverse succeeds as well, and leaves the
position, the three extents and the flatness of the volume that the first move started from. -/
theorem Reachable.moveAligned_and_back (h : v.Reachable) (ha : v.flags.aligned = true)
    (he : v.flags.empty = false) (hm : m.KeepsAxes) :
    ∃ box back : Volume Rat,
      (moveAligned m).perform v = ⟨(.ok (), box), []⟩ ∧
      box.flags.aligned = true ∧ box.flags.empty = false ∧ KeyBox box ∧
      (∀ p, InBox box.least box.greatest p ↔
        ∃ q, InBox v.least v.greatest q ∧ m.applyPoint q = p) ∧
      m.inverse * m = .identity ∧ m * m.inverse = .identity ∧
      (moveAligned m.inverse).perform box = ⟨(.ok (), back), []⟩ ∧
      back.origin = v.origin ∧ back.flags.flat = v.flags.flat ∧
      ∀ reading ∈ [width, height, depth],
        ∃ x, reading.perform v = ⟨(.ok x, v), []⟩ ∧ reading.perform back = ⟨(.ok x, back), []⟩ := by
  have hv := h.wellFormed
  have hbox := wellFormed_movedBox he m
  have hboxEmpty : (v.movedBox m).flags.empty = false := (empty_movedBox v m).trans he
  have hbackEmpty : ((v.movedBox m).movedBox m.inverse).flags.empty = false :=
    (empty_movedBox (v.movedBox m) m.inverse).trans hboxEmpty
  have haligned := aligned_realigned ((v.movedBox m).transform m.inverse)
  obtain ⟨hleast, hgreatest⟩ := hv.corners_movedBack ha he hm
  have hsame := (keyBox_movedBox hboxEmpty m.inverse).sameKeys (hv.keys ha he)
    (haligned.trans ha.symm) hleast hgreatest
  exact ⟨v.movedBox m, (v.movedBox m).movedBox m.inverse,
    perform_moveAligned hv.toFlagsSound he m, aligned_realigned _, hboxEmpty,
    keyBox_movedBox he m, fun _ => hv.inBox_movedBox_iff ha he hm,
    Mat4.inverse_mul hm.det_ne_zero, Mat4.mul_inverse hm.det_ne_zero,
    perform_moveAligned hbox.toFlagsSound hboxEmpty m.inverse, hsame.topLeft, hsame.flat,
    hsame.readings ha (hbackEmpty.trans he.symm)⟩

/-- The x axis turns to the front, y to x and z to y, with scales and a shift. -/
def tumble : Mat4 Rat := ⟨⟨0, 0, -2, 0⟩, ⟨3, 0, 0, 0⟩, ⟨0, 1 / 2, 0, 0⟩, ⟨5, 6, 7, 1⟩⟩

theorem card_moveAligned_and_back :
    card.Reachable ∧ card.flags.aligned = true ∧ card.flags.empty = false ∧
      tumble.KeepsAxes ∧ card.flags.flat = true ∧
      ∃ box back : Volume Rat,
        (moveAligned tumble).perform card = ⟨(.ok (), box), []⟩ ∧ box.flags.flat = false ∧
        (∀ p, InBox box.least box.greatest p ↔
          ∃ q, InBox card.least card.greatest q ∧ tumble.applyPoint q = p) ∧
        (moveAligned tumble.inverse).perform box = ⟨(.ok (), back), []⟩ ∧
        back.origin = card.origin ∧ back.flags.flat = true ∧
        (width.perform back).value.1 = .ok 1 := by
  have hreachable : card.Reachable := .setHeight 1 (.setWidth 1 (.new none))
  have ha : card.flags.aligned = true := by decide +kernel
  have he : card.flags.empty = false := by decide +kernel
  have hflat : card.flags.flat = true := by decide +kernel
  have hkeeps : tumble.KeepsAxes := by decide +kernel
  have hdeep : ((moveAligned tumble).perform card).value.2.flags.flat = false := by decide +kernel
  have hwidth : (width.perform card).value.1 = .ok 1 := by decide +kernel
  obtain ⟨box, back, hrun, -, -, -, himage, -, -, hback, horigin, hsame, hread⟩ :=
    Reachable.moveAligned_and_back hreachable ha he hkeeps
  rw [hrun] at hdeep
  obtain ⟨x, hbefore, hafter⟩ := hread width (by simp)
  rw [hbefore] at hwidth
  refine ⟨hreachable, ha, he, hkeeps, hflat, box, back, hrun, hdeep, himage, hback, horigin,
    hsame.trans hflat, ?_⟩
  rw [hafter]
  exact hwidth

end Volume

end SceneCulling
