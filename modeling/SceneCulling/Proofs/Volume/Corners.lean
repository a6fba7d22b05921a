import SceneCulling.Proofs.Volume.Region

/-!
# Extents and corners

The box of a reachable volume in the terms of its vertices. In exact arithmetic the key
vertices of an aligned volume stand at three extents from its position, none of them negative,
and so are the extents that can be read. The vertices that count after completion are the
corners of one box: a single point if the volume is empty, four corners if it is flat.
-/

namespace SceneCulling.Volume

variable {v : Volume Rat}

/-- The key vertices stand at these extents from the position, along the axes. -/
structure HasExtents (v : Volume Rat) (w h d : Rat) : Prop where
  right : v.front.topRight = v.front.topLeft + ⟨w, 0, 0⟩
  below : v.front.bottomLeft = v.front.topLeft + ⟨0, h, 0⟩
  behind : v.back.topLeft = v.front.topLeft + ⟨0, 0, d⟩

/-- The point is a corner of the box between two corners. -/
structure IsCorner (least greatest p : Vec3 Rat) : Prop where
  x : p.x = least.x ∨ p.x = greatest.x
  y : p.y = least.y ∨ p.y = greatest.y
  z : p.z = least.z ∨ p.z = greatest.z

/-! ## Extents -/

theorem KeyEdges.hasExtents (h : KeyEdges v) : v.HasExtents (v.greatest.x - v.least.x)
    (v.greatest.y - v.least.y) (v.greatest.z - v.least.z) := by
  obtain ⟨hry, hrz, hbx, hbz, hdx, hdy, -, -, -⟩ := h
  simp only [least, greatest] at *
  constructor <;> ext <;>
    simp only [Vec3.add_x, Vec3.add_y, Vec3.add_z, add_zero, add_sub_cancel, *]

/-- The extents of an aligned volume can be read, and are not negative. -/
theorem WellFormed.readExtent_nonneg (h : v.WellFormed) {operation : Operation}
    {extent : Volume Rat → Rat} (hextent : KeyEdges v → 0 ≤ extent v) :
    (v.flags.aligned = true →
      ∃ x, ((readExtent operation extent).perform v).value.1 = .ok x) ∧
    ∀ x, ((readExtent operation extent).perform v).value.1 = .ok x → 0 ≤ x := by
  cases ha : v.flags.aligned with
  | false =>
      have hrefused : (readExtent operation extent).perform v =
          ⟨(.error (.notAligned operation), v), [(Fault.notAligned operation).entry]⟩ := by
        rw [readExtent, Edit.perform_bind_of_error (perform_requireAligned_refused ha)]
      rw [hrefused]
      exact ⟨fun off => absurd off (by decide), fun _ hx => absurd hx (by simp)⟩
  | true =>
      rw [perform_readExtent ha]
      refine ⟨fun _ => ⟨_, rfl⟩, fun x hx => ?_⟩
      obtain rfl := Except.ok.inj hx
      cases he : v.flags.empty with
      | true => exact le_refl _
      | false => exact hextent (h.keys ha he).toKeyEdges

/-! ## Corners -/

theorem mem_faceAt_iff {least greatest p : Vec3 Rat} {z : Rat} : p ∈ faceAt least greatest z ↔
    (p.x = least.x ∨ p.x = greatest.x) ∧ (p.y = least.y ∨ p.y = greatest.y) ∧ p.z = z := by
  constructor
  · intro h
    simp only [faceAt, List.mem_cons, List.not_mem_nil, or_false] at h
    rcases h with rfl | rfl | rfl | rfl <;> simp
  · rintro ⟨hx, hy, hz⟩
    have hp : p = ⟨p.x, p.y, z⟩ := by rw [← hz]
    rw [hp]
    exact mem_faceAt (by simpa using hx) (by simpa using hy)

/-- After completion the vertices that count are the corners of the box, all of them. -/
theorem WellFormed.mem_vertices_complete_iff (h : v.WellFormed) (ha : v.flags.aligned = true)
    (he : v.flags.empty = false) {q : Vec3 Rat} :
    q ∈ v.complete.vertices ↔ IsCorner v.least v.greatest q := by
  have hflat := (h.keys ha he).flat_iff
  rw [h.vertices_complete ha he, List.mem_append, mem_faceAt_iff]
  cases hf : v.flags.flat with
  | true =>
      have hdepth := hflat.mp hf
      constructor
      · rintro (⟨hx, hy, hz⟩ | hback)
        · exact ⟨hx, hy, .inl hz⟩
        · exact absurd hback (by simp)
      · rintro ⟨hx, hy, hz⟩
        rw [hdepth, or_self] at hz
        exact .inl ⟨hx, hy, hz⟩
  | false =>
      simp only [Bool.false_eq_true, if_false, mem_faceAt_iff]
      constructor
      · rintro (⟨hx, hy, hz⟩ | ⟨hx, hy, hz⟩)
        · exact ⟨hx, hy, .inl hz⟩
        · exact ⟨hx, hy, .inr hz⟩
      · rintro ⟨hx, hy, hz | hz⟩
        · exact .inl ⟨hx, hy, hz⟩
        · exact .inr ⟨hx, hy, hz⟩

/-- An empty volume has one vertex that counts, which is a box of its own. -/
theorem mem_vertices_of_empty (he : v.flags.empty = true) {q : Vec3 Rat} :
    q ∈ v.complete.vertices ↔ IsCorner v.front.topLeft v.front.topLeft q := by
  have hsame : v.complete = v := by simp [complete, he]
  rw [hsame, vertices, if_pos he, List.mem_singleton]
  constructor
  · rintro rfl
    exact ⟨.inl rfl, .inl rfl, .inl rfl⟩
  · rintro ⟨hx, hy, hz⟩
    rw [or_self] at hx hy hz
    ext
    exacts [hx, hy, hz]

/-! ## The invariant -/

/-- Every reachable volume is what its flags say. If it is empty, it is marked flat. If it is
aligned and not empty, its key vertices stand at three extents that are not negative, the depth
is zero iff it is marked flat, and up-to-date derived vertices complete the box. Therefore no
extent that is read is negative, and the completed vertices of an aligned volume are the
corners of one box. -/
theorem Reachable.extents_corners (h : v.Reachable) :
    (v.flags.empty = true → v.flags.flat = true) ∧
    (v.flags.aligned = true → v.flags.empty = false →
      (∃ w h d : Rat, 0 ≤ w ∧ 0 ≤ h ∧ 0 ≤ d ∧ v.HasExtents w h d ∧
        (v.flags.flat = true ↔ d = 0)) ∧
      (v.flags.complete = true → DerivedCorners v)) ∧
    (∀ reading ∈ [width, height, depth],
      (v.flags.aligned = true → ∃ x, (reading.perform v).value.1 = .ok x) ∧
        ∀ x, (reading.perform v).value.1 = .ok x → 0 ≤ x) ∧
    (v.flags.aligned = true → ∃ least greatest : Vec3 Rat, InBox least greatest least ∧
      ∀ q, q ∈ v.complete.vertices ↔ IsCorner least greatest q) := by
  have hwell := h.wellFormed
  refine ⟨hwell.flat_of_empty, fun ha he => ⟨?_, hwell.derived ha he⟩, ?_, fun ha => ?_⟩
  · have hkeys := hwell.keys ha he
    refine ⟨_, _, _, sub_nonneg.mpr hkeys.width, sub_nonneg.mpr hkeys.height,
      sub_nonneg.mpr hkeys.depth, hkeys.hasExtents, ?_⟩
    rw [sub_eq_zero]
    exact hkeys.flat_iff
  · intro reading hreading
    simp only [List.mem_cons, List.not_mem_nil, or_false] at hreading
    rcases hreading with rfl | rfl | rfl
    · exact hwell.readExtent_nonneg fun hedges => sub_nonneg.mpr hedges.width
    · exact hwell.readExtent_nonneg fun hedges => sub_nonneg.mpr hedges.height
    · exact hwell.readExtent_nonneg fun hedges => sub_nonneg.mpr hedges.depth
  · cases he : v.flags.empty with
    | true =>
        exact ⟨v.front.topLeft, v.front.topLeft, ⟨le_refl _, le_refl _, le_refl _, le_refl _,
          le_refl _, le_refl _⟩, fun q => mem_vertices_of_empty he⟩
    | false =>
        have hkeys := hwell.keys ha he
        exact ⟨v.least, v.greatest, ⟨le_refl _, hkeys.width, le_refl _, hkeys.height,
          le_refl _, hkeys.depth⟩, fun q => hwell.mem_vertices_complete_iff ha he⟩

/-- A solid that was sheared, brought back to the axes and completed. -/
def levelled : Volume Rat :=
  let wide := ((setWidth 1).perform (.new none)).value.2
  let flat := ((setHeight 2).perform wide).value.2
  let solid := ((setDepth 3).perform flat).value.2
  let sheared := solid.transform ⟨⟨1, 1, 0, 0⟩, ⟨0, 1, 0, 0⟩, ⟨0, 0, 1, 0⟩, ⟨0, 0, 0, 1⟩⟩
  (align.perform sheared).value.2.complete

theorem levelled_extents_corners :
    levelled.Reachable ∧ levelled.flags = ⟨false, true, true, false⟩ ∧
      (∃ w h d : Rat, 0 ≤ w ∧ 0 ≤ h ∧ 0 ≤ d ∧ levelled.HasExtents w h d ∧
        (levelled.flags.flat = true ↔ d = 0)) ∧
      DerivedCorners levelled ∧
      ((height.perform levelled).value.1 = .ok 3 ∧ (0 : Rat) ≤ 3) ∧
      ∃ least greatest : Vec3 Rat, InBox least greatest least ∧
        ∀ q, q ∈ levelled.complete.vertices ↔ IsCorner least greatest q := by
  have hreachable : levelled.Reachable :=
    .complete (.align (.transform _ (.setDepth 3 (.setHeight 2 (.setWidth 1 (.new none))))))
  have hflags : levelled.flags = ⟨false, true, true, false⟩ := by decide +kernel
  have ha : levelled.flags.aligned = true := by rw [hflags]
  have he : levelled.flags.empty = false := by rw [hflags]
  have hc : levelled.flags.complete = true := by rw [hflags]
  have hedge : levelled.front.bottomLeft.y - levelled.front.topLeft.y = 3 := by decide +kernel
  have hheight : (height.perform levelled).value.1 = .ok 3 := by
    rw [height, perform_readExtent ha, hflags, hedge]
    rfl
  obtain ⟨-, hbox, hread, hcorners⟩ := Reachable.extents_corners hreachable
  obtain ⟨hextents, hderived⟩ := hbox ha he
  exact ⟨hreachable, hflags, hextents, hderived hc,
    ⟨hheight, (hread height (by simp)).2 3 hheight⟩, hcorners ha⟩

end SceneCulling.Volume
