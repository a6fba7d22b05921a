import SceneCulling.Proofs.Volume.Box

/-!
# The region of a volume

A volume bounds the hull of its vertices that count, taken after completion, and an empty
volume bounds nothing. Realignment and union only ever enlarge the region, and a transform
that keeps segments moves it. For an aligned volume the region is its box.
-/

namespace SceneCulling.Volume

/-- The point is in the solid that the volume describes. -/
def Contains (v : Volume Rat) (p : Vec3 Rat) : Prop :=
  v.flags.empty = false ∧ InHull v.complete.vertices p

variable {v : Volume Rat} {p : Vec3 Rat}

theorem topLeft_mem_vertices (v : Volume Rat) : v.front.topLeft ∈ v.vertices := by
  rw [vertices_eq_cons]
  exact List.mem_cons_self

/-- A volume that is not empty bounds its position at least. -/
theorem exists_contains (he : v.flags.empty = false) : ∃ p, v.Contains p :=
  ⟨v.complete.front.topLeft, he, .vertex (topLeft_mem_vertices _)⟩

/-! ## Boxes -/

/-- The corners of a box at one depth, in the order around a face. -/
def faceAt (least greatest : Vec3 Rat) (z : Rat) : List (Vec3 Rat) :=
  [⟨least.x, least.y, z⟩, ⟨greatest.x, least.y, z⟩, ⟨greatest.x, greatest.y, z⟩,
    ⟨least.x, greatest.y, z⟩]

theorem mem_faceAt {least greatest : Vec3 Rat} {x y z : Rat} (hx : x ∈ [least.x, greatest.x])
    (hy : y ∈ [least.y, greatest.y]) : (⟨x, y, z⟩ : Vec3 Rat) ∈ faceAt least greatest z := by
  simp only [List.mem_cons, List.not_mem_nil, or_false] at hx hy
  rcases hx with rfl | rfl <;> rcases hy with rfl | rfl <;> simp [faceAt]

theorem KeyEdges.inBox_of_mem_faceAt (h : KeyEdges v) {z : Rat} (hl : v.least.z ≤ z)
    (hg : z ≤ v.greatest.z) {q : Vec3 Rat} (hq : q ∈ faceAt v.least v.greatest z) :
    InBox v.least v.greatest q := by
  have hw := h.width
  have hh := h.height
  simp only [faceAt, List.mem_cons, List.not_mem_nil, or_false] at hq
  rcases hq with rfl | rfl | rfl | rfl
  · exact ⟨le_refl _, hw, le_refl _, hh, hl, hg⟩
  · exact ⟨hw, le_refl _, le_refl _, hh, hl, hg⟩
  · exact ⟨hw, le_refl _, hh, le_refl _, hl, hg⟩
  · exact ⟨le_refl _, hw, hh, le_refl _, hl, hg⟩

theorem KeyEdges.topRight_eq (h : KeyEdges v) :
    v.front.topRight = ⟨v.greatest.x, v.least.y, v.least.z⟩ := by
  ext
  exacts [rfl, h.right_y, h.right_z]

theorem KeyEdges.bottomLeft_eq (h : KeyEdges v) :
    v.front.bottomLeft = ⟨v.least.x, v.greatest.y, v.least.z⟩ := by
  ext
  exacts [h.below_x, rfl, h.below_z]

theorem KeyEdges.behind_eq (h : KeyEdges v) :
    v.back.topLeft = ⟨v.least.x, v.least.y, v.greatest.z⟩ := by
  ext
  exacts [h.behind_x, h.behind_y, rfl]

/-- The vertices that count are the corners of the box: one face of a flat box, both faces
of a solid one. -/
theorem KeyBox.vertices_eq (h : KeyBox v) (hcorners : DerivedCorners v)
    (he : v.flags.empty = false) : v.vertices = faceAt v.least v.greatest v.least.z ++
      if v.flags.flat then [] else faceAt v.least v.greatest v.greatest.z := by
  have hfront : v.front.toList = faceAt v.least v.greatest v.least.z := by
    simp only [Face.toList, faceAt, h.topRight_eq, h.bottomLeft_eq, hcorners.front]
    rfl
  cases hf : v.flags.flat with
  | true => simp [vertices, he, hf, hfront]
  | false =>
      obtain ⟨hbtr, hbbr, hbbl⟩ := hcorners.back hf
      have hback : v.back.toList = faceAt v.least v.greatest v.greatest.z := by
        simp only [Face.toList, faceAt, h.behind_eq, hbtr, hbbr, hbbl]
      simp [vertices, he, hf, stored, hfront, hback]

/-- After completion the vertices that count are the corners of the box. -/
theorem WellFormed.vertices_complete (h : v.WellFormed) (ha : v.flags.aligned = true)
    (he : v.flags.empty = false) : v.complete.vertices = faceAt v.least v.greatest v.least.z ++
      if v.flags.flat then [] else faceAt v.least v.greatest v.greatest.z := by
  have hkeys := (h.keys ha he).completed
  have hcorners : DerivedCorners v.complete :=
    h.completed.derived (by rw [flags_complete]; exact ha) (by rw [flags_complete]; exact he)
      (by simp [he])
  rw [hkeys.vertices_eq hcorners (by rw [flags_complete]; exact he), flags_complete,
    least_complete, greatest_complete]

/-- The region of an aligned volume is its box. -/
theorem WellFormed.contains_iff (h : v.WellFormed) (ha : v.flags.aligned = true)
    (he : v.flags.empty = false) : v.Contains p ↔ InBox v.least v.greatest p := by
  have hkeys := h.keys ha he
  rw [Contains, h.vertices_complete ha he]
  constructor
  · rintro ⟨-, hp⟩
    refine InBox.of_inHull hp fun q hq => ?_
    rcases List.mem_append.mp hq with hfront | hback
    · exact hkeys.inBox_of_mem_faceAt (le_refl _) hkeys.depth hfront
    · cases hf : v.flags.flat with
      | true => simp [hf] at hback
      | false =>
          simp only [hf, Bool.false_eq_true, if_false] at hback
          exact hkeys.inBox_of_mem_faceAt hkeys.depth (le_refl _) hback
  · intro hp
    refine ⟨he, .of_inBox hp fun x hx y hy z hz => .vertex (List.mem_append.mpr ?_)⟩
    simp only [List.mem_cons, List.not_mem_nil, or_false] at hz
    rcases hz with rfl | rfl
    · exact .inl (mem_faceAt hx hy)
    · cases hf : v.flags.flat with
      | true =>
          rw [hkeys.flat_iff.mp hf]
          exact .inl (mem_faceAt hx hy)
      | false => exact .inr (by simpa using mem_faceAt hx hy)

/-! ## Transforms -/

/-- A map that keeps segments moves the region with the vertices. -/
theorem Contains.mapVertices {f : Vec3 Rat → Vec3 Rat}
    (segments : ∀ a b t, f (a.between b t) = (f a).between (f b) t) (h : v.Contains p) :
    (v.mapVertices f).Contains (f p) := by
  obtain ⟨he, hp⟩ := h
  refine ⟨(empty_mapVertices f v).trans he, ?_⟩
  rw [vertices_mapVertices]
  exact hp.map segments

theorem Contains.transform {m : Mat4 Rat} (hm : m.IsAffine) (h : v.Contains p) :
    (v.transform m).Contains (m.applyPoint p) :=
  h.mapVertices (Mat4.applyPoint_between hm)

theorem Contains.withReference (reference : Option NodeKey) (h : v.Contains p) :
    (v.withReference reference).Contains p := by
  obtain ⟨he, hp⟩ := h
  refine ⟨he, ?_⟩
  rw [complete_withReference]
  exact hp

/-! ## Realignment -/

theorem inBox_markAligned (he : v.flags.empty = false) (hbox : v.isBox = true) :
    ∀ q ∈ v.vertices, InBox v.markAligned.least v.markAligned.greatest q := by
  intro q hq
  obtain ⟨hfront, hback⟩ := isBox_iff.mp hbox
  obtain ⟨⟨hry, hrz, hw⟩, ⟨hbx, hbz, hh⟩, hcorner⟩ := frontIsBox_iff.mp hfront
  cases hf : v.flags.flat with
  | true =>
      simp only [vertices, he, hf, Face.toList, List.mem_cons, List.not_mem_nil, or_false,
        Bool.false_eq_true, if_true, if_false] at hq
      rcases hq with rfl | rfl | rfl | rfl <;>
        constructor <;> simp [markAligned, least, greatest, *]
  | false =>
      obtain ⟨⟨hdx, hdy, hd⟩, htr, hbr, hbl⟩ := backIsBox_iff.mp (hback hf)
      simp only [vertices, he, hf, stored, Face.toList, List.mem_append, List.mem_cons,
        List.not_mem_nil, or_false, Bool.false_eq_true, if_false] at hq
      rcases hq with (rfl | rfl | rfl | rfl) | rfl | rfl | rfl | rfl <;>
        constructor <;> simp [markAligned, least, greatest, *]

/-- The realigned box reaches around all vertices. -/
theorem inBox_realigned (he : v.flags.empty = false) :
    ∀ q ∈ v.vertices, InBox v.realigned.least v.realigned.greatest q := by
  intro q hq
  cases hbox : v.isBox with
  | true =>
      have hr : v.realigned = v.markAligned := by simp [realigned, hbox]
      rw [hr]
      exact inBox_markAligned he hbox q hq
  | false =>
      have hr : v.realigned = v.enclosingBox := by simp [realigned, hbox]
      rw [hr]
      rw [vertices_eq_cons] at hq
      exact inBox_corners _ _ _ hq

theorem Contains.realigned (h : v.Contains p) (hc : v.flags.complete = true) :
    v.realigned.Contains p := by
  obtain ⟨he, hp⟩ := h
  rw [complete_of_complete hc] at hp
  rw [(WellFormed.realigned he).contains_iff (aligned_realigned v) ((empty_realigned v).trans he)]
  exact InBox.of_inHull hp (inBox_realigned he)

/-! ## Union -/

theorem inBox_lesser_greater {a b c d : Vec3 Rat} (h : InBox a b p ∨ InBox c d p) :
    InBox (a.lesser c) (b.greater d) p := by
  constructor <;> simp only [Vec3.lesser, Vec3.greater, lesser_eq_min, greater_eq_max,
    min_le_iff, le_max_iff]
  exacts [h.imp (·.left) (·.left), h.imp (·.right) (·.right), h.imp (·.top) (·.top),
    h.imp (·.bottom) (·.bottom), h.imp (·.front) (·.front), h.imp (·.back) (·.back)]

section Union

variable {box : Volume Rat}

private theorem contains_enclose_iff (hv : v.WellFormed) (ha : v.flags.aligned = true)
    (hbox : KeyBox box) : (v.enclose box).Contains p ↔
      InBox (v.enclose box).least (v.enclose box).greatest p :=
  (hv.enclose ha hbox).contains_iff ((aligned_enclose v box).trans ha) rfl

/-- The box that a volume grows to reaches around both boxes. -/
private theorem inBox_enclose (hv : v.WellFormed) (ha : v.flags.aligned = true)
    (he : v.flags.empty = false)
    (h : InBox box.least box.greatest p ∨ InBox v.least v.greatest p) :
    InBox (v.enclose box).least (v.enclose box).greatest p := by
  obtain ⟨-, hleast, hgreatest⟩ := (hv.keys ha he).toKeyEdges.grow box
  rw [enclose_of_not_empty he]
  change InBox (v.grow box).least (v.grow box).greatest p
  rw [hleast, hgreatest]
  exact inBox_lesser_greater h

/-- A union keeps what the growing volume bounds. -/
theorem Contains.enclose (h : v.Contains p) (hv : v.WellFormed) (ha : v.flags.aligned = true)
    (hbox : KeyBox box) : (v.enclose box).Contains p := by
  have hin := (hv.contains_iff ha h.1).mp h
  rw [contains_enclose_iff hv ha hbox]
  exact inBox_enclose hv ha h.1 (.inr hin)

/-- A union takes in all that the other aligned volume bounds. -/
theorem Contains.enclosed (h : box.Contains p) (hv : v.WellFormed)
    (ha : v.flags.aligned = true) (hb : box.WellFormed) (hba : box.flags.aligned = true) :
    (v.enclose box).Contains p := by
  have hkeys := hb.keys hba h.1
  have hin := (hb.contains_iff hba h.1).mp h
  rw [contains_enclose_iff hv ha hkeys]
  cases he : v.flags.empty with
  | true =>
      rw [enclose_of_empty he]
      exact hin
  | false => exact inBox_enclose hv ha he (.inl hin)

end Union

theorem Contains.boxed (h : v.Contains p) (hv : v.FlagsSound) : v.boxed.Contains p := by
  cases ha : v.flags.aligned with
  | true =>
      rw [boxed_of_aligned ha]
      exact h
  | false =>
      rw [boxed_of_not_aligned ha]
      exact h.realigned (hv.complete_of_not_aligned ha)

/-- An aligned volume that is merged with another one bounds what either did. -/
theorem contains_merged {other : Volume Rat} (hv : v.Reachable) (ha : v.flags.aligned = true)
    (ho : other.Reachable) (hp : v.Contains p ∨ other.Contains p) :
    (v.merged other).Contains p := by
  cases he : other.flags.empty with
  | true =>
      rw [merged_of_empty v he]
      exact hp.resolve_right fun hother => absurd (hother.1.symm.trans he) (by decide)
  | false =>
      have hbox := ho.wellFormed.boxed he
      have hempty : other.boxed.flags.empty = false := (empty_boxed other).trans he
      rw [merged_of_not_empty v he]
      rcases hp with hp | hp
      · exact hp.enclose hv.wellFormed ha (hbox.keys (aligned_boxed other) hempty)
      · exact (hp.boxed ho.flagsSound).enclosed hv.wellFormed ha hbox (aligned_boxed other)

end SceneCulling.Volume
