import SceneCulling.Proofs.Geometry.Hull
import SceneCulling.Proofs.Volume.Reachable

/-!
# The box of a volume

In exact arithmetic the key vertices of an aligned volume that is not empty are corners of
one box along the axes, which is flat exactly if the volume is marked so, and up-to-date
derived vertices are the other corners. All operations keep this, so it holds of every
reachable volume.
-/

namespace SceneCulling.Volume

/-- The corner of the box at the left, the top and the front. -/
def least (v : Volume Rat) : Vec3 Rat := v.front.topLeft

/-- The opposite corner, as the key vertices place it. -/
def greatest (v : Volume Rat) : Vec3 Rat :=
  ⟨v.front.topRight.x, v.front.bottomLeft.y, v.back.topLeft.z⟩

/-- The key edges run along the axes in the positive direction. -/
structure KeyEdges (v : Volume Rat) : Prop where
  right_y : v.front.topRight.y = v.least.y
  right_z : v.front.topRight.z = v.least.z
  below_x : v.front.bottomLeft.x = v.least.x
  below_z : v.front.bottomLeft.z = v.least.z
  behind_x : v.back.topLeft.x = v.least.x
  behind_y : v.back.topLeft.y = v.least.y
  width : v.least.x ≤ v.greatest.x
  height : v.least.y ≤ v.greatest.y
  depth : v.least.z ≤ v.greatest.z

/-- The key vertices are those of a box, which is flat iff the volume is marked so. -/
structure KeyBox (v : Volume Rat) : Prop extends KeyEdges v where
  flat_iff : v.flags.flat = true ↔ v.greatest.z = v.least.z

/-- The derived vertices that count are the other corners of the box. -/
structure DerivedCorners (v : Volume Rat) : Prop where
  front : v.front.bottomRight = ⟨v.greatest.x, v.greatest.y, v.least.z⟩
  back : v.flags.flat = false →
    v.back.topRight = ⟨v.greatest.x, v.least.y, v.greatest.z⟩ ∧
    v.back.bottomRight = ⟨v.greatest.x, v.greatest.y, v.greatest.z⟩ ∧
    v.back.bottomLeft = ⟨v.least.x, v.greatest.y, v.greatest.z⟩

/-- What the flags of a volume say about its vertices is true. -/
structure WellFormed (v : Volume Rat) : Prop extends FlagsSound v where
  flat_of_empty : v.flags.empty = true → v.flags.flat = true
  keys : v.flags.aligned = true → v.flags.empty = false → KeyBox v
  derived : v.flags.aligned = true → v.flags.empty = false → v.flags.complete = true →
    DerivedCorners v

variable {v : Volume Rat}

/-- Only the key vertices decide about the key edges. -/
theorem KeyEdges.of_keys {u : Volume Rat} (h : KeyEdges v)
    (hleast : u.front.topLeft = v.front.topLeft) (hright : u.front.topRight = v.front.topRight)
    (hbelow : u.front.bottomLeft = v.front.bottomLeft)
    (hbehind : u.back.topLeft = v.back.topLeft) : KeyEdges u := by
  obtain ⟨hry, hrz, hbx, hbz, hdx, hdy, hw, hh, hd⟩ := h
  constructor <;> simp only [least, greatest, hleast, hright, hbelow, hbehind]
  exacts [hry, hrz, hbx, hbz, hdx, hdy, hw, hh, hd]

/-! ## Completion and transforms -/

theorem derivedCorners_complete (he : v.flags.empty = false) (hc : v.flags.complete = false) :
    DerivedCorners v.complete := by
  have h : v.complete = { v with
      front.bottomRight := ⟨v.greatest.x, v.greatest.y, v.least.z⟩
      back := if v.flags.flat then v.back else
        { v.back with
          topRight := ⟨v.greatest.x, v.least.y, v.greatest.z⟩
          bottomRight := ⟨v.greatest.x, v.greatest.y, v.greatest.z⟩
          bottomLeft := ⟨v.least.x, v.greatest.y, v.greatest.z⟩ }
      flags.complete := true } := by
    simp only [complete, hc, he, Bool.or_self, Bool.false_eq_true, if_false]
    rfl
  rw [h]
  refine ⟨?_, fun hf => ?_⟩
  · cases v.flags.flat <;> simp [greatest, least]
  · simp only at hf
    simp [greatest, least, hf]

/-- Completion leaves the key vertices alone. -/
theorem keys_complete (v : Volume Rat) : v.complete.front.topLeft = v.front.topLeft ∧
    v.complete.front.topRight = v.front.topRight ∧
    v.complete.front.bottomLeft = v.front.bottomLeft ∧
    v.complete.back.topLeft = v.back.topLeft := by
  rw [complete]
  split
  · exact ⟨rfl, rfl, rfl, rfl⟩
  · cases v.flags.flat <;> exact ⟨rfl, rfl, rfl, rfl⟩

@[simp] theorem least_complete (v : Volume Rat) : v.complete.least = v.least :=
  (keys_complete v).1

@[simp] theorem greatest_complete (v : Volume Rat) : v.complete.greatest = v.greatest := by
  obtain ⟨-, hright, hbelow, hbehind⟩ := keys_complete v
  simp only [greatest, hright, hbelow, hbehind]

theorem KeyBox.completed (h : KeyBox v) : KeyBox v.complete := by
  obtain ⟨hleast, hright, hbelow, hbehind⟩ := keys_complete v
  refine ⟨h.toKeyEdges.of_keys hleast hright hbelow hbehind, ?_⟩
  rw [flags_complete, least_complete, greatest_complete]
  exact h.flat_iff

theorem WellFormed.completed (h : v.WellFormed) : v.complete.WellFormed := by
  have hempty : v.complete.flags.empty = v.flags.empty := by rw [flags_complete]
  have haligned : v.complete.flags.aligned = v.flags.aligned := by rw [flags_complete]
  have hflat : v.complete.flags.flat = v.flags.flat := by rw [flags_complete]
  refine ⟨h.toFlagsSound.completed, ?_, ?_, ?_⟩
  · rw [hempty, hflat]
    exact h.flat_of_empty
  · rw [hempty, haligned]
    exact fun ha he => (h.keys ha he).completed
  · rw [hempty, haligned]
    intro ha he _
    cases hc : v.flags.complete with
    | false => exact derivedCorners_complete he hc
    | true =>
        have hsame : v.complete = v := by simp [complete, hc]
        rw [hsame]
        exact h.derived ha he hc

theorem WellFormed.mapVertices (h : v.WellFormed) (f : Vec3 Rat → Vec3 Rat) :
    (v.mapVertices f).WellFormed := by
  refine ⟨h.toFlagsSound.mapVertices f, ?_, ?_, ?_⟩
  all_goals
    cases he : v.flags.empty with
    | true => simp [flags_mapVertices_of_empty f he, he, h.flat_of_empty he]
    | false => simp [flags_mapVertices f he, he]

theorem WellFormed.withReference (h : v.WellFormed) (reference : Option NodeKey) :
    (v.withReference reference).WellFormed := by
  refine ⟨⟨h.aligned_of_empty, h.complete_of_not_aligned⟩, h.flat_of_empty, fun ha he => ?_,
    fun ha he hc => ?_⟩
  · have hkeys := h.keys ha he
    exact ⟨hkeys.toKeyEdges.of_keys rfl rfl rfl rfl, hkeys.flat_iff⟩
  · have hcorners := h.derived ha he hc
    exact ⟨hcorners.front, hcorners.back⟩

/-! ## Position and extents -/

/-- The key vertices of an empty volume are drawn together; the others are a box already. -/
theorem WellFormed.gathered (h : v.WellFormed) (ha : v.flags.aligned = true) :
    KeyBox v.gathered := by
  rw [Volume.gathered]
  cases he : v.flags.empty with
  | false =>
      rw [if_neg (by simp)]
      exact h.keys ha he
  | true =>
      rw [if_pos rfl]
      refine ⟨⟨rfl, rfl, rfl, rfl, rfl, rfl, le_refl _, le_refl _, le_refl _⟩, ?_⟩
      exact iff_of_true (h.flat_of_empty he) rfl

/-- A box stays one when its emptiness is read off the extents. -/
theorem KeyBox.extentChanged (h : KeyBox v) (ha : v.flags.aligned = true) :
    v.extentChanged.WellFormed := by
  refine ⟨.of_aligned ha, ?_, fun _ _ => ?_, ?_⟩
  · intro he
    have hdepth : v.front.topLeft.z = v.back.topLeft.z := by
      simp only [Volume.extentChanged, Bool.and_eq_true, beq_iff_eq] at he
      exact he.2
    exact h.flat_iff.mpr hdepth.symm
  · exact ⟨h.toKeyEdges.of_keys rfl rfl rfl rfl, h.flat_iff⟩
  · intro _ _ hc
    exact absurd hc (by simp [Volume.extentChanged])

theorem isExtent_iff {x : Rat} : isExtent x = true ↔ 0 ≤ x := by
  simp [isExtent, Scalar.isFinite]

theorem topLeft_gathered (v : Volume Rat) : v.gathered.front.topLeft = v.front.topLeft := by
  rw [Volume.gathered]
  split <;> rfl

theorem WellFormed.withWidth (h : v.WellFormed) (ha : v.flags.aligned = true) {x : Rat}
    (hx : isExtent x = true) : (v.withWidth x).WellFormed := by
  have g := h.gathered ha
  refine KeyBox.extentChanged ⟨⟨g.right_y, g.right_z, g.below_x, g.below_z, g.behind_x,
    g.behind_y, ?_, g.height, g.depth⟩, g.flat_iff⟩ ((aligned_gathered v).trans ha)
  change v.gathered.front.topLeft.x ≤ v.front.topLeft.x + x
  rw [topLeft_gathered]
  exact le_add_of_nonneg_right (isExtent_iff.mp hx)

theorem WellFormed.withHeight (h : v.WellFormed) (ha : v.flags.aligned = true) {x : Rat}
    (hx : isExtent x = true) : (v.withHeight x).WellFormed := by
  have g := h.gathered ha
  refine KeyBox.extentChanged ⟨⟨g.right_y, g.right_z, g.below_x, g.below_z, g.behind_x,
    g.behind_y, g.width, ?_, g.depth⟩, g.flat_iff⟩ ((aligned_gathered v).trans ha)
  change v.gathered.front.topLeft.y ≤ v.front.topLeft.y + x
  rw [topLeft_gathered]
  exact le_add_of_nonneg_right (isExtent_iff.mp hx)

theorem WellFormed.withDepth (h : v.WellFormed) (ha : v.flags.aligned = true) {x : Rat}
    (hx : isExtent x = true) : (v.withDepth x).WellFormed := by
  have g := h.gathered ha
  refine KeyBox.extentChanged ⟨⟨g.right_y, g.right_z, g.below_x, g.below_z, g.behind_x,
    g.behind_y, g.width, g.height, ?_⟩, ?_⟩ ((aligned_gathered v).trans ha)
  · change v.gathered.front.topLeft.z ≤ v.front.topLeft.z + x
    rw [topLeft_gathered]
    exact le_add_of_nonneg_right (isExtent_iff.mp hx)
  · change (x == 0) = true ↔ v.front.topLeft.z + x = v.gathered.front.topLeft.z
    rw [topLeft_gathered, beq_iff_eq, add_eq_left]

theorem WellFormed.movedTo (h : v.WellFormed) (ha : v.flags.aligned = true) (p : Vec3 Rat) :
    (v.movedTo p).WellFormed := by
  refine ⟨.of_aligned ha, h.flat_of_empty, fun _ he => ?_, fun _ _ hc => ?_⟩
  · obtain ⟨⟨hry, hrz, hbx, hbz, hdx, hdy, hw, hh, hd⟩, hflat⟩ := h.keys ha he
    simp only [least, greatest] at *
    refine ⟨⟨?_, ?_, ?_, ?_, ?_, ?_, ?_, ?_, ?_⟩, ?_⟩ <;>
      simp only [Volume.movedTo, least, greatest, Vec3.add_x, Vec3.add_y, Vec3.add_z]
    · rw [hry]
    · rw [hrz]
    · rw [hbx]
    · rw [hbz]
    · rw [hdx]
    · rw [hdy]
    · linarith
    · linarith
    · linarith
    · rw [add_left_inj]
      exact hflat
  · exact absurd hc (by simp [Volume.movedTo])

/-! ## Realignment -/

theorem lesser_eq_min (a b : Rat) : Scalar.lesser a b = min a b := (min_def a b).symm

theorem greater_eq_max (a b : Rat) : Scalar.greater a b = max a b := (max_def a b).symm

private theorem InBox.extend {a b q : Vec3 Rat} (h : InBox a b q) (r : Vec3 Rat) :
    InBox (a.lesser r) (b.greater r) q := by
  constructor <;> simp only [Vec3.lesser, Vec3.greater, lesser_eq_min, greater_eq_max]
  exacts [min_le_of_left_le h.left, le_max_of_le_left h.right, min_le_of_left_le h.top,
    le_max_of_le_left h.bottom, min_le_of_left_le h.front, le_max_of_le_left h.back]

private theorem inBox_extend (a b r : Vec3 Rat) : InBox (a.lesser r) (b.greater r) r := by
  constructor <;> simp only [Vec3.lesser, Vec3.greater, lesser_eq_min, greater_eq_max]
  exacts [min_le_right _ _, le_max_right _ _, min_le_right _ _, le_max_right _ _,
    min_le_right _ _, le_max_right _ _]

/-- The scan for the corners keeps the points that it has met in the box. -/
private theorem inBox_scan (ps : List (Vec3 Rat)) (a b q : Vec3 Rat)
    (h : InBox a b q ∨ q ∈ ps) : InBox (ps.foldl Vec3.lesser a) (ps.foldl Vec3.greater b) q := by
  induction ps generalizing a b with
  | nil => exact h.resolve_right (by simp)
  | cons r ps ih =>
      apply ih
      rcases h with hin | hmem
      · exact .inl (InBox.extend hin r)
      · cases hmem with
        | head => exact .inl (inBox_extend a b q)
        | tail _ hmem => exact .inr hmem

theorem inBox_corners (p q : Vec3 Rat) (ps : List (Vec3 Rat)) (h : q ∈ p :: ps) :
    InBox (leastCorner p ps) (greatestCorner p ps) q := by
  apply inBox_scan
  cases h with
  | head => exact .inl ⟨le_refl _, le_refl _, le_refl _, le_refl _, le_refl _, le_refl _⟩
  | tail _ h => exact .inr h

theorem vertices_eq_cons (v : Volume Rat) : v.vertices = v.front.topLeft :: v.vertices.tail := by
  rw [vertices]
  split
  · rfl
  · split <;> rfl

theorem frontIsBox_iff : v.frontIsBox = true ↔
    (v.front.topRight.y = v.front.topLeft.y ∧ v.front.topRight.z = v.front.topLeft.z ∧
      v.front.topLeft.x ≤ v.front.topRight.x) ∧
    (v.front.bottomLeft.x = v.front.topLeft.x ∧ v.front.bottomLeft.z = v.front.topLeft.z ∧
      v.front.topLeft.y ≤ v.front.bottomLeft.y) ∧
    v.front.bottomRight = ⟨v.front.topRight.x, v.front.bottomLeft.y, v.front.topLeft.z⟩ := by
  simp [frontIsBox, and_assoc]

theorem backIsBox_iff : v.backIsBox = true ↔
    (v.back.topLeft.x = v.front.topLeft.x ∧ v.back.topLeft.y = v.front.topLeft.y ∧
      v.front.topLeft.z ≤ v.back.topLeft.z) ∧
    v.back.topRight = ⟨v.front.topRight.x, v.front.topLeft.y, v.back.topLeft.z⟩ ∧
    v.back.bottomRight = ⟨v.front.topRight.x, v.front.bottomLeft.y, v.back.topLeft.z⟩ ∧
    v.back.bottomLeft = ⟨v.front.topLeft.x, v.front.bottomLeft.y, v.back.topLeft.z⟩ := by
  simp [backIsBox, and_assoc]

theorem isBox_iff : v.isBox = true ↔
    v.frontIsBox = true ∧ (v.flags.flat = false → v.backIsBox = true) := by
  cases hf : v.flags.flat <;> simp [isBox, hf]

/-- The vertices of a box in the order of a box, taken as they are. -/
theorem WellFormed.markAligned (he : v.flags.empty = false) (hbox : v.isBox = true) :
    v.markAligned.WellFormed := by
  obtain ⟨hfront, hback⟩ := isBox_iff.mp hbox
  obtain ⟨⟨hry, hrz, hw⟩, ⟨hbx, hbz, hh⟩, hcorner⟩ := frontIsBox_iff.mp hfront
  have hnot : ¬ v.markAligned.flags.empty = true := by simp [Volume.markAligned, he]
  refine ⟨.of_aligned rfl, fun h => absurd h hnot, fun _ _ => ?_, fun _ _ _ => ?_⟩
  · refine ⟨⟨hry, hrz, hbx, hbz, ?_, ?_, hw, hh, ?_⟩, ?_⟩ <;>
      cases hf : v.flags.flat with
      | true => simp [Volume.markAligned, least, greatest, hf]
      | false =>
          obtain ⟨⟨hdx, hdy, hd⟩, -⟩ := backIsBox_iff.mp (hback hf)
          simp [Volume.markAligned, least, greatest, hf, hdx, hdy, hd]
  · refine ⟨hcorner, fun hnf => ?_⟩
    cases hf : v.flags.flat with
    | true => simp [Volume.markAligned, hf] at hnf
    | false =>
        obtain ⟨-, htr, hbr, hbl⟩ := backIsBox_iff.mp (hback hf)
        simp [Volume.markAligned, least, greatest, hf, htr, hbr, hbl]

/-- The box around the vertices, built anew. -/
theorem WellFormed.enclosingBox (he : v.flags.empty = false) : v.enclosingBox.WellFormed := by
  have hin := inBox_corners v.front.topLeft v.front.topLeft v.vertices.tail (by simp)
  refine ⟨.of_aligned rfl, fun h => ?_, fun _ _ => ?_, fun _ _ hc => ?_⟩
  · exact absurd (he.symm.trans h) (by decide)
  · refine ⟨⟨rfl, rfl, rfl, rfl, rfl, rfl, ?_, ?_, ?_⟩, beq_iff_eq⟩
    · exact hin.left.trans hin.right
    · exact hin.top.trans hin.bottom
    · exact hin.front.trans hin.back
  · exact absurd hc (by simp [Volume.enclosingBox, spanned])

theorem WellFormed.realigned (he : v.flags.empty = false) : v.realigned.WellFormed := by
  rw [Volume.realigned]
  split
  · exact .markAligned he ‹_›
  · exact .enclosingBox he

theorem WellFormed.boxed (h : v.WellFormed) (he : v.flags.empty = false) :
    v.boxed.WellFormed := by
  rw [Volume.boxed]
  split
  · exact h
  · exact .realigned he

/-! ## Union

Each face moves on its own, and the key vertices that it shares with others move along. -/

private theorem KeyEdges.reachLeft (h : KeyEdges v) (x : Rat) :
    KeyEdges (v.reachLeft x) ∧ (v.reachLeft x).least = { v.least with x := min x v.least.x } ∧
      (v.reachLeft x).greatest = v.greatest := by
  rw [Volume.reachLeft]
  split
  · next hlt =>
      refine ⟨⟨h.right_y, h.right_z, rfl, h.below_z, rfl, h.behind_y, hlt.le.trans h.width,
        h.height, h.depth⟩, ?_⟩
      simp [least, greatest, min_eq_left hlt.le]
  · next hge =>
      refine ⟨h, ?_⟩
      simp [least, greatest, min_eq_right (not_lt.mp hge)]

private theorem KeyEdges.reachRight (h : KeyEdges v) (x : Rat) :
    KeyEdges (v.reachRight x) ∧ (v.reachRight x).least = v.least ∧
      (v.reachRight x).greatest = { v.greatest with x := max x v.greatest.x } := by
  rw [Volume.reachRight]
  split
  · next hlt =>
      refine ⟨⟨h.right_y, h.right_z, h.below_x, h.below_z, h.behind_x, h.behind_y,
        h.width.trans hlt.le, h.height, h.depth⟩, ?_⟩
      simp [least, greatest, max_eq_left hlt.le]
  · next hge =>
      refine ⟨h, ?_⟩
      simp [least, greatest, max_eq_right (not_lt.mp hge)]

private theorem KeyEdges.reachTop (h : KeyEdges v) (y : Rat) :
    KeyEdges (v.reachTop y) ∧ (v.reachTop y).least = { v.least with y := min y v.least.y } ∧
      (v.reachTop y).greatest = v.greatest := by
  rw [Volume.reachTop]
  split
  · next hlt =>
      refine ⟨⟨rfl, h.right_z, h.below_x, h.below_z, h.behind_x, rfl, h.width, hlt.le.trans
        h.height, h.depth⟩, ?_⟩
      simp [least, greatest, min_eq_left hlt.le]
  · next hge =>
      refine ⟨h, ?_⟩
      simp [least, greatest, min_eq_right (not_lt.mp hge)]

private theorem KeyEdges.reachBottom (h : KeyEdges v) (y : Rat) :
    KeyEdges (v.reachBottom y) ∧ (v.reachBottom y).least = v.least ∧
      (v.reachBottom y).greatest = { v.greatest with y := max y v.greatest.y } := by
  rw [Volume.reachBottom]
  split
  · next hlt =>
      refine ⟨⟨h.right_y, h.right_z, h.below_x, h.below_z, h.behind_x, h.behind_y, h.width,
        h.height.trans hlt.le, h.depth⟩, ?_⟩
      simp [least, greatest, max_eq_left hlt.le]
  · next hge =>
      refine ⟨h, ?_⟩
      simp [least, greatest, max_eq_right (not_lt.mp hge)]

private theorem KeyEdges.reachFront (h : KeyEdges v) (z : Rat) :
    KeyEdges (v.reachFront z) ∧ (v.reachFront z).least = { v.least with z := min z v.least.z } ∧
      (v.reachFront z).greatest = v.greatest := by
  rw [Volume.reachFront]
  split
  · next hlt =>
      refine ⟨⟨h.right_y, rfl, h.below_x, rfl, h.behind_x, h.behind_y, h.width, h.height,
        hlt.le.trans h.depth⟩, ?_⟩
      simp [least, greatest, min_eq_left hlt.le]
  · next hge =>
      refine ⟨h, ?_⟩
      simp [least, greatest, min_eq_right (not_lt.mp hge)]

private theorem KeyEdges.reachBack (h : KeyEdges v) (z : Rat) :
    KeyEdges (v.reachBack z) ∧ (v.reachBack z).least = v.least ∧
      (v.reachBack z).greatest = { v.greatest with z := max z v.greatest.z } := by
  rw [Volume.reachBack]
  split
  · next hlt =>
      refine ⟨⟨h.right_y, h.right_z, h.below_x, h.below_z, h.behind_x, h.behind_y, h.width,
        h.height, h.depth.trans hlt.le⟩, ?_⟩
      simp [least, greatest, max_eq_left hlt.le]
  · next hge =>
      refine ⟨h, ?_⟩
      simp [least, greatest, max_eq_right (not_lt.mp hge)]

/-- The grown box is the least one around both boxes. -/
theorem KeyEdges.grow (h : KeyEdges v) (other : Volume Rat) :
    KeyEdges (v.grow other) ∧ (v.grow other).least = other.least.lesser v.least ∧
      (v.grow other).greatest = other.greatest.greater v.greatest := by
  obtain ⟨h1, l1, g1⟩ := h.reachLeft other.front.topLeft.x
  obtain ⟨h2, l2, g2⟩ := h1.reachRight other.front.topRight.x
  obtain ⟨h3, l3, g3⟩ := h2.reachTop other.front.topLeft.y
  obtain ⟨h4, l4, g4⟩ := h3.reachBottom other.front.bottomLeft.y
  obtain ⟨h5, l5, g5⟩ := h4.reachFront other.front.topLeft.z
  obtain ⟨h6, l6, g6⟩ := h5.reachBack other.back.topLeft.z
  simp only [l5, l4, l3, l2, l1] at l6
  simp only [g5, g4, g3, g2, g1] at g6
  refine ⟨h6.of_keys rfl rfl rfl rfl, l6.trans ?_, g6.trans ?_⟩
  · simp only [Vec3.lesser, lesser_eq_min]
    rfl
  · simp only [Vec3.greater, greater_eq_max]
    rfl

theorem flat_grow (v other : Volume Rat) : (v.grow other).flags.flat = true ↔
    (v.grow other).greatest.z = (v.grow other).least.z := beq_iff_eq

/-- A new corner of an empty volume is that of the other one, a grown box reaches around
both. -/
theorem WellFormed.enclose {box : Volume Rat} (h : v.WellFormed)
    (ha : v.flags.aligned = true) (hbox : KeyBox box) : (v.enclose box).WellFormed := by
  have hempty : (v.enclose box).flags.empty = false := rfl
  have hcomplete : (v.enclose box).flags.complete = false := rfl
  refine ⟨.of_aligned ((aligned_enclose v box).trans ha), fun he => ?_, fun _ _ => ?_,
    fun _ _ hc => ?_⟩
  · exact absurd (hempty.symm.trans he) (by decide)
  · cases he : v.flags.empty with
    | true =>
        rw [enclose_of_empty he]
        exact ⟨hbox.toKeyEdges.of_keys rfl rfl rfl rfl, hbox.flat_iff⟩
    | false =>
        rw [enclose_of_not_empty he]
        obtain ⟨hedges, -, -⟩ := (h.keys ha he).toKeyEdges.grow box
        exact ⟨hedges.of_keys rfl rfl rfl rfl, flat_grow v box⟩
  · exact absurd (hcomplete.symm.trans hc) (by decide)

/-- Every reachable volume is well formed. -/
theorem Reachable.wellFormed (h : v.Reachable) : v.WellFormed := by
  refine h.induct (fun reference => ?_) (fun v reference hv => ?_) (fun v hv => hv.completed)
    (fun v p ha hv => hv.movedTo ha p) (fun v x ha hx hv => hv.withWidth ha hx)
    (fun v x ha hx hv => hv.withHeight ha hx) (fun v x ha hx hv => hv.withDepth ha hx)
    (fun v f hv => hv.mapVertices f) (fun v he _ _ _ => .realigned he)
    (fun v box ha he hbox hv hb => hv.enclose ha (hb.keys hbox he))
  · refine ⟨.of_aligned rfl, fun _ => rfl, fun _ he => ?_, fun _ he => ?_⟩ <;>
      exact absurd he (by simp [Volume.new])
  · exact hv.withReference reference

end SceneCulling.Volume
