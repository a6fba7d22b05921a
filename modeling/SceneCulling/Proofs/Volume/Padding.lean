import SceneCulling.Proofs.Volume.Region
import SceneCulling.Scene.Hierarchy

/-!
# Padding a volume

In exact arithmetic margins are added to the key vertices of an aligned volume through its
position and its extents. Each setter reads off the extents whether the volume is empty. So a
volume that is not empty only if it has an extent stays one of this kind, and margins that are
not negative keep it from becoming empty on the way: the padded volume bounds what the volume
did.
-/

namespace SceneCulling

namespace Volume

variable {v : Volume Rat}

/-- The volume has edges along the axes, and an extent unless it is empty. -/
structure Spread (v : Volume Rat) : Prop where
  wellFormed : v.WellFormed
  aligned : v.flags.aligned = true
  extent : v.flags.empty = false → v.least ≠ v.greatest

theorem spread_new (reference : Option NodeKey) : (new reference : Volume Rat).Spread :=
  ⟨Reachable.wellFormed (.new reference), rfl, fun he => absurd he (by simp [new])⟩

/-- After a change of an extent the volume is empty iff no extent is left. -/
theorem empty_extentChanged : v.extentChanged.flags.empty = false ↔ v.least ≠ v.greatest := by
  rw [← Bool.not_eq_true, not_iff_not]
  simp [extentChanged, least, greatest, Vec3.ext_iff, and_assoc]

theorem Spread.withWidth (h : v.Spread) {x : Rat} (hx : 0 ≤ x) : (v.withWidth x).Spread :=
  ⟨h.wellFormed.withWidth h.aligned (isExtent_iff.mpr hx),
    (aligned_gathered v).trans h.aligned, empty_extentChanged.mp⟩

theorem Spread.withHeight (h : v.Spread) {x : Rat} (hx : 0 ≤ x) : (v.withHeight x).Spread :=
  ⟨h.wellFormed.withHeight h.aligned (isExtent_iff.mpr hx),
    (aligned_gathered v).trans h.aligned, empty_extentChanged.mp⟩

theorem Spread.setWidth (h : v.Spread) (x : Rat) :
    ((Volume.setWidth x).perform v).value.2.Spread := by
  rcases after_setWidth (v := v) (x := x) with hsame | ⟨-, hx, hwide⟩
  · rwa [hsame]
  · rw [hwide]
    exact h.withWidth (isExtent_iff.mp hx)

theorem Spread.setHeight (h : v.Spread) (y : Rat) :
    ((Volume.setHeight y).perform v).value.2.Spread := by
  rcases after_setHeight (v := v) (x := y) with hsame | ⟨-, hy, hhigh⟩
  · rwa [hsame]
  · rw [hhigh]
    exact h.withHeight (isExtent_iff.mp hy)

/-- The corners of a volume that is not empty and gets another width. -/
theorem corners_withWidth (he : v.flags.empty = false) (x : Rat) :
    (v.withWidth x).least = v.least ∧
      (v.withWidth x).greatest = ⟨v.least.x + x, v.greatest.y, v.greatest.z⟩ := by
  simp [Volume.withWidth, extentChanged, Volume.gathered, he, least, greatest]

theorem corners_withHeight (he : v.flags.empty = false) (y : Rat) :
    (v.withHeight y).least = v.least ∧
      (v.withHeight y).greatest = ⟨v.greatest.x, v.least.y + y, v.greatest.z⟩ := by
  simp [Volume.withHeight, extentChanged, Volume.gathered, he, least, greatest]

theorem movedTo_topLeft (v : Volume Rat) (p : Vec3 Rat) : (v.movedTo p).front.topLeft = p := by
  ext <;> simp [movedTo]

/-- The corners of a volume that is moved to a point. -/
theorem corners_movedTo (v : Volume Rat) (p : Vec3 Rat) :
    (v.movedTo p).least = p ∧ (v.movedTo p).greatest = v.greatest + (p - v.least) :=
  ⟨movedTo_topLeft v p, rfl⟩

theorem Spread.movedTo (h : v.Spread) (p : Vec3 Rat) : (v.movedTo p).Spread := by
  refine ⟨h.wellFormed.movedTo h.aligned p, h.aligned, fun he hsame => h.extent he ?_⟩
  obtain ⟨hleast, hgreatest⟩ := corners_movedTo v p
  rw [hleast, hgreatest, Vec3.ext_iff] at hsame
  simp only [Vec3.add_x, Vec3.add_y, Vec3.add_z, Vec3.sub_x, Vec3.sub_y, Vec3.sub_z] at hsame
  obtain ⟨hx, hy, hz⟩ := hsame
  ext <;> linarith

end Volume

namespace Margins

open Volume

variable {margins : Margins Rat} {v : Volume Rat}

/-- No margin is negative. -/
structure Outward (margins : Margins Rat) : Prop where
  left : 0 ≤ margins.left
  top : 0 ≤ margins.top
  right : 0 ≤ margins.right
  bottom : 0 ≤ margins.bottom

/-- The width of a volume with the margins. -/
def width (margins : Margins Rat) (v : Volume Rat) : Rat :=
  v.greatest.x - v.least.x + margins.left + margins.right

/-- The height of a volume with the margins. -/
def height (margins : Margins Rat) (v : Volume Rat) : Rat :=
  v.greatest.y - v.least.y + margins.top + margins.bottom

/-- The volume at its new position, with the width that the margins add to. -/
def widened (margins : Margins Rat) (v : Volume Rat) : Volume Rat :=
  (v.movedTo (v.origin - ⟨margins.left, margins.top, 0⟩)).withWidth
    (Scalar.greater (margins.width v) 0)

/-- The volume with all margins added, if it is aligned and not empty. -/
def padded (margins : Margins Rat) (v : Volume Rat) : Volume Rat :=
  (margins.widened v).withHeight (Scalar.greater (margins.height v) 0)

theorem zero_le_greater (x : Rat) : 0 ≤ Scalar.greater x 0 := by
  rw [greater_eq_max]
  exact le_max_right x 0

/-- Padding an aligned volume is never refused. -/
theorem perform_pad (ha : v.flags.aligned = true) (he : v.flags.empty = false) :
    margins.pad.perform v = ⟨(.ok (), margins.padded v), []⟩ := by
  have hwidth : (Volume.width : Edit (Volume Rat) Rat).perform v =
      ⟨(.ok (v.greatest.x - v.least.x), v), []⟩ := by
    rw [Volume.width, perform_readExtent ha, he]
    rfl
  have hheight : (Volume.height : Edit (Volume Rat) Rat).perform v =
      ⟨(.ok (v.greatest.y - v.least.y), v), []⟩ := by
    rw [Volume.height, perform_readExtent ha, he]
    rfl
  have hmoved : (setOrigin (v.origin - ⟨margins.left, margins.top, 0⟩)).perform v =
      ⟨(.ok (), v.movedTo (v.origin - ⟨margins.left, margins.top, 0⟩)), []⟩ :=
    perform_setOrigin ha
  have hwide : (setWidth (Scalar.greater (margins.width v) 0)).perform
      (v.movedTo (v.origin - ⟨margins.left, margins.top, 0⟩)) =
        ⟨(.ok (), margins.widened v), []⟩ :=
    perform_setWidth ha (isExtent_iff.mpr (zero_le_greater _))
  have haligned : (margins.widened v).flags.aligned = true := (aligned_gathered _).trans ha
  rw [pad, Edit.perform_bind_of_silent hwidth, Edit.perform_bind_of_silent hheight,
    Edit.perform_bind_of_silent (Edit.perform_get v), Edit.perform_bind_of_silent hmoved]
  exact (Edit.perform_bind_of_silent hwide _).trans
    (perform_setHeight haligned (isExtent_iff.mpr (zero_le_greater _)))

theorem spread_padded (h : v.Spread) : (margins.padded v).Spread :=
  ((h.movedTo _).withWidth (zero_le_greater _)).withHeight (zero_le_greater _)

/-- Different corners stay different when they move apart. -/
private theorem ne_of_apart (hkeys : KeyEdges v) (hne : v.least ≠ v.greatest) {p q : Vec3 Rat}
    (hx : 0 ≤ p.x + q.x) (hy : 0 ≤ p.y + q.y) (hz : 0 ≤ p.z + q.z) :
    v.least - p ≠ v.greatest + q := by
  intro hsame
  simp only [Vec3.ext_iff, Vec3.sub_x, Vec3.sub_y, Vec3.sub_z, Vec3.add_x, Vec3.add_y,
    Vec3.add_z] at hsame
  obtain ⟨hsx, hsy, hsz⟩ := hsame
  have hw := hkeys.width
  have hh := hkeys.height
  have hd := hkeys.depth
  refine hne ?_
  ext <;> linarith

section Outward

variable (hmargins : margins.Outward) (h : v.Spread) (he : v.flags.empty = false)
include hmargins h he

theorem greater_width : Scalar.greater (margins.width v) 0 = margins.width v := by
  have hw := (h.wellFormed.keys h.aligned he).width
  have hl := hmargins.left
  have hr := hmargins.right
  rw [greater_eq_max, width]
  exact max_eq_left (by linarith)

theorem greater_height : Scalar.greater (margins.height v) 0 = margins.height v := by
  have hh := (h.wellFormed.keys h.aligned he).height
  have ht := hmargins.top
  have hb := hmargins.bottom
  rw [greater_eq_max, height]
  exact max_eq_left (by linarith)

/-- After the new position and the new width the volume still is not empty. -/
theorem corners_widened : (margins.widened v).flags.empty = false ∧
    (margins.widened v).least = v.least - ⟨margins.left, margins.top, 0⟩ ∧
    (margins.widened v).greatest = v.greatest + ⟨margins.right, -margins.top, 0⟩ := by
  obtain ⟨hleastMoved, hgreatestMoved⟩ :=
    corners_movedTo v (v.origin - ⟨margins.left, margins.top, 0⟩)
  obtain ⟨hleast, hgreatest⟩ := corners_withWidth
    (v := v.movedTo (v.origin - ⟨margins.left, margins.top, 0⟩)) he (margins.width v)
  rw [hleastMoved] at hleast hgreatest
  rw [hgreatestMoved] at hgreatest
  have hleast' : (margins.widened v).least = v.least - ⟨margins.left, margins.top, 0⟩ := by
    rw [widened, greater_width hmargins h he, hleast]
    rfl
  have hgreatest' : (margins.widened v).greatest =
      v.greatest + ⟨margins.right, -margins.top, 0⟩ := by
    rw [widened, greater_width hmargins h he, hgreatest]
    ext <;> simp only [width, origin, least, Vec3.add_x, Vec3.add_y, Vec3.add_z, Vec3.sub_x,
      Vec3.sub_y, Vec3.sub_z] <;> ring
  refine ⟨empty_extentChanged.mpr ?_, hleast', hgreatest'⟩
  change (margins.widened v).least ≠ (margins.widened v).greatest
  rw [hleast', hgreatest']
  exact ne_of_apart (h.wellFormed.keys h.aligned he).toKeyEdges (h.extent he)
    (add_nonneg hmargins.left hmargins.right) (add_neg_cancel margins.top).ge (add_zero 0).ge

/-- The corners of a padded volume. -/
theorem corners_padded : (margins.padded v).flags.empty = false ∧
    (margins.padded v).least = v.least - ⟨margins.left, margins.top, 0⟩ ∧
    (margins.padded v).greatest = v.greatest + ⟨margins.right, margins.bottom, 0⟩ := by
  obtain ⟨hwide, hleastWide, hgreatestWide⟩ := corners_widened hmargins h he
  obtain ⟨hleast, hgreatest⟩ := corners_withHeight hwide (margins.height v)
  rw [hleastWide] at hleast hgreatest
  rw [hgreatestWide] at hgreatest
  have hleast' : (margins.padded v).least = v.least - ⟨margins.left, margins.top, 0⟩ := by
    rw [padded, greater_height hmargins h he, hleast]
  have hgreatest' : (margins.padded v).greatest =
      v.greatest + ⟨margins.right, margins.bottom, 0⟩ := by
    rw [padded, greater_height hmargins h he, hgreatest]
    ext <;> simp only [height, Vec3.add_x, Vec3.add_y, Vec3.add_z, Vec3.sub_y]
    ring
  refine ⟨empty_extentChanged.mpr ?_, hleast', hgreatest'⟩
  change (margins.padded v).least ≠ (margins.padded v).greatest
  rw [hleast', hgreatest']
  exact ne_of_apart (h.wellFormed.keys h.aligned he).toKeyEdges (h.extent he)
    (add_nonneg hmargins.left hmargins.right) (add_nonneg hmargins.top hmargins.bottom)
    (add_zero 0).ge

end Outward

/-- What padding makes of a volume. An empty one stays as it is. -/
def around (margins : Margins Rat) (v : Volume Rat) : Volume Rat :=
  if v.flags.empty then v else margins.padded v

theorem spread_around (h : v.Spread) : (margins.around v).Spread := by
  rw [around]
  split
  · exact h
  · exact spread_padded h

/-- A volume with margins that are not negative bounds what it did without. -/
theorem contains_around (hmargins : margins.Outward) (h : v.Spread) {p : Vec3 Rat}
    (hp : v.Contains p) : (margins.around v).Contains p := by
  obtain ⟨he, hleast, hgreatest⟩ := corners_padded hmargins h hp.1
  have hspread : (margins.padded v).Spread := spread_padded h
  have hin := (h.wellFormed.contains_iff h.aligned hp.1).mp hp
  rw [around, hp.1, if_neg Bool.false_ne_true,
    hspread.wellFormed.contains_iff hspread.aligned he, hleast, hgreatest]
  constructor <;> simp only [Vec3.sub_x, Vec3.sub_y, Vec3.sub_z, Vec3.add_x, Vec3.add_y,
    Vec3.add_z]
  · linarith [hin.left, hmargins.left]
  · linarith [hin.right, hmargins.right]
  · linarith [hin.top, hmargins.top]
  · linarith [hin.bottom, hmargins.bottom]
  · linarith [hin.front]
  · linarith [hin.back]

end Margins

end SceneCulling
