import SceneCulling.Proofs.Volume.Accumulation
import SceneCulling.Proofs.Volume.Flat
import SceneCulling.Volume.Transform

/-!
# Realignment

A volume off the axes is replaced by the least box around its vertices. Vertices that already
are those of a box are kept as they stand, and all others are scanned for the corners. In exact
arithmetic both ways lead to the same key vertices wherever both can be taken: the box around
some points is determined by the points, and the key vertices by the box. The rectangle around
the vertices is that of the box, so it is the same before and after.
-/

namespace SceneCulling.Volume

variable {v : Volume Rat} {a b : Vec3 Rat}

theorem reference_realigned (v : Volume Rat) : v.realigned.reference = v.reference := by
  rw [realigned]
  split <;> rfl

/-- Where the vertices already are those of a box, scanning them would find the same one. -/
theorem sameKeys_markAligned_enclosingBox (he : v.flags.empty = false) (hbox : v.isBox = true) :
    v.markAligned.SameKeys v.enclosingBox := by
  have hmarked : KeyBox v.markAligned := (WellFormed.markAligned he hbox).keys rfl he
  have hscanned : KeyBox v.enclosingBox := (WellFormed.enclosingBox he).keys rfl he
  obtain ⟨hleast, hgreatest⟩ :=
    (isLeastBox_markAligned he hbox).unique (isLeastBox_enclosingBox v)
  exact hmarked.sameKeys hscanned rfl hleast hgreatest

/-! ## The rectangle around the vertices -/

theorem front_topLeft_complete (v : Volume Rat) :
    v.complete.vertices = v.front.topLeft :: v.complete.vertices.tail := by
  obtain ⟨hkey, -⟩ := keys_complete v
  rw [← hkey]
  exact vertices_eq_cons v.complete

/-- The bounding rectangle is that of the least box, seen from the front. -/
theorem boundingRect_of_isLeastBox (h : IsLeastBox (· ∈ v.complete.vertices) a b) :
    v.boundingRect = ⟨a.x, a.y, b.x, b.y⟩ := by
  have hscan := isLeastBox_corners v.front.topLeft v.complete.vertices.tail
  rw [← front_topLeft_complete] at hscan
  obtain ⟨rfl, rfl⟩ := h.unique hscan
  exact rectAround_eq v.front.topLeft v.complete.vertices.tail

/-- Realignment leaves the bounding rectangle as it was. -/
theorem boundingRect_realigned (he : v.flags.empty = false) (hc : v.flags.complete = true) :
    v.realigned.boundingRect = v.boundingRect := by
  have haligned := aligned_realigned v
  have hbefore : IsLeastBox (· ∈ v.complete.vertices) v.realigned.least v.realigned.greatest := by
    rw [complete_of_complete hc]
    exact isLeastBox_realigned he
  have hafter := (WellFormed.realigned he).isLeastBox_boxed ((empty_realigned v).trans he)
  rw [boxed_of_aligned haligned] at hafter
  rw [boundingRect_of_isLeastBox hbefore, boundingRect_of_isLeastBox hafter]

/-! ## The outcome -/

/-- The realignment of a reachable volume off the axes succeeds without a diagnostic. The
outcome is aligned. Its key vertices are those of the least box around the front face, and the
back face as well if the volume was not flat, and it is flat iff this box has no depth.
Emptiness and the reference stay. If the vertices already were those of a box, the scan that is
saved would have given the same key vertices and flags. The bounding rectangle stays as well. -/
theorem Reachable.align_least (h : v.Reachable) (off : v.flags.aligned = false) :
    ∃ box : Volume Rat, Volume.align.perform v = ⟨(.ok (), box), []⟩ ∧
      box.flags.aligned = true ∧
      IsLeastBox (· ∈ v.front.toList ++ if v.flags.flat then [] else v.back.toList)
        box.least box.greatest ∧
      KeyBox box ∧ box.flags.empty = v.flags.empty ∧ box.reference = v.reference ∧
      (v.isBox = true → v.markAligned.SameKeys v.enclosingBox) ∧
      box.boundingRect = v.boundingRect := by
  have hsound := h.flagsSound
  have he := hsound.not_empty_of_not_aligned off
  have hc := hsound.complete_of_not_aligned off
  have hperform : Volume.align.perform v = ⟨(.ok (), v.realigned), []⟩ := by
    rw [hsound.perform_align, boxed_of_not_aligned off]
  have hleast := isLeastBox_realigned he
  rw [vertices_of_not_empty he] at hleast
  have hempty := empty_realigned v
  have haligned := aligned_realigned v
  exact ⟨v.realigned, hperform, haligned, hleast,
    (WellFormed.realigned he).keys haligned (hempty.trans he), hempty, reference_realigned v,
    sameKeys_markAligned_enclosingBox he, boundingRect_realigned he hc⟩

/-- A flat square that was moved, without the back face that it does not read. -/
def slid : Volume Rat := card.transform (.shift ⟨5, 6, 7⟩)

theorem slid_align_least :
    slid.Reachable ∧ slid.flags.aligned = false ∧ slid.isBox = true ∧
      slid.back.topLeft ≠ slid.front.topLeft ∧
      ∃ box : Volume Rat, align.perform slid = ⟨(.ok (), box), []⟩ ∧
        IsLeastBox (· ∈ slid.front.toList ++ if slid.flags.flat then [] else slid.back.toList)
          box.least box.greatest ∧ KeyBox box ∧
        slid.markAligned.SameKeys slid.enclosingBox ∧ box.boundingRect = slid.boundingRect := by
  have hreachable : slid.Reachable := .transform _ (.setHeight 1 (.setWidth 1 (.new none)))
  have off : slid.flags.aligned = false := by decide +kernel
  have hbox : slid.isBox = true := by decide +kernel
  have hstale : slid.back.topLeft.z ≠ slid.front.topLeft.z := by decide +kernel
  obtain ⟨box, hrun, -, hleast, hkeys, -, -, hsame, hrect⟩ :=
    Reachable.align_least hreachable off
  exact ⟨hreachable, off, hbox, fun h => hstale (congrArg Vec3.z h), box, hrun, hleast, hkeys,
    hsame hbox, hrect⟩

end SceneCulling.Volume
