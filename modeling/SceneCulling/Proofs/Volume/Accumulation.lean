import SceneCulling.Proofs.Volume.Corners

/-!
# Accumulation

One volume grows by unions with others, one after the other, as a node takes in the volumes of
its children. In exact arithmetic the outcome is a join of boxes: the least box along the axes
around the growing volume and around the vertices of the others that count. Only the set of
the others that are not empty decides about it. Their order, repetitions and empty volumes in
between make no difference.

The others are values, so a union has no way to change them: one that is off the axes is
realigned on a copy.
-/

namespace SceneCulling

/-! ## Least boxes -/

/-- The box between two corners holds the points, and every box that does holds it. -/
structure IsLeastBox (points : Vec3 Rat → Prop) (least greatest : Vec3 Rat) : Prop where
  holds : ∀ p, points p → InBox least greatest p
  within : ∀ a b, (∀ p, points p → InBox a b p) → InBox a b least ∧ InBox a b greatest

section Boxes

variable {a b c d p q : Vec3 Rat}

theorem InBox.lesser (hp : InBox a b p) (hq : InBox a b q) : InBox a b (p.lesser q) := by
  constructor <;> simp only [Vec3.lesser, Volume.lesser_eq_min, le_min_iff, min_le_iff]
  exacts [⟨hp.left, hq.left⟩, .inl hp.right, ⟨hp.top, hq.top⟩, .inl hp.bottom,
    ⟨hp.front, hq.front⟩, .inl hp.back]

theorem InBox.greater (hp : InBox a b p) (hq : InBox a b q) : InBox a b (p.greater q) := by
  constructor <;> simp only [Vec3.greater, Volume.greater_eq_max, le_max_iff, max_le_iff]
  exacts [.inl hp.left, ⟨hp.right, hq.right⟩, .inl hp.top, ⟨hp.bottom, hq.bottom⟩,
    .inl hp.front, ⟨hp.back, hq.back⟩]

/-- A scan for a corner stays in every box that holds the points. -/
theorem InBox.scan {ps : List (Vec3 Rat)} (hp : InBox a b p) (hps : ∀ r ∈ ps, InBox a b r) :
    InBox a b (Volume.leastCorner p ps) ∧ InBox a b (Volume.greatestCorner p ps) :=
  ⟨List.foldlRecOn ps _ hp fun _ hin r hr => hin.lesser (hps r hr),
    List.foldlRecOn ps _ hp fun _ hin r hr => hin.greater (hps r hr)⟩

namespace IsLeastBox

variable {points others : Vec3 Rat → Prop}

theorem unique (h : IsLeastBox points a b) (h' : IsLeastBox points c d) : a = c ∧ b = d := by
  obtain ⟨hca, hdb⟩ := h.within c d h'.holds
  obtain ⟨hac, hbd⟩ := h'.within a b h.holds
  constructor <;> ext
  exacts [le_antisymm hac.left hca.left, le_antisymm hac.top hca.top,
    le_antisymm hac.front hca.front, le_antisymm hdb.right hbd.right,
    le_antisymm hdb.bottom hbd.bottom, le_antisymm hdb.back hbd.back]

/-- Only the boxes that hold the points decide about the least one. -/
theorem of_same_boxes (h : IsLeastBox points a b)
    (hsame : ∀ c d, (∀ p, points p → InBox c d p) ↔ ∀ p, others p → InBox c d p) :
    IsLeastBox others a b :=
  ⟨(hsame a b).mp h.holds, fun c d hother => h.within c d ((hsame c d).mpr hother)⟩

theorem congr (h : IsLeastBox points a b) (hsame : ∀ p, points p ↔ others p) :
    IsLeastBox others a b :=
  h.of_same_boxes fun _ _ => forall_congr' fun p => imp_congr_left (hsame p)

/-- A box is the least one around its own points. -/
theorem self (hleast : InBox a b a) (hgreatest : InBox a b b) : IsLeastBox (InBox a b) a b :=
  ⟨fun _ hp => hp, fun _ _ hall => ⟨hall a hleast, hall b hgreatest⟩⟩

/-- The join of two boxes is the least one around what both are around. -/
theorem join (h : IsLeastBox points a b) (h' : IsLeastBox others c d) :
    IsLeastBox (fun p => points p ∨ others p) (a.lesser c) (b.greater d) := by
  constructor
  · rintro p (hp | hp)
    · exact Volume.inBox_lesser_greater (.inl (h.holds p hp))
    · exact Volume.inBox_lesser_greater (.inr (h'.holds p hp))
  · intro e f hall
    obtain ⟨hleast, hgreatest⟩ := h.within e f fun p hp => hall p (.inl hp)
    obtain ⟨hleast', hgreatest'⟩ := h'.within e f fun p hp => hall p (.inr hp)
    exact ⟨hleast.lesser hleast', hgreatest.greater hgreatest'⟩

end IsLeastBox

end Boxes

namespace Volume

/-! ## Many unions -/

section Runs

variable {K : Type} [Scalar K] {v : Volume K} {others : List (Volume K)}

/-- Unions with all volumes of a list, in its order. -/
def unionAll (others : List (Volume K)) : Edit (Volume K) Unit := others.forM union

/-- A volume after unions with all volumes of a list. -/
def mergedAll (v : Volume K) (others : List (Volume K)) : Volume K := others.foldl merged v

/-- Sound flags of the others and the alignment of the first volume are enough to succeed. -/
theorem perform_unionAll (ha : v.flags.aligned = true) (hothers : ∀ m ∈ others, m.FlagsSound) :
    (unionAll others).perform v = ⟨(.ok (), v.mergedAll others), []⟩ := by
  induction others generalizing v with
  | nil => rfl
  | cons m others ih =>
      obtain ⟨hm, hrest⟩ := List.forall_mem_cons.mp hothers
      change (union m >>= fun _ => unionAll others).perform v = _
      rw [Edit.perform_bind_of_silent (hm.perform_union ha)]
      exact ih ((aligned_merged v m).trans ha) hrest

/-- What a union leaves alone: alignment, reference and the derived vertices as stored. -/
structure SameFrame (u v : Volume K) : Prop where
  aligned : u.flags.aligned = v.flags.aligned
  reference : u.reference = v.reference
  derived : u.derived = v.derived

omit [Scalar K] in
theorem SameFrame.trans {t u v : Volume K} (h : t.SameFrame u) (h' : u.SameFrame v) :
    t.SameFrame v :=
  ⟨h.aligned.trans h'.aligned, h.reference.trans h'.reference, h.derived.trans h'.derived⟩

omit [Scalar K] in
theorem SameFrame.symm {u v : Volume K} (h : u.SameFrame v) : v.SameFrame u :=
  ⟨h.aligned.symm, h.reference.symm, h.derived.symm⟩

theorem sameFrame_merged (v other : Volume K) : (v.merged other).SameFrame v :=
  ⟨aligned_merged v other, reference_merged v other, derived_merged v other⟩

theorem sameFrame_mergedAll (v : Volume K) (others : List (Volume K)) :
    (v.mergedAll others).SameFrame v := by
  induction others generalizing v with
  | nil => exact ⟨rfl, rfl, rfl⟩
  | cons m others ih => exact (ih (v.merged m)).trans (sameFrame_merged v m)

theorem flags_mergedAll (v : Volume K) (others : List (Volume K)) :
    (v.mergedAll others).flags.empty = (v.flags.empty && others.all (·.flags.empty)) ∧
      (v.mergedAll others).flags.complete =
        (v.flags.complete && others.all (·.flags.empty)) := by
  induction others generalizing v with
  | nil => exact ⟨(Bool.and_true _).symm, (Bool.and_true _).symm⟩
  | cons m others ih =>
      obtain ⟨hempty, hcomplete⟩ := flags_merged v m
      rw [List.all_cons, ← Bool.and_assoc, ← Bool.and_assoc, ← hempty, ← hcomplete]
      exact ih (v.merged m)

theorem mergedAll_of_all_empty (h : ∀ m ∈ others, m.flags.empty = true) :
    v.mergedAll others = v := by
  induction others with
  | nil => rfl
  | cons m others ih =>
      obtain ⟨hm, hrest⟩ := List.forall_mem_cons.mp h
      change (v.merged m).mergedAll others = v
      rw [merged_of_empty v hm]
      exact ih hrest

theorem Reachable.mergedAll (h : v.Reachable) (ha : v.flags.aligned = true)
    (hothers : ∀ m ∈ others, m.Reachable) : (v.mergedAll others).Reachable := by
  induction others generalizing v with
  | nil => exact h
  | cons m others ih =>
      obtain ⟨hm, hrest⟩ := List.forall_mem_cons.mp hothers
      exact ih (h.merged ha hm) ((aligned_merged v m).trans ha) hrest

end Runs

/-! ## The box of one volume -/

variable {u v m : Volume Rat} {others : List (Volume Rat)} {points : Vec3 Rat → Prop}

theorem KeyEdges.least_inBox (h : KeyEdges v) : InBox v.least v.greatest v.least :=
  ⟨le_refl _, h.width, le_refl _, h.height, le_refl _, h.depth⟩

theorem KeyEdges.greatest_inBox (h : KeyEdges v) : InBox v.least v.greatest v.greatest :=
  ⟨h.width, le_refl _, h.height, le_refl _, h.depth, le_refl _⟩

theorem KeyEdges.isLeastBox (h : KeyEdges v) :
    IsLeastBox (InBox v.least v.greatest) v.least v.greatest :=
  .self h.least_inBox h.greatest_inBox

/-- The corner opposite to the position is a vertex that counts, if the vertices already are
those of a box. -/
theorem greatest_markAligned_mem (he : v.flags.empty = false) (hbox : v.isBox = true) :
    v.markAligned.greatest ∈ v.vertices := by
  obtain ⟨hfront, hback⟩ := isBox_iff.mp hbox
  obtain ⟨-, -, hcorner⟩ := frontIsBox_iff.mp hfront
  cases hf : v.flags.flat with
  | true =>
      have hgreatest : v.markAligned.greatest = v.front.bottomRight := by
        simp [markAligned, greatest, hf, hcorner]
      rw [hgreatest]
      simp [vertices, he, hf, Face.toList]
  | false =>
      obtain ⟨-, -, hbr, -⟩ := backIsBox_iff.mp (hback hf)
      have hgreatest : v.markAligned.greatest = v.back.bottomRight := by
        simp [markAligned, greatest, hf, hbr]
      rw [hgreatest]
      simp [vertices, he, hf, stored, Face.toList]

/-- The scan finds the corners of the least box. -/
theorem isLeastBox_corners (p : Vec3 Rat) (ps : List (Vec3 Rat)) :
    IsLeastBox (· ∈ p :: ps) (leastCorner p ps) (greatestCorner p ps) := by
  constructor
  · exact fun q hq => inBox_corners p q ps hq
  · intro a b hall
    exact InBox.scan (hall p List.mem_cons_self) fun r hr => hall r (List.mem_cons_of_mem p hr)

theorem isLeastBox_enclosingBox (v : Volume Rat) :
    IsLeastBox (· ∈ v.vertices) v.enclosingBox.least v.enclosingBox.greatest := by
  have h := isLeastBox_corners v.front.topLeft v.vertices.tail
  rw [← vertices_eq_cons] at h
  exact h

theorem isLeastBox_markAligned (he : v.flags.empty = false) (hbox : v.isBox = true) :
    IsLeastBox (· ∈ v.vertices) v.markAligned.least v.markAligned.greatest := by
  constructor
  · exact inBox_markAligned he hbox
  · intro a b hall
    exact ⟨hall _ (topLeft_mem_vertices v), hall _ (greatest_markAligned_mem he hbox)⟩

/-- Realignment gives the least box around the vertices. -/
theorem isLeastBox_realigned (he : v.flags.empty = false) :
    IsLeastBox (· ∈ v.vertices) v.realigned.least v.realigned.greatest := by
  rw [realigned]
  split
  · next hbox => exact isLeastBox_markAligned he hbox
  · exact isLeastBox_enclosingBox v

/-- The box that a union takes a volume for is the least one around its vertices that
count. -/
theorem WellFormed.isLeastBox_boxed (h : m.WellFormed) (he : m.flags.empty = false) :
    IsLeastBox (· ∈ m.complete.vertices) m.boxed.least m.boxed.greatest := by
  cases ha : m.flags.aligned with
  | true =>
      rw [boxed_of_aligned ha]
      constructor
      · intro p hp
        exact (h.contains_iff ha he).mp ⟨he, .vertex hp⟩
      · intro a b hall
        have hcorner : ∀ q, IsCorner m.least m.greatest q → InBox a b q := fun q hq =>
          hall q ((h.mem_vertices_complete_iff ha he).mpr hq)
        exact ⟨hcorner _ ⟨.inl rfl, .inl rfl, .inl rfl⟩, hcorner _ ⟨.inr rfl, .inr rfl, .inr rfl⟩⟩
  | false =>
      rw [boxed_of_not_aligned ha, complete_of_complete (h.complete_of_not_aligned ha)]
      exact isLeastBox_realigned he

/-! ## The join of the boxes -/

/-- The volume is empty if there are no points, and else its box is the least around them. -/
structure Joins (v : Volume Rat) (points : Vec3 Rat → Prop) : Prop where
  nothing : v.flags.empty = true → ∀ p, ¬ points p
  box : v.flags.empty = false → IsLeastBox points v.least v.greatest

theorem Joins.congr {points' : Vec3 Rat → Prop} (h : v.Joins points)
    (hsame : ∀ p, points p ↔ points' p) : v.Joins points' :=
  ⟨fun he p hp => h.nothing he p ((hsame p).mpr hp), fun he => (h.box he).congr hsame⟩

theorem WellFormed.joins (h : v.WellFormed) (ha : v.flags.aligned = true) :
    v.Joins fun p => v.flags.empty = false ∧ InBox v.least v.greatest p := by
  constructor
  · intro he p hp
    exact absurd (hp.1.symm.trans he) (by decide)
  · intro he
    exact (h.keys ha he).toKeyEdges.isLeastBox.congr fun p => by simp [he]

/-- One union joins the vertices of the other volume that count, if it is not empty. -/
theorem Joins.merged (h : v.Joins points) (hv : v.WellFormed) (ha : v.flags.aligned = true)
    (hm : m.WellFormed) :
    (v.merged m).Joins fun p => points p ∨ m.flags.empty = false ∧ p ∈ m.complete.vertices := by
  cases he : m.flags.empty with
  | true =>
      rw [merged_of_empty v he]
      exact h.congr fun p => by simp
  | false =>
      have hbox := hm.isLeastBox_boxed he
      rw [merged_of_not_empty v he]
      refine ⟨fun hempty => absurd hempty (by simp [Volume.enclose]), fun _ => ?_⟩
      cases hve : v.flags.empty with
      | true =>
          -- the first box is taken over as it stands, since there were no points before it
          rw [enclose_of_empty hve]
          exact hbox.congr fun p => by simp [h.nothing hve p]
      | false =>
          obtain ⟨-, hleast, hgreatest⟩ := (hv.keys ha hve).toKeyEdges.grow m.boxed
          rw [enclose_of_not_empty hve]
          change IsLeastBox _ (v.grow m.boxed).least (v.grow m.boxed).greatest
          rw [hleast, hgreatest]
          exact (hbox.join (h.box hve)).congr fun p => by simp [or_comm]

/-- What the volume after many unions has to be around: the box of the growing volume, and the
vertices of the others that count. -/
def Covered (v : Volume Rat) (others : List (Volume Rat)) (p : Vec3 Rat) : Prop :=
  (v.flags.empty = false ∧ InBox v.least v.greatest p) ∨
    ∃ m ∈ others, m.flags.empty = false ∧ p ∈ m.complete.vertices

theorem Joins.mergedAll (h : v.Joins points) (hv : v.Reachable) (ha : v.flags.aligned = true)
    (hothers : ∀ m ∈ others, m.Reachable) : (v.mergedAll others).Joins fun p =>
      points p ∨ ∃ m ∈ others, m.flags.empty = false ∧ p ∈ m.complete.vertices := by
  induction others generalizing v points with
  | nil => exact h.congr fun p => by simp
  | cons m others ih =>
      obtain ⟨hm, hrest⟩ := List.forall_mem_cons.mp hothers
      have hstep := h.merged hv.wellFormed ha hm.wellFormed
      have hrun := ih hstep (hv.merged ha hm) ((aligned_merged v m).trans ha) hrest
      exact hrun.congr fun p => by simp [or_assoc]

/-! ## Only the set of the others counts -/

/-- The two volumes have the same key vertices, and agree on being aligned and flat. -/
structure SameKeys (u v : Volume Rat) : Prop where
  topLeft : u.front.topLeft = v.front.topLeft
  topRight : u.front.topRight = v.front.topRight
  bottomLeft : u.front.bottomLeft = v.front.bottomLeft
  behind : u.back.topLeft = v.back.topLeft
  aligned : u.flags.aligned = v.flags.aligned
  flat : u.flags.flat = v.flags.flat

/-- The box determines the key vertices. -/
theorem KeyBox.sameKeys (hu : KeyBox u) (hv : KeyBox v)
    (haligned : u.flags.aligned = v.flags.aligned) (hleast : u.least = v.least)
    (hgreatest : u.greatest = v.greatest) : u.SameKeys v := by
  have hright := hu.topRight_eq
  have hbelow := hu.bottomLeft_eq
  have hbehind := hu.behind_eq
  rw [hleast, hgreatest] at hright hbelow hbehind
  refine ⟨hleast, hright.trans hv.topRight_eq.symm, hbelow.trans hv.bottomLeft_eq.symm,
    hbehind.trans hv.behind_eq.symm, haligned, ?_⟩
  rw [Bool.eq_iff_iff, hu.flat_iff, hv.flat_iff, hleast, hgreatest]

theorem KeyBox.eq_of_box (hu : KeyBox u) (hv : KeyBox v) (hframe : u.SameFrame v)
    (hempty : u.flags.empty = v.flags.empty) (hcomplete : u.flags.complete = v.flags.complete)
    (hleast : u.least = v.least) (hgreatest : u.greatest = v.greatest) : u = v := by
  obtain ⟨haligned, hreference, hderived⟩ := hframe
  obtain ⟨-, hright, hbelow, hbehind, -, hflat⟩ := hu.sameKeys hv haligned hleast hgreatest
  simp only [derived, List.cons.injEq, and_true] at hderived
  obtain ⟨⟨ua, ub, uc, ud⟩, ⟨ue, uf, ug, ui⟩, ⟨uem, ual, uco, ufl⟩, ur⟩ := u
  obtain ⟨⟨va, vb, vc, vd⟩, ⟨ve, vf, vg, vi⟩, ⟨vem, val, vco, vfl⟩, vr⟩ := v
  simp only at *
  simp only [Volume.mk.injEq, Face.mk.injEq, VolumeFlags.mk.injEq]
  exact ⟨⟨hleast, hright, hderived.1, hbelow⟩,
    ⟨hbehind, hderived.2.1, hderived.2.2.1, hderived.2.2.2⟩,
    ⟨hempty, haligned, hcomplete, hflat⟩, hreference⟩

/-- The two lists have the same members that are not empty. -/
def SameSolids (others others' : List (Volume Rat)) : Prop :=
  ∀ m : Volume Rat, m.flags.empty = false → (m ∈ others ↔ m ∈ others')

theorem SameSolids.symm {others' : List (Volume Rat)} (h : SameSolids others others') :
    SameSolids others' others := fun m he => (h m he).symm

theorem SameSolids.none_solid {others' : List (Volume Rat)} (h : SameSolids others others')
    (hnone : ∀ m ∈ others, m.flags.empty = true) : ∀ m ∈ others', m.flags.empty = true := by
  intro m hm
  cases he : m.flags.empty with
  | true => rfl
  | false => exact absurd (he.symm.trans (hnone m ((h m he).mpr hm))) (by decide)

theorem SameSolids.all_empty {others' : List (Volume Rat)} (h : SameSolids others others') :
    others.all (·.flags.empty) = others'.all (·.flags.empty) := by
  rw [Bool.eq_iff_iff, List.all_eq_true, List.all_eq_true]
  exact ⟨h.none_solid, h.symm.none_solid⟩

theorem SameSolids.covered {others' : List (Volume Rat)} (h : SameSolids others others')
    (p : Vec3 Rat) : Covered v others p ↔ Covered v others' p := by
  refine or_congr_right (exists_congr fun m => ?_)
  constructor
  · rintro ⟨hm, he, hp⟩
    exact ⟨(h m he).mp hm, he, hp⟩
  · rintro ⟨hm, he, hp⟩
    exact ⟨(h m he).mpr hm, he, hp⟩

/-- The join after many unions is the least box around all that they have to be around. -/
theorem Reachable.joins_mergedAll (h : v.Reachable) (ha : v.flags.aligned = true)
    (hothers : ∀ m ∈ others, m.Reachable) : (v.mergedAll others).Joins (Covered v others) :=
  (h.wellFormed.joins ha).mergedAll h ha hothers

theorem Reachable.keyBox_mergedAll (h : v.Reachable) (ha : v.flags.aligned = true)
    (hothers : ∀ m ∈ others, m.Reachable) (he : (v.mergedAll others).flags.empty = false) :
    KeyBox (v.mergedAll others) :=
  (h.mergedAll ha hothers).wellFormed.keys ((sameFrame_mergedAll v others).aligned.trans ha) he

/-- A least box is determined by what it is around, and all else that unions write by whether
a volume that is not empty was among the others. -/
theorem Reachable.mergedAll_eq {others' : List (Volume Rat)} (h : v.Reachable)
    (ha : v.flags.aligned = true) (hothers : ∀ m ∈ others, m.Reachable)
    (hothers' : ∀ m ∈ others', m.Reachable) (hsame : SameSolids others others') :
    v.mergedAll others = v.mergedAll others' := by
  have hall := hsame.all_empty
  cases hnone : others.all (·.flags.empty) with
  | true =>
      rw [mergedAll_of_all_empty (List.all_eq_true.mp hnone),
        mergedAll_of_all_empty (List.all_eq_true.mp (hall.symm.trans hnone))]
  | false =>
      obtain ⟨hempty, hcomplete⟩ := flags_mergedAll v others
      obtain ⟨hempty', hcomplete'⟩ := flags_mergedAll v others'
      rw [← hall] at hempty' hcomplete'
      rw [hnone, Bool.and_false] at hempty hempty'
      have hleast := (h.joins_mergedAll ha hothers).box hempty
      have hleast' := (h.joins_mergedAll ha hothers').box hempty'
      obtain ⟨hcorner, hcorner'⟩ := (hleast.congr hsame.covered).unique hleast'
      have hframe := sameFrame_mergedAll v others
      have hframe' := sameFrame_mergedAll v others'
      exact (h.keyBox_mergedAll ha hothers hempty).eq_of_box
        (h.keyBox_mergedAll ha hothers' hempty') (hframe.trans hframe'.symm)
        (hempty.trans hempty'.symm) (hcomplete.trans hcomplete'.symm) hcorner hcorner'

/-- Unions of an aligned volume with any list of others succeed without a diagnostic, and
keep its space. The outcome is a reachable volume again. It is empty iff all the volumes are.
Otherwise it is a box along the axes, flat iff it has no depth, and the least one around the
box of the growing volume and the vertices of the others that count. A list with the same
members that are not empty, in whatever order and however often, has the very same outcome. -/
theorem Reachable.unionAll_least (h : v.Reachable) (ha : v.flags.aligned = true)
    (hothers : ∀ m ∈ others, m.Reachable) :
    ∃ grown : Volume Rat, (unionAll others).perform v = ⟨(.ok (), grown), []⟩ ∧
      grown.Reachable ∧ grown.reference = v.reference ∧
      (grown.flags.empty = true ↔
        v.flags.empty = true ∧ ∀ m ∈ others, m.flags.empty = true) ∧
      (grown.flags.empty = false → grown.flags.aligned = true ∧ KeyBox grown ∧
        IsLeastBox (Covered v others) grown.least grown.greatest) ∧
      ∀ others' : List (Volume Rat), (∀ m ∈ others', m.Reachable) → SameSolids others others' →
        (unionAll others').perform v = ⟨(.ok (), grown), []⟩ := by
  have hsound : ∀ m ∈ others, m.FlagsSound := fun m hm => (hothers m hm).flagsSound
  have hframe := sameFrame_mergedAll v others
  refine ⟨v.mergedAll others, perform_unionAll ha hsound, h.mergedAll ha hothers,
    hframe.reference, ?_, ?_, ?_⟩
  · rw [(flags_mergedAll v others).1, Bool.and_eq_true, List.all_eq_true]
  · intro he
    exact ⟨hframe.aligned.trans ha, h.keyBox_mergedAll ha hothers he,
      (h.joins_mergedAll ha hothers).box he⟩
  · intro others' hothers' hsame
    rw [h.mergedAll_eq ha hothers hothers' hsame]
    exact perform_unionAll ha fun m hm => (hothers' m hm).flagsSound

/-- A flat square. -/
def card : Volume Rat :=
  let wide := ((setWidth 1).perform (.new none)).value.2
  ((setHeight 1).perform wide).value.2

/-- A solid that was sheared off the axes. -/
def leaning : Volume Rat :=
  let solid := ((setDepth 3).perform card).value.2
  solid.transform ⟨⟨1, 1, 0, 0⟩, ⟨0, 1, 0, 0⟩, ⟨0, 0, 1, 0⟩, ⟨0, 0, 0, 1⟩⟩

/-- An empty volume far from the others. -/
def far : Volume Rat := ((setOrigin ⟨90, 90, 90⟩).perform (.new none)).value.2

theorem card_unionAll_least :
    card.flags.aligned = true ∧ leaning.flags.aligned = false ∧ far.flags.empty = true ∧
      (∀ m ∈ [leaning, far, card], m.Reachable) ∧
      ∃ grown : Volume Rat,
        (unionAll [leaning, far, card]).perform card = ⟨(.ok (), grown), []⟩ ∧
        KeyBox grown ∧
        IsLeastBox (Covered card [leaning, far, card]) grown.least grown.greatest ∧
        (unionAll [card, leaning, leaning]).perform card = ⟨(.ok (), grown), []⟩ := by
  have ha : card.flags.aligned = true := by decide +kernel
  have hoff : leaning.flags.aligned = false := by decide +kernel
  have hfar : far.flags.empty = true := by decide +kernel
  have hsolid : leaning.flags.empty = false := by decide +kernel
  have hcard : card.Reachable := .setHeight 1 (.setWidth 1 (.new none))
  have hleaning : leaning.Reachable := .transform _ (.setDepth 3 hcard)
  have hothers : ∀ m ∈ [leaning, far, card], m.Reachable := by
    simpa using ⟨hleaning, .setOrigin _ (.new none), hcard⟩
  have hothers' : ∀ m ∈ [card, leaning, leaning], m.Reachable := by
    simpa using ⟨hcard, hleaning⟩
  have hsame : SameSolids [leaning, far, card] [card, leaning, leaning] := by
    intro m he
    have hne : m ≠ far := fun heq => absurd (he.symm.trans (heq ▸ hfar)) (by decide)
    simp [hne, or_comm]
  obtain ⟨grown, hrun, -, -, hempty, hbox, hany⟩ := Reachable.unionAll_least hcard ha hothers
  have hgrown : grown.flags.empty = false := by
    rw [Bool.eq_false_iff]
    intro he
    exact absurd (hsolid.symm.trans ((hempty.mp he).2 leaning (by simp))) (by decide)
  obtain ⟨-, hkeys, hleast⟩ := hbox hgrown
  exact ⟨ha, hoff, hfar, hothers, grown, hrun, hkeys, hleast, hany _ hothers' hsame⟩

end Volume

end SceneCulling
