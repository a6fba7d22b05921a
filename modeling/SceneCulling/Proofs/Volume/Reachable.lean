import SceneCulling.Volume.Transform
import SceneCulling.Volume.Union

/-!
# Reachable volumes

The volumes that a program can make: a new volume, changed by any sequence of the public
operations with any arguments. A refused operation counts as well, with what it leaves.

All operations keep two facts about the flags, in any arithmetic: an empty volume is
aligned, and a volume off the axes is complete. So realignment never has to refuse a
reachable volume, and a union is refused only for the volume that it should grow.
-/

namespace SceneCulling.Volume

variable {K : Type} [Scalar K]

/-- What the public operations make of new volumes. Overwriting a volume with another one
gives nothing new, and reading the vertices or the bounding rectangle only completes. -/
inductive Reachable : Volume K → Prop where
  | new (reference : Option NodeKey) : Reachable (.new reference)
  | withReference {v : Volume K} (reference : Option NodeKey) :
      Reachable v → Reachable (v.withReference reference)
  | complete {v : Volume K} : Reachable v → Reachable v.complete
  | setOrigin {v : Volume K} (p : Vec3 K) :
      Reachable v → Reachable ((setOrigin p).perform v).value.2
  | setWidth {v : Volume K} (width : K) :
      Reachable v → Reachable ((setWidth width).perform v).value.2
  | setHeight {v : Volume K} (height : K) :
      Reachable v → Reachable ((setHeight height).perform v).value.2
  | setDepth {v : Volume K} (depth : K) :
      Reachable v → Reachable ((setDepth depth).perform v).value.2
  | union {v other : Volume K} :
      Reachable v → Reachable other → Reachable ((union other).perform v).value.2
  | transform {v : Volume K} (m : Mat4 K) : Reachable v → Reachable (v.transform m)
  | project {v : Volume K} (modelview projection : Mat4 K) (view : Viewport K) :
      Reachable v → Reachable (v.project modelview projection view)
  | align {v : Volume K} : Reachable v → Reachable (align.perform v).value.2

/-- The derived vertices as they are stored, up to date or not. -/
def derived (v : Volume K) : List (Vec3 K) :=
  [v.front.bottomRight, v.back.topRight, v.back.bottomRight, v.back.bottomLeft]

/-- A volume off the axes as realignment leaves it. -/
def realigned (v : Volume K) : Volume K := if v.isBox then v.markAligned else v.enclosingBox

/-! ## Flags -/

section Flags

variable {v : Volume K}

omit [Scalar K] in
@[simp] theorem flags_complete (v : Volume K) : v.complete.flags =
    { v.flags with complete := v.flags.complete || !v.flags.empty } := by
  obtain ⟨front, back, ⟨empty, aligned, complete, flat⟩, reference⟩ := v
  cases empty <;> cases complete <;> rfl

omit [Scalar K] in
theorem complete_of_complete (hc : v.flags.complete = true) : v.complete = v := by
  simp [complete, hc]

omit [Scalar K] in
theorem complete_of_incomplete (hc : v.flags.complete = false) (he : v.flags.empty = false) :
    v.complete = { v with
      front.bottomRight := ⟨v.front.topRight.x, v.front.bottomLeft.y, v.front.topLeft.z⟩
      back := if v.flags.flat then v.back else
        { v.back with
          topRight := ⟨v.front.topRight.x, v.front.topLeft.y, v.back.topLeft.z⟩
          bottomRight := ⟨v.front.topRight.x, v.front.bottomLeft.y, v.back.topLeft.z⟩
          bottomLeft := ⟨v.front.topLeft.x, v.front.bottomLeft.y, v.back.topLeft.z⟩ }
      flags.complete := true } := by
  rw [complete, hc, he]
  rfl

omit [Scalar K] in
theorem vertices_of_not_empty (h : v.flags.empty = false) :
    v.vertices = v.front.toList ++ if v.flags.flat then [] else v.back.toList := by
  rw [vertices, stored, h]
  cases v.flags.flat with
  | true => exact (List.append_nil _).symm
  | false => rfl

omit [Scalar K] in
theorem complete_withReference (v : Volume K) (reference : Option NodeKey) :
    (v.withReference reference).complete = v.complete.withReference reference := by
  by_cases h : (v.flags.complete || v.flags.empty) = true
  · simp only [complete, withReference, h, if_true]
  · simp only [complete, withReference, h]
    rfl

omit [Scalar K] in
theorem flags_mapVertices_of_empty (f : Vec3 K → Vec3 K) (h : v.flags.empty = true) :
    (v.mapVertices f).flags = v.flags := by
  simp [mapVertices, h]

omit [Scalar K] in
theorem flags_mapVertices (f : Vec3 K → Vec3 K) (h : v.flags.empty = false) :
    (v.mapVertices f).flags = { v.flags with aligned := false, complete := true } := by
  simp [mapVertices, h]

omit [Scalar K] in
theorem empty_mapVertices (f : Vec3 K → Vec3 K) (v : Volume K) :
    (v.mapVertices f).flags.empty = v.flags.empty := by
  cases he : v.flags.empty with
  | true => rw [flags_mapVertices_of_empty f he, he]
  | false =>
      rw [flags_mapVertices f he]
      exact he

omit [Scalar K] in
theorem reference_mapVertices (f : Vec3 K → Vec3 K) (v : Volume K) :
    (v.mapVertices f).reference = v.reference := by
  simp only [mapVertices, complete]
  split
  · rfl
  · split <;> rfl

omit [Scalar K] in
theorem vertices_mapVertices (f : Vec3 K → Vec3 K) (v : Volume K) :
    (v.mapVertices f).complete.vertices = v.complete.vertices.map f := by
  obtain ⟨front, back, ⟨empty, aligned, complete, flat⟩, reference⟩ := v
  cases empty <;> cases complete <;> cases flat <;> rfl

omit [Scalar K] in
/-- No vertex is missing after a map, so none has to be derived. -/
theorem vertices_of_mapVertices (f : Vec3 K → Vec3 K) (h : v.flags.empty = false) :
    (v.mapVertices f).vertices = v.complete.vertices.map f := by
  have hcomplete : (v.mapVertices f).flags.complete = true := by rw [flags_mapVertices f h]
  rw [← vertices_mapVertices, complete_of_complete hcomplete]

/-- A volume that is taken to another space has the images of its vertices there. -/
theorem vertices_moved (m : Mat4 K) (reference : Option NodeKey) (v : Volume K) :
    ((v.transform m).withReference reference).complete.vertices =
      v.complete.vertices.map m.applyPoint := by
  rw [complete_withReference]
  exact vertices_mapVertices m.applyPoint v

omit [Scalar K] in
theorem aligned_gathered (v : Volume K) : v.gathered.flags.aligned = v.flags.aligned := by
  rw [gathered]
  split <;> rfl

@[simp] theorem kept_reachLeft (x : K) (v : Volume K) :
    (v.reachLeft x).flags = v.flags ∧ (v.reachLeft x).reference = v.reference ∧
      (v.reachLeft x).derived = v.derived := by
  rw [reachLeft]
  split <;> exact ⟨rfl, rfl, rfl⟩

@[simp] theorem kept_reachRight (x : K) (v : Volume K) :
    (v.reachRight x).flags = v.flags ∧ (v.reachRight x).reference = v.reference ∧
      (v.reachRight x).derived = v.derived := by
  rw [reachRight]
  split <;> exact ⟨rfl, rfl, rfl⟩

@[simp] theorem kept_reachTop (y : K) (v : Volume K) :
    (v.reachTop y).flags = v.flags ∧ (v.reachTop y).reference = v.reference ∧
      (v.reachTop y).derived = v.derived := by
  rw [reachTop]
  split <;> exact ⟨rfl, rfl, rfl⟩

@[simp] theorem kept_reachBottom (y : K) (v : Volume K) :
    (v.reachBottom y).flags = v.flags ∧ (v.reachBottom y).reference = v.reference ∧
      (v.reachBottom y).derived = v.derived := by
  rw [reachBottom]
  split <;> exact ⟨rfl, rfl, rfl⟩

@[simp] theorem kept_reachFront (z : K) (v : Volume K) :
    (v.reachFront z).flags = v.flags ∧ (v.reachFront z).reference = v.reference ∧
      (v.reachFront z).derived = v.derived := by
  rw [reachFront]
  split <;> exact ⟨rfl, rfl, rfl⟩

@[simp] theorem kept_reachBack (z : K) (v : Volume K) :
    (v.reachBack z).flags = v.flags ∧ (v.reachBack z).reference = v.reference ∧
      (v.reachBack z).derived = v.derived := by
  rw [reachBack]
  split <;> exact ⟨rfl, rfl, rfl⟩

/-- Each face moved outward as far as another volume reaches, with the flags as they were. -/
def stretched (v other : Volume K) : Volume K :=
  v |>.reachLeft other.front.topLeft.x |>.reachRight other.front.topRight.x
    |>.reachTop other.front.topLeft.y |>.reachBottom other.front.bottomLeft.y
    |>.reachFront other.front.topLeft.z |>.reachBack other.back.topLeft.z

theorem grow_eq (v other : Volume K) : v.grow other = { v.stretched other with
    flags.flat :=
      (v.stretched other).back.topLeft.z == (v.stretched other).front.topLeft.z } := rfl

/-- An empty volume encloses another one by becoming its box. -/
theorem enclose_of_empty (he : v.flags.empty = true) (other : Volume K) : v.enclose other =
    { v.becomeBox other with flags.empty := false, flags.complete := false } := by
  simp [enclose, he]

/-- A volume that is not empty encloses another one by growing around it. -/
theorem enclose_of_not_empty (he : v.flags.empty = false) (other : Volume K) : v.enclose other =
    { v.grow other with flags.empty := false, flags.complete := false } := by
  simp [enclose, he]

theorem aligned_enclose (v other : Volume K) :
    (v.enclose other).flags.aligned = v.flags.aligned := by
  cases he : v.flags.empty with
  | true => simp [enclose_of_empty he, becomeBox]
  | false => simp [enclose_of_not_empty he, grow]

theorem reference_enclose (v other : Volume K) :
    (v.enclose other).reference = v.reference := by
  cases he : v.flags.empty with
  | true => simp [enclose_of_empty he, becomeBox]
  | false => simp [enclose_of_not_empty he, grow]

theorem derived_enclose (v other : Volume K) : (v.enclose other).derived = v.derived := by
  cases he : v.flags.empty with
  | true =>
      rw [enclose_of_empty he]
      rfl
  | false =>
      rw [enclose_of_not_empty he, grow_eq]
      change (v.stretched other).derived = v.derived
      simp [stretched]

theorem aligned_realigned (v : Volume K) : v.realigned.flags.aligned = true := by
  rw [realigned]
  split <;> rfl

theorem empty_realigned (v : Volume K) : v.realigned.flags.empty = v.flags.empty := by
  rw [realigned]
  split <;> rfl

end Flags

/-! ## What an operation leaves

Each edit either leaves the volume as it was or gives the pure form of the operation,
under the condition that the edit has checked. -/

section Outcomes

variable {v : Volume K} {operation : Operation} {x : K}

/-- The extent setters differ in the pure change only. -/
private theorem afterExtent (change : Volume K → Volume K) :
    ((requireExtent operation x >>= fun _ => modify change).perform v).value.2 = v ∨
      v.flags.aligned = true ∧ isExtent x = true ∧
        ((requireExtent operation x >>= fun _ => modify change).perform v).value.2 =
          change v := by
  cases ha : v.flags.aligned with
  | false =>
      rw [Edit.perform_bind_of_error (perform_requireExtent_not_aligned ha)]
      exact .inl rfl
  | true =>
      cases hx : isExtent x with
      | false =>
          rw [Edit.perform_bind_of_error (perform_requireExtent_refused ha hx)]
          exact .inl rfl
      | true =>
          rw [Edit.perform_bind_of_silent (perform_requireExtent ha hx)]
          exact .inr ⟨rfl, rfl, rfl⟩

theorem after_setWidth : ((setWidth x).perform v).value.2 = v ∨
    v.flags.aligned = true ∧ isExtent x = true ∧
      ((setWidth x).perform v).value.2 = v.withWidth x :=
  afterExtent (withWidth · x)

theorem after_setHeight : ((setHeight x).perform v).value.2 = v ∨
    v.flags.aligned = true ∧ isExtent x = true ∧
      ((setHeight x).perform v).value.2 = v.withHeight x :=
  afterExtent (withHeight · x)

theorem after_setDepth : ((setDepth x).perform v).value.2 = v ∨
    v.flags.aligned = true ∧ isExtent x = true ∧
      ((setDepth x).perform v).value.2 = v.withDepth x :=
  afterExtent (withDepth · x)

theorem after_setOrigin {p : Vec3 K} : ((setOrigin p).perform v).value.2 = v ∨
    v.flags.aligned = true ∧ ((setOrigin p).perform v).value.2 = v.movedTo p := by
  cases ha : v.flags.aligned with
  | false =>
      rw [setOrigin, Edit.perform_bind_of_error (perform_requireAligned_refused ha)]
      exact .inl rfl
  | true =>
      rw [perform_setOrigin ha]
      exact .inr ⟨rfl, rfl⟩

theorem after_align : align.perform v = ⟨(.ok (), v), []⟩ ∧
      (v.flags.empty = true ∨ v.flags.aligned = true) ∨
    align.perform v = ⟨(.ok (), v.realigned), []⟩ ∧ v.flags.empty = false ∧
      v.flags.aligned = false ∧ v.flags.complete = true ∨
    align.perform v = ⟨(.error .incompleteVolume, v), [Fault.incompleteVolume.entry]⟩ ∧
      v.flags.aligned = false ∧ v.flags.complete = false := by
  cases he : v.flags.empty with
  | true => exact .inl ⟨perform_align_of_empty he, .inl rfl⟩
  | false =>
      cases ha : v.flags.aligned with
      | true => exact .inl ⟨perform_align_of_aligned ha, .inr rfl⟩
      | false =>
          cases hc : v.flags.complete with
          | true => exact .inr (.inl ⟨perform_align he ha hc, rfl, rfl, rfl⟩)
          | false =>
              refine .inr (.inr ⟨?_, rfl, rfl⟩)
              rw [align, Edit.perform_bind_of_silent (Edit.perform_get v), he, ha, hc]
              rfl

end Outcomes

/-- A property of all reachable volumes, from what each pure form keeps of it. -/
theorem Reachable.induct {P : Volume K → Prop} (new : ∀ reference, P (.new reference))
    (withReference : ∀ v reference, P v → P (v.withReference reference))
    (complete : ∀ v, P v → P v.complete)
    (movedTo : ∀ v p, v.flags.aligned = true → P v → P (v.movedTo p))
    (withWidth : ∀ v x, v.flags.aligned = true → isExtent x = true → P v → P (v.withWidth x))
    (withHeight : ∀ v x, v.flags.aligned = true → isExtent x = true → P v →
      P (v.withHeight x))
    (withDepth : ∀ v x, v.flags.aligned = true → isExtent x = true → P v → P (v.withDepth x))
    (mapVertices : ∀ v f, P v → P (v.mapVertices f))
    (realigned : ∀ v, v.flags.empty = false → v.flags.aligned = false →
      v.flags.complete = true → P v → P v.realigned)
    (enclose : ∀ v box, v.flags.aligned = true → box.flags.empty = false →
      box.flags.aligned = true → P v → P box → P (v.enclose box))
    {v : Volume K} (h : v.Reachable) : P v := by
  induction h with
  | new reference => exact new reference
  | withReference reference _ ih => exact withReference _ _ ih
  | complete _ ih => exact complete _ ih
  | @setOrigin v p _ ih =>
      rcases after_setOrigin (v := v) with h | ⟨ha, h⟩ <;> rw [h]
      · exact ih
      · exact movedTo _ p ha ih
  | @setWidth v x _ ih =>
      rcases after_setWidth (v := v) with h | ⟨ha, hx, h⟩ <;> rw [h]
      · exact ih
      · exact withWidth _ x ha hx ih
  | @setHeight v x _ ih =>
      rcases after_setHeight (v := v) with h | ⟨ha, hx, h⟩ <;> rw [h]
      · exact ih
      · exact withHeight _ x ha hx ih
  | @setDepth v x _ ih =>
      rcases after_setDepth (v := v) with h | ⟨ha, hx, h⟩ <;> rw [h]
      · exact ih
      · exact withDepth _ x ha hx ih
  | @union v other _ _ ihv iho =>
      cases ha : v.flags.aligned with
      | false =>
          rw [perform_union_refused other ha]
          exact ihv
      | true =>
          cases he : other.flags.empty with
          | true =>
              rw [perform_union_of_empty ha he]
              exact ihv
          | false =>
              rcases after_align (v := other) with
                ⟨h, hflags⟩ | ⟨h, -, hoff, hc⟩ | ⟨h, -, -⟩
              · rw [perform_union ha he h]
                have hbox : other.flags.aligned = true := by simpa [he] using hflags
                exact enclose v other ha he hbox ihv iho
              · rw [perform_union ha he h]
                exact enclose v _ ha ((empty_realigned other).trans he) (aligned_realigned other)
                  ihv (realigned other he hoff hc iho)
              · rw [Volume.union, Edit.perform_bind_of_silent (perform_requireAligned ha), he]
                change P ((Edit.onCopy other Volume.align >>= fun box =>
                  modify fun v => v.enclose box : Edit (Volume K) Unit).perform v).value.2
                rw [Edit.perform_bind_of_error (Edit.perform_onCopy_of_error h v)]
                exact ihv
  | transform m _ ih => exact mapVertices _ _ ih
  | project modelview projection view _ ih => exact mapVertices _ _ ih
  | @align v _ ih =>
      rcases after_align (v := v) with ⟨h, -⟩ | ⟨h, he, ha, hc⟩ | ⟨h, -, -⟩ <;> rw [h]
      · exact ih
      · exact realigned _ he ha hc ih
      · exact ih

/-! ## Agreement of the flags -/

/-- An empty volume is aligned, and a volume off the axes is complete. -/
structure FlagsSound (v : Volume K) : Prop where
  aligned_of_empty : v.flags.empty = true → v.flags.aligned = true
  complete_of_not_aligned : v.flags.aligned = false → v.flags.complete = true

namespace FlagsSound

variable {v : Volume K}

omit [Scalar K] in
theorem of_aligned (h : v.flags.aligned = true) : v.FlagsSound :=
  ⟨fun _ => h, fun off => absurd (h.symm.trans off) (by decide)⟩

omit [Scalar K] in
theorem not_empty_of_not_aligned (h : v.FlagsSound) (off : v.flags.aligned = false) :
    v.flags.empty = false := by
  cases he : v.flags.empty with
  | false => rfl
  | true => exact absurd ((h.aligned_of_empty he).symm.trans off) (by decide)

omit [Scalar K] in
theorem completed (h : v.FlagsSound) : v.complete.FlagsSound := by
  constructor <;> rw [flags_complete]
  · exact h.aligned_of_empty
  · intro off
    simp [h.complete_of_not_aligned off]

omit [Scalar K] in
theorem mapVertices (h : v.FlagsSound) (f : Vec3 K → Vec3 K) :
    (v.mapVertices f).FlagsSound := by
  cases he : v.flags.empty with
  | true =>
      have hf := flags_mapVertices_of_empty f he
      exact .of_aligned (by rw [hf, h.aligned_of_empty he])
  | false =>
      have hf := flags_mapVertices f he
      exact ⟨fun hempty => by simp [hf, he] at hempty, fun _ => by simp [hf]⟩

end FlagsSound

theorem Reachable.flagsSound {v : Volume K} (h : v.Reachable) : v.FlagsSound := by
  refine h.induct (fun _ => .of_aligned rfl) (fun v _ hv => ⟨hv.1, hv.2⟩)
    (fun v hv => hv.completed) (fun v p ha _ => .of_aligned ha) ?_ ?_ ?_
    (fun v f hv => hv.mapVertices f) (fun v _ _ _ _ => .of_aligned (aligned_realigned v))
    (fun v box ha _ _ _ _ => .of_aligned ((aligned_enclose v box).trans ha))
  all_goals exact fun v x ha _ _ => .of_aligned ((aligned_gathered v).trans ha)

/-! ## Sound flags allow a realignment and a union -/

/-- An aligned volume as it stands, any other one realigned. -/
def boxed (v : Volume K) : Volume K := if v.flags.aligned then v else v.realigned

/-- A volume after a union with another one. -/
def merged (v other : Volume K) : Volume K :=
  if other.flags.empty then v else v.enclose other.boxed

section Boxed

variable {v other : Volume K}

theorem boxed_of_aligned (h : v.flags.aligned = true) : v.boxed = v := if_pos h

theorem boxed_of_not_aligned (h : v.flags.aligned = false) : v.boxed = v.realigned := by
  simp [boxed, h]

theorem aligned_boxed (v : Volume K) : v.boxed.flags.aligned = true := by
  rw [boxed]
  split
  · assumption
  · exact aligned_realigned v

theorem empty_boxed (v : Volume K) : v.boxed.flags.empty = v.flags.empty := by
  rw [boxed]
  split
  · rfl
  · exact empty_realigned v

theorem merged_of_empty (v : Volume K) (h : other.flags.empty = true) : v.merged other = v :=
  if_pos h

theorem merged_of_not_empty (v : Volume K) (h : other.flags.empty = false) :
    v.merged other = v.enclose other.boxed := by
  simp [merged, h]

theorem aligned_merged (v other : Volume K) :
    (v.merged other).flags.aligned = v.flags.aligned := by
  rw [merged]
  split
  · rfl
  · exact aligned_enclose v _

theorem reference_merged (v other : Volume K) : (v.merged other).reference = v.reference := by
  rw [merged]
  split
  · rfl
  · exact reference_enclose v _

theorem derived_merged (v other : Volume K) : (v.merged other).derived = v.derived := by
  rw [merged]
  split
  · rfl
  · exact derived_enclose v _

/-- Only a volume that is not empty changes these flags, and always to the same. -/
theorem flags_merged (v other : Volume K) :
    (v.merged other).flags.empty = (v.flags.empty && other.flags.empty) ∧
      (v.merged other).flags.complete = (v.flags.complete && other.flags.empty) := by
  cases he : other.flags.empty with
  | true =>
      rw [merged_of_empty v he, Bool.and_true, Bool.and_true]
      exact ⟨rfl, rfl⟩
  | false =>
      rw [merged_of_not_empty v he, Bool.and_false, Bool.and_false]
      exact ⟨rfl, rfl⟩

theorem FlagsSound.perform_align (h : v.FlagsSound) :
    align.perform v = ⟨(.ok (), v.boxed), []⟩ := by
  cases ha : v.flags.aligned with
  | true => rw [perform_align_of_aligned ha, boxed_of_aligned ha]
  | false =>
      rw [Volume.perform_align (h.not_empty_of_not_aligned ha) ha (h.complete_of_not_aligned ha),
        boxed_of_not_aligned ha]
      rfl

/-- The other volume never makes a union fail. -/
theorem FlagsSound.perform_union (h : other.FlagsSound) (ha : v.flags.aligned = true) :
    (Volume.union other).perform v = ⟨(.ok (), v.merged other), []⟩ := by
  cases he : other.flags.empty with
  | true => rw [perform_union_of_empty ha he, merged_of_empty v he]
  | false => rw [Volume.perform_union ha he h.perform_align, merged_of_not_empty v he]

theorem Reachable.merged (h : v.Reachable) (ha : v.flags.aligned = true)
    (ho : other.Reachable) : (v.merged other).Reachable := by
  have hunion := Reachable.union h ho
  rw [ho.flagsSound.perform_union ha] at hunion
  exact hunion

end Boxed

end SceneCulling.Volume
