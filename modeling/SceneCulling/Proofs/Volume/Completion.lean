import Mathlib.Logic.Function.Basic
import SceneCulling.Proofs.Volume.Reachable
import SceneCulling.Proofs.Scalar.Binary32
import SceneCulling.Volume.Transform

/-!
# Completion is not observed

A program that works on several volumes need not know when the derived vertices are brought
up to date. Every operation either says that they are out of date, or completes the volume
before it reads them, or does not read them. So completing any of the volumes at any time in
between changes no answer, and it changes nothing about the volumes at the end but their
derived vertices as they are stored and the flag for them.

The proof relates two runs of the same requests, where one of them completes volumes in
between, by what can be seen of each volume.
-/

namespace SceneCulling

theorem Face.toList_injective {K : Type} : Function.Injective (Face.toList (K := K)) := by
  intro f g h
  obtain ⟨a, b, c, d⟩ := f
  obtain ⟨a', b', c', d'⟩ := g
  simpa [Face.toList] using h

/-- What can be seen of a volume: its key vertices, its flags but for the one that tells
whether it is complete, and the vertices that count after completion. -/
structure Volume.View (K : Type) where
  empty : Bool
  aligned : Bool
  flat : Bool
  reference : Option NodeKey
  topLeft : Vec3 K
  topRight : Vec3 K
  bottomLeft : Vec3 K
  rear : Vec3 K
  vertices : List (Vec3 K)

namespace Volume

variable {K : Type}

def view (v : Volume K) : View K where
  empty := v.flags.empty
  aligned := v.flags.aligned
  flat := v.flags.flat
  reference := v.reference
  topLeft := v.front.topLeft
  topRight := v.front.topRight
  bottomLeft := v.front.bottomLeft
  rear := v.back.topLeft
  vertices := v.complete.vertices

@[simp] theorem view_complete (v : Volume K) : v.complete.view = v.view := by
  obtain ⟨front, back, ⟨empty, aligned, complete, flat⟩, reference⟩ := v
  cases empty <;> cases complete <;> cases flat <;> rfl

/-- Two volumes with the same view whose flags agree. -/
structure Alike (u v : Volume K) : Prop where
  left : u.FlagsSound
  right : v.FlagsSound
  view : u.view = v.view

namespace Alike

variable {u v : Volume K}

theorem refl (h : v.FlagsSound) : Alike v v := ⟨h, h, rfl⟩

theorem empty (h : Alike u v) : u.flags.empty = v.flags.empty := congrArg View.empty h.view

theorem aligned (h : Alike u v) : u.flags.aligned = v.flags.aligned :=
  congrArg View.aligned h.view

theorem flat (h : Alike u v) : u.flags.flat = v.flags.flat := congrArg View.flat h.view

theorem reference (h : Alike u v) : u.reference = v.reference :=
  congrArg View.reference h.view

theorem topLeft (h : Alike u v) : u.front.topLeft = v.front.topLeft :=
  congrArg View.topLeft h.view

theorem vertices (h : Alike u v) : u.complete.vertices = v.complete.vertices :=
  congrArg View.vertices h.view

/-- Completing one of the volumes cannot be seen. -/
theorem complete_left (h : Alike u v) : Alike u.complete v :=
  ⟨h.left.completed, h.right, (view_complete u).trans h.view⟩

theorem complete_right (h : Alike u v) : Alike u v.complete :=
  ⟨h.left, h.right.completed, h.view.trans (view_complete v).symm⟩

/-- Up to date derived vertices of flat volumes may differ in the back face, which was left
where it was when the volume became flat. -/
theorem faces (h : Alike u v) (hu : u.flags.complete = true) (hv : v.flags.complete = true)
    (he : u.flags.empty = false) :
    u.front = v.front ∧ (u.flags.flat = false → u.back = v.back) := by
  have hvertices := h.vertices
  rw [complete_of_complete hu, complete_of_complete hv, vertices_of_not_empty he,
    vertices_of_not_empty (h.empty.symm.trans he), ← h.flat] at hvertices
  obtain ⟨hfront, hback⟩ := List.append_inj hvertices rfl
  refine ⟨Face.toList_injective hfront, fun hdeep => Face.toList_injective ?_⟩
  simpa [hdeep] using hback

theorem eq_of_deep (h : Alike u v) (hu : u.flags.complete = true)
    (hv : v.flags.complete = true) (he : u.flags.empty = false)
    (hdeep : u.flags.flat = false) : u = v := by
  obtain ⟨hfront, hback⟩ := h.faces hu hv he
  have hflags : u.flags = v.flags := by
    rw [VolumeFlags.mk.injEq]
    exact ⟨h.empty, h.aligned, hu.trans hv.symm, h.flat⟩
  rw [Volume.mk.injEq]
  exact ⟨hfront, hback hdeep, hflags, h.reference⟩

end Alike

/-! ## Operations that leave the derived vertices out of date

Afterwards the derived vertices follow from the rest of the volume, and the operation does
not look at them either. -/

variable [Scalar K]

/-- A volume without its derived vertices. -/
def skeleton (v : Volume K) : Volume K where
  front := ⟨v.front.topLeft, v.front.topRight, Vec3.zero, v.front.bottomLeft⟩
  back := ⟨v.back.topLeft, Vec3.zero, Vec3.zero, Vec3.zero⟩
  flags := { v.flags with complete := false }
  reference := v.reference

section Skeleton

variable {u v box : Volume K}

theorem view_eq_iff : u.view = v.view ↔
    u.skeleton = v.skeleton ∧ u.complete.vertices = v.complete.vertices := by
  simp only [view, skeleton, View.mk.injEq, Volume.mk.injEq, Face.mk.injEq,
    VolumeFlags.mk.injEq]
  tauto

theorem Alike.skeleton (h : Alike u v) : u.skeleton = v.skeleton := (view_eq_iff.mp h.view).1

theorem vertices_of_incomplete (h : v.flags.complete = false) :
    v.complete.vertices = v.skeleton.complete.vertices := by
  obtain ⟨front, back, ⟨empty, aligned, complete, flat⟩, reference⟩ := v
  cases h
  cases empty <;> cases flat <;> rfl

theorem Alike.of_incomplete (ha : u.flags.aligned = true) (hu : u.flags.complete = false)
    (hv : v.flags.complete = false) (h : u.skeleton = v.skeleton) : Alike u v := by
  have ha' : v.flags.aligned = true :=
    (congrArg (fun w : Volume K => w.flags.aligned) h).symm.trans ha
  refine ⟨.of_aligned ha, .of_aligned ha', view_eq_iff.mpr ⟨h, ?_⟩⟩
  rw [vertices_of_incomplete hu, vertices_of_incomplete hv, h]

theorem skeleton_movedTo (v : Volume K) (p : Vec3 K) :
    (v.movedTo p).skeleton = (v.skeleton.movedTo p).skeleton := rfl

theorem skeleton_withWidth (v : Volume K) (x : K) :
    (v.withWidth x).skeleton = (v.skeleton.withWidth x).skeleton := by
  obtain ⟨front, back, ⟨empty, aligned, complete, flat⟩, reference⟩ := v
  cases empty <;> rfl

theorem skeleton_withHeight (v : Volume K) (x : K) :
    (v.withHeight x).skeleton = (v.skeleton.withHeight x).skeleton := by
  obtain ⟨front, back, ⟨empty, aligned, complete, flat⟩, reference⟩ := v
  cases empty <;> rfl

theorem skeleton_withDepth (v : Volume K) (x : K) :
    (v.withDepth x).skeleton = (v.skeleton.withDepth x).skeleton := by
  obtain ⟨front, back, ⟨empty, aligned, complete, flat⟩, reference⟩ := v
  cases empty <;> rfl

theorem skeleton_mapVertices (f : Vec3 K → Vec3 K) (v : Volume K) :
    (v.mapVertices f).skeleton = (v.skeleton.mapVertices f).skeleton := by
  obtain ⟨front, back, ⟨empty, aligned, complete, flat⟩, reference⟩ := v
  cases empty <;> cases complete <;> cases flat <;> rfl

theorem skeleton_spanned (v : Volume K) (least greatest : Vec3 K) :
    (v.spanned least greatest).skeleton = (v.skeleton.spanned least greatest).skeleton := rfl

theorem skeleton_reachLeft (x : K) (v : Volume K) :
    (v.reachLeft x).skeleton = v.skeleton.reachLeft x := apply_ite Volume.skeleton _ _ _

theorem skeleton_reachRight (x : K) (v : Volume K) :
    (v.reachRight x).skeleton = v.skeleton.reachRight x := apply_ite Volume.skeleton _ _ _

theorem skeleton_reachTop (y : K) (v : Volume K) :
    (v.reachTop y).skeleton = v.skeleton.reachTop y := apply_ite Volume.skeleton _ _ _

theorem skeleton_reachBottom (y : K) (v : Volume K) :
    (v.reachBottom y).skeleton = v.skeleton.reachBottom y := apply_ite Volume.skeleton _ _ _

theorem skeleton_reachFront (z : K) (v : Volume K) :
    (v.reachFront z).skeleton = v.skeleton.reachFront z := apply_ite Volume.skeleton _ _ _

theorem skeleton_reachBack (z : K) (v : Volume K) :
    (v.reachBack z).skeleton = v.skeleton.reachBack z := apply_ite Volume.skeleton _ _ _

theorem skeleton_stretched (v box : Volume K) :
    (v.stretched box).skeleton = v.skeleton.stretched box := by
  simp only [stretched, skeleton_reachLeft, skeleton_reachRight, skeleton_reachTop,
    skeleton_reachBottom, skeleton_reachFront, skeleton_reachBack]

theorem skeleton_grow (v box : Volume K) :
    (v.grow box).skeleton = v.skeleton.grow box.skeleton := by
  rw [grow_eq, grow_eq]
  change { (v.stretched box).skeleton with
    flags.flat := (v.stretched box).skeleton.back.topLeft.z ==
      (v.stretched box).skeleton.front.topLeft.z } = _
  rw [skeleton_stretched]
  rfl

theorem skeleton_enclose (v box : Volume K) :
    (v.enclose box).skeleton = v.skeleton.enclose box.skeleton := by
  cases h : v.flags.empty with
  | true =>
      have h' : v.skeleton.flags.empty = true := h
      rw [enclose_of_empty h, enclose_of_empty h']
      rfl
  | false =>
      have h' : v.skeleton.flags.empty = false := h
      rw [enclose_of_not_empty h, enclose_of_not_empty h', ← skeleton_grow]
      rfl

end Skeleton

/-! ## Operations keep what cannot be told apart -/

namespace Alike

variable {u v other other' : Volume K}

theorem withReference (h : Alike u v) (reference : Option NodeKey) :
    Alike (u.withReference reference) (v.withReference reference) := by
  refine ⟨⟨h.left.1, h.left.2⟩, ⟨h.right.1, h.right.2⟩, view_eq_iff.mpr ⟨?_, ?_⟩⟩
  · exact congrArg (fun w : Volume K => w.withReference reference) h.skeleton
  · rw [complete_withReference, complete_withReference]
    exact h.vertices

theorem mapVertices (h : Alike u v) (f : Vec3 K → Vec3 K) :
    Alike (u.mapVertices f) (v.mapVertices f) := by
  refine ⟨h.left.mapVertices f, h.right.mapVertices f, view_eq_iff.mpr ⟨?_, ?_⟩⟩
  · rw [skeleton_mapVertices, h.skeleton, ← skeleton_mapVertices]
  · rw [vertices_mapVertices, h.vertices, ← vertices_mapVertices]

theorem isBox (h : Alike u v) (hu : u.flags.complete = true) (hv : v.flags.complete = true)
    (he : u.flags.empty = false) : u.isBox = v.isBox := by
  obtain ⟨hfront, hback⟩ := h.faces hu hv he
  rw [Volume.isBox, Volume.isBox, ← h.flat, frontIsBox, frontIsBox, hfront]
  cases hdeep : u.flags.flat with
  | true => rw [Bool.true_or, Bool.true_or]
  | false => rw [backIsBox, backIsBox, hfront, hback hdeep]

theorem enclosingBox (h : Alike u v) (hu : u.flags.complete = true)
    (hv : v.flags.complete = true) : Alike u.enclosingBox v.enclosingBox := by
  refine .of_incomplete rfl rfl rfl ?_
  have hvertices := h.vertices
  rw [complete_of_complete hu, complete_of_complete hv] at hvertices
  rw [Volume.enclosingBox, Volume.enclosingBox, hvertices, h.topLeft, skeleton_spanned,
    h.skeleton, ← skeleton_spanned]

/-- A flat volume stays flat, because a box has no missing depth. So the back face, which may
differ, still does not count. -/
theorem markAligned [PartialEquivBEq K] (h : Alike u v) (hu : u.flags.complete = true)
    (hv : v.flags.complete = true) (he : u.flags.empty = false) (hbox : u.isBox = true) :
    Alike u.markAligned v.markAligned := by
  cases hflat : u.flags.flat with
  | false =>
      rw [h.eq_of_deep hu hv he hflat]
      exact .refl (.of_aligned rfl)
  | true =>
      obtain ⟨hfront, -⟩ := h.faces hu hv he
      have hflat' := h.flat.symm.trans hflat
      have hdepth : (u.front.topLeft.z == u.front.topLeft.z) = true := by
        simp only [Volume.isBox, frontIsBox, Bool.and_eq_true] at hbox
        exact BEq.trans (BEq.symm hbox.1.1.1.1.2) hbox.1.1.1.1.2
      have hkept : u.markAligned.flags.flat = true := by
        simpa [Volume.markAligned, hflat] using hdepth
      have hkept' : v.markAligned.flags.flat = true := by
        simpa [Volume.markAligned, hflat', ← hfront] using hdepth
      refine ⟨.of_aligned rfl, .of_aligned rfl, view_eq_iff.mpr ⟨?_, ?_⟩⟩
      · simp only [Volume.skeleton, Volume.markAligned, hflat, hflat', if_true, hfront, h.empty,
          h.reference]
      · have hu' : u.markAligned.flags.complete = true := hu
        have hv' : v.markAligned.flags.complete = true := hv
        have he' : u.markAligned.flags.empty = false := he
        have he'' : v.markAligned.flags.empty = false := h.empty.symm.trans he
        rw [complete_of_complete hu', complete_of_complete hv', vertices_of_not_empty he',
          vertices_of_not_empty he'', hkept, hkept']
        exact congrArg (fun front : Face K => front.toList ++ []) hfront

theorem boxed [PartialEquivBEq K] (h : Alike u v) : Alike u.boxed v.boxed := by
  cases ha : u.flags.aligned with
  | true =>
      rw [boxed_of_aligned ha, boxed_of_aligned (h.aligned.symm.trans ha)]
      exact h
  | false =>
      have ha' := h.aligned.symm.trans ha
      have hu := h.left.complete_of_not_aligned ha
      have hv := h.right.complete_of_not_aligned ha'
      have he := h.left.not_empty_of_not_aligned ha
      rw [boxed_of_not_aligned ha, boxed_of_not_aligned ha', realigned, realigned,
        ← h.isBox hu hv he]
      split
      case isTrue hbox => exact h.markAligned hu hv he hbox
      case isFalse => exact h.enclosingBox hu hv

theorem merged [PartialEquivBEq K] (h : Alike u v) (hother : Alike other other')
    (ha : u.flags.aligned = true) : Alike (u.merged other) (v.merged other') := by
  cases he : other.flags.empty with
  | true =>
      rw [merged_of_empty u he, merged_of_empty v (hother.empty.symm.trans he)]
      exact h
  | false =>
      rw [merged_of_not_empty u he, merged_of_not_empty v (hother.empty.symm.trans he)]
      refine .of_incomplete ((aligned_enclose u _).trans ha) rfl rfl ?_
      rw [skeleton_enclose, skeleton_enclose, h.skeleton, hother.boxed.skeleton]

end Alike

/-! ## Outcomes that cannot be told apart -/

/-- The same result with the same diagnostics, and volumes that look alike. -/
structure Indistinct {α : Type} (o o' : Logged (Except Fault α × Volume K)) : Prop where
  result : o.value.1 = o'.value.1
  log : o.log = o'.log
  left : Alike o.value.2 o'.value.2

omit [Scalar K] in
/-- Reading off the result does not tell the volumes apart. -/
theorem Indistinct.bind_pure {α β : Type} {edit edit' : Edit (Volume K) α} {u v : Volume K}
    (h : Indistinct (edit.perform u) (edit'.perform v)) (g : α → β) :
    Indistinct ((edit >>= fun a => pure (g a)).perform u)
      ((edit' >>= fun a => pure (g a)).perform v) := by
  obtain ⟨hresult, hlog, hleft⟩ := h
  generalize hu : edit.perform u = o at *
  generalize hv : edit'.perform v = o' at *
  obtain ⟨⟨result, u'⟩, log⟩ := o
  obtain ⟨⟨result', v'⟩, log'⟩ := o'
  cases hresult
  cases hlog
  cases result with
  | error fault =>
      rw [Edit.perform_bind_of_error hu, Edit.perform_bind_of_error hv]
      exact ⟨rfl, rfl, hleft⟩
  | ok a =>
      rw [Edit.perform_bind_of_ok hu, Edit.perform_bind_of_ok hv]
      exact ⟨rfl, rfl, hleft⟩

namespace Alike

variable {u v other other' : Volume K} {operation : Operation} {x : K}

/-- The extent setters differ in the change only. -/
theorem guarded (h : Alike u v) {change : Volume K → Volume K}
    (hchange : ∀ w : Volume K, w.flags.aligned = true → (change w).flags.aligned = true ∧
      (change w).flags.complete = false ∧ (change w).skeleton = (change w.skeleton).skeleton) :
    Indistinct ((requireExtent operation x >>= fun _ => modify change).perform u)
      ((requireExtent operation x >>= fun _ => modify change).perform v) := by
  cases ha : u.flags.aligned with
  | false =>
      rw [Edit.perform_bind_of_error (perform_requireExtent_not_aligned ha),
        Edit.perform_bind_of_error
          (perform_requireExtent_not_aligned (h.aligned.symm.trans ha))]
      exact ⟨rfl, rfl, h⟩
  | true =>
      have ha' := h.aligned.symm.trans ha
      cases hx : isExtent x with
      | false =>
          rw [Edit.perform_bind_of_error (perform_requireExtent_refused ha hx),
            Edit.perform_bind_of_error (perform_requireExtent_refused ha' hx)]
          exact ⟨rfl, rfl, h⟩
      | true =>
          rw [Edit.perform_bind_of_silent (perform_requireExtent ha hx),
            Edit.perform_bind_of_silent (perform_requireExtent ha' hx)]
          obtain ⟨haligned, hstale, hskeleton⟩ := hchange u ha
          obtain ⟨-, hstale', hskeleton'⟩ := hchange v ha'
          refine ⟨rfl, rfl, .of_incomplete haligned hstale hstale' ?_⟩
          change (change u).skeleton = (change v).skeleton
          rw [hskeleton, hskeleton', h.skeleton]

theorem setWidth (h : Alike u v) (x : K) :
    Indistinct ((Volume.setWidth x).perform u) ((Volume.setWidth x).perform v) :=
  h.guarded fun w ha => ⟨(aligned_gathered w).trans ha, rfl, skeleton_withWidth w x⟩

theorem setHeight (h : Alike u v) (x : K) :
    Indistinct ((Volume.setHeight x).perform u) ((Volume.setHeight x).perform v) :=
  h.guarded fun w ha => ⟨(aligned_gathered w).trans ha, rfl, skeleton_withHeight w x⟩

theorem setDepth (h : Alike u v) (x : K) :
    Indistinct ((Volume.setDepth x).perform u) ((Volume.setDepth x).perform v) :=
  h.guarded fun w ha => ⟨(aligned_gathered w).trans ha, rfl, skeleton_withDepth w x⟩

theorem setOrigin (h : Alike u v) (p : Vec3 K) :
    Indistinct ((Volume.setOrigin p).perform u) ((Volume.setOrigin p).perform v) := by
  cases ha : u.flags.aligned with
  | false =>
      rw [Volume.setOrigin, Edit.perform_bind_of_error (perform_requireAligned_refused ha),
        Edit.perform_bind_of_error (perform_requireAligned_refused (h.aligned.symm.trans ha))]
      exact ⟨rfl, rfl, h⟩
  | true =>
      rw [perform_setOrigin ha, perform_setOrigin (h.aligned.symm.trans ha)]
      refine ⟨rfl, rfl, .of_incomplete ha rfl rfl ?_⟩
      change (u.movedTo p).skeleton = (v.movedTo p).skeleton
      rw [skeleton_movedTo u, skeleton_movedTo v, h.skeleton]

theorem readExtent (h : Alike u v) {extent : Volume K → K}
    (hextent : ∀ w, extent w = extent w.skeleton) :
    Indistinct ((Volume.readExtent operation extent).perform u)
      ((Volume.readExtent operation extent).perform v) := by
  cases ha : u.flags.aligned with
  | false =>
      rw [Volume.readExtent, Edit.perform_bind_of_error (perform_requireAligned_refused ha),
        Edit.perform_bind_of_error (perform_requireAligned_refused (h.aligned.symm.trans ha))]
      exact ⟨rfl, rfl, h⟩
  | true =>
      rw [perform_readExtent ha, perform_readExtent (h.aligned.symm.trans ha), h.empty,
        hextent u, hextent v, h.skeleton]
      exact ⟨rfl, rfl, h⟩

theorem align [PartialEquivBEq K] (h : Alike u v) :
    Indistinct (Volume.align.perform u) (Volume.align.perform v) := by
  rw [h.left.perform_align, h.right.perform_align]
  exact ⟨rfl, rfl, h.boxed⟩

theorem union [PartialEquivBEq K] (h : Alike u v) (hother : Alike other other') :
    Indistinct ((Volume.union other).perform u) ((Volume.union other').perform v) := by
  cases ha : u.flags.aligned with
  | false =>
      rw [perform_union_refused other ha,
        perform_union_refused other' (h.aligned.symm.trans ha)]
      exact ⟨rfl, rfl, h⟩
  | true =>
      rw [hother.left.perform_union ha, hother.right.perform_union (h.aligned.symm.trans ha)]
      exact ⟨rfl, rfl, h.merged hother ha⟩

end Alike

end Volume

/-! ## Runs of requests -/

/-- The volumes of a program by their numbers. -/
abbrev Volume.Bank (K : Type) := ℕ → Volume K

/-- A request to a volume with its arguments. A volume among the arguments is given by its
number. -/
inductive Volume.Request (K : Type) where
  | setOrigin (p : Vec3 K)
  | setWidth (x : K)
  | setHeight (x : K)
  | setDepth (x : K)
  | origin
  | width
  | height
  | depth
  | union (source : ℕ)
  | transform (m : Mat4 K)
  | project (modelview projection : Mat4 K) (view : Viewport K)
  | align
  /-- Overwrites the volume with a copy of another one. -/
  | overwrite (source : ℕ)
  | withReference (reference : Option NodeKey)
  | boundingRect
  /-- Completes the volume and reads the vertices that count. -/
  | vertices

/-- What a request that is not refused gives back. -/
inductive Volume.Reading (K : Type) where
  | nothing
  | number (x : K)
  | point (p : Vec3 K)
  | rect (r : Rect K)
  | points (ps : List (Vec3 K))

namespace Volume

variable {K : Type} [Scalar K]

/-- The edit that answers a request, where `bank` holds the volumes before it. -/
def Request.edit (bank : Bank K) : Request K → Edit (Volume K) (Reading K)
  | .setOrigin p => do Volume.setOrigin p; return .nothing
  | .setWidth x => do Volume.setWidth x; return .nothing
  | .setHeight x => do Volume.setHeight x; return .nothing
  | .setDepth x => do Volume.setDepth x; return .nothing
  | .origin => do return .point (← get).origin
  | .width => do return .number (← Volume.width)
  | .height => do return .number (← Volume.height)
  | .depth => do return .number (← Volume.depth)
  | .union source => do Volume.union (bank source); return .nothing
  | .transform m => do modify (Volume.transform m); return .nothing
  | .project modelview projection view => do
    modify (Volume.project modelview projection view)
    return .nothing
  | .align => do Volume.align; return .nothing
  | .overwrite source => do set (bank source); return .nothing
  | .withReference reference => do modify (·.withReference reference); return .nothing
  | .boundingRect => do
    let v ← get
    set v.complete
    return .rect v.boundingRect
  | .vertices => do
    let v ← get
    set v.complete
    return .points v.complete.vertices

/-- A step of a program: a request, or the completion of a volume, which has no answer. -/
inductive Call (K : Type) where
  | ask (target : ℕ) (request : Request K)
  | complete (target : ℕ)

/-- The answers to some calls in order, with the diagnostics that each of them gave, and the
volumes that the calls leave. -/
def run : List (Call K) → Bank K → List (Logged (Except Fault (Reading K))) × Bank K
  | [], bank => ([], bank)
  | .ask target request :: calls, bank =>
    let outcome := (request.edit bank).perform (bank target)
    let rest := run calls (Function.update bank target outcome.value.2)
    (⟨outcome.value.1, outcome.log⟩ :: rest.1, rest.2)
  | .complete target :: calls, bank =>
    run calls (Function.update bank target (bank target).complete)

/-- The second calls are the first ones with any number of completions put in between. -/
inductive Interspersed : List (Call K) → List (Call K) → Prop where
  | nil : Interspersed [] []
  | keep (call : Call K) {calls calls' : List (Call K)} :
      Interspersed calls calls' → Interspersed (call :: calls) (call :: calls')
  | complete (target : ℕ) {calls calls' : List (Call K)} :
      Interspersed calls calls' → Interspersed calls (.complete target :: calls')

variable [PartialEquivBEq K] {bank bank' : Bank K}

/-- One request is answered in the same way, whatever was completed before it. -/
theorem Request.indistinct (hbank : ∀ i, Alike (bank i) (bank' i)) (request : Request K)
    {u v : Volume K} (h : Alike u v) :
    Indistinct ((request.edit bank).perform u) ((request.edit bank').perform v) := by
  cases request with
  | setOrigin p => exact (h.setOrigin p).bind_pure _
  | setWidth x => exact (h.setWidth x).bind_pure _
  | setHeight x => exact (h.setHeight x).bind_pure _
  | setDepth x => exact (h.setDepth x).bind_pure _
  | origin => exact ⟨congrArg (fun p => Except.ok (Reading.point p)) h.topLeft, rfl, h⟩
  | width => exact (h.readExtent fun _ => rfl).bind_pure _
  | height => exact (h.readExtent fun _ => rfl).bind_pure _
  | depth => exact (h.readExtent fun _ => rfl).bind_pure _
  | union source => exact (h.union (hbank source)).bind_pure _
  | transform m => exact ⟨rfl, rfl, h.mapVertices _⟩
  | project modelview projection view => exact ⟨rfl, rfl, h.mapVertices _⟩
  | align => exact h.align.bind_pure _
  | overwrite source => exact ⟨rfl, rfl, hbank source⟩
  | withReference reference => exact ⟨rfl, rfl, h.withReference reference⟩
  | boundingRect =>
      refine ⟨congrArg (fun r => Except.ok (Reading.rect r)) ?_, rfl,
        h.complete_left.complete_right⟩
      rw [Volume.boundingRect, Volume.boundingRect, h.topLeft, h.vertices]
  | vertices =>
      exact ⟨congrArg (fun ps => Except.ok (Reading.points ps)) h.vertices, rfl,
        h.complete_left.complete_right⟩

omit [Scalar K] [PartialEquivBEq K] in
theorem Alike.update (hbank : ∀ i, Alike (bank i) (bank' i)) {u v : Volume K}
    (h : Alike u v) (target i : ℕ) :
    Alike (Function.update bank target u i) (Function.update bank' target v i) := by
  by_cases hi : i = target
  · subst hi
    rw [Function.update_self, Function.update_self]
    exact h
  · rw [Function.update_of_ne hi, Function.update_of_ne hi]
    exact hbank i

/-- The invariant of the two runs is that the volumes of each number look alike. -/
theorem Interspersed.run_alike {calls calls' : List (Call K)}
    (h : Interspersed calls calls') (hbank : ∀ i, Alike (bank i) (bank' i)) :
    (run calls bank).1 = (run calls' bank').1 ∧
      ∀ i, Alike ((run calls bank).2 i) ((run calls' bank').2 i) := by
  induction h generalizing bank bank' with
  | nil => exact ⟨rfl, hbank⟩
  | @keep call calls calls' _ ih =>
      cases call with
      | complete target =>
          exact ih (Alike.update hbank (hbank target).complete_left.complete_right target)
      | ask target request =>
          obtain ⟨hresult, hlog, hleft⟩ := request.indistinct hbank (hbank target)
          obtain ⟨hrest, hend⟩ := ih (Alike.update hbank hleft target)
          refine ⟨?_, hend⟩
          rw [run, run, hresult, hlog, hrest]
  | @complete target calls calls' _ ih =>
      have hcompleted := Alike.update hbank (hbank target).complete_right target
      rw [Function.update_eq_self] at hcompleted
      exact ih hcompleted

/-- Completing volumes is not observed. Take any requests to any volumes that start out new,
and put the completion of any volume in at any place, as often as one likes. Then every
request is answered in the same way, with the same diagnostics. At the end each volume has
the same reference, the same key vertices, the same flags but for the one that tells whether
it is complete, and the same vertices that count after completion. -/
theorem Interspersed.answers_and_views_eq {calls calls' : List (Call K)}
    (h : Interspersed calls calls') (references : ℕ → Option NodeKey) :
    let plain := run calls fun i => Volume.new (references i)
    let completed := run calls' fun i => Volume.new (references i)
    plain.1 = completed.1 ∧ ∀ i, (plain.2 i).view = (completed.2 i).view := by
  obtain ⟨hanswers, hend⟩ := h.run_alike fun i => Alike.refl (v := Volume.new (references i))
    (.of_aligned rfl)
  exact ⟨hanswers, fun i => (hend i).view⟩

/-- A card is drawn out to the right and turned out of its plane, and another volume grows
around it. -/
def cardTurned : List (Call Float32) :=
  [.ask 0 (.setWidth 2), .ask 0 (.setHeight 1), .ask 2 (.overwrite 0),
    .ask 0 (.transform ⟨⟨0, 0, -1, 0⟩, ⟨0, 1, 0, 0⟩, ⟨1, 0, 0, 0⟩, ⟨3, 4, 5, 1⟩⟩),
    .ask 1 (.union 0), .ask 1 .boundingRect, .ask 0 (.setDepth 1), .ask 0 .vertices]

/-- Completions before the card is turned and after a copy was made of it. -/
def cardTurnedCompleting : List (Call Float32) :=
  [.ask 0 (.setWidth 2), .complete 0, .ask 0 (.setHeight 1), .ask 2 (.overwrite 0), .complete 2,
    .ask 0 (.transform ⟨⟨0, 0, -1, 0⟩, ⟨0, 1, 0, 0⟩, ⟨1, 0, 0, 0⟩, ⟨3, 4, 5, 1⟩⟩),
    .ask 1 (.union 0), .complete 1, .ask 1 .boundingRect, .ask 0 (.setDepth 1),
    .ask 0 .vertices, .complete 7]

/-- In single precision the completed copy differs from the other one only out of view. -/
theorem cardTurned_answers_and_views_eq :
    let plain := run cardTurned fun _ => Volume.new none
    let completed := run cardTurnedCompleting fun _ => Volume.new none
    Interspersed cardTurned cardTurnedCompleting ∧ plain.1 = completed.1 ∧
      (∀ i, (plain.2 i).view = (completed.2 i).view) ∧
      (plain.2 2).flags.complete = false ∧ (completed.2 2).flags.complete = true := by
  intro plain completed
  have h : Interspersed cardTurned cardTurnedCompleting :=
    .keep _ (.complete 0 (.keep _ (.keep _ (.complete 2 (.keep _ (.keep _ (.complete 1
      (.keep _ (.keep _ (.keep _ (.complete 7 .nil)))))))))))
  obtain ⟨hanswers, hviews⟩ := Interspersed.answers_and_views_eq h fun _ => none
  refine ⟨h, hanswers, hviews, ?_, ?_⟩
  · decide +kernel
  · decide +kernel

end Volume

end SceneCulling
