import SceneCulling.Proofs.Painting.OwnVolume
import SceneCulling.Scalar.Binary32
import SceneCulling.Volume.Pool

/-!
# Handled volumes

A program need not call the operations on a volume itself. It may keep the volume in a pool,
size it by a node, take it to another space, or leave it to an effect. All of this comes down
to the public operations, so whatever a program holds is a reachable volume: its flags agree,
its realignment is never refused, and a union is refused only for the volume that should grow.
-/

namespace SceneCulling

variable {K : Type} [Scalar K]

/-- The effect makes use of the public operations on volumes only. In contrast to a public
effect it may also re-label the space of the volume. -/
def Effect.Operates (effect : Effect K) : Prop :=
  ∀ v : Volume K, v.Reachable → (effect.adjust v).value.2.Reachable

theorem Effect.IsPublic.operates {effect : Effect K} (h : effect.IsPublic) : effect.Operates :=
  fun v hv => (h v hv).1

mutual

/-- The volumes that a program holds, in any order of requests with any arguments. A refused
request counts as well, with what it leaves. -/
inductive Volume.Handled : Volume K → Prop where
  | new (reference : Option NodeKey) : Volume.Handled (.new reference)
  /-- Overwriting the volume with another one. -/
  | overwrite {v other : Volume K} : Volume.Handled v → Volume.Handled other →
      Volume.Handled ((set other : Edit (Volume K) PUnit).perform v).value.2
  | withReference {v : Volume K} (reference : Option NodeKey) :
      Volume.Handled v → Volume.Handled (v.withReference reference)
  /-- Completion, also for the vertices that count or for the bounding rectangle. -/
  | complete {v : Volume K} : Volume.Handled v → Volume.Handled v.complete
  | setOrigin {v : Volume K} (p : Vec3 K) :
      Volume.Handled v → Volume.Handled ((Volume.setOrigin p).perform v).value.2
  | setWidth {v : Volume K} (width : K) :
      Volume.Handled v → Volume.Handled ((Volume.setWidth width).perform v).value.2
  | setHeight {v : Volume K} (height : K) :
      Volume.Handled v → Volume.Handled ((Volume.setHeight height).perform v).value.2
  | setDepth {v : Volume K} (depth : K) :
      Volume.Handled v → Volume.Handled ((Volume.setDepth depth).perform v).value.2
  | union {v other : Volume K} : Volume.Handled v → Volume.Handled other →
      Volume.Handled ((Volume.union other).perform v).value.2
  | transform {v : Volume K} (m : Mat4 K) :
      Volume.Handled v → Volume.Handled (v.transform m)
  | project {v : Volume K} (modelview projection : Mat4 K) (view : Viewport K) :
      Volume.Handled v → Volume.Handled (v.project modelview projection view)
  | align {v : Volume K} : Volume.Handled v → Volume.Handled (Volume.align.perform v).value.2
  /-- The size of a node, whatever the host program reports. -/
  | fitSize {v : Volume K} (tree : Hierarchy K) (node : NodeKey) :
      Volume.Handled v → Volume.Handled ((tree.fitSize node).perform v).value.2
  /-- The space of an ancestor, or eye space. -/
  | takeTo {v : Volume K} (tree : Hierarchy K) (ancestor : Option NodeKey) :
      Volume.Handled v → Volume.Handled ((tree.takeTo ancestor).perform v).value.2
  | adjust {effect : Effect K} {v : Volume K} :
      effect.Operates → Volume.Handled v → Volume.Handled (effect.adjust v).value.2
  | inPool {pool : VolumePool K} {slot : Nat} {v : Volume K} :
      VolumePool.Handled pool → pool.get? slot = some v → Volume.Handled v

/-- The pools that a program holds. A volume in a slot is changed by writing back what the
program has made of it. -/
inductive VolumePool.Handled : VolumePool K → Prop where
  | withCapacity (capacity : Nat) : VolumePool.Handled (.withCapacity capacity)
  | allocate {pool : VolumePool K} (reference : Option NodeKey) :
      VolumePool.Handled pool → VolumePool.Handled (pool.allocate reference).2
  | allocateCopy {pool : VolumePool K} {v : Volume K} :
      VolumePool.Handled pool → Volume.Handled v → VolumePool.Handled (pool.allocateCopy v).2
  | set {pool : VolumePool K} (slot : Nat) {v : Volume K} :
      VolumePool.Handled pool → Volume.Handled v → VolumePool.Handled (pool.set slot v)
  | release {pool : VolumePool K} :
      VolumePool.Handled pool → VolumePool.Handled pool.release

end

/-! ## Pools -/

namespace VolumePool

variable {pool : VolumePool K} {v w : Volume K} {slot : Nat}

omit [Scalar K] in
theorem mem_of_get? (h : pool.get? slot = some v) : v ∈ pool.volumes := by
  rw [get?] at h
  split at h
  · exact Array.mem_of_getElem? h
  · cases h

omit [Scalar K] in
/-- A pool holds nothing but the copies that were put in. -/
theorem mem_allocateCopy (h : w ∈ (pool.allocateCopy v).2.volumes) :
    w ∈ pool.volumes ∨ w = v := by
  rw [allocateCopy] at h
  split at h
  · exact Array.mem_or_eq_of_mem_setIfInBounds h
  · exact Array.mem_push.mp h

omit [Scalar K] in
theorem mem_set (h : w ∈ (pool.set slot v).volumes) : w ∈ pool.volumes ∨ w = v := by
  rw [set] at h
  split at h
  · exact Array.mem_or_eq_of_mem_setIfInBounds h
  · exact .inl h

end VolumePool

/-! ## Every route leads to reachable volumes -/

namespace Hierarchy

variable {v : Volume K}

/-- A move is refused or transforms the volume and re-labels its space. -/
theorem after_takeTo (tree : Hierarchy K) (ancestor : Option NodeKey) :
    ((tree.takeTo ancestor).perform v).value.2 = v ∨
      ∃ m, ((tree.takeTo ancestor).perform v).value.2 =
        (v.transform m).withReference ancestor := by
  rw [takeTo, Edit.perform_bind_of_silent (Edit.perform_get v)]
  cases v.reference with
  | none => exact .inl rfl
  | some node =>
      cases ancestor with
      | some a =>
          cases hm : tree.modelview? node a with
          | none => exact .inl (by simp [hm])
          | some m => exact .inr ⟨m, by simp [hm]⟩
      | none =>
          cases hstage : tree.stageOf? node with
          | none => exact .inl (by simp [hstage])
          | some stage =>
              have heye := Edit.perform_ofAttempt (tree.eyeTransform stage node) v
              simp only [hstage]
              cases hm : (tree.eyeTransform stage node).run.value with
              | error fault =>
                  rw [hm] at heye
                  rw [Edit.perform_bind_of_error heye]
                  exact .inl rfl
              | ok m =>
                  rw [hm] at heye
                  rw [Edit.perform_bind_of_ok heye]
                  exact .inr ⟨m, rfl⟩

theorem reachable_takeTo (tree : Hierarchy K) (ancestor : Option NodeKey) (h : v.Reachable) :
    ((tree.takeTo ancestor).perform v).value.2.Reachable := by
  rcases tree.after_takeTo (v := v) ancestor with hsame | ⟨m, hmoved⟩
  · rw [hsame]
    exact h
  · rw [hmoved]
    exact .withReference ancestor (.transform m h)

end Hierarchy

mutual

/-- What a program holds is made by the public operations. -/
theorem Volume.Handled.reachable : ∀ {v : Volume K}, v.Handled → v.Reachable
  | _, .new reference => .new reference
  | _, .overwrite _ hother => hother.reachable
  | _, .withReference reference hv => .withReference reference hv.reachable
  | _, .complete hv => .complete hv.reachable
  | _, .setOrigin p hv => .setOrigin p hv.reachable
  | _, .setWidth width hv => .setWidth width hv.reachable
  | _, .setHeight height hv => .setHeight height hv.reachable
  | _, .setDepth depth hv => .setDepth depth hv.reachable
  | _, .union hv hother => .union hv.reachable hother.reachable
  | _, .transform m hv => .transform m hv.reachable
  | _, .project modelview projection view hv =>
      .project modelview projection view hv.reachable
  | _, .align hv => .align hv.reachable
  | _, .fitSize tree node hv => (tree.isPublic_fitSize node _ hv.reachable).1
  | _, .takeTo tree ancestor hv => tree.reachable_takeTo ancestor hv.reachable
  | _, .adjust heffect hv => heffect _ hv.reachable
  | _, .inPool hpool hslot => hpool.reachable_of_mem _ (VolumePool.mem_of_get? hslot)

/-- Also a volume that was taken back stays what it was until its slot is used again. -/
theorem VolumePool.Handled.reachable_of_mem :
    ∀ {pool : VolumePool K}, pool.Handled → ∀ v ∈ pool.volumes, v.Reachable
  | _, .withCapacity _, _, hv => absurd hv (by simp [VolumePool.withCapacity])
  | _, .allocate reference hpool, v, hv => by
      rcases VolumePool.mem_allocateCopy hv with hold | rfl
      · exact hpool.reachable_of_mem v hold
      · exact .new reference
  | _, .allocateCopy hpool hcopied, v, hv => by
      have hcopy := hcopied.reachable
      rcases VolumePool.mem_allocateCopy hv with hold | rfl
      · exact hpool.reachable_of_mem v hold
      · exact hcopy
  | _, .set _ hpool hwritten, v, hv => by
      have hchanged := hwritten.reachable
      rcases VolumePool.mem_set hv with hold | rfl
      · exact hpool.reachable_of_mem v hold
      · exact hchanged
  | _, .release hpool, v, hv => hpool.reachable_of_mem v hv

end

namespace Volume

variable {v : Volume K}

/-! ## What the flags allow -/

/-- Whatever a program has done to a volume: if it is empty, it is aligned; if it is off the
axes, it is complete and not empty. So completion derives vertices for aligned volumes only,
realignment is never refused, and a union is refused iff the growing volume is off the axes,
whatever the other one is. -/
theorem Handled.flags_agree (h : v.Handled) :
    (v.flags.empty = true → v.flags.aligned = true) ∧
    (v.flags.aligned = false → v.flags.complete = true ∧ v.flags.empty = false) ∧
    (v.flags.complete = false → v.flags.empty = false → v.flags.aligned = true) ∧
    (∃ u, Volume.align.perform v = ⟨(.ok (), u), []⟩) ∧
    ∀ other : Volume K, other.Handled → ((Volume.union other).perform v).value.1 =
      if v.flags.aligned then .ok () else .error (.notAligned .union) := by
  have hflags := h.reachable.flagsSound
  refine ⟨hflags.aligned_of_empty, fun off => ⟨hflags.complete_of_not_aligned off, ?_⟩,
    fun hincomplete _ => ?_, ⟨v.boxed, hflags.perform_align⟩, fun other hother => ?_⟩
  · cases he : v.flags.empty with
    | false => rfl
    | true => exact absurd ((hflags.aligned_of_empty he).symm.trans off) (by decide)
  · cases ha : v.flags.aligned with
    | true => rfl
    | false =>
        exact absurd ((hflags.complete_of_not_aligned ha).symm.trans hincomplete) (by decide)
  · cases ha : v.flags.aligned with
    | false =>
        rw [perform_union_refused other ha]
        rfl
    | true =>
        rw [hother.reachable.flagsSound.perform_union ha]
        rfl

/-- A padded volume in single precision, moved by a missing number. -/
def astray : Volume Float32 :=
  let sized := ((setWidth 1).perform (.new none)).value.2
  let padded := ((Effect.padding (.uniform 2)).adjust sized).value.2
  padded.transform (.shift ⟨0 / 0, 0, 0⟩)

/-- The volume counts as handled on its way through a pool as well. -/
theorem astray_flags_agree :
    let pool := ((VolumePool.withCapacity 1).allocateCopy astray).2
    pool.get? 0 = some astray ∧ astray.Handled ∧ astray.flags.aligned = false ∧
      (astray.flags.complete = true ∧ astray.flags.empty = false) ∧
      (∃ u, Volume.align.perform astray = ⟨(.ok (), u), []⟩) ∧
      ((Volume.union (.new none)).perform astray).value.1 = .error (.notAligned .union) ∧
      ((Volume.union astray).perform (.new none)).value.1 = .ok () := by
  intro pool
  have hsized : (((setWidth 1).perform (.new none)).value.2 : Volume Float32).Handled :=
    .setWidth 1 (.new none)
  have hmoved : astray.Handled :=
    .transform _ (.adjust (Effect.isPublic_padding (.uniform 2)).operates hsized)
  have hslot : pool.get? 0 = some astray := rfl
  have hastray : astray.Handled := .inPool (.allocateCopy (.withCapacity 1) hmoved) hslot
  have hoff : astray.flags.aligned = false := by decide +kernel
  obtain ⟨-, hkept, -, haligned, hunion⟩ := Handled.flags_agree hastray
  have hfresh : (new none : Volume Float32).Handled := .new none
  obtain ⟨-, -, -, -, hgrown⟩ := Handled.flags_agree hfresh
  refine ⟨hslot, hastray, hoff, hkept hoff, haligned, ?_, hgrown astray hastray⟩
  have hrefused := hunion _ hfresh
  rwa [hoff] at hrefused

end Volume

end SceneCulling
