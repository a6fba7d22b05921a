import SceneCulling.Proofs.Volume.Reachable
import SceneCulling.Scene.Placement

/-!
# The own volume of a node

An effect is written by a user of volumes. What is asked of it is that it changes a volume
by the public operations only and leaves it in the space of its node. The own volume of a
node is then a reachable volume in the space of the node.
-/

namespace SceneCulling

variable {K : Type} [Scalar K]

namespace Edit

variable {α β : Type}

/-- The edit makes use of the public operations on volumes only, and leaves a volume in
its space. This is asked of a refused edit as well. -/
def IsPublic (edit : Edit (Volume K) α) : Prop :=
  ∀ v : Volume K, v.Reachable →
    (edit.perform v).value.2.Reachable ∧ (edit.perform v).value.2.reference = v.reference

theorem isPublic_pure (a : α) : (pure a : Edit (Volume K) α).IsPublic := fun _ hv => ⟨hv, rfl⟩

theorem isPublic_get : (get : Edit (Volume K) (Volume K)).IsPublic := fun _ hv => ⟨hv, rfl⟩

theorem isPublic_raise (fault : Fault) : (raise fault : Edit (Volume K) α).IsPublic :=
  fun _ hv => ⟨hv, rfl⟩

/-- A reachable volume in some space stays one. -/
theorem IsPublic.keeps {edit : Edit (Volume K) α} (h : edit.IsPublic)
    {reference : Option NodeKey} {v : Volume K} (hv : v.Reachable ∧ v.reference = reference) :
    (edit.perform v).value.2.Reachable ∧ (edit.perform v).value.2.reference = reference := by
  obtain ⟨hreachable, hspace⟩ := h v hv.1
  exact ⟨hreachable, hspace.trans hv.2⟩

/-- Public edits may follow each other. -/
theorem IsPublic.bind {edit : Edit (Volume K) α} {next : α → Edit (Volume K) β}
    (hedit : edit.IsPublic) (hnext : ∀ a, (next a).IsPublic) : (edit >>= next).IsPublic := by
  intro v hv
  exact of_perform_bind (P := fun u : Volume K => u.Reachable ∧ u.reference = v.reference)
    (hedit v hv) fun a _ hu => (hnext a).keeps hu

end Edit

namespace Volume

variable {v : Volume K}

omit [Scalar K] in
theorem reference_gathered (v : Volume K) : v.gathered.reference = v.reference := by
  rw [gathered]
  split <;> rfl

theorem isPublic_setWidth (x : K) : (setWidth x).IsPublic := by
  refine fun v hv => ⟨.setWidth x hv, ?_⟩
  rcases after_setWidth (v := v) with h | ⟨-, -, h⟩ <;> rw [h]
  exact reference_gathered v

theorem isPublic_setHeight (y : K) : (setHeight y).IsPublic := by
  refine fun v hv => ⟨.setHeight y hv, ?_⟩
  rcases after_setHeight (v := v) with h | ⟨-, -, h⟩ <;> rw [h]
  exact reference_gathered v

theorem isPublic_setOrigin (p : Vec3 K) : (setOrigin p).IsPublic := by
  refine fun v hv => ⟨.setOrigin p hv, ?_⟩
  rcases after_setOrigin (v := v) with h | ⟨-, h⟩ <;> rw [h]
  rfl

theorem isPublic_readExtent (operation : Operation) (extent : Volume K → K) :
    (readExtent operation extent).IsPublic := by
  refine .bind (.bind Edit.isPublic_get fun u => ?_) fun _ => .bind Edit.isPublic_get
    fun _ => Edit.isPublic_pure _
  cases u.flags.aligned with
  | false => exact Edit.isPublic_raise _
  | true => exact Edit.isPublic_pure _

end Volume

/-! ## Effects -/

namespace Effect

/-- The effect makes use of the public operations on volumes only, and leaves a volume in
its space. -/
def IsPublic (effect : Effect K) : Prop :=
  ∀ v : Volume K, v.Reachable →
    (effect.adjust v).value.2.Reachable ∧ (effect.adjust v).value.2.reference = v.reference

theorem isPublic_plain : (plain : Effect K).IsPublic := fun _ hv => ⟨hv, rfl⟩

/-- An edit that may be refused makes a public effect if it is public. -/
theorem isPublic_ofEdit {edit : Edit (Volume K) Unit} (h : edit.IsPublic) :
    (ofEdit edit).IsPublic := h

/-- An effect may move the volume, also off the axes. -/
theorem isPublic_ofMap_transform (m : Mat4 K) : (ofMap (Volume.transform m)).IsPublic :=
  fun v hv => ⟨.transform m hv, Volume.reference_mapVertices _ v⟩

theorem isPublic_unbounded : (unbounded : Effect K).IsPublic := fun _ hv => ⟨hv, rfl⟩

theorem isPublic_padding (margins : Margins K) : (padding margins).IsPublic := by
  have hpad : margins.pad.IsPublic := by
    refine .bind (Volume.isPublic_readExtent _ _) fun _ => ?_
    refine .bind (Volume.isPublic_readExtent _ _) fun _ => ?_
    refine .bind Edit.isPublic_get fun _ => ?_
    refine .bind (Volume.isPublic_setOrigin _) fun _ => ?_
    exact .bind (Volume.isPublic_setWidth _) fun _ => Volume.isPublic_setHeight _
  intro v hv
  cases he : v.flags.empty with
  | true =>
      simp only [padding, he, if_true]
      exact isPublic_plain v hv
  | false =>
      simp only [padding, he]
      exact isPublic_ofEdit hpad v hv

omit [Scalar K] in
/-- What each effect keeps is kept by all of them, one after the other. -/
theorem of_adjustAll {P : Volume K → Prop} {effects : List (Effect K)}
    (hkeeps : ∀ effect ∈ effects, ∀ v, P v → P (effect.adjust v).value.2) {v own : Volume K}
    (hv : P v) (h : (adjustAll effects v).value = some own) : P own := by
  induction effects generalizing v with
  | nil =>
      obtain rfl := Option.some.inj h
      exact hv
  | cons effect effects ih =>
      obtain ⟨hfirst, hrest⟩ := List.forall_mem_cons.mp hkeeps
      rw [adjustAll, Logged.value_bind] at h
      cases hb : (effect.adjust v).value.1 with
      | false => simp [hb] at h
      | true =>
          simp only [hb, if_true] at h
          exact ih hrest (hfirst v hv) h

theorem adjustAll_reachable {effects : List (Effect K)}
    (hpublic : ∀ effect ∈ effects, effect.IsPublic) {v own : Volume K} (hv : v.Reachable)
    (h : (adjustAll effects v).value = some own) :
    own.Reachable ∧ own.reference = v.reference := by
  refine of_adjustAll (P := fun u => u.Reachable ∧ u.reference = v.reference)
    (fun effect heffect u hu => ?_) ⟨hv, rfl⟩ h
  obtain ⟨hreachable, hreference⟩ := hpublic effect heffect u hu.1
  exact ⟨hreachable, hreference.trans hu.2⟩

end Effect

namespace Hierarchy

variable {tree : Hierarchy K} {node : NodeKey} {own : Volume K}

/-- What the setters of the width and the height keep is kept when a volume is sized. -/
theorem of_fitSize {P : Volume K → Prop} (tree : Hierarchy K) (node : NodeKey)
    (hwidth : ∀ x v, P v → P ((Volume.setWidth x).perform v).value.2)
    (hheight : ∀ y v, P v → P ((Volume.setHeight y).perform v).value.2) {v : Volume K}
    (hv : P v) : P ((tree.fitSize node).perform v).value.2 := by
  rw [fitSize]
  cases tree.size? node with
  | none => exact hv
  | some size =>
      by_cases hzero : (size.width == 0 || size.height == 0) = true
      · simp only [hzero, if_true]
        exact hv
      · simp only [hzero]
        rw [if_neg Bool.false_ne_true]
        refine Edit.of_perform_bind (hwidth size.width v hv) fun _ u hu => ?_
        exact Edit.of_perform_bind (hheight size.height u hu) fun _ _ hw => hw

theorem isPublic_fitSize (tree : Hierarchy K) (node : NodeKey) :
    (tree.fitSize node).IsPublic := by
  intro v hv
  exact tree.of_fitSize node (P := fun u => u.Reachable ∧ u.reference = v.reference)
    (fun x _ hu => (Volume.isPublic_setWidth x).keeps hu)
    (fun y _ hu => (Volume.isPublic_setHeight y).keeps hu) ⟨hv, rfl⟩

/-- The own volume of a node is what its effects make of a volume of its size. -/
theorem ownVolume_of_fitted
    (h : ((tree.fitSize node).perform (.new (some node))).value.1 = .ok true) :
    (tree.ownVolume node).value = (Effect.adjustAll (tree.effects node)
      ((tree.fitSize node).perform (.new (some node))).value.2).value := by
  rw [ownVolume, Logged.value_bind]
  simp only [h]

theorem ownVolume_of_not_fitted
    (h : ((tree.fitSize node).perform (.new (some node))).value.1 ≠ .ok true) :
    (tree.ownVolume node).value = none := by
  rw [ownVolume, Logged.value_bind]
  generalize ((tree.fitSize node).perform (.new (some node))).value = result at h
  obtain ⟨fitted, v⟩ := result
  cases fitted with
  | error fault => rfl
  | ok fitted =>
      cases fitted with
      | false => rfl
      | true => exact absurd rfl h

theorem of_ownVolume (h : (tree.ownVolume node).value = some own) :
    (Effect.adjustAll (tree.effects node)
      ((tree.fitSize node).perform (.new (some node))).value.2).value = some own := by
  by_cases hfitted : ((tree.fitSize node).perform (.new (some node))).value.1 = .ok true
  · rw [← ownVolume_of_fitted hfitted]
    exact h
  · rw [ownVolume_of_not_fitted hfitted] at h
    cases h

/-- The own volume of a node is a reachable one in the space of the node. -/
theorem ownVolume_reachable (hpublic : ∀ effect ∈ tree.effects node, effect.IsPublic)
    (h : (tree.ownVolume node).value = some own) :
    own.Reachable ∧ own.reference = some node := by
  obtain ⟨hfitted, hspace⟩ := tree.isPublic_fitSize node (.new (some node)) (.new _)
  obtain ⟨hown, hreference⟩ := Effect.adjustAll_reachable hpublic hfitted (of_ownVolume h)
  exact ⟨hown, hreference.trans hspace⟩

end Hierarchy

end SceneCulling
