import SceneCulling.Painting.Selection
import SceneCulling.Proofs.Diagnostics.Chatter

/-!
# What is heard of a frame before its list

Operations on volumes are quiet: they record warnings and faults. An effect belongs to the host
program and may record anything. A frame asks the effects of each node once, while it measures the
tree, so all chatter of measuring is that of the effects, node after node in the order of painting.
Testing a node and finding its pixels asks no effect, so it is quiet.
-/

namespace SceneCulling

variable {K : Type}

/-! ## Operations on volumes -/

namespace Volume

open Edit

theorem quiet_requireAligned (operation : Operation) :
    (requireAligned operation : Edit (Volume K) Unit).Quiet := by
  refine quiet_get.bind fun v => ?_
  cases v.flags.aligned with
  | true => exact quiet_pure _
  | false => exact quiet_raise _

variable [Scalar K]

theorem quiet_requireExtent (operation : Operation) (extent : K) :
    (requireExtent operation extent).Quiet := by
  refine (quiet_requireAligned operation).bind fun _ => ?_
  cases isExtent extent with
  | true => exact quiet_pure _
  | false => exact quiet_raise _

theorem quiet_setWidth (width : K) : (setWidth width).Quiet :=
  (quiet_requireExtent _ _).bind fun _ => quiet_modify _

theorem quiet_setHeight (height : K) : (setHeight height).Quiet :=
  (quiet_requireExtent _ _).bind fun _ => quiet_modify _

theorem quiet_setOrigin (p : Vec3 K) : (setOrigin p).Quiet :=
  (quiet_requireAligned _).bind fun _ => quiet_modify _

theorem quiet_readExtent (operation : Operation) (extent : Volume K → K) :
    (readExtent operation extent).Quiet :=
  (quiet_requireAligned _).bind fun _ => quiet_get.bind fun _ => quiet_pure _

theorem quiet_align : (align : Edit (Volume K) Unit).Quiet := by
  refine quiet_get.bind fun v => ?_
  cases v.flags.empty || v.flags.aligned with
  | true => exact quiet_pure _
  | false =>
      cases v.flags.complete with
      | true => exact quiet_set _
      | false => exact (quiet_raise _).bind fun _ => quiet_set _

theorem quiet_union (other : Volume K) : (union other).Quiet := by
  refine (quiet_requireAligned _).bind fun _ => ?_
  cases other.flags.empty with
  | true => exact quiet_pure _
  | false => exact (quiet_onCopy quiet_align other).bind fun _ => quiet_modify _

theorem quiet_visibility (planes : SidePlanes K) (v : Volume K) : (v.visibility planes).Quiet := by
  rw [visibility]
  split
  · exact Logged.quiet_pure _
  · split
    · exact Logged.quiet_warning _ _
    · split
      · exact Logged.quiet_warning _ _
      · exact Logged.quiet_pure _

end Volume

/-! ## Effects -/

/-- The effect records nothing but warnings and faults, whatever volume it adjusts. -/
def Effect.Quiet (effect : Effect K) : Prop := ∀ v, (effect.adjust v).Quiet

namespace Effect

theorem quiet_unbounded : (unbounded : Effect K).Quiet := fun _ => Logged.quiet_pure _

theorem quiet_adjustAll {effects : List (Effect K)} (h : ∀ effect ∈ effects, effect.Quiet)
    (v : Volume K) : (adjustAll effects v).Quiet := by
  induction effects generalizing v with
  | nil => exact Logged.quiet_pure _
  | cons effect effects ih =>
      refine (h effect List.mem_cons_self v).bind fun outcome => ?_
      obtain ⟨bounded, adjusted⟩ := outcome
      cases bounded with
      | true => exact ih (fun other hother => h other (List.mem_cons_of_mem _ hother)) adjusted
      | false => exact Logged.quiet_pure _

variable [Scalar K]

theorem quiet_padding (margins : Margins K) : (padding margins).Quiet := by
  have hpad : margins.pad.Quiet :=
    (Volume.quiet_readExtent _ _).bind fun _ => (Volume.quiet_readExtent _ _).bind fun _ =>
      Edit.quiet_get.bind fun _ => (Volume.quiet_setOrigin _).bind fun _ =>
        (Volume.quiet_setWidth _).bind fun _ => Volume.quiet_setHeight _
  intro v
  dsimp only [padding]
  split
  · exact Logged.quiet_pure _
  · exact (hpad v).bind fun _ => Logged.quiet_pure _

end Effect

variable [Scalar K]

namespace Hierarchy

variable (tree : Hierarchy K) (stage : Stage K)

/-! ## Operations on nodes -/

theorem quiet_eyeTransform (node : NodeKey) : (tree.eyeTransform stage node).run.Quiet := by
  rw [eyeTransform]
  cases tree.modelview? node stage.root with
  | none => exact Attempt.quiet_raise _
  | some m => exact Logged.quiet_pure _

theorem quiet_pixelRect (v : Volume K) : (tree.pixelRect stage v).run.Quiet := by
  rw [pixelRect]
  cases v.reference with
  | none => exact Logged.quiet_pure _
  | some node =>
      dsimp only
      rw [eyeTransform]
      cases tree.modelview? node stage.root with
      | none => exact Attempt.quiet_raise _
      | some m => exact Logged.quiet_pure _

theorem quiet_test (parentInside : Bool) (node : NodeKey) (v : Volume K) :
    (tree.test stage parentInside node v).Quiet := by
  rw [test]
  split
  · exact Logged.quiet_pure _
  · split
    · exact Logged.quiet_pure _
    · refine (tree.quiet_eyeTransform stage node).bind fun outcome => ?_
      cases outcome with
      | ok m => exact Volume.quiet_visibility _ _
      | error fault => exact Logged.quiet_pure _

open Edit

theorem quiet_fitSize (node : NodeKey) : (tree.fitSize node).Quiet := by
  rw [fitSize]
  cases tree.size? node with
  | none => exact quiet_pure _
  | some size =>
      dsimp only
      split
      · exact quiet_pure _
      · exact (Volume.quiet_setWidth _).bind fun _ =>
          (Volume.quiet_setHeight _).bind fun _ => quiet_pure _

theorem quiet_takeTo_ancestor (ancestor : NodeKey) : (tree.takeTo (some ancestor)).Quiet := by
  refine quiet_get.bind fun v => ?_
  cases v.reference with
  | none => exact quiet_raise _
  | some node =>
      dsimp only
      cases tree.modelview? node ancestor with
      | none => exact quiet_raise _
      | some m => exact quiet_modify _

theorem quiet_enclose (node : NodeKey) (child : Volume K) : (tree.enclose node child).Quiet :=
  (quiet_onCopy (tree.quiet_takeTo_ancestor node) child).bind fun moved => Volume.quiet_union moved

/-- A child that cannot be joined is worth a warning. -/
theorem quiet_merge (node : NodeKey) (slot : Nat) (bounded : Bool) (child : NodeKey)
    (bound : Bound) (pool : VolumePool K) :
    (tree.merge node slot bounded child bound pool).Quiet := by
  cases bound with
  | unbounded => exact Logged.quiet_pure _
  | inSlot childSlot =>
      rw [merge]
      split
      · exact Logged.quiet_pure _
      · split
        · split
          · exact Logged.quiet_pure _
          · refine (tree.quiet_enclose node _ _).bind fun outcome => ?_
            obtain ⟨result, own⟩ := outcome
            cases result with
            | ok => exact Logged.quiet_pure _
            | error fault =>
                exact (Logged.quiet_warning _ _).bind fun _ => Logged.quiet_pure _
        · exact Logged.quiet_pure _

/-! ## The effects of nodes -/

/-- What the effects of a node record while they adjust the volume of the node. The effects of a
node that paints nothing are not asked. -/
def effectLog (node : NodeKey) : List Entry :=
  match ((tree.fitSize node).perform (.new (some node))).value with
  | (.ok true, v) => (Effect.adjustAll (tree.effects node) v).log
  | _ => []

/-- What is heard of the effects of some nodes, node after node. -/
def effectChatter (nodes : List NodeKey) : List Entry :=
  nodes.flatMap fun node => chatter (tree.effectLog node)

/-- Quiet effects are not heard. -/
theorem effectChatter_of_quiet (h : ∀ node, ∀ effect ∈ tree.effects node, effect.Quiet)
    (nodes : List NodeKey) : tree.effectChatter nodes = [] := by
  refine List.flatMap_eq_nil_iff.mpr fun node _ => ?_
  rw [effectLog]
  split
  · exact Effect.quiet_adjustAll (h node) _
  · rfl

theorem chatter_ownVolume (node : NodeKey) :
    chatter (tree.ownVolume node).log = chatter (tree.effectLog node) := by
  rw [ownVolume, (tree.quiet_fitSize node _).chatter_bind, effectLog]
  rcases ((tree.fitSize node).perform (.new (some node))).value with ⟨fitted, v⟩
  cases fitted with
  | error fault => rfl
  | ok sized => cases sized <;> rfl

theorem chatter_openVolume (node : NodeKey) (pool : VolumePool K) :
    chatter (tree.openVolume node pool).log = chatter (tree.effectLog node) := by
  rw [← chatter_ownVolume]
  refine Logged.chatter_bind_of_quiet (tree.ownVolume node) ?_
  cases (tree.ownVolume node).value with
  | none => exact Logged.quiet_pure _
  | some own => exact Logged.quiet_pure _

/-! ## Measuring -/

theorem log_measureBelow_node (node child : NodeKey) (slot : Nat)
    (below next : Outline NodeKey) (bounded : Bool) (pool : VolumePool K) :
    (tree.measureBelow node slot (.node child below next) bounded pool).log =
      (let opened := tree.openVolume child pool
       let ((childSlot, childBounded), pool) := opened.value
       let inner := tree.measureBelow child childSlot below childBounded pool
       let ((_, childBounded), pool) := inner.value
       let bound := if childBounded then Bound.inSlot childSlot else .unbounded
       let merged := tree.merge node slot bounded child bound pool
       let (bounded, pool) := merged.value
       let rest := tree.measureBelow node slot next bounded pool
       opened.log ++ (inner.log ++ (merged.log ++ (rest.log ++ [])))) := rfl

theorem chatter_measureBelow (node : NodeKey) (slot : Nat) (o : Outline NodeKey) (bounded : Bool)
    (pool : VolumePool K) : chatter (tree.measureBelow node slot o bounded pool).log =
      tree.effectChatter o.preorder := by
  induction o generalizing node slot bounded pool with
  | nil => rfl
  | node child below next ihb ihn =>
      have hmerge : ∀ bounded bound pool,
          chatter (tree.merge node slot bounded child bound pool).log = [] :=
        fun bounded bound pool => tree.quiet_merge node slot bounded child bound pool
      simp only [log_measureBelow_node, chatter_append, chatter_openVolume, ihb, ihn, hmerge,
        List.append_nil, List.nil_append, Outline.preorder, effectChatter, List.flatMap_cons,
        List.flatMap_append]

/-- All that is heard of measuring comes from the effects of the nodes, in the order of painting. -/
theorem chatter_measure (root : NodeKey) (pool : VolumePool K) :
    chatter (tree.measure root pool).log = tree.effectChatter (tree.outline root).preorder := by
  have hlog : (tree.measure root pool).log =
      (let opened := tree.openVolume root pool
       let ((slot, bounded), pool) := opened.value
       let inner := tree.measureBelow root slot (tree.below root) bounded pool
       opened.log ++ (inner.log ++ [])) := rfl
  simp only [hlog, chatter_append, chatter_openVolume, chatter_measureBelow,
    List.append_nil, outline, Outline.preorder, effectChatter, List.flatMap_cons]

end Hierarchy

end SceneCulling
