import SceneCulling.Proofs.Scene.Composition

/-!
# Changes of space

A volume of a node can be taken to the node itself and to every node above it, and nowhere else.
It can be taken to eye space if the topmost of these nodes carries a stage. The stage names the
node that it stands on, so the transform to eye space is never missing. A volume that cannot be
taken to eye space stays where it is, with a warning.

The ascent along the parents is compared with the relation of being above. Both follow the
parents, so one induction on a run of the ascent gives all its answers, also for the keys of
removed nodes.
-/

namespace SceneCulling

/-! ## Outcomes -/

namespace Hierarchy

variable {K : Type} [Scalar K] {tree : Hierarchy K} {node ancestor : NodeKey} {v : Volume K}

/-- The volume is taken to the space by this transform of the vertices that count. -/
def Moves (tree : Hierarchy K) (space : Option NodeKey) (v : Volume K) (m : Mat4 K) : Prop :=
  tree.Arrives space v ((v.transform m).withReference space) ∧
    ((v.transform m).withReference space).complete.vertices = v.complete.vertices.map m.applyPoint

/-- The change of space is refused with this fault, which is of this kind. The fault is recorded
once, and the volume is as it was. -/
def Bars (tree : Hierarchy K) (space : Option NodeKey) (v : Volume K) (kind : FaultKind)
    (fault : Fault) : Prop :=
  (tree.takeTo space).perform v = ⟨(.error fault, v), [fault.entry]⟩ ∧ fault.kind = kind

/-- The warning about a volume of a node that is on no stage. -/
def offStage (node : NodeKey) : Entry where
  severity := .warn
  source := Component.volume.text
  message := "node " ++ node.text ++ " is not on a stage; volume left in its local space"

theorem moves_of_modelview? {m : Mat4 K} (hreference : v.reference = some node)
    (hm : tree.modelview? node ancestor = some m) : tree.Moves (some ancestor) v m :=
  ⟨⟨perform_takeTo hreference hm, rfl⟩, Volume.vertices_moved m _ v⟩

theorem moves_of_stageOf? {stage : Stage K} {m : Mat4 K} (hreference : v.reference = some node)
    (hstage : tree.stageOf? node = some stage) (hm : tree.modelview? node stage.root = some m) :
    tree.Moves none v (stage.eye * m) :=
  ⟨⟨perform_takeTo_eye hreference hstage hm, rfl⟩, Volume.vertices_moved _ _ v⟩

theorem bars_of_reference (hreference : v.reference = none) (space : Option NodeKey) :
    tree.Bars space v .invalidState (.noReference .changeSpace) := by
  refine ⟨?_, rfl⟩
  rw [takeTo, Edit.perform_bind_of_silent (Edit.perform_get v), hreference]
  rfl

theorem bars_of_modelview? (hreference : v.reference = some node)
    (hm : tree.modelview? node ancestor = none) :
    tree.Bars (some ancestor) v .missingCoordinateSpace (.notAncestor ancestor node) := by
  refine ⟨?_, rfl⟩
  rw [takeTo, Edit.perform_bind_of_silent (Edit.perform_get v), hreference]
  simp only [hm]
  rfl

theorem perform_takeTo_offStage (hreference : v.reference = some node)
    (hstage : tree.stageOf? node = none) :
    (tree.takeTo none).perform v = ⟨(.ok (), v), [offStage node]⟩ := by
  rw [takeTo, Edit.perform_bind_of_silent (Edit.perform_get v), hreference]
  simp only [hstage]
  rfl

end Hierarchy

namespace Scene

variable {K : Type} {scene : Scene K} {key ancestor root node : NodeKey} {stage : Stage K}

/-! ## Above a node -/

/-- The ancestor is the parent of the node, or above the parent. -/
inductive IsAbove (scene : Scene K) (ancestor : NodeKey) : NodeKey → Prop where
  | parent {node : NodeKey} : scene.parent? node = some ancestor → IsAbove scene ancestor node
  | up {node parent : NodeKey} : scene.parent? node = some parent →
      IsAbove scene ancestor parent → IsAbove scene ancestor node

/-- The root is the node itself or above it, and has no parent. -/
structure IsTopmost (scene : Scene K) (root node : NodeKey) : Prop where
  above : root = node ∨ scene.IsAbove root node
  contained : scene.contains root = true
  parent?_eq_none : scene.parent? root = none

/-- Above a node there is its parent, and what is above the parent. -/
theorem isAbove_iff {parent : NodeKey} (hparent : scene.parent? node = some parent) :
    scene.IsAbove ancestor node ↔ ancestor = parent ∨ scene.IsAbove ancestor parent := by
  constructor
  · intro h
    cases h with
    | parent h => exact .inl (Option.some.inj (h.symm.trans hparent))
    | up h hrest =>
        obtain rfl := Option.some.inj (h.symm.trans hparent)
        exact .inr hrest
  · rintro (rfl | h)
    · exact .parent hparent
    · exact .up hparent h

/-- Nothing is above a node without parent, or above a key that names no node. -/
theorem not_isAbove (hparent : scene.parent? node = none) : ¬ scene.IsAbove ancestor node := by
  intro h
  cases h with
  | parent h => exact absurd (hparent.symm.trans h) (by simp)
  | up h => exact absurd (hparent.symm.trans h) (by simp)

/-- By induction on the ascent, which ends with a transform iff it has met the ancestor. -/
theorem SeeksAncestor.isSome_iff [Scalar K] {m : Mat4 K} {answer : Option (Mat4 K)}
    (h : scene.SeeksAncestor ancestor key m answer) :
    answer.isSome = true ↔ ancestor = key ∨ scene.IsAbove ancestor key := by
  induction h with
  | found m => simp
  | @gone key m hne hnone =>
      have hparent : scene.parent? key = none := by simp [parent?, hnone]
      simp [Ne.symm hne, not_isAbove hparent]
  | @top key node m hne hnode hparent =>
      have hparent : scene.parent? key = none := (parent?_of_get? hnode).trans hparent
      simp [Ne.symm hne, not_isAbove hparent]
  | @up key parent node m answer hne hnode hparent _ ih =>
      have hparent : scene.parent? key = some parent := (parent?_of_get? hnode).trans hparent
      rw [ih, isAbove_iff hparent]
      simp [Ne.symm hne]

/-- There is a transform from a node to itself and to the nodes above it, and to no others. -/
theorem Linked.modelview?_isSome_iff [Scalar K] (h : scene.Linked) :
    (scene.modelview? node ancestor).isSome = true ↔
      ancestor = node ∨ scene.IsAbove ancestor node :=
  (h.seeksAncestor node ancestor).isSome_iff

/-- By induction on the ascent, which ends at the topmost node if it starts at a node. -/
theorem SeeksRoot.eq_some_iff {answer : Option NodeKey} (h : scene.SeeksRoot key answer) :
    answer = some root ↔ scene.IsTopmost root key := by
  induction h with
  | @gone key hnone =>
      have hparent : scene.parent? key = none := by simp [parent?, hnone]
      refine iff_of_false (by simp) ?_
      rintro ⟨rfl | habove, hlive, -⟩
      · simp [contains, KeyStore.contains, hnone] at hlive
      · exact not_isAbove hparent habove
  | @top key node hnode hparent =>
      have hparent : scene.parent? key = none := (parent?_of_get? hnode).trans hparent
      constructor
      · intro hroot
        obtain rfl := Option.some.inj hroot
        exact ⟨.inl rfl, contains_iff.mpr ⟨node, hnode⟩, hparent⟩
      · rintro ⟨rfl | habove, -, -⟩
        · rfl
        · exact absurd habove (not_isAbove hparent)
  | @up key parent node answer hnode hparent _ ih =>
      have hparent : scene.parent? key = some parent := (parent?_of_get? hnode).trans hparent
      rw [ih]
      constructor
      · rintro ⟨habove, hlive, hnone⟩
        exact ⟨.inr ((isAbove_iff hparent).mpr habove), hlive, hnone⟩
      · rintro ⟨rfl | habove, hlive, hnone⟩
        · exact absurd (hnone.symm.trans hparent) (by simp)
        · exact ⟨(isAbove_iff hparent).mp habove, hlive, hnone⟩

theorem Linked.root?_eq_some_iff (h : scene.Linked) :
    scene.root? node = some root ↔ scene.IsTopmost root node :=
  (h.seeksRoot node).eq_some_iff

/-- A node is on the stage of its topmost node. -/
theorem Linked.stageOf?_eq_some_iff (h : scene.Linked) : scene.stageOf? node = some stage ↔
    ∃ root, scene.IsTopmost root node ∧ scene.stage? root = some stage := by
  simp only [stageOf?, bind, Option.bind_eq_some_iff, h.root?_eq_some_iff]

/-! ## Results -/

variable [Scalar K] [Approximation K]

/-- A volume without a node cannot be taken anywhere. A volume of a node is taken to an ancestor
iff this is the node itself or above the node. It is taken to eye space, through the topmost node,
if that node carries a stage, and otherwise it stays where it is, with a warning. A key may name a
removed node; nothing is above it, and no node is topmost for it. -/
theorem Reachable.takeTo_ends (h : scene.Reachable) (v : Volume K) :
    (v.reference = none → ∀ space,
      scene.hierarchy.Bars space v .invalidState (.noReference .changeSpace)) ∧
    ∀ node, v.reference = some node →
      (∀ a, a = node ∨ scene.IsAbove a node → ∃ m, scene.modelview? node a = some m ∧
        scene.hierarchy.Moves (some a) v m) ∧
      (∀ a, ¬ (a = node ∨ scene.IsAbove a node) →
        scene.hierarchy.Bars (some a) v .missingCoordinateSpace (.notAncestor a node)) ∧
      (∀ root stage, scene.IsTopmost root node → scene.stage? root = some stage →
        ∃ m, scene.modelview? node root = some m ∧
          scene.hierarchy.Moves none v (stage.eye * m)) ∧
      ((∀ root, scene.IsTopmost root node → scene.stage? root = none) →
        (scene.hierarchy.takeTo none).perform v = ⟨(.ok (), v), [Hierarchy.offStage node]⟩) := by
  have hlinked := h.consistent.toLinked
  refine ⟨fun hreference => Hierarchy.bars_of_reference hreference, fun node hreference =>
    ⟨fun a ha => ?_, fun a ha => ?_, fun root stage hroot hstage => ?_, fun hstages => ?_⟩⟩
  · obtain ⟨m, hm⟩ := Option.isSome_iff_exists.mp (hlinked.modelview?_isSome_iff.mpr ha)
    exact ⟨m, hm, Hierarchy.moves_of_modelview? hreference hm⟩
  · have hnone : scene.modelview? node a = none :=
      Option.not_isSome_iff_eq_none.mp (mt hlinked.modelview?_isSome_iff.mp ha)
    exact Hierarchy.bars_of_modelview? hreference hnone
  · have hon : scene.stageOf? node = some stage :=
      hlinked.stageOf?_eq_some_iff.mpr ⟨root, hroot, hstage⟩
    obtain ⟨m, hm⟩ := Option.isSome_iff_exists.mp (hlinked.modelview?_isSome_iff.mpr hroot.above)
    -- The stage is looked up by its root, but the transform goes to the root that it names.
    have hstageRoot : stage.root = root := h.consistent.root_eq (mem_stages_of_stage? hstage)
    refine ⟨m, hm, Hierarchy.moves_of_stageOf? hreference hon ?_⟩
    rw [hstageRoot]
    exact hm
  · refine Hierarchy.perform_takeTo_offStage hreference ?_
    rw [Option.eq_none_iff_forall_ne_some]
    intro stage hon
    obtain ⟨root, hroot, hstage⟩ := hlinked.stageOf?_eq_some_iff.mp hon
    exact absurd ((hstages root hroot).symm.trans hstage) (by simp)

/-- From the lowest node of a chain below a stage a volume is taken to the top and to eye space,
but not to a removed node, and from the removed node it is taken nowhere. -/
theorem slotsReused_takeTo_ends :
    let _ := Approximation.ofSquares
    let scene := slotsReused Rat
    let tree := scene.hierarchy
    (scene.Reachable ∧ scene.contains ⟨2, 1⟩ = false ∧ scene.IsAbove ⟨1, 1⟩ ⟨2, 3⟩) ∧
    tree.Bars none (.new none) .invalidState (.noReference .changeSpace) ∧
    (∃ m, scene.modelview? ⟨2, 3⟩ ⟨1, 1⟩ = some m ∧
      tree.Moves (some ⟨1, 1⟩) (.new (some ⟨2, 3⟩)) m) ∧
    tree.Bars (some ⟨2, 1⟩) (.new (some ⟨2, 3⟩)) .missingCoordinateSpace
      (.notAncestor ⟨2, 1⟩ ⟨2, 3⟩) ∧
    (∃ stage, scene.stage? ⟨1, 1⟩ = some stage ∧ ∃ m, scene.modelview? ⟨2, 3⟩ ⟨1, 1⟩ = some m ∧
      tree.Moves none (.new (some ⟨2, 3⟩)) (stage.eye * m)) ∧
    (tree.takeTo none).perform (.new (some ⟨2, 1⟩)) =
      ⟨(.ok (), .new (some ⟨2, 1⟩)), [Hierarchy.offStage ⟨2, 1⟩]⟩ := by
  intro _ scene tree
  have h : scene.Reachable := reachable_slotsReused Rat
  have hremoved : scene.contains ⟨2, 1⟩ = false := by decide +kernel
  have hlower : scene.parent? ⟨2, 3⟩ = some ⟨3, 3⟩ := by decide +kernel
  have hupper : scene.parent? ⟨3, 3⟩ = some ⟨1, 1⟩ := by decide +kernel
  have htop : scene.parent? ⟨1, 1⟩ = none := by decide +kernel
  have habove : scene.IsAbove ⟨1, 1⟩ ⟨2, 3⟩ := .up hlower (.parent hupper)
  have hoff : ¬ ((⟨2, 1⟩ : NodeKey) = ⟨2, 3⟩ ∨ scene.IsAbove ⟨2, 1⟩ ⟨2, 3⟩) := by
    rw [isAbove_iff hlower, isAbove_iff hupper]
    simp [not_isAbove htop]
  have hnowhere : ∀ root, scene.IsTopmost root ⟨2, 1⟩ → scene.stage? root = none := by
    rintro root ⟨rfl | hroot, hlive, -⟩
    · exact absurd (hremoved.symm.trans hlive) (by decide)
    · exact absurd hroot (not_isAbove (not_contains hremoved).2.1)
  have hlive : scene.contains ⟨1, 1⟩ = true := by decide +kernel
  obtain ⟨stage, hstage⟩ : ∃ stage, scene.stage? ⟨1, 1⟩ = some stage :=
    Option.isSome_iff_exists.mp (by decide +kernel)
  obtain ⟨hup, hbarred, heye, -⟩ := (h.takeTo_ends (.new (some ⟨2, 3⟩))).2 ⟨2, 3⟩ rfl
  obtain ⟨-, -, -, hleft⟩ := (h.takeTo_ends (.new (some ⟨2, 1⟩))).2 ⟨2, 1⟩ rfl
  exact ⟨⟨h, hremoved, habove⟩, (h.takeTo_ends (.new none)).1 rfl none, hup _ (.inr habove),
    hbarred _ hoff, ⟨stage, hstage, heye _ _ ⟨.inr habove, hlive, htop⟩ hstage⟩, hleft hnowhere⟩

end Scene

end SceneCulling
