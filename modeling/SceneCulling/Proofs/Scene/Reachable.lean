import SceneCulling.Proofs.Scene.Loops
import SceneCulling.Proofs.Scalar.Ranked
import SceneCulling.Stage

/-!
# Reachable scenes

A scene is reached from the empty one by requests in any order, about any keys: of nodes,
of removed nodes, or of none. A refused request counts as well. Every request keeps the
nodes a forest, and each stage on a root that is in the scene, with current planes.
-/

namespace SceneCulling.Scene

variable {K : Type} [Scalar K] [Approximation K] {scene scene' : Scene K}
  {key root : NodeKey} {stage : Stage K}

/-- One request, with what it leaves. -/
inductive Step : Scene K → Scene K → Prop where
  | createStage (scene : Scene K) (width height : K) :
      Step scene (createStage width height scene).2
  | createNode (scene : Scene K) (parent : Option NodeKey) (transform : Mat4 K) :
      Step scene ((createNode parent transform).perform scene).value.2
  | removeNode (scene : Scene K) (key : NodeKey) : Step scene (removeNode key scene).2
  | setTransform (scene : Scene K) (key : NodeKey) (transform : Mat4 K) :
      Step scene ((setTransform key transform).perform scene).value.2
  | setSize (scene : Scene K) (key : NodeKey) (size : Option (Size K)) :
      Step scene ((setSize key size).perform scene).value.2
  | addEffect (scene : Scene K) (key : NodeKey) (effect : Effect K) :
      Step scene ((addEffect key effect).perform scene).value.2
  | setStage (scene : Scene K) {stage : Stage K} : stage.Reachable →
      Step scene ((setStage stage).perform scene).value.2
  | changeStage (scene : Scene K) (root : NodeKey) (change : StageChange K) :
      Step scene (scene.changeStage root change)

/-- What requests make of the empty scene. -/
inductive Reachable : Scene K → Prop where
  | empty : Reachable .empty
  | step {scene scene' : Scene K} : Reachable scene → Step scene scene' → Reachable scene'

/-- Each stage stands on a root of its own, which is a node without parent, and has the
planes of its projection. -/
structure Staged (scene : Scene K) : Prop where
  nodup : (scene.stages.map (·.1)).Nodup
  contained : ∀ {root : NodeKey} {stage : Stage K}, (root, stage) ∈ scene.stages →
    scene.contains root = true
  parent?_eq_none : ∀ {root : NodeKey} {stage : Stage K}, (root, stage) ∈ scene.stages →
    scene.parent? root = none
  root_eq : ∀ {root : NodeKey} {stage : Stage K}, (root, stage) ∈ scene.stages →
    stage.root = root
  current : ∀ {root : NodeKey} {stage : Stage K}, (root, stage) ∈ scene.stages →
    stage.Current

/-- What every request keeps. -/
structure Consistent (scene : Scene K) : Prop extends Linked scene, Staged scene where
  sound : scene.nodes.Sound

/-! ## Granted and refused requests -/

/-- The request is granted with this answer and leaves the second scene. -/
def Grants {α : Type} (scene : Scene K) (request : Edit (Scene K) α) (answer : α)
    (scene' : Scene K) : Prop := request.perform scene = ⟨(.ok answer, scene'), []⟩

/-- The request is refused with this fault and changes nothing. -/
def Refuses {α : Type} (scene : Scene K) (request : Edit (Scene K) α) (fault : Fault) : Prop :=
  request.perform scene = ⟨(.error fault, scene), [fault.entry]⟩

omit [Scalar K] [Approximation K] in
theorem grants_createNode {parent : Option NodeKey}
    (hparent : ∀ p, parent = some p → scene.contains p = true) (transform : Mat4 K) :
    scene.Grants (createNode parent transform) (scene.attach { parent, transform }).1
      (scene.attach { parent, transform }).2 := by
  rw [Grants, createNode, Edit.perform_bind_of_silent (Edit.perform_get scene)]
  cases parent with
  | none => rfl
  | some p =>
      simp only [hparent p rfl]
      rfl

omit [Scalar K] [Approximation K] in
theorem refuses_createNode (hkey : scene.contains key = false) (transform : Mat4 K) :
    scene.Refuses (createNode (some key) transform) (.unknownNode key) := by
  rw [Refuses, createNode, Edit.perform_bind_of_silent (Edit.perform_get scene)]
  simp only [hkey]
  rfl

omit [Scalar K] [Approximation K] in
theorem grants_changeNode (hkey : scene.contains key = true) (f : Node K → Node K) :
    scene.Grants (changeNode key f) () { scene with nodes := scene.nodes.modify key f } := by
  rw [Grants, changeNode, Edit.perform_bind_of_silent (Edit.perform_get scene), hkey]
  rfl

omit [Scalar K] [Approximation K] in
theorem refuses_changeNode (hkey : scene.contains key = false) (f : Node K → Node K) :
    scene.Refuses (changeNode key f) (.unknownNode key) := by
  rw [Refuses, changeNode, Edit.perform_bind_of_silent (Edit.perform_get scene), hkey]
  rfl

omit [Scalar K] [Approximation K] in
theorem grants_setStage {stage : Stage K} (hroot : scene.contains stage.root = true)
    (hparent : scene.parent? stage.root = none) :
    scene.Grants (setStage stage) () (scene.putStage stage) := by
  obtain ⟨node, hnode⟩ := contains_iff.mp hroot
  rw [parent?_of_get? hnode] at hparent
  rw [Grants, setStage, Edit.perform_bind_of_silent (Edit.perform_get scene)]
  simp [hnode, hparent]

omit [Scalar K] [Approximation K] in
theorem refuses_setStage_unknown {stage : Stage K} (hroot : scene.contains stage.root = false) :
    scene.Refuses (setStage stage) (.unknownNode stage.root) := by
  rw [Refuses, setStage, Edit.perform_bind_of_silent (Edit.perform_get scene)]
  simp [not_contains hroot]

omit [Scalar K] [Approximation K] in
theorem refuses_setStage_below {stage : Stage K} {parent : NodeKey}
    (hparent : scene.parent? stage.root = some parent) :
    scene.Refuses (setStage stage) (.rootHasParent stage.root) := by
  obtain ⟨node, hnode⟩ := contains_iff.mp (contains_of_parent? hparent)
  rw [parent?_of_get? hnode] at hparent
  rw [Refuses, setStage, Edit.perform_bind_of_silent (Edit.perform_get scene)]
  simp [hnode, hparent]
  rfl

/-! ## What a request leaves -/

omit [Scalar K] [Approximation K] in
theorem Grants.left {α : Type} {request : Edit (Scene K) α} {answer : α}
    (h : scene.Grants request answer scene') : (request.perform scene).value.2 = scene' := by
  rw [h]

omit [Scalar K] [Approximation K] in
theorem Refuses.left {α : Type} {request : Edit (Scene K) α} {fault : Fault}
    (h : scene.Refuses request fault) : (request.perform scene).value.2 = scene := by
  rw [h]

omit [Scalar K] [Approximation K] in
theorem after_createNode (scene : Scene K) (parent : Option NodeKey) (transform : Mat4 K) :
    ((createNode parent transform).perform scene).value.2 = scene ∨
      (∀ p, parent = some p → scene.contains p = true) ∧
        ((createNode parent transform).perform scene).value.2 =
          (scene.attach { parent, transform }).2 := by
  by_cases hparent : ∀ p, parent = some p → scene.contains p = true
  · exact .inr ⟨hparent, (grants_createNode hparent transform).left⟩
  · push Not at hparent
    obtain ⟨key, rfl, hkey⟩ := hparent
    exact .inl (refuses_createNode (by simpa using hkey) transform).left

omit [Scalar K] [Approximation K] in
theorem after_changeNode (scene : Scene K) (key : NodeKey) (f : Node K → Node K) :
    ((changeNode key f).perform scene).value.2 = scene ∨
      ((changeNode key f).perform scene).value.2 =
        { scene with nodes := scene.nodes.modify key f } := by
  cases hkey : scene.contains key with
  | false => exact .inl (refuses_changeNode hkey f).left
  | true => exact .inr (grants_changeNode hkey f).left

omit [Scalar K] [Approximation K] in
theorem after_setStage (scene : Scene K) (stage : Stage K) :
    ((setStage stage).perform scene).value.2 = scene ∨
      scene.contains stage.root = true ∧ scene.parent? stage.root = none ∧
        ((setStage stage).perform scene).value.2 = scene.putStage stage := by
  cases hroot : scene.contains stage.root with
  | false => exact .inl (refuses_setStage_unknown hroot).left
  | true =>
      cases hparent : scene.parent? stage.root with
      | some parent => exact .inl (refuses_setStage_below hparent).left
      | none => exact .inr ⟨rfl, rfl, (grants_setStage hroot hparent).left⟩

/-! ## Stages -/

omit [Scalar K] [Approximation K] in
theorem mem_stages_of_stage? (h : scene.stage? root = some stage) :
    (root, stage) ∈ scene.stages := by
  obtain ⟨before, after, hstages, -⟩ := List.lookup_eq_some_iff.mp h
  simp [hstages]

/-- The table of stages may be kept if its roots stay roots. -/
theorem Staged.of_stages (h : scene.Staged) (hstages : scene'.stages = scene.stages)
    (hroots : ∀ root, scene.contains root = true → scene.parent? root = none →
      scene'.contains root = true ∧ scene'.parent? root = none) : scene'.Staged := by
  constructor
  · rw [hstages]
    exact h.nodup
  all_goals
    intro root stage hmem
    rw [hstages] at hmem
  · exact (hroots root (h.contained hmem) (h.parent?_eq_none hmem)).1
  · exact (hroots root (h.contained hmem) (h.parent?_eq_none hmem)).2
  · exact h.root_eq hmem
  · exact h.current hmem

theorem Staged.putStage (h : scene.Staged) (hcontains : scene.contains stage.root = true)
    (hparent : scene.parent? stage.root = none) (hcurrent : stage.Current) :
    (scene.putStage stage).Staged := by
  have hmem : ∀ {root stage'}, (root, stage') ∈ (scene.putStage stage).stages →
      root = stage.root ∧ stage' = stage ∨ (root, stage') ∈ scene.stages := by
    intro root stage' hmem
    cases hmem with
    | head => exact .inl ⟨rfl, rfl⟩
    | tail _ hmem => exact .inr (List.mem_filter.mp hmem).1
  constructor
  · refine List.nodup_cons.mpr ⟨fun hin => ?_, h.nodup.sublist (List.filter_sublist.map _)⟩
    obtain ⟨entry, hentry, heq⟩ := List.mem_map.mp hin
    simpa [heq] using (List.mem_filter.mp hentry).2
  all_goals
    intro root stage' hin
    rcases hmem hin with ⟨rfl, rfl⟩ | hin
  · exact hcontains
  · exact h.contained hin
  · exact hparent
  · exact h.parent?_eq_none hin
  · rfl
  · exact h.root_eq hin
  · exact hcurrent
  · exact h.current hin

theorem Staged.changeStage (h : scene.Staged) (root : NodeKey) (change : StageChange K) :
    (scene.changeStage root change).Staged := by
  have hmem : ∀ {key stage'}, (key, stage') ∈ (scene.changeStage root change).stages →
      ∃ stage, (key, stage) ∈ scene.stages ∧
        stage' = if key = root then stage.change change else stage := by
    intro key stage' hmem
    obtain ⟨⟨key', stage⟩, hentry, heq⟩ := List.mem_map.mp hmem
    obtain ⟨rfl, rfl⟩ := Prod.mk.inj heq
    exact ⟨stage, hentry, rfl⟩
  constructor
  · have hkeys : (scene.changeStage root change).stages.map (·.1) =
        scene.stages.map (·.1) := by
      simp [Scene.changeStage, Function.comp_def]
    rw [hkeys]
    exact h.nodup
  all_goals
    intro key stage' hin
    obtain ⟨stage, hentry, rfl⟩ := hmem hin
  · exact h.contained hentry
  · exact h.parent?_eq_none hentry
  · by_cases hkey : key = root
    · rw [if_pos hkey, Stage.root_change]
      exact h.root_eq hentry
    · rw [if_neg hkey]
      exact h.root_eq hentry
  · by_cases hkey : key = root
    · rw [if_pos hkey]
      exact (h.current hentry).change change
    · rw [if_neg hkey]
      exact h.current hentry

theorem Staged.removeNode (h : scene.Staged) (hkey : scene.contains key = true) :
    (Scene.removeNode key scene).2.Staged := by
  have hstages := stages_removeNode hkey
  have hmem : ∀ {root stage}, (root, stage) ∈ (Scene.removeNode key scene).2.stages →
      (root, stage) ∈ scene.stages ∧ root ∉ (scene.hierarchy.outline key).preorder := by
    intro root stage hmem
    rw [hstages] at hmem
    obtain ⟨hin, hkept⟩ := List.mem_filter.mp hmem
    exact ⟨hin, by simpa using hkept⟩
  constructor
  · rw [hstages]
    exact h.nodup.sublist (List.filter_sublist.map _)
  all_goals
    intro root stage hin
    obtain ⟨hentry, hkept⟩ := hmem hin
  · exact (contains_removeNode hkey root).mpr ⟨h.contained hentry, hkept⟩
  · rw [parent?_removeNode hkey hkept]
    exact h.parent?_eq_none hentry
  · exact h.root_eq hentry
  · exact h.current hentry

/-! ## Steps and runs -/

namespace Consistent

theorem empty : (Scene.empty : Scene K).Consistent where
  parent_contained h := absurd h (by simp [Scene.empty, Scene.parent?, KeyStore.empty,
    KeyStore.get?])
  mem_children_iff := by
    simp [Scene.empty, Scene.children, Scene.parent?, KeyStore.empty, KeyStore.get?]
  nodup_children _ := by
    simp [Scene.empty, Scene.children, KeyStore.empty, KeyStore.get?]
  ascends h := absurd h (by simp [Scene.empty, Scene.contains, KeyStore.contains,
    KeyStore.empty, KeyStore.get?])
  nodup := List.nodup_nil
  contained h := absurd h List.not_mem_nil
  parent?_eq_none h := absurd h List.not_mem_nil
  root_eq h := absurd h List.not_mem_nil
  current h := absurd h List.not_mem_nil
  sound := KeyStore.sound_empty

variable (h : scene.Consistent)
include h

theorem attach {node : Node K} (hparent : ∀ p, node.parent = some p → scene.contains p = true)
    (hleaf : node.children = []) : (scene.attach node).2.Consistent := by
  refine ⟨linked_attach h.sound h.toLinked hparent hleaf,
    h.toStaged.of_stages rfl fun root hcontains hnone => ⟨?_, ?_⟩, ?_⟩
  · exact (contains_attach h.sound hparent root).mpr (.inr hcontains)
  · have hold : root ≠ (scene.attach node).1 := by
      rintro rfl
      exact absurd (hcontains.symm.trans (contains_issued h.sound node)) (by decide)
    rw [parent?_attach h.sound hparent, if_neg hold, hnone]
  · have hinsert := h.sound.insert node
    cases hp : node.parent with
    | none => simpa [Scene.attach, hp] using hinsert
    | some p => simpa [Scene.attach, hp] using hinsert.modify p _

theorem putStage (hcontains : scene.contains stage.root = true)
    (hparent : scene.parent? stage.root = none) (hcurrent : stage.Current) :
    (scene.putStage stage).Consistent :=
  ⟨h.toLinked.of_sameLinks ⟨fun _ => rfl, fun _ => rfl, fun _ => rfl⟩,
    h.toStaged.putStage hcontains hparent hcurrent, h.sound⟩

theorem modifyNode (key : NodeKey) {f : Node K → Node K}
    (hparent : ∀ node, (f node).parent = node.parent)
    (hchildren : ∀ node, (f node).children = node.children) :
    { scene with nodes := scene.nodes.modify key f }.Consistent := by
  have same := sameLinks_modify scene key hparent hchildren
  refine ⟨h.toLinked.of_sameLinks same, h.toStaged.of_stages rfl fun root hcontains hnone =>
    ⟨?_, ?_⟩, h.sound.modify key f⟩
  · rw [same.contains]
    exact hcontains
  · rw [same.parent?]
    exact hnone

theorem changeNode (key : NodeKey) {f : Node K → Node K}
    (hparent : ∀ node, (f node).parent = node.parent)
    (hchildren : ∀ node, (f node).children = node.children) :
    ((Scene.changeNode key f).perform scene).value.2.Consistent := by
  rcases after_changeNode scene key f with hsame | hchanged
  · rw [hsame]
    exact h
  · rw [hchanged]
    exact h.modifyNode key hparent hchildren

theorem createStage (width height : K) :
    (Scene.createStage width height scene).2.Consistent := by
  have hroot : ∀ p, (none : Option NodeKey) = some p → scene.contains p = true :=
    fun _ hp => absurd hp (by simp)
  have hattach : (scene.attach
      (⟨none, [], .identity, some ⟨width, height⟩, []⟩ : Node K)).2.Consistent :=
    h.attach hroot rfl
  refine hattach.putStage ?_ ?_ rfl
  · exact (contains_attach h.sound hroot _).mpr (.inl rfl)
  · rw [parent?_attach h.sound hroot]
    exact if_pos rfl

theorem createNode (parent : Option NodeKey) (transform : Mat4 K) :
    ((Scene.createNode parent transform).perform scene).value.2.Consistent := by
  rcases after_createNode scene parent transform with hsame | ⟨hparent, hcreated⟩
  · rw [hsame]
    exact h
  · rw [hcreated]
    exact h.attach hparent rfl

theorem removeNode (key : NodeKey) : (Scene.removeNode key scene).2.Consistent := by
  cases hkey : scene.contains key with
  | false =>
      rw [removeNode_of_not_contains hkey]
      exact h
  | true =>
      refine ⟨linked_removeNode h.toLinked hkey, h.toStaged.removeNode hkey, ?_⟩
      simp only [Scene.removeNode, hkey, if_true]
      exact sound_dropAll _ (sound_detach h.sound key)

theorem setStage (hstage : stage.Reachable) :
    ((Scene.setStage stage).perform scene).value.2.Consistent := by
  rcases after_setStage scene stage with hsame | ⟨hcontains, hparent, hput⟩
  · rw [hsame]
    exact h
  · rw [hput]
    exact h.putStage hcontains hparent hstage.current

theorem changeStage (root : NodeKey) (change : StageChange K) :
    (scene.changeStage root change).Consistent :=
  ⟨h.toLinked.of_sameLinks ⟨fun _ => rfl, fun _ => rfl, fun _ => rfl⟩,
    h.toStaged.changeStage root change, h.sound⟩

/-- Every request keeps a scene consistent. -/
theorem step (hstep : scene.Step scene') : scene'.Consistent := by
  cases hstep with
  | createStage width height => exact h.createStage width height
  | createNode parent transform => exact h.createNode parent transform
  | removeNode key => exact h.removeNode key
  | setTransform key => exact h.changeNode key (fun _ => rfl) (fun _ => rfl)
  | setSize key => exact h.changeNode key (fun _ => rfl) (fun _ => rfl)
  | addEffect key => exact h.changeNode key (fun _ => rfl) (fun _ => rfl)
  | setStage hstage => exact h.setStage hstage
  | changeStage root change => exact h.changeStage root change

end Consistent

theorem Reachable.consistent (h : scene.Reachable) : scene.Consistent := by
  induction h with
  | empty => exact .empty
  | step _ hstep ih => exact ih.step hstep

/-- However a scene was reached: parents and children agree, every chain of parents ends,
every stage stands on a root of the scene with the planes of its projection, and every loop
over the nodes ends. -/
theorem Reachable.linked_staged_loopsEnd (h : scene.Reachable) :
    scene.Linked ∧ scene.Staged ∧ scene.LoopsEnd :=
  ⟨h.consistent.toLinked, h.consistent.toStaged, h.consistent.toLinked.loopsEnd⟩

/-- A stage on a node, and a chain of two nodes below it that is removed. The next chain
uses the freed slots in the other order, so a child has a lower slot than its parent. -/
def slotsReused (K : Type) [Scalar K] [Approximation K] : Scene K :=
  let scene := ((createNode none .identity).perform (.empty : Scene K)).value.2
  let scene := ((setStage (.new ⟨1, 1⟩ .identity (.ofRect 0 0 1 1))).perform scene).value.2
  let scene := ((createNode (some ⟨1, 1⟩) .identity).perform scene).value.2
  let scene := ((createNode (some ⟨2, 1⟩) .identity).perform scene).value.2
  let scene := (removeNode ⟨2, 1⟩ scene).2
  let scene := ((createNode (some ⟨1, 1⟩) .identity).perform scene).value.2
  ((createNode (some ⟨3, 3⟩) .identity).perform scene).value.2

theorem reachable_slotsReused (K : Type) [Scalar K] [Approximation K] :
    (slotsReused K).Reachable := by
  have hroot := Reachable.empty.step (.createNode _ none (.identity : Mat4 K))
  have hstage := hroot.step (.setStage _ (.new ⟨1, 1⟩ .identity (.ofRect 0 0 1 1)))
  have hupper := hstage.step (.createNode _ (some ⟨1, 1⟩) .identity)
  have hlower := hupper.step (.createNode _ (some ⟨2, 1⟩) .identity)
  have hremoved := hlower.step (.removeNode _ ⟨2, 1⟩)
  have hagain := hremoved.step (.createNode _ (some ⟨1, 1⟩) .identity)
  exact hagain.step (.createNode _ (some ⟨3, 3⟩) .identity)

theorem slotsReused_linked_staged_loopsEnd :
    let _ := Approximation.ofSquares
    let scene := slotsReused Rat
    scene.Reachable ∧ (scene.children ⟨1, 1⟩ = [⟨3, 3⟩] ∧ scene.children ⟨3, 3⟩ = [⟨2, 3⟩] ∧
      scene.contains ⟨2, 1⟩ = false) ∧ scene.Linked ∧ scene.Staged ∧ scene.LoopsEnd := by
  let _ := Approximation.ofSquares
  have h := reachable_slotsReused Rat
  exact ⟨h, ⟨rfl, rfl, rfl⟩, h.linked_staged_loopsEnd⟩

end SceneCulling.Scene
