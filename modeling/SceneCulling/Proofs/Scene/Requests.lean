import Mathlib.Data.Finset.Card
import SceneCulling.Proofs.Scene.Composition

/-!
# What a request changes

A program sees of a scene what it answers about keys. Each request is a plain change of these
answers: one new node, one new entry of a node, one new stage, or one tree taken out. The
structures below name the answers that change, and all others stay.

What is stored with a node follows from the look-up in the store. The topmost ancestor does
not; it stays because the chain of parents of every node that stays is as before. A new key
was never used, because the version of a slot only grows.
-/

namespace SceneCulling

/-! ## Tables by key -/

/-- A table that is filtered by its keys keeps the entries of the other keys. -/
theorem lookup_filter_key {β : Type} (kept : NodeKey → Bool) (key : NodeKey)
    (table : List (NodeKey × β)) :
    (table.filter fun entry => kept entry.1).lookup key =
      if kept key then table.lookup key else none := by
  induction table with
  | nil => simp
  | cons entry table ih =>
      obtain ⟨k, b⟩ := entry
      by_cases hk : key = k
      · subst hk
        by_cases hkept : kept key <;> simp [hkept, ih]
      · have hne : (key == k) = false := by simpa using hk
        by_cases hkept : kept k <;> simp [List.lookup_cons, hkept, hne, ih]

/-- A table whose entries are changed by their keys has the changed entries. -/
theorem lookup_map_entry {β : Type} (f : NodeKey → β → β) (key : NodeKey)
    (table : List (NodeKey × β)) :
    (table.map fun (k, b) => (k, f k b)).lookup key = (table.lookup key).map (f key) := by
  induction table with
  | nil => rfl
  | cons entry table ih =>
      obtain ⟨k, b⟩ := entry
      by_cases hk : key = k
      · subst hk
        simp
      · have hne : (key == k) = false := by simpa using hk
        simpa [List.lookup_cons, hne] using ih

namespace Scene

open Outline

/-! ## Answers -/

/-- What a scene answers about a key. The defaults are the answers about a key that names no
node. -/
structure Answers (K : Type) where
  contained : Bool := false
  parent : Option NodeKey := none
  children : List NodeKey := []
  transform : Option (Mat4 K) := none
  size : Option (Size K) := none
  effects : List (Effect K) := []
  /-- The topmost ancestor. -/
  root : Option NodeKey := none
  /-- The stage on the topmost ancestor. -/
  stageOf : Option (Stage K) := none
  /-- The stage on the node itself. -/
  stage : Option (Stage K) := none

def answers {K : Type} (scene : Scene K) (key : NodeKey) : Answers K where
  contained := scene.contains key
  parent := scene.parent? key
  children := scene.children key
  transform := scene.transform? key
  size := scene.size? key
  effects := scene.effects key
  root := scene.root? key
  stageOf := scene.stageOf? key
  stage := scene.stage? key

variable {K : Type} [Scalar K] [Approximation K] {scene scene' : Scene K} {key k : NodeKey}
  {node : Node K} {chain : List NodeKey}

omit [Scalar K] [Approximation K] in
/-- The answers about a node are what is stored with it, and what is found above it. -/
theorem answers_of_get? (hnode : scene.nodes.get? key = some node) :
    scene.answers key = ⟨true, node.parent, node.children, some node.transform, node.size,
      node.effects, scene.root? key, scene.stageOf? key, scene.stage? key⟩ := by
  simp [answers, contains, KeyStore.contains, parent?, children, transform?, size?, effects,
    hnode]

theorem Staged.stage?_of_not_contains (h : scene.Staged) (hkey : scene.contains key = false) :
    scene.stage? key = none := by
  rw [Option.eq_none_iff_forall_ne_some]
  intro stage hstage
  have hlive := h.contained (mem_stages_of_stage? hstage)
  rw [hkey] at hlive
  cases hlive

theorem Staged.answers_of_not_contains (h : scene.Staged) (hkey : scene.contains key = false) :
    scene.answers key = {} := by
  obtain ⟨hnone, hparent, hchildren⟩ := not_contains hkey
  have hroot := root?_of_not_contains hkey
  simp [answers, hkey, hparent, hchildren, transform?, size?, effects, hnone, hroot, stageOf?,
    h.stage?_of_not_contains hkey]

/-! ## What is found above -/

omit [Scalar K] [Approximation K] in
theorem root?_eq_getLast? (scene : Scene K) (key : NodeKey) :
    scene.root? key = (scene.ancestry key).getLast? := by
  rw [root?, ancestry, List.getLast?_map]

omit [Scalar K] [Approximation K] in
/-- A node whose chain of parents stays keeps its topmost ancestor. -/
theorem Linked.root?_of_ascends (h : scene.Linked) (h' : scene'.Linked)
    (hchain : scene.Ascends k chain) (hchain' : scene'.Ascends k chain) :
    scene'.root? k = scene.root? k := by
  rw [root?_eq_getLast?, root?_eq_getLast?, h.ancestry_eq hchain, h'.ancestry_eq hchain']

omit [Scalar K] [Approximation K] in
theorem Linked.root?_of_sameLinks (h : scene.Linked) (same : scene.SameLinks scene')
    (k : NodeKey) : scene'.root? k = scene.root? k := by
  cases hk : scene.contains k with
  | false =>
      rw [root?_of_not_contains hk, root?_of_not_contains ((same.contains k).trans hk)]
  | true =>
      obtain ⟨chain, hchain⟩ := h.ascends hk
      exact h.root?_of_ascends (h.of_sameLinks same) hchain
        (hchain.of_kept fun k hk => ⟨(same.contains k).trans hk, same.parent? k⟩)

omit [Scalar K] [Approximation K] in
theorem Linked.contains_root (h : scene.Linked) {root : NodeKey}
    (hroot : scene.root? k = some root) : scene.contains root = true := by
  cases hk : scene.contains k with
  | false =>
      rw [root?_of_not_contains hk] at hroot
      cases hroot
  | true =>
      obtain ⟨chain, hchain⟩ := h.ascends hk
      rw [root?_eq_getLast?, h.ancestry_eq hchain] at hroot
      exact hchain.contained root (List.mem_of_getLast? hroot)

omit [Scalar K] [Approximation K] in
/-- A node keeps its stage if it keeps its topmost ancestor and that keeps its stage. -/
theorem stageOf?_congr (hroot : scene'.root? k = scene.root? k)
    (hstage : ∀ root, scene.root? k = some root → scene'.stage? root = scene.stage? root) :
    scene'.stageOf? k = scene.stageOf? k := by
  rw [stageOf?, stageOf?, hroot]
  exact Option.bind_congr hstage

/-! ## Keys are used once -/

omit [Scalar K] [Approximation K] in
theorem precedes_attach (scene : Scene K) (node : Node K) :
    scene.nodes.Precedes (scene.attach node).2.nodes := by
  have hinsert := KeyStore.Precedes.insert scene.nodes node
  cases hparent : node.parent with
  | none => simpa [attach, hparent] using hinsert
  | some parent =>
      simpa [attach, hparent] using hinsert.trans (.modify _ parent _)

omit [Approximation K] in
theorem precedes_removeNode (scene : Scene K) (key : NodeKey) :
    scene.nodes.Precedes (removeNode key scene).2.nodes := by
  have hdropAll : ∀ (keys : List NodeKey) (scene : Scene K),
      scene.nodes.Precedes (keys.foldl drop scene).nodes := by
    intro keys
    induction keys with
    | nil => exact fun scene => .refl _
    | cons key keys ih =>
        exact fun scene => (KeyStore.Precedes.erase scene.nodes key).trans (ih (scene.drop key))
  have hdetach : scene.nodes.Precedes (scene.detach key).nodes := by
    rw [detach]
    split
    · exact .modify _ _ _
    · exact .refl _
  rw [removeNode]
  split
  · exact hdetach.trans (hdropAll _ _)
  · exact .refl _

omit [Scalar K] [Approximation K] in
theorem precedes_changeNode (scene : Scene K) (key : NodeKey) (f : Node K → Node K) :
    scene.nodes.Precedes ((changeNode key f).perform scene).value.2.nodes := by
  rcases after_changeNode scene key f with hsame | hchanged
  · rw [hsame]
    exact .refl _
  · rw [hchanged]
    exact .modify _ _ _

/-- No request takes a slot away or lowers a version. -/
theorem Step.precedes (h : scene.Step scene') : scene.nodes.Precedes scene'.nodes := by
  cases h with
  | createStage width height =>
      exact precedes_attach scene ⟨none, [], .identity, some ⟨width, height⟩, []⟩
  | createNode parent transform =>
      rcases after_createNode scene parent transform with hsame | ⟨-, hcreated⟩
      · rw [hsame]
        exact .refl _
      · rw [hcreated]
        exact precedes_attach scene _
  | removeNode key => exact precedes_removeNode scene key
  | setTransform key => exact precedes_changeNode scene key _
  | setSize key => exact precedes_changeNode scene key _
  | addEffect key => exact precedes_changeNode scene key _
  | @setStage stage hstage =>
      rcases after_setStage scene stage with hsame | ⟨-, -, hput⟩
      · rw [hsame]
        exact .refl _
      · rw [hput]
        exact .refl _
  | changeStage root change => exact .refl _

/-- A new key named no node at any time before. -/
theorem unused_attach {earlier : Scene K} (hrun : Relation.ReflTransGen Step earlier scene)
    (node : Node K) : earlier.contains (scene.attach node).1 = false := by
  have hprecedes : earlier.nodes.Precedes scene.nodes := by
    induction hrun with
    | refl => exact .refl _
    | tail _ hstep ih => exact ih.trans hstep.precedes
  exact hprecedes.contains_issued node

/-! ## Effects of requests -/

/-- A key that named no node at any time before, so was never issued, names a new node. The
parent of the node lists it last. -/
structure Gains (scene scene' : Scene K) (key : NodeKey) (new : Answers K) : Prop where
  unused : ∀ earlier, Relation.ReflTransGen Step earlier scene → earlier.contains key = false
  count : scene'.count = scene.count + 1
  own : scene'.answers key = new
  others : ∀ k, k ≠ key → scene'.answers k = { scene.answers k with
    children := if new.parent = some k then scene.children k ++ [key] else scene.children k }

/-- The answers about one key are new. -/
structure Changes (scene scene' : Scene K) (key : NodeKey) (new : Answers K) : Prop where
  count : scene'.count = scene.count
  own : scene'.answers key = new
  others : ∀ k, k ≠ key → scene'.answers k = scene.answers k

/-- The stage on a root is another one, for the root and for the nodes under it. -/
structure Restages (scene scene' : Scene K) (root : NodeKey)
    (f : Option (Stage K) → Option (Stage K)) : Prop where
  count : scene'.count = scene.count
  answers : ∀ k, scene'.answers k = { scene.answers k with
    stageOf := if scene.root? k = some root then f (scene.stageOf? k) else scene.stageOf? k
    stage := if k = root then f (scene.stage? k) else scene.stage? k }

/-- The tree under a key is gone, with the stages on its nodes. The parent of the key no longer
lists it. -/
structure Loses (scene scene' : Scene K) (key : NodeKey) : Prop where
  count : ∃ removed : Finset NodeKey, (∀ k, k ∈ removed ↔ Under scene.children key k) ∧
    scene'.count + removed.card = scene.count
  gone : ∀ k, Under scene.children key k → scene'.answers k = {}
  others : ∀ k, ¬ Under scene.children key k → scene'.answers k = { scene.answers k with
    children := if scene.parent? key = some k then (scene.children k).filter (· != key)
      else scene.children k }

/-! ### A new node -/

omit [Scalar K] [Approximation K] in
theorem count_attach (h : scene.nodes.Sound) (node : Node K) :
    (scene.attach node).2.count = scene.count + 1 := by
  have hinsert := KeyStore.count_insert h node
  cases hp : node.parent with
  | none => simpa [attach, count, hp] using hinsert
  | some p => simpa [attach, count, hp, KeyStore.count_modify] using hinsert

section Attach

variable (h : scene.Consistent)
  (hparent : ∀ p, node.parent = some p → scene.contains p = true) (hleaf : node.children = [])
include h hparent

theorem Consistent.contains_attach_of_ne (hne : k ≠ (scene.attach node).1) :
    (scene.attach node).2.contains k = scene.contains k := by
  rw [Bool.eq_iff_iff, contains_attach h.sound hparent]
  simp [hne]

include hleaf

theorem Consistent.root?_attach_of_ne (hne : k ≠ (scene.attach node).1) :
    (scene.attach node).2.root? k = scene.root? k := by
  have hcontains := h.contains_attach_of_ne hparent hne
  cases hk : scene.contains k with
  | false => rw [root?_of_not_contains hk, root?_of_not_contains (hcontains.trans hk)]
  | true =>
      obtain ⟨chain, hchain⟩ := h.toLinked.ascends hk
      exact h.toLinked.root?_of_ascends (linked_attach h.sound h.toLinked hparent hleaf) hchain
        (ascends_attach h.sound hparent hchain)

/-- The new node has what is above its parent above it. -/
theorem Consistent.answers_attach : (scene.attach node).2.answers (scene.attach node).1 =
    ⟨true, node.parent, [], some node.transform, node.size, node.effects,
      node.parent.elim (some (scene.attach node).1) scene.root?,
      node.parent.bind scene.stageOf?, none⟩ := by
  have hnew := contains_issued h.sound node
  have hget := get?_attach h.sound hparent (scene.attach node).1
  rw [if_pos rfl] at hget
  have hstage : (scene.attach node).2.stage? (scene.attach node).1 = none :=
    h.toStaged.stage?_of_not_contains hnew
  have hroot : (scene.attach node).2.root? (scene.attach node).1 =
      node.parent.elim (some (scene.attach node).1) scene.root? := by
    rw [(h.attach hparent hleaf).toLinked.root?_eq hget]
    cases hp : node.parent with
    | none => rfl
    | some p =>
        refine h.root?_attach_of_ne hparent hleaf ?_
        rintro rfl
        rw [hparent _ hp] at hnew
        cases hnew
  have hstageOf : (scene.attach node).2.stageOf? (scene.attach node).1 =
      node.parent.bind scene.stageOf? := by
    rw [stageOf?, hroot]
    cases node.parent with
    | none => exact hstage
    | some p => rfl
  rw [answers_of_get? hget, hleaf, hroot, hstageOf, hstage]

/-- Of the old nodes only the parent gets an answer that it did not have. -/
theorem Consistent.answers_attach_of_ne (hne : k ≠ (scene.attach node).1) :
    (scene.attach node).2.answers k = { scene.answers k with
      children := if node.parent = some k then scene.children k ++ [(scene.attach node).1]
        else scene.children k } := by
  have hcontains := h.contains_attach_of_ne hparent hne
  cases hk : scene.contains k with
  | false =>
      have hnot : node.parent ≠ some k := by
        intro hp
        rw [hparent k hp] at hk
        cases hk
      have hattached := (h.attach hparent hleaf).toStaged
      simp [hattached.answers_of_not_contains (hcontains.trans hk), hnot,
        h.toStaged.answers_of_not_contains hk, not_contains hk]
  | true =>
      obtain ⟨p, hp⟩ := contains_iff.mp hk
      have hget := get?_attach h.sound hparent k
      rw [if_neg hne, hp, Option.map_some] at hget
      have hstage : ∀ root, (scene.attach node).2.stage? root = scene.stage? root :=
        fun _ => rfl
      have hroot := h.root?_attach_of_ne hparent hleaf hne
      have hstageOf := stageOf?_congr hroot fun root _ => hstage root
      rw [answers_of_get? hget, answers_of_get? hp, children_of_get? hp, hroot, hstageOf, hstage]
      by_cases hk : node.parent = some k <;> simp [hk]

theorem Consistent.gains_attach : scene.Gains (scene.attach node).2 (scene.attach node).1
    ⟨true, node.parent, [], some node.transform, node.size, node.effects,
      node.parent.elim (some (scene.attach node).1) scene.root?,
      node.parent.bind scene.stageOf?, none⟩ where
  unused _ hrun := unused_attach hrun node
  count := count_attach h.sound node
  own := h.answers_attach hparent hleaf
  others _ hne := h.answers_attach_of_ne hparent hleaf hne

end Attach

/-! ### A new entry of a node -/

omit [Scalar K] [Approximation K] in
/-- A change of what is stored with a node, apart from its links, shows in the answers about
the node. -/
theorem Linked.changes_modify (h : scene.Linked) {f : Node K → Node K}
    (hparent : ∀ node, (f node).parent = node.parent)
    (hchildren : ∀ node, (f node).children = node.children)
    (hnode : scene.nodes.get? key = some node) :
    scene.Changes { scene with nodes := scene.nodes.modify key f } key { scene.answers key with
      transform := some (f node).transform, size := (f node).size,
      effects := (f node).effects } := by
  have same := sameLinks_modify scene key hparent hchildren
  have hroot := h.root?_of_sameLinks same
  have hstageOf : ∀ k, Scene.stageOf? { scene with nodes := scene.nodes.modify key f } k =
      scene.stageOf? k := fun k => stageOf?_congr (hroot k) fun _ _ => rfl
  have hget : ∀ k, (scene.nodes.modify key f).get? k =
      if k = key then (scene.nodes.get? key).map f else scene.nodes.get? k :=
    fun k => KeyStore.get?_modify _ _ _ _
  constructor
  · exact KeyStore.count_modify _ _ _
  · have hself := hget key
    rw [if_pos rfl, hnode, Option.map_some] at hself
    rw [answers_of_get? hself, answers_of_get? hnode, hparent, hchildren, hroot, hstageOf]
    rfl
  · intro k hne
    have hkept := hget k
    rw [if_neg hne] at hkept
    simp only [answers, hroot, hstageOf, Scene.contains, KeyStore.contains, Scene.parent?,
      Scene.children, transform?, Scene.size?, Scene.effects, hkept]
    rfl

/-! ### A new stage -/

omit [Scalar K] [Approximation K] in
/-- With the same nodes, another stage on a root shows under this root and nowhere else. -/
theorem Linked.restages (h : scene.Linked) (hnodes : scene'.nodes = scene.nodes) {root : NodeKey}
    {f : Option (Stage K) → Option (Stage K)}
    (hstage : ∀ k, scene'.stage? k = if k = root then f (scene.stage? k) else scene.stage? k) :
    scene.Restages scene' root f := by
  have hget : ∀ k, scene'.nodes.get? k = scene.nodes.get? k := fun k => by rw [hnodes]
  have same : scene.SameLinks scene' := by
    constructor <;> intro k
    · simp only [Scene.contains, KeyStore.contains, hget]
    · simp only [Scene.parent?, hget]
    · simp only [Scene.children, hget]
  have hroot := h.root?_of_sameLinks same
  refine ⟨by rw [count, count, hnodes], fun k => ?_⟩
  have hstageOf : scene'.stageOf? k =
      if scene.root? k = some root then f (scene.stageOf? k) else scene.stageOf? k := by
    rw [stageOf?, hroot, stageOf?]
    cases scene.root? k with
    | none => simp
    | some upper => simpa using hstage upper
  simp only [answers, hroot, hstageOf, hstage, same.contains, same.parent?, same.children,
    transform?, Scene.size?, Scene.effects, hget]

omit [Scalar K] [Approximation K] in
theorem Linked.restages_putStage (h : scene.Linked) (stage : Stage K) :
    scene.Restages (scene.putStage stage) stage.root fun _ => some stage := by
  have hnodes : (scene.putStage stage).nodes = scene.nodes := rfl
  refine h.restages hnodes fun root => ?_
  have hothers : (scene.stages.filter (·.1 != stage.root)).lookup root =
      if root != stage.root then scene.stages.lookup root else none :=
    lookup_filter_key (· != stage.root) root scene.stages
  by_cases hroot : root = stage.root
  · simp [putStage, stage?, hroot]
  · have hne : (root == stage.root) = false := by simpa using hroot
    simp [putStage, stage?, List.lookup_cons, hne, hothers, hroot]

theorem Linked.restages_changeStage (h : scene.Linked) (root : NodeKey)
    (change : StageChange K) :
    scene.Restages (scene.changeStage root change) root (Option.map (·.change change)) := by
  have hnodes : (scene.changeStage root change).nodes = scene.nodes := rfl
  refine h.restages hnodes fun k => ?_
  have hentry := lookup_map_entry
    (fun k (stage : Stage K) => if k = root then stage.change change else stage) k scene.stages
  by_cases hk : k = root <;> simpa [changeStage, stage?, hk] using hentry

/-- A stage is put on a new root. No old node is under it. -/
theorem Gains.putStage {new : Answers K} (gains : scene.Gains scene' key new)
    (h : scene.Linked) (h' : scene'.Linked) {stage : Stage K} (hstage : stage.root = key)
    (hroot : new.root = some key) : scene.Gains (scene'.putStage stage) key
      { new with stageOf := some stage, stage := some stage } := by
  have restages := h'.restages_putStage stage
  refine ⟨gains.unused, restages.count.trans gains.count, ?_, fun k hne => ?_⟩
  · have hown : scene'.root? key = some key := (congrArg Answers.root gains.own).trans hroot
    simp [restages.answers, gains.own, hown, hstage]
  · have hother : scene'.root? k = scene.root? k :=
      congrArg Answers.root (gains.others k hne)
    have hbeside : scene.root? k ≠ some key := by
      intro habove
      have hused := h.contains_root habove
      rw [gains.unused scene .refl] at hused
      cases hused
    simp only [restages.answers, hother, hstage, if_neg hbeside, if_neg hne]
    exact gains.others k hne

theorem gains_createStage (h : scene.Consistent) (width height : K) : ∃ key scene',
    createStage width height scene = (key, scene') ∧ scene.Gains scene' key
      ⟨true, none, [], some .identity, some ⟨width, height⟩, [], some key,
        some (.ofSize key width height), some (.ofSize key width height)⟩ := by
  let node : Node K := ⟨none, [], .identity, some ⟨width, height⟩, []⟩
  have hnone : ∀ p, node.parent = some p → scene.contains p = true :=
    fun _ hp => absurd hp (by simp [node])
  have gains := h.gains_attach hnone rfl
  exact ⟨_, _, rfl, gains.putStage h.toLinked (h.attach hnone rfl).toLinked rfl rfl⟩

/-! ### A tree taken out -/

omit [Scalar K] [Approximation K] in
theorem count_dropAll {keys : List NodeKey} (hnodup : keys.Nodup)
    (hlive : ∀ k ∈ keys, scene.contains k = true) :
    (keys.foldl drop scene).count + keys.length = scene.count := by
  induction keys generalizing scene with
  | nil => rfl
  | cons key keys ih =>
      obtain ⟨hnot, hrest⟩ := List.nodup_cons.mp hnodup
      have hdropped : (scene.drop key).count + 1 = scene.count :=
        KeyStore.count_erase (hlive key List.mem_cons_self)
      have hkept : ∀ k ∈ keys, (scene.drop key).contains k = true := by
        intro k hk
        have hne : k ≠ key := by
          rintro rfl
          exact hnot hk
        have hget : (scene.drop key).nodes.get? k = scene.nodes.get? k := by
          simp [drop, KeyStore.get?_erase, hne]
        rw [Scene.contains, KeyStore.contains, hget]
        exact hlive k (List.mem_cons_of_mem _ hk)
      have hothers := ih hrest hkept
      rw [List.foldl_cons, List.length_cons]
      omega

omit [Scalar K] [Approximation K] in
theorem count_detach (scene : Scene K) (key : NodeKey) :
    (scene.detach key).count = scene.count := by
  rw [detach]
  split
  · exact KeyStore.count_modify _ _ _
  · rfl

omit [Scalar K] [Approximation K] in
theorem Linked.contains_under (h : scene.Linked) (hkey : scene.contains key = true)
    (hunder : Under scene.children key k) : scene.contains k = true := by
  cases hunder with
  | refl => exact hkey
  | tail _ hchild => exact (h.of_mem_children hchild).1

section Remove

variable (h : scene.Consistent) (hkey : scene.contains key = true)
include h hkey

omit [Approximation K] h in
theorem stage?_removeNode (root : NodeKey) : (removeNode key scene).2.stage? root =
    if root ∈ (scene.hierarchy.outline key).preorder then none else scene.stage? root := by
  have hfiltered := lookup_filter_key
    (fun k => decide (k ∉ (scene.hierarchy.outline key).preorder)) root scene.stages
  rw [stage?, stages_removeNode hkey, hfiltered]
  by_cases hroot : root ∈ (scene.hierarchy.outline key).preorder <;> simp [hroot, stage?]

theorem Consistent.count_removeNode : (Scene.removeNode key scene).2.count +
    (scene.hierarchy.outline key).preorder.length = scene.count := by
  have hperm := reversePreorder_perm (scene.hierarchy.outline key)
  have hnodup := hperm.nodup_iff.mpr (h.toLinked.nodup_outline hkey)
  have hlive : ∀ k ∈ (scene.hierarchy.outline key).reversePreorder,
      (scene.detach key).contains k = true := by
    intro k hk
    have hunder := h.toLinked.mem_outline_iff_under.mp (hperm.mem_iff.mp hk)
    have hcontains := h.toLinked.contains_under hkey hunder
    simpa [Scene.contains, KeyStore.contains, get?_detach] using hcontains
  rw [← hperm.length_eq, ← count_detach scene key, ← count_dropAll hnodup hlive]
  simp only [Scene.removeNode, hkey, if_true]

/-- The topmost ancestor of a node that stays is as before, and so is the stage on it. -/
theorem Consistent.above_removeNode (hk : scene.contains k = true)
    (hstays : ¬ Under scene.children key k) :
    (Scene.removeNode key scene).2.root? k = scene.root? k ∧
      (Scene.removeNode key scene).2.stageOf? k = scene.stageOf? k := by
  have hlinked := h.toLinked
  obtain ⟨chain, hchain⟩ := hlinked.ascends hk
  have hroot := hlinked.root?_of_ascends (linked_removeNode hlinked hkey) hchain
    (ascends_removeNode hlinked hkey hchain fun hmem =>
      hstays (hlinked.mem_outline_iff_under.mp hmem))
  refine ⟨hroot, stageOf?_congr hroot fun root habove => ?_⟩
  rw [stage?_removeNode hkey, if_neg]
  intro hmem
  exact hstays ((hlinked.mem_outline_iff_under.mp hmem).trans (hlinked.under_root habove))

/-- Of the nodes that stay only the parent of the removed key answers anew. -/
theorem Consistent.answers_removeNode (hstays : ¬ Under scene.children key k) :
    (Scene.removeNode key scene).2.answers k = { scene.answers k with
      children := if scene.parent? key = some k then (scene.children k).filter (· != key)
        else scene.children k } := by
  have hkept : k ∉ (scene.hierarchy.outline key).preorder :=
    mt h.toLinked.mem_outline_iff_under.mp hstays
  cases hk : scene.contains k with
  | false =>
      have hk' : (Scene.removeNode key scene).2.contains k = false := by
        rw [Bool.eq_false_iff, ne_eq, contains_removeNode hkey]
        simp [hk]
      simp [(h.removeNode key).toStaged.answers_of_not_contains hk',
        h.toStaged.answers_of_not_contains hk, not_contains hk]
  | true =>
      obtain ⟨p, hp⟩ := contains_iff.mp hk
      obtain ⟨hroot, hstageOf⟩ := h.above_removeNode hkey hk hstays
      have hget := get?_removeNode hkey k
      rw [if_neg hkept, hp, Option.map_some] at hget
      have hstage := stage?_removeNode hkey k
      rw [if_neg hkept] at hstage
      rw [answers_of_get? hget, answers_of_get? hp, children_of_get? hp, hroot, hstageOf, hstage]
      by_cases hparent : scene.parent? key = some k <;> simp [hparent]

theorem Consistent.loses_removeNode : scene.Loses (Scene.removeNode key scene).2 key where
  count := by
    refine ⟨(scene.hierarchy.outline key).preorder.toFinset, fun k => ?_, ?_⟩
    · rw [List.mem_toFinset, h.toLinked.mem_outline_iff_under]
    · rw [List.toFinset_card_of_nodup (h.toLinked.nodup_outline hkey)]
      exact h.count_removeNode hkey
  gone k hunder := by
    refine (h.removeNode key).toStaged.answers_of_not_contains ?_
    rw [Bool.eq_false_iff, ne_eq, contains_removeNode hkey, h.toLinked.mem_outline_iff_under]
    exact fun hkept => hkept.2 hunder
  others _ hstays := h.answers_removeNode hkey hstays

end Remove

/-! ## Results -/

/-- Which requests a scene grants, and exactly what they change. A key that names no node is
refused, and so is a stage on a node with a parent. -/
structure RequestsExact (scene : Scene K) : Prop where
  createStage : ∀ width height, ∃ key scene', Scene.createStage width height scene =
    (key, scene') ∧ scene.Gains scene' key ⟨true, none, [], some .identity,
      some ⟨width, height⟩, [], some key, some (.ofSize key width height),
      some (.ofSize key width height)⟩
  createNode : ∀ parent transform, (∀ p, parent = some p → scene.contains p = true) →
    ∃ key scene', scene.Grants (Scene.createNode parent transform) key scene' ∧
      scene.Gains scene' key ⟨true, parent, [], some transform, none, [],
        parent.elim (some key) scene.root?, parent.bind scene.stageOf?, none⟩
  createNode_unknown : ∀ parent transform, scene.contains parent = false →
    scene.Refuses (Scene.createNode (some parent) transform) (.unknownNode parent)
  setTransform : ∀ key transform, scene.contains key = true → ∃ scene',
    scene.Grants (Scene.setTransform key transform) () scene' ∧
      scene.Changes scene' key { scene.answers key with transform := some transform }
  setTransform_unknown : ∀ key transform, scene.contains key = false →
    scene.Refuses (Scene.setTransform key transform) (.unknownNode key)
  setSize : ∀ key size, scene.contains key = true → ∃ scene',
    scene.Grants (Scene.setSize key size) () scene' ∧
      scene.Changes scene' key { scene.answers key with size := size }
  setSize_unknown : ∀ key size, scene.contains key = false →
    scene.Refuses (Scene.setSize key size) (.unknownNode key)
  addEffect : ∀ key effect, scene.contains key = true → ∃ scene',
    scene.Grants (Scene.addEffect key effect) () scene' ∧ scene.Changes scene' key
      { scene.answers key with effects := scene.effects key ++ [effect] }
  addEffect_unknown : ∀ key effect, scene.contains key = false →
    scene.Refuses (Scene.addEffect key effect) (.unknownNode key)
  setStage : ∀ stage : Stage K, scene.contains stage.root = true →
    scene.parent? stage.root = none → ∃ scene', scene.Grants (Scene.setStage stage) () scene' ∧
      scene.Restages scene' stage.root fun _ => some stage
  setStage_unknown : ∀ stage : Stage K, scene.contains stage.root = false →
    scene.Refuses (Scene.setStage stage) (.unknownNode stage.root)
  setStage_below : ∀ (stage : Stage K) parent, scene.parent? stage.root = some parent →
    scene.Refuses (Scene.setStage stage) (.rootHasParent stage.root)
  changeStage : ∀ root change, scene.Restages (scene.changeStage root change) root
    (Option.map (·.change change))
  removeNode : ∀ key, scene.contains key = true → ∃ scene',
    Scene.removeNode key scene = (true, scene') ∧ scene.Loses scene' key
  removeNode_unknown : ∀ key, scene.contains key = false →
    Scene.removeNode key scene = (false, scene)

omit [Scalar K] [Approximation K] in
/-- What a change makes of a node, it makes of the answers about the node. -/
theorem Linked.changeNode_exact (h : scene.Linked) (hkey : scene.contains key = true)
    (f : Node K → Node K) (g : Answers K → Answers K)
    (hparent : ∀ node, (f node).parent = node.parent)
    (hchildren : ∀ node, (f node).children = node.children)
    (hanswers : ∀ node root stageOf stage, g ⟨true, node.parent, node.children,
        some node.transform, node.size, node.effects, root, stageOf, stage⟩ =
      ⟨true, node.parent, node.children, some (f node).transform, (f node).size,
        (f node).effects, root, stageOf, stage⟩) :
    ∃ scene', scene.Grants (Scene.changeNode key f) () scene' ∧
      scene.Changes scene' key (g (scene.answers key)) := by
  obtain ⟨node, hnode⟩ := contains_iff.mp hkey
  have hchanges := h.changes_modify hparent hchildren hnode
  refine ⟨_, grants_changeNode hkey f, ?_⟩
  rw [answers_of_get? hnode] at hchanges ⊢
  rw [hanswers]
  exact hchanges

/-- However a scene was reached, its requests have exactly these effects. -/
theorem Reachable.requestsExact (h : scene.Reachable) : scene.RequestsExact := by
  have hconsistent := h.consistent
  have hlinked := hconsistent.toLinked
  constructor
  case createStage => exact gains_createStage hconsistent
  case createNode =>
    exact fun parent transform hparent =>
      ⟨_, _, grants_createNode hparent transform, hconsistent.gains_attach hparent rfl⟩
  case createNode_unknown => exact fun _ transform hkey => refuses_createNode hkey transform
  case setTransform =>
    exact fun _ transform hkey => hlinked.changeNode_exact hkey ({ · with transform })
      ({ · with transform := some transform }) (fun _ => rfl) (fun _ => rfl) fun _ _ _ _ => rfl
  case setSize =>
    exact fun _ size hkey => hlinked.changeNode_exact hkey ({ · with size })
      ({ · with size }) (fun _ => rfl) (fun _ => rfl) fun _ _ _ _ => rfl
  case addEffect =>
    exact fun _ effect hkey => hlinked.changeNode_exact hkey
      (fun node => { node with effects := node.effects ++ [effect] })
      (fun old => { old with effects := old.effects ++ [effect] })
      (fun _ => rfl) (fun _ => rfl) fun _ _ _ _ => rfl
  case setTransform_unknown | setSize_unknown | addEffect_unknown =>
    exact fun _ _ hkey => refuses_changeNode hkey _
  case setStage =>
    exact fun stage hroot hparent =>
      ⟨_, grants_setStage hroot hparent, hlinked.restages_putStage stage⟩
  case setStage_unknown => exact fun _ hroot => refuses_setStage_unknown hroot
  case setStage_below => exact fun _ _ hparent => refuses_setStage_below hparent
  case changeStage => exact hlinked.restages_changeStage
  case removeNode =>
    intro key hkey
    have hanswer : (Scene.removeNode key scene).1 = true := by simp [Scene.removeNode, hkey]
    exact ⟨_, Prod.ext hanswer rfl, hconsistent.loses_removeNode hkey⟩
  case removeNode_unknown =>
    intro key hkey
    simp [Scene.removeNode, hkey]

/-- A removed node has left its slot to a later one, and its key names nothing. -/
theorem slotsReused_requestsExact :
    let _ := Approximation.ofSquares
    let scene := slotsReused Rat
    scene.Reachable ∧ (scene.contains ⟨2, 1⟩ = false ∧ scene.parent? ⟨2, 3⟩ = some ⟨3, 3⟩ ∧
      scene.children ⟨1, 1⟩ = [⟨3, 3⟩] ∧ scene.parent? ⟨1, 1⟩ = none) ∧
      scene.RequestsExact := by
  let _ := Approximation.ofSquares
  have h := reachable_slotsReused Rat
  exact ⟨h, ⟨rfl, rfl, rfl, rfl⟩, h.requestsExact⟩

end Scene

end SceneCulling
