import SceneCulling.Proofs.Scene.Links

/-!
# The loops over the nodes end

A program goes up along the parents, down along the children, or takes pending nodes from
a stack, with no bound in sight. The relations below are these loops, step for step: a
derivation is a run that ends. In a forest every loop ends, and it ends with the answer
that the scene gives within its bounds.
-/

namespace SceneCulling.Scene

open Outline

variable {K : Type} {scene : Scene K} {key ancestor : NodeKey} {node : Node K}

/-- From a key on, a loop goes to the parent until there is none. It ends with this
answer, which is none for a key that names no node. -/
inductive SeeksRoot (scene : Scene K) : NodeKey → Option NodeKey → Prop where
  | gone {key : NodeKey} : scene.nodes.get? key = none → SeeksRoot scene key none
  | top {key : NodeKey} {node : Node K} : scene.nodes.get? key = some node →
      node.parent = none → SeeksRoot scene key (some key)
  | up {key parent : NodeKey} {node : Node K} {answer : Option NodeKey} :
      scene.nodes.get? key = some node → node.parent = some parent →
      SeeksRoot scene parent answer → SeeksRoot scene key answer

/-- From a key on, a loop goes to the parent until it meets the ancestor, and collects the
transforms on the way. It ends with this answer, which is none if the ancestor is not
met. -/
inductive SeeksAncestor [Scalar K] (scene : Scene K) (ancestor : NodeKey) :
    NodeKey → Mat4 K → Option (Mat4 K) → Prop where
  | found (m : Mat4 K) : SeeksAncestor scene ancestor ancestor m (some m)
  | gone {key : NodeKey} (m : Mat4 K) : key ≠ ancestor → scene.nodes.get? key = none →
      SeeksAncestor scene ancestor key m none
  | top {key : NodeKey} {node : Node K} (m : Mat4 K) : key ≠ ancestor →
      scene.nodes.get? key = some node → node.parent = none →
      SeeksAncestor scene ancestor key m none
  | up {key parent : NodeKey} {node : Node K} {m : Mat4 K} {answer : Option (Mat4 K)} :
      key ≠ ancestor → scene.nodes.get? key = some node → node.parent = some parent →
      SeeksAncestor scene ancestor parent (node.transform * m) answer →
      SeeksAncestor scene ancestor key m answer

/-- A loop removes the next pending node and puts its children in front of the other
pending nodes, the last child first. It ends with this scene. -/
inductive Removes : Scene K → List NodeKey → Scene K → Prop where
  | done {scene : Scene K} : Removes scene [] scene
  | next {scene final : Scene K} {key : NodeKey} {pending : List NodeKey} :
      Removes (scene.drop key) ((scene.children key).reverse ++ pending) final →
      Removes scene (key :: pending) final

/-! ## Upward -/

theorem root?_of_not_contains (hkey : scene.contains key = false) : scene.root? key = none := by
  simp [root?, lineage_of_not_contains hkey]

theorem Linked.root?_eq (h : scene.Linked) (hnode : scene.nodes.get? key = some node) :
    scene.root? key = node.parent.elim (some key) scene.root? := by
  have hlineage := h.lineage_eq hnode
  cases hparent : node.parent with
  | none => simp [root?, hlineage, hparent]
  | some parent =>
      have hlive := h.parent_contained ((parent?_of_get? hnode).trans hparent)
      obtain ⟨above, habove⟩ := contains_iff.mp hlive
      simp [root?, hlineage, hparent, h.lineage_eq habove, List.getLast?_cons_cons]

/-- The topmost ancestor of a node is found. -/
theorem Linked.seeksRoot (h : scene.Linked) (key : NodeKey) :
    scene.SeeksRoot key (scene.root? key) := by
  cases hkey : scene.contains key with
  | false =>
      rw [root?_of_not_contains hkey]
      exact .gone (not_contains hkey).1
  | true =>
      obtain ⟨chain, hchain⟩ := h.ascends hkey
      induction hchain with
      | @top key hkey hnone =>
          obtain ⟨node, hnode⟩ := contains_iff.mp hkey
          have hparent : node.parent = none := (parent?_of_get? hnode).symm.trans hnone
          rw [h.root?_eq hnode, hparent]
          exact .top hnode hparent
      | @up key parent chain hkey hsome hrest ih =>
          obtain ⟨node, hnode⟩ := contains_iff.mp hkey
          have hparent : node.parent = some parent := (parent?_of_get? hnode).symm.trans hsome
          rw [h.root?_eq hnode, hparent]
          exact .up hnode hparent (ih (h.parent_contained hsome))

section Modelview

variable [Scalar K]

/-- What the ascent to an ancestor makes of a matrix. -/
private def collect (ancestor : NodeKey) (lineage : List (NodeKey × Node K)) (m : Mat4 K) :
    Option (Mat4 K) :=
  if lineage.any fun entry => decide (entry.1 = ancestor) then
    some ((lineage.takeWhile fun entry => decide (entry.1 ≠ ancestor)).foldl
      (fun m entry => entry.2.transform * m) m)
  else none

private theorem collect_found (rest : List (NodeKey × Node K)) (m : Mat4 K) :
    collect ancestor ((ancestor, node) :: rest) m = some m := by
  simp [collect]

private theorem collect_up (hne : key ≠ ancestor) (rest : List (NodeKey × Node K))
    (m : Mat4 K) :
    collect ancestor ((key, node) :: rest) m = collect ancestor rest (node.transform * m) := by
  have hany : (((key, node) :: rest).any fun entry => decide (entry.1 = ancestor)) =
      rest.any fun entry => decide (entry.1 = ancestor) := by
    rw [List.any_cons, decide_eq_false hne, Bool.false_or]
  have htake : (((key, node) :: rest).takeWhile fun entry => decide (entry.1 ≠ ancestor)) =
      (key, node) :: rest.takeWhile fun entry => decide (entry.1 ≠ ancestor) :=
    List.takeWhile_cons_of_pos (by simpa using hne)
  rw [collect, hany, htake]
  rfl

private theorem Linked.seeksAncestor_collect (h : scene.Linked) (ancestor : NodeKey)
    {chain : List NodeKey} (hchain : scene.Ascends key chain) (m : Mat4 K) :
    scene.SeeksAncestor ancestor key m (collect ancestor (scene.lineage key) m) := by
  induction hchain generalizing m with
  | @top key hkey hnone =>
      obtain ⟨node, hnode⟩ := contains_iff.mp hkey
      have hparent : node.parent = none := (parent?_of_get? hnode).symm.trans hnone
      rw [h.lineage_eq hnode, hparent]
      by_cases hne : key = ancestor
      · subst hne
        rw [collect_found]
        exact .found m
      · rw [collect_up hne]
        exact .top m hne hnode hparent
  | @up key parent chain hkey hsome _ ih =>
      obtain ⟨node, hnode⟩ := contains_iff.mp hkey
      have hparent : node.parent = some parent := (parent?_of_get? hnode).symm.trans hsome
      rw [h.lineage_eq hnode, hparent]
      by_cases hne : key = ancestor
      · subst hne
        rw [collect_found]
        exact .found m
      · rw [collect_up hne]
        exact .up hne hnode hparent (ih (node.transform * m))

/-- The transform to an ancestor is found, or that there is none. -/
theorem Linked.seeksAncestor (h : scene.Linked) (key ancestor : NodeKey) :
    scene.SeeksAncestor ancestor key .identity (scene.modelview? key ancestor) := by
  by_cases hne : key = ancestor
  · subst hne
    simp only [modelview?, if_true]
    exact .found _
  · have hcollect : scene.modelview? key ancestor =
        collect ancestor (scene.lineage key) .identity := by
      simp [modelview?, collect, hne]
    rw [hcollect]
    cases hkey : scene.contains key with
    | false =>
        rw [lineage_of_not_contains hkey]
        exact .gone _ hne (not_contains hkey).1
    | true =>
        obtain ⟨chain, hchain⟩ := h.ascends hkey
        exact h.seeksAncestor_collect ancestor hchain .identity

end Modelview

/-! ## Removing -/

/-- Only the list of the parent changes when a node is detached, and the parent of a node
is not below it. -/
private theorem Linked.children_detach [Scalar K] (h : scene.Linked)
    {k : NodeKey} (hk : k ∈ (scene.hierarchy.outline key).preorder) :
    (scene.detach key).children k = scene.children k := by
  have hne : scene.parent? key ≠ some k := by
    intro hparent
    obtain ⟨a, ha, hsuffix⟩ := h.suffix_of_mem (h.unfolds_outline key) hk
    obtain rfl := List.mem_singleton.mp ha
    rw [h.ancestry_child (h.mem_children_iff.mpr ⟨contains_of_parent? hparent, hparent⟩)]
      at hsuffix
    have hlength := hsuffix.length_le
    rw [List.length_cons] at hlength
    omega
  simp only [children, get?_detach, if_neg hne]
  simp

/-- The loop drops the nodes of an outline, if none of them was dropped before. -/
private theorem removes_of_unfolds {children : NodeKey → List NodeKey} {roots : List NodeKey}
    {o : Outline NodeKey} (hu : Unfolds children roots o) (hnodup : o.preorder.Nodup)
    (hsame : ∀ k ∈ o.preorder, scene.children k = children k) {pending : List NodeKey}
    {final : Scene K} (hrest : Removes (o.reversePreorder.foldl drop scene) pending final) :
    Removes scene (roots.reverse ++ pending) final := by
  have hkept : ∀ (keys : List NodeKey) (scene : Scene K) (k : NodeKey), k ∉ keys →
      (keys.foldl drop scene).children k = scene.children k := by
    intro keys scene k hk
    simp only [Scene.children, get?_dropAll, if_neg hk]
  induction hu generalizing scene pending with
  | nil => exact hrest
  | @node a as below next _ _ ihb ihn =>
      obtain ⟨hnot, hparts⟩ := List.nodup_cons.mp hnodup
      rw [List.mem_append, not_or] at hnot
      obtain ⟨hnotBelow, hnotNext⟩ := hnot
      obtain ⟨hbelow, hnext, hdisjoint⟩ := List.nodup_append.mp hparts
      rw [List.reverse_cons, List.append_assoc]
      refine ihn hnext
        (fun k hk => hsame k (List.mem_cons_of_mem _ (List.mem_append_right _ hk))) (.next ?_)
      have ha : (next.reversePreorder.foldl drop scene).children a = children a := by
        rw [hkept _ _ _ (by simpa [mem_reversePreorder] using hnotNext)]
        exact hsame a List.mem_cons_self
      rw [ha]
      refine ihb hbelow (fun k hk => ?_) ?_
      · have hbeside : k ∉ next.reversePreorder ++ [a] := by
          rw [List.mem_append, mem_reversePreorder, List.mem_singleton]
          rintro (hnext | rfl)
          · exact hdisjoint k hk k hnext rfl
          · exact hnotBelow hk
        have hdropped := hkept (next.reversePreorder ++ [a]) scene k hbeside
        rw [List.foldl_append] at hdropped
        rw [hsame k (List.mem_cons_of_mem _ (List.mem_append_left _ hk))] at hdropped
        exact hdropped
      · simpa [reversePreorder] using hrest

/-- Removing a node ends, with the scene that the removal gives. -/
theorem Linked.removes [Scalar K] (h : scene.Linked) (hkey : scene.contains key = true) :
    Removes (scene.detach key) [key] (removeNode key scene).2 := by
  have hremoved : (removeNode key scene).2 =
      (scene.hierarchy.outline key).reversePreorder.foldl drop (scene.detach key) := by
    simp [removeNode, hkey]
  exact removes_of_unfolds (h.unfolds_outline key) (h.nodup_outline hkey)
    (fun k hk => h.children_detach hk) (hremoved ▸ .done)

/-! ## All loops -/

/-- Every loop over the nodes ends with the answer of the scene, for any keys. The
traversals that go down are recursions over the children, which an outline records, and
one of them keeps its own stack. -/
structure LoopsEnd [Scalar K] (scene : Scene K) : Prop where
  root : ∀ key, scene.SeeksRoot key (scene.root? key)
  modelview : ∀ key ancestor,
    scene.SeeksAncestor ancestor key .identity (scene.modelview? key ancestor)
  remove : ∀ key, scene.contains key = true →
    Removes (scene.detach key) [key] (removeNode key scene).2
  descend : ∀ key, Unfolds scene.children [key] (scene.hierarchy.outline key)
  visit : ∀ key, Visits scene.children [key] (scene.hierarchy.outline key).preorder

theorem Linked.loopsEnd [Scalar K] (h : scene.Linked) : scene.LoopsEnd := by
  refine ⟨h.seeksRoot, h.seeksAncestor, fun _ => h.removes, h.unfolds_outline, fun key => ?_⟩
  simpa using (h.unfolds_outline key).visits .done

end SceneCulling.Scene
