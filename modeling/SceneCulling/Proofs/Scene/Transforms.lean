import SceneCulling.Proofs.Geometry.Affine
import SceneCulling.Proofs.Scene.Loops

/-!
# Transforms along the parents

The ascent from a node multiplies the transforms on its way. In exact arithmetic the matrix
that it starts with acts first, so the transform of a child to the root is its transform to
its parent followed by that of the parent. If all nodes have affine transforms, all these
transforms are affine.
-/

namespace SceneCulling.Scene

variable {K : Type} [Scalar K] {scene : Scene K} {key ancestor root node child : NodeKey}

/-- An ascent has one answer. -/
theorem SeeksAncestor.unique {m : Mat4 K} {answer answer' : Option (Mat4 K)}
    (h : scene.SeeksAncestor ancestor key m answer)
    (h' : scene.SeeksAncestor ancestor key m answer') : answer = answer' := by
  induction h generalizing answer' with
  | found m =>
      cases h' with
      | found => rfl
      | gone _ hne => exact absurd rfl hne
      | top _ hne => exact absurd rfl hne
      | up hne => exact absurd rfl hne
  | gone m hne hnone =>
      cases h' with
      | found => exact absurd rfl hne
      | gone => rfl
      | top => rfl
      | up _ hnode => exact absurd (hnone.symm.trans hnode) (by simp)
  | top m hne hnode hparent =>
      cases h' with
      | found => exact absurd rfl hne
      | gone => rfl
      | top => rfl
      | up _ hnode' hparent' =>
          obtain rfl := Option.some.inj (hnode.symm.trans hnode')
          exact absurd (hparent.symm.trans hparent') (by simp)
  | up hne hnode hparent _ ih =>
      cases h' with
      | found => exact absurd rfl hne
      | gone _ _ hnone => exact absurd (hnone.symm.trans hnode) (by simp)
      | top _ _ hnode' hparent' =>
          obtain rfl := Option.some.inj (hnode.symm.trans hnode')
          exact absurd (hparent'.symm.trans hparent) (by simp)
      | up _ hnode' hparent' hrest =>
          obtain rfl := Option.some.inj (hnode.symm.trans hnode')
          obtain rfl := Option.some.inj (hparent.symm.trans hparent')
          exact ih hrest

/-- From every node under a root the ascent meets the root. -/
theorem Linked.meets_root (h : scene.Linked)
    (hmem : node ∈ (scene.hierarchy.outline root).preorder) (m : Mat4 K) :
    ∃ toRoot, scene.SeeksAncestor root node m (some toRoot) := by
  refine (h.unfolds_outline root).of_step
    (P := fun n => ∀ m, ∃ toRoot, scene.SeeksAncestor root n m (some toRoot))
    (fun a ha m => ?_) (fun a c ha hc m => ?_) node hmem m
  · obtain rfl := List.mem_singleton.mp ha
    exact ⟨m, .found m⟩
  · obtain ⟨hlive, hparent⟩ := h.of_mem_children hc
    obtain ⟨entry, hentry⟩ := contains_iff.mp hlive
    by_cases hne : c = root
    · subst hne
      exact ⟨m, .found m⟩
    · obtain ⟨toRoot, hrest⟩ := ha (entry.transform * m)
      exact ⟨toRoot, .up hne hentry ((parent?_of_get? hentry).symm.trans hparent) hrest⟩

/-- Neither a child nor a node above a child is the child itself. -/
theorem Linked.child_ne_of_mem (h : scene.Linked)
    (hmem : node ∈ (scene.hierarchy.outline root).preorder)
    (hchild : child ∈ scene.children node) : child ≠ root := by
  rintro rfl
  obtain ⟨a, ha, hsuffix⟩ := h.suffix_of_mem (h.unfolds_outline child) hmem
  obtain rfl := List.mem_singleton.mp ha
  have hlength := hsuffix.length_le
  rw [h.ancestry_child hchild, List.length_cons] at hlength
  omega

/-- The ascent from a child goes on from its parent. -/
theorem Linked.seeksAncestor_child (h : scene.Linked)
    (hmem : node ∈ (scene.hierarchy.outline root).preorder)
    (hchild : child ∈ scene.children node) :
    ∃ m, scene.transform? child = some m ∧
      scene.SeeksAncestor root node (m * .identity) (scene.modelview? child root) := by
  obtain ⟨hlive, hparent⟩ := h.of_mem_children hchild
  obtain ⟨entry, hentry⟩ := contains_iff.mp hlive
  have hparent' : entry.parent = some node := (parent?_of_get? hentry).symm.trans hparent
  have hne := h.child_ne_of_mem hmem hchild
  refine ⟨entry.transform, by simp [transform?, hentry], ?_⟩
  have hseeks := h.seeksAncestor child root
  generalize scene.modelview? child root = answer at hseeks ⊢
  cases hseeks with
  | found => exact absurd rfl hne
  | gone _ _ hnone => exact absurd (hnone.symm.trans hentry) (by simp)
  | top _ _ hentry' hnone =>
      obtain rfl := Option.some.inj (hentry.symm.trans hentry')
      exact absurd (hnone.symm.trans hparent') (by simp)
  | up _ hentry' hparent'' hrest =>
      obtain rfl := Option.some.inj (hentry.symm.trans hentry')
      obtain rfl := Option.some.inj (hparent'.symm.trans hparent'')
      exact hrest

/-- The transform of a child to its parent is the one that the child has. -/
theorem Linked.modelview?_parent (h : scene.Linked) (hchild : child ∈ scene.children node) :
    ∃ m, scene.transform? child = some m ∧
      scene.modelview? child node = some (m * .identity) := by
  have hself : node ∈ (scene.hierarchy.outline node).preorder :=
    (h.unfolds_outline node).mem_roots (List.mem_singleton.mpr rfl)
  obtain ⟨m, hm, hseeks⟩ := h.seeksAncestor_child hself hchild
  exact ⟨m, hm, hseeks.unique (.found _)⟩

/-! ## Scenes with the same transforms -/

/-- Both scenes have the same nodes at the same places below the same parents. -/
structure SamePlaces (scene scene' : Scene K) : Prop extends SameLinks scene scene' where
  transform? : ∀ key, scene'.transform? key = scene.transform? key

/-- The ascent from a node reads parents and transforms only. -/
theorem SamePlaces.seeksAncestor {scene' : Scene K} (same : scene.SamePlaces scene') {m : Mat4 K}
    {answer : Option (Mat4 K)} (h : scene.SeeksAncestor ancestor key m answer) :
    scene'.SeeksAncestor ancestor key m answer := by
  have hentry : ∀ {k : NodeKey} {entry : Node K}, scene.nodes.get? k = some entry →
      ∃ entry', scene'.nodes.get? k = some entry' ∧ entry'.parent = entry.parent ∧
        entry'.transform = entry.transform := by
    intro k entry hk
    obtain ⟨entry', hk'⟩ := contains_iff.mp ((same.contains k).trans (contains_iff.mpr ⟨_, hk⟩))
    have hparent := same.parent? k
    have htransform := same.transform? k
    rw [parent?_of_get? hk, parent?_of_get? hk'] at hparent
    simp only [Scene.transform?, hk, hk', Option.map_some, Option.some.injEq] at htransform
    exact ⟨entry', hk', hparent, htransform⟩
  induction h with
  | found m => exact .found m
  | @gone key m hne hnone =>
      refine .gone m hne ?_
      have hgone : scene.contains key = false := by simp [contains, KeyStore.contains, hnone]
      have hgone' := (same.contains key).trans hgone
      simpa [contains, KeyStore.contains] using hgone'
  | top m hne hnode hparent =>
      obtain ⟨entry', hnode', hparent', -⟩ := hentry hnode
      exact .top m hne hnode' (hparent'.trans hparent)
  | up hne hnode hparent _ ih =>
      obtain ⟨entry', hnode', hparent', htransform'⟩ := hentry hnode
      exact .up hne hnode' (hparent'.trans hparent) (htransform' ▸ ih)

theorem Linked.modelview?_of_samePlaces {scene' : Scene K} (h : scene.Linked)
    (same : scene.SamePlaces scene') (node root : NodeKey) :
    scene'.modelview? node root = scene.modelview? node root :=
  ((h.of_sameLinks same.toSameLinks).seeksAncestor node root).unique
    (same.seeksAncestor (h.seeksAncestor node root))

/-! ## Exact transforms -/

section Exact

variable {scene : Scene Rat} (h : scene.Linked)
  (haffine : ∀ key m, scene.transform? key = some m → m.IsAffine)

include haffine in
/-- Affine transforms on the way give an affine answer. -/
theorem SeeksAncestor.isAffine {m toRoot : Mat4 Rat} (hm : m.IsAffine)
    (hseeks : scene.SeeksAncestor ancestor key m (some toRoot)) : toRoot.IsAffine := by
  generalize hanswer : some toRoot = answer at hseeks
  induction hseeks with
  | found =>
      rw [Option.some.inj hanswer]
      exact hm
  | gone => cases hanswer
  | top => cases hanswer
  | @up key _ node _ _ _ hnode _ _ ih =>
      exact ih (.mul (haffine key _ (by simp [transform?, hnode])) hm) hanswer

/-- What the ascent starts with acts first. -/
theorem SeeksAncestor.mul {m : Mat4 Rat} {answer : Option (Mat4 Rat)}
    (hseeks : scene.SeeksAncestor ancestor key m answer) (first : Mat4 Rat) :
    scene.SeeksAncestor ancestor key (m * first) (answer.map (· * first)) := by
  induction hseeks with
  | found m => exact .found (m * first)
  | gone m hne hnone => exact .gone (m * first) hne hnone
  | top m hne hnode hparent => exact .top (m * first) hne hnode hparent
  | up hne hnode hparent _ ih =>
      rw [Mat4.mul_assoc] at ih
      exact .up hne hnode hparent ih

include h

/-- A child is taken to the root by its own transform and that of its parent to the root. -/
theorem Linked.modelview?_child (hmem : node ∈ (scene.hierarchy.outline root).preorder)
    (hchild : child ∈ scene.children node) : ∃ m, scene.transform? child = some m ∧
      scene.modelview? child root = (scene.modelview? node root).map (· * m) := by
  obtain ⟨m, hm, hseeks⟩ := h.seeksAncestor_child hmem hchild
  have hproduct := (h.seeksAncestor node root).mul m
  rw [Mat4.mul_identity] at hseeks
  rw [Mat4.identity_mul] at hproduct
  exact ⟨m, hm, hseeks.unique hproduct⟩

include haffine

/-- Every node under a root has an affine transform to the root. -/
theorem Linked.modelview?_root (hmem : node ∈ (scene.hierarchy.outline root).preorder) :
    ∃ m, scene.modelview? node root = some m ∧ m.IsAffine := by
  obtain ⟨toRoot, hseeks⟩ := h.meets_root hmem .identity
  exact ⟨toRoot, (h.seeksAncestor node root).unique hseeks,
    hseeks.isAffine haffine Mat4.isAffine_identity⟩

/-- The transform of a child to the root goes through the space of its parent. -/
theorem Linked.modelview?_comp (hmem : node ∈ (scene.hierarchy.outline root).preorder)
    (hchild : child ∈ scene.children node) {m toRoot toRoot' : Mat4 Rat}
    (hm : scene.modelview? child node = some m)
    (hroot : scene.modelview? node root = some toRoot)
    (hroot' : scene.modelview? child root = some toRoot') (p : Vec3 Rat) :
    toRoot'.applyPoint p = toRoot.applyPoint (m.applyPoint p) := by
  obtain ⟨t, ht, hparent⟩ := h.modelview?_parent hchild
  obtain rfl : m = t := by simpa [hm] using hparent
  obtain ⟨t', ht', hproduct⟩ := h.modelview?_child hmem hchild
  obtain rfl := Option.some.inj (ht.symm.trans ht')
  obtain rfl : toRoot' = toRoot * m := by simpa [hroot, hroot'] using hproduct
  obtain ⟨_, hsome, htoRoot⟩ := h.modelview?_root haffine hmem
  obtain rfl := Option.some.inj (hroot.symm.trans hsome)
  exact Mat4.applyPoint_mul htoRoot (haffine child m ht) p

end Exact

end SceneCulling.Scene
