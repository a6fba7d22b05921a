import SceneCulling.Proofs.Scene.Store
import SceneCulling.Scene.Basic

/-!
# The nodes of a scene form a forest

Parents and lists of children are stored apart and have to agree, and going up along the
parents has to end. A freed slot is used again for any node, so no order of the keys shows
the latter; the chain of parents itself is the witness. In a forest no node is above
itself, a chain fits in the store, and so the bounded ascent of a scene reaches the
topmost ancestor.
-/

namespace SceneCulling.Scene

variable {K : Type} {scene : Scene K} {key child parent : NodeKey} {chain : List NodeKey}

/-- Going up along the parents, from a node to one without parent, meets these nodes. -/
inductive Ascends (scene : Scene K) : NodeKey → List NodeKey → Prop where
  | top {key : NodeKey} :
      scene.contains key = true → scene.parent? key = none → Ascends scene key [key]
  | up {key parent : NodeKey} {chain : List NodeKey} :
      scene.contains key = true → scene.parent? key = some parent →
      Ascends scene parent chain → Ascends scene key (key :: chain)

/-- Parents and children agree, and every chain of parents ends. -/
structure Linked (scene : Scene K) : Prop where
  parent_contained : ∀ {key parent : NodeKey}, scene.parent? key = some parent →
    scene.contains parent = true
  mem_children_iff : ∀ {child parent : NodeKey}, child ∈ scene.children parent ↔
    scene.contains child = true ∧ scene.parent? child = some parent
  nodup_children : ∀ key : NodeKey, (scene.children key).Nodup
  ascends : ∀ {key : NodeKey}, scene.contains key = true →
    ∃ chain, scene.Ascends key chain

/-! ## Look-up -/

theorem contains_iff : scene.contains key = true ↔ ∃ node, scene.nodes.get? key = some node :=
  Option.isSome_iff_exists

theorem parent?_of_get? {node : Node K} (h : scene.nodes.get? key = some node) :
    scene.parent? key = node.parent := by
  simp [parent?, h]

theorem children_of_get? {node : Node K} (h : scene.nodes.get? key = some node) :
    scene.children key = node.children := by
  simp [children, h]

theorem contains_of_parent? (h : scene.parent? key = some parent) :
    scene.contains key = true := by
  cases hk : scene.nodes.get? key with
  | none => simp [parent?, hk] at h
  | some node => exact contains_iff.mpr ⟨node, hk⟩

/-- A key that names no node has neither parent nor children. -/
theorem not_contains (h : scene.contains key = false) :
    scene.nodes.get? key = none ∧ scene.parent? key = none ∧ scene.children key = [] := by
  have hnone : scene.nodes.get? key = none := Option.not_isSome_iff_eq_none.mp (by
    intro hsome
    exact absurd (h.symm.trans hsome) (by decide))
  exact ⟨hnone, by simp [parent?, hnone], by simp [children, hnone]⟩

theorem Linked.of_mem_children (h : scene.Linked) (hmem : child ∈ scene.children parent) :
    scene.contains child = true ∧ scene.parent? child = some parent :=
  h.mem_children_iff.mp hmem

/-! ## Chains of parents -/

namespace Ascends

theorem contained (h : scene.Ascends key chain) : ∀ k ∈ chain, scene.contains k = true := by
  induction h with
  | top hkey _ => simpa using hkey
  | up hkey _ _ ih =>
      intro k hk
      cases hk with
      | head => exact hkey
      | tail _ hk => exact ih k hk

/-- A chain stays one in a scene that keeps all nodes and their parents. -/
theorem of_kept {scene' : Scene K} (h : scene.Ascends key chain)
    (hkept : ∀ k, scene.contains k = true →
      scene'.contains k = true ∧ scene'.parent? k = scene.parent? k) :
    scene'.Ascends key chain := by
  induction h with
  | top hkey hnone =>
      obtain ⟨hkey', hparent⟩ := hkept _ hkey
      exact .top hkey' (hparent.trans hnone)
  | up hkey hsome _ ih =>
      obtain ⟨hkey', hparent⟩ := hkept _ hkey
      exact .up hkey' (hparent.trans hsome) ih

/-- A node has one chain of parents. -/
theorem unique {chain' : List NodeKey} (h : scene.Ascends key chain)
    (h' : scene.Ascends key chain') : chain = chain' := by
  induction h generalizing chain' with
  | top _ hnone =>
      cases h' with
      | top => rfl
      | up _ hsome => exact absurd (hnone.symm.trans hsome) (by simp)
  | up _ hsome _ ih =>
      cases h' with
      | top _ hnone => exact absurd (hnone.symm.trans hsome) (by simp)
      | up _ hsome' hrest =>
          obtain rfl := Option.some.inj (hsome.symm.trans hsome')
          rw [ih hrest]

/-- The chain from a node of the chain is the rest of it. -/
theorem suffix (h : scene.Ascends key chain) {k : NodeKey} (hk : k ∈ chain) :
    ∃ rest, scene.Ascends k rest ∧ rest <:+ chain := by
  induction h with
  | @top key hkey hnone =>
      obtain rfl := List.mem_singleton.mp hk
      exact ⟨_, .top hkey hnone, List.suffix_refl _⟩
  | @up key parent chain hkey hsome hrest ih =>
      cases hk with
      | head => exact ⟨_, .up hkey hsome hrest, List.suffix_refl _⟩
      | tail _ hk =>
          obtain ⟨rest, hrest, hsuffix⟩ := ih hk
          exact ⟨rest, hrest, hsuffix.trans (List.suffix_cons _ _)⟩

/-- No node is above itself: its chain would be longer than itself. -/
theorem nodup (h : scene.Ascends key chain) : chain.Nodup := by
  induction h with
  | top => exact List.nodup_singleton _
  | @up key parent chain hkey hsome hrest ih =>
      refine List.nodup_cons.mpr ⟨fun hmem => ?_, ih⟩
      obtain ⟨rest, hagain, hsuffix⟩ := hrest.suffix hmem
      have hlonger := (Ascends.up hkey hsome hrest).unique hagain
      have hlength := hsuffix.length_le
      rw [← hlonger, List.length_cons] at hlength
      omega

/-- The chain fits in the store. -/
theorem length_le_depth (h : scene.Ascends key chain) : chain.length ≤ scene.depth :=
  KeyStore.length_le_of_nodup h.nodup fun k hk => contains_iff.mp (h.contained k hk)

end Ascends

/-! ## The bounded ascent

The nodes that a scene finds above a key, as keys. -/

/-- A node, its parent, and so on up to the node without parent. -/
def ancestry (scene : Scene K) (key : NodeKey) : List NodeKey := (scene.lineage key).map (·.1)

private theorem lineageWithin_eq {node : Node K} (h : scene.Ascends key chain)
    (hnode : scene.nodes.get? key = some node) {bound : Nat} (hbound : chain.length ≤ bound) :
    scene.lineageWithin bound key =
      (key, node) :: node.parent.elim [] (scene.lineageWithin (bound - 1)) := by
  cases bound with
  | zero => cases h <;> simp at hbound
  | succ bound => simp [lineageWithin, hnode]

/-- More room than the chain needs changes nothing. -/
private theorem lineageWithin_of_le (h : scene.Ascends key chain) {bound : Nat}
    (hbound : chain.length ≤ bound) :
    scene.lineageWithin bound key = scene.lineageWithin chain.length key := by
  induction h generalizing bound with
  | @top key hkey hnone =>
      obtain ⟨node, hnode⟩ := contains_iff.mp hkey
      have hparent : node.parent = none := (parent?_of_get? hnode).symm.trans hnone
      rw [lineageWithin_eq (.top hkey hnone) hnode hbound,
        lineageWithin_eq (.top hkey hnone) hnode (Nat.le_refl _), hparent]
      rfl
  | @up key parent chain hkey hsome hrest ih =>
      obtain ⟨node, hnode⟩ := contains_iff.mp hkey
      have hparent : node.parent = some parent := (parent?_of_get? hnode).symm.trans hsome
      rw [lineageWithin_eq (.up hkey hsome hrest) hnode hbound,
        lineageWithin_eq (.up hkey hsome hrest) hnode (Nat.le_refl _), hparent]
      rw [List.length_cons] at hbound
      simp only [Option.elim_some, List.length_cons, Nat.add_sub_cancel]
      rw [ih (by omega)]

/-- The ascent without its bound: a node, and what is above its parent. -/
theorem Linked.lineage_eq (h : scene.Linked) {node : Node K}
    (hnode : scene.nodes.get? key = some node) :
    scene.lineage key = (key, node) :: node.parent.elim [] scene.lineage := by
  have hkey : scene.contains key = true := contains_iff.mpr ⟨node, hnode⟩
  obtain ⟨chain, hchain⟩ := h.ascends hkey
  have hdepth := hchain.length_le_depth
  rw [lineage, lineageWithin_eq hchain hnode hdepth]
  cases hparent : node.parent with
  | none => rfl
  | some parent =>
      cases hchain with
      | top _ hnone =>
          exact absurd ((parent?_of_get? hnode).symm.trans hnone) (by simp [hparent])
      | up _ hsome hrest =>
          have hsame : node.parent = some _ := (parent?_of_get? hnode).symm.trans hsome
          obtain rfl := Option.some.inj (hparent.symm.trans hsame)
          rw [List.length_cons] at hdepth
          have hless : scene.lineageWithin (scene.depth - 1) parent = _ :=
            lineageWithin_of_le hrest (by omega)
          have hfull : scene.lineageWithin scene.depth parent = _ :=
            lineageWithin_of_le hrest (by omega)
          simp only [Option.elim_some, lineage, hless, hfull]

theorem lineage_of_not_contains (h : scene.contains key = false) : scene.lineage key = [] := by
  obtain ⟨hnone, -, -⟩ := not_contains h
  rw [lineage]
  cases scene.depth with
  | zero => rfl
  | succ bound => simp [lineageWithin, hnone]

/-- The ascent meets the chain of parents. -/
theorem Linked.ancestry_eq (h : scene.Linked) (hchain : scene.Ascends key chain) :
    scene.ancestry key = chain := by
  induction hchain with
  | @top key hkey hnone =>
      obtain ⟨node, hnode⟩ := contains_iff.mp hkey
      have hparent : node.parent = none := (parent?_of_get? hnode).symm.trans hnone
      simp [ancestry, h.lineage_eq hnode, hparent]
  | @up key parent chain hkey hsome _ ih =>
      obtain ⟨node, hnode⟩ := contains_iff.mp hkey
      have hparent : node.parent = some parent := (parent?_of_get? hnode).symm.trans hsome
      rw [← ih]
      simp [ancestry, h.lineage_eq hnode, hparent]

/-- A child has its parent and what is above that above it. -/
theorem Linked.ancestry_child (h : scene.Linked) (hmem : child ∈ scene.children parent) :
    scene.ancestry child = child :: scene.ancestry parent := by
  obtain ⟨hchild, hparent⟩ := h.of_mem_children hmem
  obtain ⟨chain, hchain⟩ := h.ascends (h.parent_contained hparent)
  rw [h.ancestry_eq hchain, h.ancestry_eq (.up hchild hparent hchain)]

theorem Linked.length_ancestry_le (h : scene.Linked) (hkey : scene.contains key = true) :
    (scene.ancestry key).length ≤ scene.depth := by
  obtain ⟨chain, hchain⟩ := h.ascends hkey
  rw [h.ancestry_eq hchain]
  exact hchain.length_le_depth

end SceneCulling.Scene
