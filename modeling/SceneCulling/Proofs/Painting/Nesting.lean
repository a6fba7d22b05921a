import SceneCulling.Proofs.Painting.Measure
import SceneCulling.Proofs.Painting.OwnVolume
import SceneCulling.Scene.Placement
import SceneCulling.Proofs.Volume.Region

/-!
# Subtree volumes are nested

In exact arithmetic, taking in a child keeps what the volume bounds and adds what the moved
child bounds. So the subtree volume of a node bounds the node's own volume and the subtree
volumes of its children, each moved to the space of the node, and if it exists then theirs
exist as well. By composition of the transforms, all of this holds in eye space too.
-/

namespace SceneCulling.Hierarchy

variable {tree : Hierarchy Rat} {root node child : NodeKey} {own below v : Volume Rat}
  {m : Mat4 Rat}

/-- What a host program owes to exact culling under a root. The transforms of its nodes are
affine and fit together, its effects are public, and the trees under its nodes are finite
and not cut off. -/
structure Coherent (tree : Hierarchy Rat) (root : NodeKey) : Prop where
  unfolds : ∀ node, Outline.Unfolds tree.children (tree.children node) (tree.below node)
  toRoot : ∀ node ∈ (tree.outline root).preorder,
    ∃ m, tree.modelview? node root = some m ∧ m.IsAffine
  toParent : ∀ node ∈ (tree.outline root).preorder, ∀ child ∈ tree.children node,
    ∃ m, tree.modelview? child node = some m ∧ m.IsAffine
  compose : ∀ node ∈ (tree.outline root).preorder, ∀ child ∈ tree.children node,
    ∀ {m toRoot toRoot' : Mat4 Rat}, tree.modelview? child node = some m →
      tree.modelview? node root = some toRoot → tree.modelview? child root = some toRoot' →
      ∀ p, toRoot'.applyPoint p = toRoot.applyPoint (m.applyPoint p)
  effects : ∀ node ∈ (tree.outline root).preorder, ∀ effect ∈ tree.effects node,
    effect.IsPublic

theorem Coherent.unfolds_outline (h : tree.Coherent root) :
    Outline.Unfolds tree.children [root] (tree.outline root) :=
  .node (h.unfolds root) .nil

/-! ## One child -/

/-- A volume in the space of a node. -/
structure InSpace (node : NodeKey) (v : Volume Rat) : Prop where
  reachable : v.Reachable
  reference_eq : v.reference = some node

/-- Taking in a child keeps what was bounded and adds what the child bounds. -/
theorem joined_spec (hown : InSpace node own) (hbelow : InSpace child below)
    (hm : tree.modelview? child node = some m) (haffine : m.IsAffine)
    (h : tree.joined node (some own) (some below) = some v) :
    InSpace node v ∧ (∀ p, own.Contains p → v.Contains p) ∧
      ∀ p, below.Contains p → v.Contains (m.applyPoint p) := by
  cases he : below.flags.empty with
  | true =>
      obtain rfl : own = v := by simpa [joined_of_empty he] using h
      exact ⟨hown, fun _ hp => hp, fun _ hp => absurd (he.symm.trans hp.1) (by decide)⟩
  | false =>
      let moved := (below.transform m).withReference (some node)
      have hmoved : moved.Reachable := .withReference _ (.transform m hbelow.reachable)
      rw [joined_of_moved (perform_takeTo hbelow.reference_eq hm) he hmoved.flagsSound] at h
      split at h
      · next ha =>
          obtain rfl := Option.some.inj h
          have hregion : ∀ p, own.Contains p ∨ moved.Contains p → (own.merged moved).Contains p :=
            fun _ => Volume.contains_merged hown.reachable ha hmoved
          have hreference : (own.merged moved).reference = some node :=
            (Volume.reference_merged own moved).trans hown.reference_eq
          refine ⟨⟨hown.reachable.merged ha hmoved, hreference⟩, fun p hp => hregion p (.inl hp),
            fun p hp => hregion _ (.inr ?_)⟩
          exact (hp.transform haffine).withReference _
      · cases h

theorem joined_eq_some {acc volume : Option (Volume Rat)}
    (h : tree.joined node acc volume = some v) :
    ∃ own below, acc = some own ∧ volume = some below := by
  cases acc with
  | none => simp [joined] at h
  | some own =>
      cases volume with
      | none => simp [joined] at h
      | some below => exact ⟨own, below, rfl, rfl⟩

/-! ## All children -/

theorem startVolume_inSpace (hpublic : ∀ effect ∈ tree.effects node, effect.IsPublic)
    (h : tree.startVolume node = some v) : InSpace node v := by
  rw [startVolume] at h
  cases hown : (tree.ownVolume node).value with
  | some own =>
      rw [hown] at h
      obtain rfl := Option.some.inj h
      obtain ⟨hreachable, hreference⟩ := ownVolume_reachable hpublic hown
      exact ⟨hreachable, hreference⟩
  | none =>
      rw [hown] at h
      simp only at h
      split at h
      · cases h
      · obtain rfl := Option.some.inj h
        exact ⟨.new _, rfl⟩

/-- What a node has after its children are taken in: the volume before, and the subtree
volumes of the children in the space of the node. -/
structure Gathers (tree : Hierarchy Rat) (node : NodeKey) (roots : List NodeKey)
    (own v : Volume Rat) : Prop extends InSpace node v where
  kept : ∀ p, own.Contains p → v.Contains p
  taken : ∀ child ∈ roots, ∀ m, tree.modelview? child node = some m →
    ∃ below, tree.subtreeVolume child = some below ∧
      ∀ p, below.Contains p → v.Contains (m.applyPoint p)

/-- By induction on the trees below a node: the children come first, then each is taken
in. -/
theorem Coherent.gathered (h : tree.Coherent root) {roots : List NodeKey}
    {o : Outline NodeKey} (hu : Outline.Unfolds tree.children roots o)
    (hnode : node ∈ (tree.outline root).preorder) (hroots : ∀ c ∈ roots, c ∈ tree.children node)
    (hown : InSpace node own) (hgathered : tree.gathered node o (some own) = some v) :
    Gathers tree node roots own v := by
  induction hu generalizing node own v with
  | nil =>
      obtain rfl := Option.some.inj hgathered
      exact ⟨hown, fun _ hp => hp, fun _ hc => absurd hc List.not_mem_nil⟩
  | @node child roots below next hbelow _ ihb ihn =>
      have hmem := hroots child List.mem_cons_self
      have hchild := h.unfolds_outline.mem_children hnode hmem
      obtain ⟨m, hm, haffine⟩ := h.toParent node hnode child hmem
      have hvolume : tree.gathered child below (tree.startVolume child) =
          tree.subtreeVolume child := by
        rw [subtreeVolume, hbelow.unique (h.unfolds child)]
      change tree.gathered node next (tree.joined node (some own)
        (tree.gathered child below (tree.startVolume child))) = some v at hgathered
      cases hjoined : tree.joined node (some own)
          (tree.gathered child below (tree.startVolume child)) with
      | none =>
          rw [hjoined, gathered_none] at hgathered
          cases hgathered
      | some u =>
          rw [hjoined] at hgathered
          obtain ⟨_, inner, hsame, hinner⟩ := joined_eq_some hjoined
          obtain rfl := Option.some.inj hsame
          rw [hinner] at hjoined
          have hspace : InSpace child inner := by
            cases hstart : tree.startVolume child with
            | none =>
                rw [hstart, gathered_none] at hinner
                cases hinner
            | some start =>
                rw [hstart] at hinner
                exact (ihb hchild (fun _ hc => hc)
                  (startVolume_inSpace (h.effects child hchild) hstart) hinner).toInSpace
          obtain ⟨hu, hkept, htaken⟩ := joined_spec hown hspace hm haffine hjoined
          have hrest := ihn hnode (fun c hc => hroots c (List.mem_cons_of_mem _ hc)) hu hgathered
          refine ⟨hrest.toInSpace, fun p hp => hrest.kept p (hkept p hp), fun c hc m' hm' => ?_⟩
          cases hc with
          | head =>
              obtain rfl := Option.some.inj (hm.symm.trans hm')
              exact ⟨inner, hvolume.symm.trans hinner, fun p hp => hrest.kept _ (htaken p hp)⟩
          | tail _ hc => exact hrest.taken c hc m' hm'

/-! ## Nesting -/

section Nesting

variable (h : tree.Coherent root) (hnode : node ∈ (tree.outline root).preorder)
include h hnode

/-- The subtree volume of a node gathers those of its children, from the node's start. -/
theorem Coherent.subtreeVolume (hv : tree.subtreeVolume node = some v) :
    ∃ start, tree.startVolume node = some start ∧
      Gathers tree node (tree.children node) start v := by
  cases hstart : tree.startVolume node with
  | none =>
      rw [Hierarchy.subtreeVolume, hstart, gathered_none] at hv
      cases hv
  | some start =>
      rw [Hierarchy.subtreeVolume, hstart] at hv
      exact ⟨start, rfl, h.gathered (h.unfolds node) hnode (fun _ hc => hc)
        (startVolume_inSpace (h.effects node hnode) hstart) hv⟩

/-- A child of a bounded node is bounded, within the volume of the node. -/
theorem Coherent.child_nested (hv : tree.subtreeVolume node = some v)
    (hchild : child ∈ tree.children node) {toRoot toRoot' : Mat4 Rat}
    (hroot : tree.modelview? node root = some toRoot)
    (hroot' : tree.modelview? child root = some toRoot') :
    ∃ below, tree.subtreeVolume child = some below ∧
      ∀ p, below.Contains p → ∃ q, v.Contains q ∧ toRoot'.applyPoint p = toRoot.applyPoint q := by
  obtain ⟨start, -, hgathers⟩ := h.subtreeVolume hnode hv
  obtain ⟨m, hm, -⟩ := h.toParent node hnode child hchild
  obtain ⟨below, hbelow, hregion⟩ := hgathers.taken child hchild m hm
  refine ⟨below, hbelow, fun p hp => ⟨m.applyPoint p, hregion p hp, ?_⟩⟩
  exact h.compose node hnode child hchild hm hroot hroot' p

/-- The own volume of a bounded node is within its subtree volume. -/
theorem Coherent.own_nested (hown : (tree.ownVolume node).value = some own) {p : Vec3 Rat}
    (hp : own.Contains p) (hv : tree.subtreeVolume node = some v) : v.Contains p := by
  obtain ⟨start, hstart, hgathers⟩ := h.subtreeVolume hnode hv
  have hsame : tree.startVolume node = some own := by simp [startVolume, hown]
  obtain rfl := Option.some.inj (hstart.symm.trans hsame)
  exact hgathers.kept p hp

end Nesting

end SceneCulling.Hierarchy
