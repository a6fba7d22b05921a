import SceneCulling.Proofs.Scene.Unfolding
import SceneCulling.Scene.Change

/-!
# Changes keep the forest

A node is added as a leaf, so no chain of parents changes. Removing a node removes exactly
the nodes below it: they are found along the children, and the parents agree. Every other
change leaves parents and children alone.
-/

namespace SceneCulling.Scene

variable {K : Type} [Scalar K] {scene : Scene K} {key child parent : NodeKey} {node : Node K}

/-! ## Changes in place -/

/-- Both scenes have the same nodes, with the same parents and children. -/
structure SameLinks (scene scene' : Scene K) : Prop where
  contains : ∀ key, scene'.contains key = scene.contains key
  parent? : ∀ key, scene'.parent? key = scene.parent? key
  children : ∀ key, scene'.children key = scene.children key

omit [Scalar K] in
theorem Linked.of_sameLinks {scene' : Scene K} (h : scene.Linked)
    (same : scene.SameLinks scene') : scene'.Linked := by
  constructor
  · intro key parent hparent
    rw [same.parent?] at hparent
    rw [same.contains]
    exact h.parent_contained hparent
  · intro child parent
    rw [same.children, same.contains, same.parent?]
    exact h.mem_children_iff
  · intro key
    rw [same.children]
    exact h.nodup_children key
  · intro key hkey
    rw [same.contains] at hkey
    obtain ⟨chain, hchain⟩ := h.ascends hkey
    exact ⟨chain, hchain.of_kept fun k hk => ⟨(same.contains k).trans hk, same.parent? k⟩⟩

omit [Scalar K] in
/-- A change that leaves parent and children of a node alone changes no links. -/
theorem sameLinks_modify (scene : Scene K) (key : NodeKey) {f : Node K → Node K}
    (hparent : ∀ node, (f node).parent = node.parent)
    (hchildren : ∀ node, (f node).children = node.children) :
    scene.SameLinks { scene with nodes := scene.nodes.modify key f } := by
  have hget : ∀ k, (scene.nodes.modify key f).get? k =
      (scene.nodes.get? k).map fun node => if k = key then f node else node := by
    intro k
    rw [KeyStore.get?_modify]
    by_cases hk : k = key
    · simp [hk]
    · cases scene.nodes.get? k <;> simp [hk]
  constructor <;> intro k
  · simp only [Scene.contains, KeyStore.contains, hget, Option.isSome_map]
  · simp only [Scene.parent?, hget]
    cases scene.nodes.get? k with
    | none => rfl
    | some node => by_cases hk : k = key <;> simp [hk, hparent]
  · simp only [Scene.children, hget]
    cases scene.nodes.get? k with
    | none => rfl
    | some node => by_cases hk : k = key <;> simp [hk, hchildren]

/-! ## A new node -/

section Attach

variable (hsound : scene.nodes.Sound)
include hsound

omit [Scalar K] in
theorem contains_issued (node : Node K) : scene.contains (scene.attach node).1 = false := by
  have hnone : scene.nodes.get? (scene.attach node).1 = none :=
    KeyStore.get?_issued hsound node
  simp [Scene.contains, KeyStore.contains, hnone]

omit [Scalar K] in
/-- The new node is found under its key, and its parent lists it last. -/
theorem get?_attach (hparent : ∀ p, node.parent = some p → scene.contains p = true)
    (k : NodeKey) : (scene.attach node).2.nodes.get? k =
      if k = (scene.attach node).1 then some node
      else (scene.nodes.get? k).map fun p =>
        if node.parent = some k then { p with children := p.children ++ [(scene.attach node).1] }
        else p := by
  have hnew := contains_issued hsound node
  have hinsert : (scene.nodes.insert node).2.get? k =
      if k = (scene.attach node).1 then some node else scene.nodes.get? k :=
    KeyStore.get?_insert hsound node k
  cases hp : node.parent with
  | none =>
      have hnodes : (scene.attach node).2.nodes = (scene.nodes.insert node).2 := by
        simp [attach, hp]
      rw [hnodes, hinsert]
      simp
  | some p =>
      have hnodes : (scene.attach node).2.nodes = (scene.nodes.insert node).2.modify p
          fun q => { q with children := q.children ++ [(scene.attach node).1] } := by
        simp [attach, hp]
      have hne : p ≠ (scene.attach node).1 := by
        rintro rfl
        exact absurd ((hparent _ hp).symm.trans hnew) (by decide)
      rw [hnodes, KeyStore.get?_modify]
      by_cases hk : k = p
      · subst hk
        rw [if_pos rfl, hinsert, if_neg hne, if_neg hne]
        simp
      · rw [if_neg hk, hinsert]
        have hother : ¬ some p = some k := fun h => hk (Option.some.inj h).symm
        simp [hother]

omit [Scalar K] in
theorem contains_attach (hparent : ∀ p, node.parent = some p → scene.contains p = true)
    (k : NodeKey) : (scene.attach node).2.contains k = true ↔
      k = (scene.attach node).1 ∨ scene.contains k = true := by
  simp only [Scene.contains, KeyStore.contains, get?_attach hsound hparent]
  by_cases hk : k = (scene.attach node).1 <;> simp [hk]

omit [Scalar K] in
theorem parent?_attach (hparent : ∀ p, node.parent = some p → scene.contains p = true)
    (k : NodeKey) : (scene.attach node).2.parent? k =
      if k = (scene.attach node).1 then node.parent else scene.parent? k := by
  simp only [Scene.parent?, get?_attach hsound hparent]
  by_cases hk : k = (scene.attach node).1
  · simp [hk]
  · cases scene.nodes.get? k with
    | none => simp [hk]
    | some p => by_cases hp : node.parent = some k <;> simp [hk, hp]

omit [Scalar K] in
theorem children_attach (hparent : ∀ p, node.parent = some p → scene.contains p = true)
    (hleaf : node.children = []) (k : NodeKey) : (scene.attach node).2.children k =
      if node.parent = some k then scene.children k ++ [(scene.attach node).1]
      else scene.children k := by
  have hnew := contains_issued hsound node
  simp only [Scene.children, get?_attach hsound hparent]
  by_cases hk : k = (scene.attach node).1
  · have hnot : node.parent ≠ some k := by
      rw [hk]
      intro hp
      exact absurd ((hparent _ hp).symm.trans hnew) (by decide)
    have hnone : scene.nodes.get? k = none := hk ▸ (not_contains hnew).1
    simp [hnot, hleaf, hnone, ← hk]
  · by_cases hp : node.parent = some k
    · obtain ⟨p, hget⟩ := contains_iff.mp (hparent _ hp)
      simp [hk, hp, hget]
    · cases scene.nodes.get? k <;> simp [hk, hp]

omit [Scalar K] in
/-- The chains of the old nodes are as before. -/
theorem ascends_attach (hparent : ∀ p, node.parent = some p → scene.contains p = true)
    {key : NodeKey} {chain : List NodeKey} (hchain : scene.Ascends key chain) :
    (scene.attach node).2.Ascends key chain := by
  refine hchain.of_kept fun k hk => ⟨?_, ?_⟩
  · exact (contains_attach hsound hparent k).mpr (.inr hk)
  · rw [parent?_attach hsound hparent, if_neg]
    intro hsame
    rw [hsame, contains_issued hsound node] at hk
    cases hk

omit [Scalar K] in
theorem linked_attach (h : scene.Linked)
    (hparent : ∀ p, node.parent = some p → scene.contains p = true)
    (hleaf : node.children = []) : (scene.attach node).2.Linked := by
  have hnew := contains_issued hsound node
  have hcontains := contains_attach hsound hparent
  have hparent? := parent?_attach hsound hparent
  have hchildren := children_attach hsound hparent hleaf
  have hold : ∀ {k}, scene.contains k = true → k ≠ (scene.attach node).1 := by
    rintro k hk rfl
    exact absurd (hk.symm.trans hnew) (by decide)
  constructor
  · intro key parent hp
    rw [hparent?] at hp
    rw [hcontains]
    by_cases hk : key = (scene.attach node).1
    · rw [if_pos hk] at hp
      exact .inr (hparent _ hp)
    · rw [if_neg hk] at hp
      exact .inr (h.parent_contained hp)
  · intro child parent
    rw [hchildren, hcontains, hparent?]
    by_cases hk : child = (scene.attach node).1
    · have hnot : child ∉ scene.children parent := fun hmem =>
        hold (h.of_mem_children hmem).1 hk
      by_cases hp : node.parent = some parent <;> simp [hk, hp, hk ▸ hnot]
    · by_cases hp : node.parent = some parent <;> simp [hk, hp, h.mem_children_iff]
  · intro key
    rw [hchildren]
    by_cases hp : node.parent = some key
    · rw [if_pos hp]
      refine List.nodup_append.mpr ⟨h.nodup_children key, List.nodup_singleton _, ?_⟩
      rintro c hc _ hmem rfl
      exact hold (h.of_mem_children hc).1 (List.mem_singleton.mp hmem)
    · rw [if_neg hp]
      exact h.nodup_children key
  · intro key hkey
    rcases (hcontains key).mp hkey with rfl | hkey'
    · have hself := hparent? (scene.attach node).1
      rw [if_pos rfl] at hself
      cases hp : node.parent with
      | none => exact ⟨_, .top hkey (hself.trans hp)⟩
      | some p =>
          obtain ⟨chain, hchain⟩ := h.ascends (hparent _ hp)
          exact ⟨_, .up hkey (hself.trans hp) (ascends_attach hsound hparent hchain)⟩
    · obtain ⟨chain, hchain⟩ := h.ascends hkey'
      exact ⟨chain, ascends_attach hsound hparent hchain⟩

end Attach

/-! ## Removing nodes -/

omit [Scalar K] in
/-- A detached node is no longer listed by its parent. -/
theorem get?_detach (scene : Scene K) (key k : NodeKey) :
    (scene.detach key).nodes.get? k = (scene.nodes.get? k).map fun p =>
      if scene.parent? key = some k then { p with children := p.children.filter (· != key) }
      else p := by
  rw [detach]
  split
  · next p hp =>
      rw [KeyStore.get?_modify, hp]
      by_cases hk : k = p
      · subst hk
        simp
      · have hother : ¬ some p = some k := fun h => hk (Option.some.inj h).symm
        simp [hk, hother]
  · next hp => simp [hp]

omit [Scalar K] in
theorem stages_detach (scene : Scene K) (key : NodeKey) :
    (scene.detach key).stages = scene.stages := by
  rw [detach]
  split <;> rfl

omit [Scalar K] in
theorem sound_detach (h : scene.nodes.Sound) (key : NodeKey) :
    (scene.detach key).nodes.Sound := by
  rw [detach]
  split
  · exact h.modify _ _
  · exact h

omit [Scalar K] in
theorem get?_dropAll (keys : List NodeKey) (scene : Scene K) (k : NodeKey) :
    (keys.foldl drop scene).nodes.get? k = if k ∈ keys then none else scene.nodes.get? k := by
  induction keys generalizing scene with
  | nil => simp
  | cons key keys ih =>
      rw [List.foldl_cons, ih]
      have hdrop : (scene.drop key).nodes.get? k =
          if k = key then none else scene.nodes.get? k := KeyStore.get?_erase _ _ _
      rw [hdrop]
      by_cases hk : k = key <;> by_cases hmem : k ∈ keys <;> simp [hk, hmem]

omit [Scalar K] in
theorem sound_dropAll (keys : List NodeKey) (h : scene.nodes.Sound) :
    (keys.foldl drop scene).nodes.Sound := by
  induction keys generalizing scene with
  | nil => exact h
  | cons key keys ih => exact ih (h.erase key)

omit [Scalar K] in
/-- With a node the stage on it goes. -/
theorem stages_dropAll (keys : List NodeKey) (scene : Scene K) :
    (keys.foldl drop scene).stages = scene.stages.filter fun entry => entry.1 ∉ keys := by
  induction keys generalizing scene with
  | nil => simp
  | cons key keys ih =>
      rw [List.foldl_cons, ih]
      change (scene.stages.filter (·.1 != key)).filter _ = _
      rw [List.filter_filter]
      refine List.filter_congr fun entry _ => ?_
      by_cases hk : entry.1 = key <;> simp [hk]

/-- The order of removal holds the nodes of the outline. -/
theorem reversePreorder_perm {α : Type} (o : Outline α) :
    o.reversePreorder.Perm o.preorder := by
  induction o with
  | nil => exact .refl _
  | node a below next ihb ihn =>
      have hparts : (next.reversePreorder ++ a :: below.reversePreorder).Perm
          (next.preorder ++ a :: below.preorder) := ihn.append (ihb.cons a)
      exact hparts.trans List.perm_append_comm

theorem mem_reversePreorder {α : Type} {o : Outline α} {a : α} :
    a ∈ o.reversePreorder ↔ a ∈ o.preorder := (reversePreorder_perm o).mem_iff

/-- Removing takes the nodes under a key, and takes the key from the list of its parent. -/
theorem get?_removeNode (hkey : scene.contains key = true) (k : NodeKey) :
    (removeNode key scene).2.nodes.get? k =
      if k ∈ (scene.hierarchy.outline key).preorder then none
      else (scene.nodes.get? k).map fun p =>
        if scene.parent? key = some k then { p with children := p.children.filter (· != key) }
        else p := by
  simp only [removeNode, hkey, if_true]
  rw [get?_dropAll, get?_detach]
  simp only [mem_reversePreorder]

/-- Removing takes the stages on the nodes under a key. -/
theorem stages_removeNode (hkey : scene.contains key = true) :
    (removeNode key scene).2.stages = scene.stages.filter
      fun entry => entry.1 ∉ (scene.hierarchy.outline key).preorder := by
  simp only [removeNode, hkey, if_true]
  rw [stages_dropAll, stages_detach]
  simp only [mem_reversePreorder]

theorem removeNode_of_not_contains (hkey : scene.contains key = false) :
    (removeNode key scene).2 = scene := by
  simp [removeNode, hkey]

section Remove

variable (h : scene.Linked) (hkey : scene.contains key = true)
include h hkey

/-- The removed nodes are closed upward as far as the removed key, and downward. -/
private theorem mem_outline_iff (hparent : scene.parent? child = some parent) :
    child ∈ (scene.hierarchy.outline key).preorder ↔
      child = key ∨ parent ∈ (scene.hierarchy.outline key).preorder := by
  have hu := h.unfolds_outline key
  constructor
  · intro hmem
    rcases hu.mem_cases hmem with hroot | ⟨p, hp, hchild⟩
    · exact .inl (List.mem_singleton.mp hroot)
    · obtain ⟨-, hparent'⟩ := h.of_mem_children hchild
      obtain rfl := Option.some.inj (hparent.symm.trans hparent')
      exact .inr hp
  · rintro (rfl | hmem)
    · exact hu.mem_roots (List.mem_singleton.mpr rfl)
    · exact hu.mem_children hmem
        (h.mem_children_iff.mpr ⟨contains_of_parent? hparent, hparent⟩)

omit h in
theorem contains_removeNode (k : NodeKey) : (removeNode key scene).2.contains k = true ↔
    scene.contains k = true ∧ k ∉ (scene.hierarchy.outline key).preorder := by
  simp only [Scene.contains, KeyStore.contains, get?_removeNode hkey]
  by_cases hmem : k ∈ (scene.hierarchy.outline key).preorder <;> simp [hmem]

omit h in
theorem parent?_removeNode {k : NodeKey} (hk : k ∉ (scene.hierarchy.outline key).preorder) :
    (removeNode key scene).2.parent? k = scene.parent? k := by
  have hget := get?_removeNode hkey k
  rw [if_neg hk] at hget
  cases hnode : scene.nodes.get? k with
  | none =>
      rw [hnode, Option.map_none] at hget
      simp [Scene.parent?, hget, hnode]
  | some p =>
      rw [hnode, Option.map_some] at hget
      rw [parent?_of_get? hget, parent?_of_get? hnode]
      split <;> rfl

/-- Only the parent of the removed key had to forget a child. -/
theorem children_removeNode {k : NodeKey} (hk : k ∉ (scene.hierarchy.outline key).preorder) :
    (removeNode key scene).2.children k = (scene.children k).filter (· != key) := by
  have hget := get?_removeNode hkey k
  rw [if_neg hk] at hget
  cases hnode : scene.nodes.get? k with
  | none =>
      rw [hnode, Option.map_none] at hget
      simp [Scene.children, hget, hnode]
  | some p =>
      rw [hnode, Option.map_some] at hget
      rw [children_of_get? hget, children_of_get? hnode]
      by_cases hp : scene.parent? key = some k
      · rw [if_pos hp]
      · rw [if_neg hp, eq_comm, List.filter_eq_self]
        intro c hc
        rw [← children_of_get? hnode] at hc
        have hne : c ≠ key := by
          rintro rfl
          exact hp (h.of_mem_children hc).2
        simpa using hne

/-- Removing a node keeps the chains of all nodes that stay. -/
theorem ascends_removeNode {k : NodeKey} {chain : List NodeKey}
    (hchain : scene.Ascends k chain) (hk : k ∉ (scene.hierarchy.outline key).preorder) :
    (removeNode key scene).2.Ascends k chain := by
  induction hchain with
  | @top k hcontains hnone =>
      exact .top ((contains_removeNode hkey k).mpr ⟨hcontains, hk⟩)
        ((parent?_removeNode hkey hk).trans hnone)
  | @up k parent chain hcontains hsome _ ih =>
      exact .up ((contains_removeNode hkey k).mpr ⟨hcontains, hk⟩)
        ((parent?_removeNode hkey hk).trans hsome)
        (ih fun hmem => hk ((mem_outline_iff h hkey hsome).mpr (.inr hmem)))

private theorem mem_children_removeNode_iff :
    child ∈ (removeNode key scene).2.children parent ↔
      (removeNode key scene).2.contains child = true ∧
        (removeNode key scene).2.parent? child = some parent := by
  have hcontains := contains_removeNode hkey
  by_cases hp : parent ∈ (scene.hierarchy.outline key).preorder
  · have hgone : (removeNode key scene).2.children parent = [] := by
      have hget := get?_removeNode hkey parent
      rw [if_pos hp] at hget
      simp [Scene.children, hget]
    rw [hgone]
    refine iff_of_false List.not_mem_nil ?_
    rintro ⟨hchild, hparent⟩
    have hk := ((hcontains child).mp hchild).2
    rw [parent?_removeNode hkey hk] at hparent
    exact hk ((mem_outline_iff h hkey hparent).mpr (.inr hp))
  · rw [children_removeNode h hkey hp, List.mem_filter, h.mem_children_iff, hcontains]
    constructor
    · rintro ⟨⟨hchild, hparent⟩, hne⟩
      have hk : child ∉ (scene.hierarchy.outline key).preorder := by
        rw [mem_outline_iff h hkey hparent]
        rintro (rfl | hmem)
        · simp at hne
        · exact hp hmem
      exact ⟨⟨hchild, hk⟩, (parent?_removeNode hkey hk).trans hparent⟩
    · rintro ⟨⟨hchild, hk⟩, hparent⟩
      rw [parent?_removeNode hkey hk] at hparent
      have hne : child ≠ key := fun heq =>
        hk ((mem_outline_iff h hkey hparent).mpr (.inl heq))
      exact ⟨⟨hchild, hparent⟩, by simpa using hne⟩

theorem linked_removeNode : (removeNode key scene).2.Linked := by
  refine ⟨fun {k parent} hparent => ?_, mem_children_removeNode_iff h hkey, fun k => ?_,
    fun {k} hcontains => ?_⟩
  · obtain ⟨-, hk⟩ := (contains_removeNode hkey k).mp (contains_of_parent? hparent)
    rw [parent?_removeNode hkey hk] at hparent
    refine (contains_removeNode hkey parent).mpr ⟨h.parent_contained hparent, fun hmem => ?_⟩
    exact hk ((mem_outline_iff h hkey hparent).mpr (.inr hmem))
  · by_cases hk : k ∈ (scene.hierarchy.outline key).preorder
    · have hget := get?_removeNode hkey k
      rw [if_pos hk] at hget
      simp [Scene.children, hget]
    · rw [children_removeNode h hkey hk]
      exact (h.nodup_children k).filter _
  · obtain ⟨hcontains, hk⟩ := (contains_removeNode hkey k).mp hcontains
    obtain ⟨chain, hchain⟩ := h.ascends hcontains
    exact ⟨chain, ascends_removeNode h hkey hchain hk⟩

end Remove

end SceneCulling.Scene
