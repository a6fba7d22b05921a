import Mathlib.Logic.Relation
import SceneCulling.Proofs.Scene.Forest

/-!
# Outlines hold whole trees

A scene unfolds the tree under a node down to a number of levels that is given by the
store. In a forest this is enough: every node below a key is in its outline, once. The
outline is therefore the recursion of a traversal over the children, and its preorder is
what a loop over a stack of pending nodes visits.
-/

namespace SceneCulling

namespace Outline

variable {α : Type} {children : α → List α} {roots : List α} {o : Outline α} {a c : α}

/-- The outline holds the trees on some roots completely, so these trees are finite. -/
inductive Unfolds (children : α → List α) : List α → Outline α → Prop where
  | nil : Unfolds children [] .nil
  | node {a : α} {as : List α} {below next : Outline α} :
      Unfolds children (children a) below → Unfolds children as next →
      Unfolds children (a :: as) (.node a below next)

/-- A loop takes the next pending node, visits it, and puts its children in front of the
other pending nodes. It ends after visiting these nodes in this order. -/
inductive Visits (children : α → List α) : List α → List α → Prop where
  | done : Visits children [] []
  | next {a : α} {pending order : List α} :
      Visits children (children a ++ pending) order → Visits children (a :: pending) (a :: order)

/-- The nodes of the chain are below the first, each a child of the one before. -/
def Descends (children : α → List α) (a : α) (chain : List α) : Prop :=
  List.IsChain (fun b c => c ∈ children b) (a :: chain)

/-- The second node is the first one or below it, in any number of generations. -/
def Under (children : α → List α) : α → α → Prop :=
  Relation.ReflTransGen fun p c => c ∈ children p

theorem Descends.cons (hc : c ∈ children a) {chain : List α} (h : Descends children c chain) :
    Descends children a (c :: chain) := List.IsChain.cons_cons hc h

theorem mem_preorder {b : α} {below next : Outline α} :
    a ∈ (Outline.node b below next).preorder ↔ a = b ∨ a ∈ below.preorder ∨ a ∈ next.preorder := by
  simp [preorder]

/-- In an outline without repetitions a node, what is below it and what is beside it are
apart. -/
theorem nodup_preorder_node {below next : Outline α} :
    (Outline.node a below next).preorder.Nodup ↔ (a ∉ below.preorder ∧ a ∉ next.preorder) ∧
      below.preorder.Nodup ∧ next.preorder.Nodup ∧
      ∀ x ∈ below.preorder, x ∉ next.preorder := by
  rw [preorder, List.nodup_cons, List.mem_append, not_or, List.nodup_append']
  rfl

/-- As many levels as the longest chain has nodes are enough to unfold the trees. -/
theorem unfolds_unfold {levels : Nat}
    (h : ∀ a ∈ roots, ∀ chain, Descends children a chain → chain.length < levels) :
    Unfolds children roots (unfold children levels roots) := by
  induction levels generalizing roots with
  | zero =>
      cases roots with
      | nil => exact .nil
      | cons a as => exact absurd (h a List.mem_cons_self [] (.singleton a)) (by simp)
  | succ levels ihl =>
      induction roots with
      | nil => exact .nil
      | cons a as iha =>
          refine .node (ihl fun c hc chain hchain => ?_)
            (iha fun b hb => h b (List.mem_cons_of_mem _ hb))
          have hlonger := h a List.mem_cons_self (c :: chain) (hchain.cons hc)
          rw [List.length_cons] at hlonger
          omega

namespace Unfolds

/-- Some roots have one outline. -/
theorem unique {o' : Outline α} (h : Unfolds children roots o)
    (h' : Unfolds children roots o') : o = o' := by
  induction h generalizing o' with
  | nil =>
      cases h'
      rfl
  | node _ _ ihb ihn =>
      cases h' with
      | node hbelow hnext => rw [ihb hbelow, ihn hnext]

theorem mem_roots (h : Unfolds children roots o) (ha : a ∈ roots) : a ∈ o.preorder := by
  induction h with
  | nil => exact ha
  | node _ _ _ ihn =>
      cases ha with
      | head => exact mem_preorder.mpr (.inl rfl)
      | tail _ ha => exact mem_preorder.mpr (.inr (.inr (ihn ha)))

/-- With a node all its children are in the outline. -/
theorem mem_children (h : Unfolds children roots o) (ha : a ∈ o.preorder)
    (hc : c ∈ children a) : c ∈ o.preorder := by
  induction h with
  | nil => exact absurd ha List.not_mem_nil
  | @node b as below next hbelow _ ihb ihn =>
      refine mem_preorder.mpr (.inr ?_)
      rcases mem_preorder.mp ha with rfl | ha | ha
      · exact .inl (hbelow.mem_roots hc)
      · exact .inl (ihb ha)
      · exact .inr (ihn ha)

/-- Every node of the outline is a root, or a child of one of its nodes. -/
theorem mem_cases (h : Unfolds children roots o) (ha : a ∈ o.preorder) :
    a ∈ roots ∨ ∃ p ∈ o.preorder, a ∈ children p := by
  induction h with
  | nil => exact absurd ha List.not_mem_nil
  | @node b as below next _ _ ihb ihn =>
      rcases mem_preorder.mp ha with rfl | ha | ha
      · exact .inl List.mem_cons_self
      · rcases ihb ha with hroot | ⟨p, hp, hchild⟩
        · exact .inr ⟨b, mem_preorder.mpr (.inl rfl), hroot⟩
        · exact .inr ⟨p, mem_preorder.mpr (.inr (.inl hp)), hchild⟩
      · rcases ihn ha with hroot | ⟨p, hp, hchild⟩
        · exact .inl (List.mem_cons_of_mem _ hroot)
        · exact .inr ⟨p, mem_preorder.mpr (.inr (.inr hp)), hchild⟩

/-- What holds of the roots and passes from a node to its children holds of all nodes. -/
theorem of_step {P : α → Prop} (h : Unfolds children roots o) (hroots : ∀ a ∈ roots, P a)
    (step : ∀ a c, P a → c ∈ children a → P c) : ∀ a ∈ o.preorder, P a := by
  induction h with
  | nil => exact hroots
  | @node b as below next _ _ ihb ihn =>
      have hb := hroots b List.mem_cons_self
      intro a ha
      rcases mem_preorder.mp ha with rfl | ha | ha
      · exact hb
      · exact ihb (fun c hc => step b c hb hc) a ha
      · exact ihn (fun c hc => hroots c (List.mem_cons_of_mem _ hc)) a ha

/-- What passes from the children of a node to the node holds of all nodes. -/
theorem of_children {P : α → Prop} (h : Unfolds children roots o)
    (step : ∀ a ∈ o.preorder, (∀ c ∈ children a, P c) → P a) : ∀ a ∈ o.preorder, P a := by
  induction h with
  | nil => exact fun a ha => absurd ha List.not_mem_nil
  | @node b as below next hbelow _ ihb ihn =>
      have hinner := ihb fun a ha => step a (mem_preorder.mpr (.inr (.inl ha)))
      have hnext := ihn fun a ha => step a (mem_preorder.mpr (.inr (.inr ha)))
      intro a ha
      rcases mem_preorder.mp ha with rfl | ha | ha
      · exact step a List.mem_cons_self fun c hc => hinner c (hbelow.mem_roots hc)
      · exact hinner a ha
      · exact hnext a ha

/-- The nodes of the outline are those under its roots. -/
theorem mem_preorder_iff_under (h : Unfolds children roots o) :
    c ∈ o.preorder ↔ ∃ a ∈ roots, Under children a c := by
  constructor
  · refine h.of_step (P := fun b => ∃ a ∈ roots, Under children a b)
      (fun a ha => ⟨a, ha, .refl⟩) (fun b c hb hc => ?_) c
    obtain ⟨a, ha, hunder⟩ := hb
    exact ⟨a, ha, .tail hunder hc⟩
  · rintro ⟨a, ha, hunder⟩
    induction hunder with
    | refl => exact h.mem_roots ha
    | tail _ hc ih => exact h.mem_children ih hc

/-- A child is below the first node with its parent, or beside it with its parent. -/
theorem child_cases {b : α} {as : List α} {below next : Outline α}
    (hbelow : Unfolds children (children b) below) (hnext : Unfolds children as next)
    (ha : a ∈ (Outline.node b below next).preorder) (hc : c ∈ children a) :
    c ∈ below.preorder ∧ (a = b ∨ a ∈ below.preorder) ∨
      c ∈ next.preorder ∧ a ∈ next.preorder := by
  rcases mem_preorder.mp ha with rfl | haBelow | haNext
  · exact .inl ⟨hbelow.mem_roots hc, .inl rfl⟩
  · exact .inl ⟨hbelow.mem_children haBelow hc, .inr haBelow⟩
  · exact .inr ⟨hnext.mem_children haNext hc, haNext⟩

/-- A root is no child in an outline without repetitions. -/
theorem not_mem_children_of_root (h : Unfolds children roots o) (hnodup : o.preorder.Nodup)
    (hc : c ∈ roots) (ha : a ∈ o.preorder) : c ∉ children a := by
  induction h with
  | nil => exact absurd hc List.not_mem_nil
  | @node b as below next hbelow hnext _ ihn =>
      obtain ⟨⟨hnotBelow, hnotNext⟩, -, hnodupNext, hapart⟩ := nodup_preorder_node.mp hnodup
      intro hchild
      rcases hbelow.child_cases hnext ha hchild with ⟨hcBelow, -⟩ | ⟨hcNext, haNext⟩
      · cases hc with
        | head => exact hnotBelow hcBelow
        | tail _ hc => exact hapart c hcBelow (hnext.mem_roots hc)
      · cases hc with
        | head => exact hnotNext hcNext
        | tail _ hc => exact ihn hnodupNext hc haNext hchild

/-- A node of an outline without repetitions is the child of one node at most. -/
theorem parent_unique (h : Unfolds children roots o) (hnodup : o.preorder.Nodup) {p q : α}
    (hp : p ∈ o.preorder) (hcp : c ∈ children p) (hq : q ∈ o.preorder) (hcq : c ∈ children q) :
    p = q := by
  induction h with
  | nil => exact absurd hp List.not_mem_nil
  | @node b as below next hbelow hnext ihb ihn =>
      obtain ⟨-, hnodupBelow, hnodupNext, hapart⟩ := nodup_preorder_node.mp hnodup
      rcases hbelow.child_cases hnext hp hcp with ⟨hcBelow, hpHere⟩ | ⟨hcNext, hpNext⟩ <;>
        rcases hbelow.child_cases hnext hq hcq with ⟨hcBelow', hqHere⟩ | ⟨hcNext', hqNext⟩
      · rcases hpHere with rfl | hpBelow <;> rcases hqHere with rfl | hqBelow
        · rfl
        · exact absurd hcq (hbelow.not_mem_children_of_root hnodupBelow hcp hqBelow)
        · exact absurd hcp (hbelow.not_mem_children_of_root hnodupBelow hcq hpBelow)
        · exact ihb hnodupBelow hpBelow hqBelow
      · exact absurd hcNext' (hapart c hcBelow)
      · exact absurd hcNext (hapart c hcBelow')
      · exact ihn hnodupNext hpNext hqNext

/-- A finite tree bounds its chains by its size. -/
theorem length_lt_size (h : Unfolds children roots o) (ha : a ∈ roots) {chain : List α}
    (hchain : Descends children a chain) : chain.length < o.size := by
  induction h generalizing a chain with
  | nil => exact absurd ha List.not_mem_nil
  | @node b as below next _ _ ihb ihn =>
      rw [size]
      cases ha with
      | head =>
          cases chain with
          | nil =>
              rw [List.length_nil]
              omega
          | cons c chain =>
              obtain ⟨hc, hrest⟩ := List.isChain_cons_cons.mp hchain
              have hfits := ihb hc hrest
              rw [List.length_cons]
              omega
      | tail _ ha =>
          have hfits := ihn ha hchain
          omega

/-- The stack of a loop holds the roots of what is still to be visited. -/
theorem visits (h : Unfolds children roots o) {pending order : List α}
    (hrest : Visits children pending order) :
    Visits children (roots ++ pending) (o.preorder ++ order) := by
  induction h generalizing pending order with
  | nil => exact hrest
  | @node a as below next _ _ ihb ihn =>
      have hafter : Visits children (children a ++ (as ++ pending))
          (below.preorder ++ (next.preorder ++ order)) := ihb (ihn hrest)
      simpa [preorder] using Visits.next hafter

end Unfolds

end Outline

namespace Hierarchy

variable {K : Type} {tree : Hierarchy K} {root : NodeKey}

open Outline

/-- What a host program owes to every culling under a root. Its lists of children form a finite
tree, in which no node is met twice, and the depth that it gives is not exceeded. -/
structure IsTree (tree : Hierarchy K) (root : NodeKey) : Prop where
  finite : ∃ o, Unfolds tree.children [root] o ∧ o.preorder.Nodup
  depth : ∀ chain, Descends tree.children root chain → chain.length ≤ tree.depth

namespace IsTree

theorem unfolds_outline (h : tree.IsTree root) :
    Unfolds tree.children [root] (tree.outline root) :=
  .node (unfolds_unfold fun _ hc chain hchain => h.depth (_ :: chain) (hchain.cons hc)) .nil

theorem nodup_outline (h : tree.IsTree root) : (tree.outline root).preorder.Nodup := by
  obtain ⟨o, hu, hnodup⟩ := h.finite
  rw [h.unfolds_outline.unique hu]
  exact hnodup

/-- A finite tree has no chain longer than the number of its nodes, so it always has a depth
that is enough. -/
theorem of_size_le {o : Outline NodeKey} (hu : Unfolds tree.children [root] o)
    (hnodup : o.preorder.Nodup) (hsize : o.size ≤ tree.depth + 1) : tree.IsTree root where
  finite := ⟨o, hu, hnodup⟩
  depth chain hchain := by
    have hshorter := hu.length_lt_size List.mem_cons_self hchain
    omega

/-- The depth is enough below every node under the root as well. -/
theorem unfolds_below (h : tree.IsTree root) : ∀ n ∈ (tree.outline root).preorder,
    Unfolds tree.children (tree.children n) (tree.below n) := by
  have hdepth : ∀ n ∈ (tree.outline root).preorder, ∀ chain,
      Descends tree.children n chain → chain.length ≤ tree.depth := by
    refine h.unfolds_outline.of_step (fun n hn => ?_) fun n c hn hc chain hchain => ?_
    · obtain rfl := List.mem_singleton.mp hn
      exact h.depth
    · have hlonger := hn (c :: chain) (hchain.cons hc)
      rw [List.length_cons] at hlonger
      omega
  exact fun n hn => unfolds_unfold fun c hc chain hchain =>
    hdepth n hn (c :: chain) (hchain.cons hc)

/-- What is under a node of the tree is in the tree. -/
theorem mem_outline_of_mem (h : tree.IsTree root) {n m : NodeKey}
    (hn : n ∈ (tree.outline root).preorder) (hm : m ∈ (tree.outline n).preorder) :
    m ∈ (tree.outline root).preorder := by
  have hu : Unfolds tree.children [n] (tree.outline n) := .node (h.unfolds_below n hn) .nil
  refine hu.of_step (P := (· ∈ (tree.outline root).preorder)) (fun a ha => ?_) ?_ m hm
  · rwa [List.mem_singleton.mp ha]
  · exact fun _ _ => h.unfolds_outline.mem_children

theorem unfolds_below_of_mem (h : tree.IsTree root) {n : NodeKey}
    (hn : n ∈ (tree.outline root).preorder) : ∀ m ∈ (tree.outline n).preorder,
    Unfolds tree.children (tree.children m) (tree.below m) :=
  fun m hm => h.unfolds_below m (h.mem_outline_of_mem hn hm)

end IsTree

end Hierarchy

namespace Scene

variable {K : Type} {scene : Scene K} {roots : List NodeKey} {o : Outline NodeKey}
  {key : NodeKey}

open Outline

/-- A chain down from a node and the chain of parents up from it fit in the store together. -/
private theorem Linked.length_add_ancestry_le (h : scene.Linked)
    (hkey : scene.contains key = true) {chain : List NodeKey}
    (hchain : Descends scene.children key chain) :
    chain.length + (scene.ancestry key).length ≤ scene.depth := by
  induction chain generalizing key with
  | nil => simpa using h.length_ancestry_le hkey
  | cons c chain ih =>
      obtain ⟨hc, hrest⟩ := List.isChain_cons_cons.mp hchain
      have hfits := ih (h.of_mem_children hc).1 hrest
      rw [h.ancestry_child hc, List.length_cons] at hfits
      rw [List.length_cons]
      omega

/-- No chain down from a key is longer than the number of slots in the store. -/
theorem Linked.length_le_depth (h : scene.Linked) {chain : List NodeKey}
    (hchain : Descends scene.children key chain) : chain.length ≤ scene.depth := by
  cases chain with
  | nil => exact Nat.zero_le _
  | cons c chain =>
      obtain ⟨hc, -⟩ := List.isChain_cons_cons.mp hchain
      have hkey : scene.contains key = true := by
        obtain ⟨-, hparent⟩ := h.of_mem_children hc
        exact h.parent_contained hparent
      have hfits := h.length_add_ancestry_le hkey hchain
      omega

/-- The outline under a key holds the whole tree on it. -/
theorem Linked.unfolds_outline [Scalar K] (h : scene.Linked) (key : NodeKey) :
    Unfolds scene.children [key] (scene.hierarchy.outline key) :=
  .node (unfolds_unfold fun _ hc _ hchain => h.length_le_depth (hchain.cons hc)) .nil

/-- The chain of a node in an outline ends with the chain of one of the roots. -/
theorem Linked.suffix_of_mem (h : scene.Linked) (hu : Unfolds scene.children roots o)
    {x : NodeKey} (hx : x ∈ o.preorder) :
    ∃ a ∈ roots, scene.ancestry a <:+ scene.ancestry x := by
  induction hu with
  | nil => exact absurd hx List.not_mem_nil
  | @node a as below next _ _ ihb ihn =>
      rcases mem_preorder.mp hx with rfl | hx | hx
      · exact ⟨x, List.mem_cons_self, List.suffix_refl _⟩
      · obtain ⟨c, hc, hsuffix⟩ := ihb hx
        rw [h.ancestry_child hc] at hsuffix
        exact ⟨a, List.mem_cons_self, (List.suffix_cons _ _).trans hsuffix⟩
      · obtain ⟨b, hb, hsuffix⟩ := ihn hx
        exact ⟨b, List.mem_cons_of_mem _ hb, hsuffix⟩

/-- Of the nodes with the same parent, only one is above a given node. -/
private theorem eq_of_suffix {a b : NodeKey} {above chain : List NodeKey}
    (ha : a :: above <:+ chain) (hb : b :: above <:+ chain) : a = b := by
  have hsuffix := List.suffix_of_suffix_length_le ha hb (by simp)
  have heq := hsuffix.eq_of_length (by simp)
  exact (List.cons.inj heq).1

/-- No node is met twice in a traversal of siblings. -/
theorem Linked.nodup_preorder (h : scene.Linked) (hu : Unfolds scene.children roots o)
    (hnodup : roots.Nodup) {above : List NodeKey}
    (hroots : ∀ a ∈ roots, scene.ancestry a = a :: above) : o.preorder.Nodup := by
  induction hu generalizing above with
  | nil => exact List.nodup_nil
  | @node a as below next hbelow hnext ihb ihn =>
      obtain ⟨hnot, hrest⟩ := List.nodup_cons.mp hnodup
      have ha := hroots a List.mem_cons_self
      have hchildren : ∀ c ∈ scene.children a, scene.ancestry c = c :: a :: above :=
        fun c hc => by rw [h.ancestry_child hc, ha]
      have hunder : ∀ x ∈ below.preorder, ∃ c, c :: a :: above <:+ scene.ancestry x := by
        intro x hx
        obtain ⟨c, hc, hsuffix⟩ := h.suffix_of_mem hbelow hx
        rw [hchildren c hc] at hsuffix
        exact ⟨c, hsuffix⟩
      have hbeside : ∀ x ∈ next.preorder, ¬ a :: above <:+ scene.ancestry x := by
        intro x hx hsuffix
        obtain ⟨b, hb, hsuffix'⟩ := h.suffix_of_mem hnext hx
        rw [hroots b (List.mem_cons_of_mem _ hb)] at hsuffix'
        rw [eq_of_suffix hsuffix hsuffix'] at hnot
        exact hnot hb
      refine List.nodup_cons.mpr ⟨fun hmem => ?_, List.nodup_append.mpr
        ⟨ihb (h.nodup_children a) hchildren,
          ihn hrest fun b hb => hroots b (List.mem_cons_of_mem _ hb), ?_⟩⟩
      · rcases List.mem_append.mp hmem with hmem | hmem
        · obtain ⟨c, hsuffix⟩ := hunder a hmem
          have hlength := hsuffix.length_le
          rw [ha] at hlength
          simp only [List.length_cons] at hlength
          omega
        · exact hbeside a hmem (ha ▸ List.suffix_refl _)
      · intro x hx y hy hsame
        subst hsame
        obtain ⟨c, hsuffix⟩ := hunder x hx
        exact hbeside x hy ((List.suffix_cons _ _).trans hsuffix)

/-- No node is met twice in the outline under a key. -/
theorem Linked.nodup_outline [Scalar K] (h : scene.Linked)
    (hkey : scene.contains key = true) : (scene.hierarchy.outline key).preorder.Nodup := by
  obtain ⟨node, hnode⟩ := contains_iff.mp hkey
  have hroots : ∀ a ∈ [key], scene.ancestry a = a :: node.parent.elim [] scene.ancestry := by
    intro a ha
    obtain rfl := List.mem_singleton.mp ha
    rw [ancestry, h.lineage_eq hnode]
    cases node.parent <;> rfl
  exact h.nodup_preorder (h.unfolds_outline key) (List.nodup_singleton _) hroots

/-- A scene has a tree under each of its nodes. -/
theorem Linked.isTree [Scalar K] (h : scene.Linked) (hkey : scene.contains key = true) :
    scene.hierarchy.IsTree key where
  finite := ⟨_, h.unfolds_outline key, h.nodup_outline hkey⟩
  depth _ hchain := h.length_le_depth hchain

end Scene

end SceneCulling
