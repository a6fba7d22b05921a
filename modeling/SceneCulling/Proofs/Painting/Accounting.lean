import Mathlib.Logic.Relation
import SceneCulling.Painting.Culler
import SceneCulling.Proofs.Painting.Verdict
import SceneCulling.Proofs.Scene.Reachable

/-!
# What the cullers account for

Painting everything and culling go over one tree: the first by a loop over a stack of pending
nodes, the second by a recursion that leaves whole subtrees out and counts them. In any
arithmetic and with any effects, the first lists every node once, in depth-first order; the
second lists some of them in the same order, with a node its parent, and the nodes that it
leaves out are all counted. A node without children has the same pixels in both lists.
-/

namespace SceneCulling

variable {K : Type} [Scalar K]

open Outline

/-! ## Lists of actions -/

theorem Logged.value_mapM {α β : Type} (f : α → Logged β) (as : List α) :
    (as.mapM f).value = as.map fun a => (f a).value := by
  have hloop : ∀ (as : List α) (bs : List β), (List.mapM.loop f as bs).value =
      bs.reverse ++ as.map fun a => (f a).value := by
    intro as
    induction as with
    | nil =>
        intro bs
        simp [List.mapM.loop]
    | cons a as ih =>
        intro bs
        simp [List.mapM.loop, ih]
  exact hloop as []

/-! ## Items by node -/

namespace PaintList

variable {list : PaintList K}

/-- The nodes of the items, in their order. -/
def nodes (list : PaintList K) : List NodeKey := list.items.map (·.node)

/-- The item that is found for a node is the only one of that node. -/
def Indexed (list : PaintList K) : Prop := ∀ node item, list.item? node = some item ↔
  item ∈ list.items ∧ item.node = node ∧ ∀ other ∈ list.items, other.node = node → other = item

omit [Scalar K] in
theorem indexed_of_nodup (h : list.nodes.Nodup) : list.Indexed := by
  have hsame : ∀ item ∈ list.items, ∀ other ∈ list.items, other.node = item.node →
      other = item := fun item hitem other hother heq =>
    List.inj_on_of_nodup_map h hother hitem heq
  intro node item
  constructor
  · intro hfound
    have hitem : item ∈ list.items := List.mem_reverse.mp (List.mem_of_find?_eq_some hfound)
    obtain rfl : item.node = node := by simpa using List.find?_some hfound
    exact ⟨hitem, rfl, hsame item hitem⟩
  · rintro ⟨hitem, rfl, -⟩
    have hsome : (list.item? item.node).isSome := by
      rw [item?, List.find?_isSome]
      exact ⟨item, List.mem_reverse.mpr hitem, by simp⟩
    obtain ⟨other, hother⟩ := Option.isSome_iff_exists.mp hsome
    have hmem : other ∈ list.items := List.mem_reverse.mp (List.mem_of_find?_eq_some hother)
    have hnode : other.node = item.node := by simpa using List.find?_some hother
    rw [hother, hsame item hitem other hmem hnode]

end PaintList

/-! ## Painting everything -/

/-- A loop with a stack of pending nodes, whose top is at the end, and the list so far. -/
structure PaintLoop (K : Type) where
  pending : List NodeKey
  list : PaintList K

namespace Hierarchy

variable {tree : Hierarchy K} {stage : Stage K} {node : NodeKey} {roots : List NodeKey}
  {o : Outline NodeKey}

/-- A turn takes the top of the stack, lists its item, and puts its children on the stack, the
first child on top. Without a pending node there is no turn. -/
def turn (tree : Hierarchy K) (stage : Stage K) (loop : PaintLoop K) : Option (PaintLoop K) :=
  loop.pending.getLast?.map fun node => {
    pending := loop.pending.dropLast ++ (tree.children node).reverse
    list := loop.list ++ .single (tree.untestedItem stage node).value }

/-- One state of the loop leads to another by some turns. -/
def Runs (tree : Hierarchy K) (stage : Stage K) : PaintLoop K → PaintLoop K → Prop :=
  Relation.ReflTransGen fun loop next => tree.turn stage loop = some next

theorem turn_of_pending (tree : Hierarchy K) (stage : Stage K) (stack : List NodeKey)
    (node : NodeKey) (list : PaintList K) :
    tree.turn stage ⟨(node :: stack).reverse, list⟩ = some
      ⟨(tree.children node ++ stack).reverse,
        list ++ .single (tree.untestedItem stage node).value⟩ := by
  simp [turn]

/-- The loop visits the nodes of its stack from the top on, each with all nodes below it. -/
theorem runs_of_visits {stack order : List NodeKey} (h : Visits tree.children stack order)
    (list : PaintList K) : tree.Runs stage ⟨stack.reverse, list⟩
      ⟨[], list.items ++ order.map fun n => (tree.untestedItem stage n).value, list.culled⟩ := by
  induction h generalizing list with
  | done =>
      rw [List.map_nil, List.append_nil]
      exact .refl
  | @next node pending order _ ih =>
      have hrest := ih (list ++ .single (tree.untestedItem stage node).value)
      rw [PaintList.items_append, List.append_assoc] at hrest
      exact .head (tree.turn_of_pending stage pending node list) hrest

/-- The loop cannot end in two ways. -/
theorem Runs.unique {loop : PaintLoop K} {list list' : PaintList K}
    (h : tree.Runs stage loop ⟨[], list⟩) (h' : tree.Runs stage loop ⟨[], list'⟩) :
    list = list' := by
  have hended : ∀ {ended : PaintList K} {next : PaintLoop K},
      tree.Runs stage ⟨[], ended⟩ next → next = ⟨[], ended⟩ := by
    intro ended next hrun
    rcases Relation.ReflTransGen.cases_head hrun with hsame | ⟨_, hturn, -⟩
    · exact hsame.symm
    · exact absurd hturn (by simp [turn])
  have hdeterministic : Relator.RightUnique
      fun loop next : PaintLoop K => tree.turn stage loop = some next :=
    fun _ _ _ hone hother => Option.some.inj (hone.symm.trans hother)
  rcases Relation.ReflTransGen.total_of_right_unique hdeterministic h h' with hrun | hrun
  · exact (congrArg PaintLoop.list (hended hrun)).symm
  · exact congrArg PaintLoop.list (hended hrun)

theorem paintAll_value (tree : Hierarchy K) (stage : Stage K) : (tree.paintAll stage).value =
    ⟨(tree.outline stage.root).preorder.map fun n => (tree.untestedItem stage n).value, 0⟩ := by
  rw [paintAll, Logged.value_bind, Logged.value_mapM]
  rfl

theorem untestedItem_value (tree : Hierarchy K) (stage : Stage K) (node : NodeKey) :
    (tree.untestedItem stage node).value = {
      node
      visibility := none
      pixels := (tree.ownVolume node).value.bind fun v =>
        (tree.pixelRect stage v).run.value.toOption } := by
  rw [untestedItem, Logged.value_bind]
  cases (tree.ownVolume node).value <;> rfl

theorem nodes_paintAll (tree : Hierarchy K) (stage : Stage K) :
    (tree.paintAll stage).value.nodes = (tree.outline stage.root).preorder := by
  have hnode : ∀ n, (tree.untestedItem stage n).value.node = n := fun n => by
    rw [untestedItem_value]
  simp [PaintList.nodes, paintAll_value, Function.comp_def, hnode]

/-- The loop from the root of the stage ends, and with the list of everything. -/
theorem runs_iff (hu : Unfolds tree.children [stage.root] (tree.outline stage.root))
    {list : PaintList K} : tree.Runs stage ⟨[stage.root], .empty⟩ ⟨[], list⟩ ↔
      list = (tree.paintAll stage).value := by
  have hvisits := hu.visits .done
  rw [List.append_nil, List.append_nil] at hvisits
  have hrun : tree.Runs stage ⟨[stage.root], .empty⟩ ⟨[], (tree.paintAll stage).value⟩ := by
    rw [paintAll_value]
    exact runs_of_visits hvisits .empty
  constructor
  · intro hother
    exact hother.unique hrun
  · rintro rfl
    exact hrun

/-! ## Culling -/

/-- An item is about the node that it was decided for, and never outside. -/
theorem of_verdict {inside : Bool} {volume : Option (Volume K)} {item : PaintItem K}
    (h : tree.verdict stage inside node volume = some item) :
    item.node = node ∧ item.visibility ≠ some .outside := by
  cases volume with
  | none =>
      obtain rfl := Option.some.inj h
      exact ⟨rfl, by simp⟩
  | some v =>
      simp only [verdict] at h
      split at h
      · cases h
      · next hvisible =>
          obtain rfl := Option.some.inj h
          exact ⟨rfl, fun hout => hvisible (Option.some.inj hout)⟩

/-- The nodes of the kept items. -/
def keptNodes (tree : Hierarchy K) (stage : Stage K) (inside : Bool) (o : Outline NodeKey) :
    List NodeKey := (tree.keptItems stage inside o).map (·.node)

/-- A node is left out with all nodes below it, or it is kept. -/
theorem keptNodes_node (tree : Hierarchy K) (stage : Stage K) (inside : Bool) (a : NodeKey)
    (below next : Outline NodeKey) :
    tree.keptNodes stage inside (.node a below next) = tree.keptNodes stage inside next ∨
      ∃ inner, tree.keptNodes stage inside (.node a below next) =
        a :: (tree.keptNodes stage inner below ++ tree.keptNodes stage inside next) := by
  rw [keptNodes, keptItems]
  cases hverdict : tree.verdict stage inside a (tree.subtreeVolume a) with
  | none => exact .inl rfl
  | some item =>
      refine .inr ⟨item.visibility == some .inside, ?_⟩
      rw [List.map_cons, List.map_append, (of_verdict hverdict).1]
      rfl

theorem keptNodes_sublist (tree : Hierarchy K) (stage : Stage K) (inside : Bool)
    (o : Outline NodeKey) : (tree.keptNodes stage inside o).Sublist o.preorder := by
  induction o generalizing inside with
  | nil => exact .slnil
  | node a below next ihb ihn =>
      rcases tree.keptNodes_node stage inside a below next with hout | ⟨inner, hin⟩
      · rw [hout]
        exact ((ihn inside).trans (List.sublist_append_right _ _)).cons a
      · rw [hin]
        exact ((ihb inner).append (ihn inside)).cons_cons a

/-- What is kept below a node is kept together with the node. -/
theorem keptNodes_of_below {a c : NodeKey} {below next : Outline NodeKey}
    (hnodup : (Outline.node a below next).preorder.Nodup) {inside : Bool}
    (hbelow : c ∈ below.preorder)
    (hc : c ∈ tree.keptNodes stage inside (.node a below next)) :
    ∃ inner, c ∈ tree.keptNodes stage inner below ∧
      tree.keptNodes stage inside (.node a below next) =
        a :: (tree.keptNodes stage inner below ++ tree.keptNodes stage inside next) := by
  obtain ⟨⟨hnotBelow, -⟩, -, -, hapart⟩ := nodup_preorder_node.mp hnodup
  have hnotNext : c ∉ tree.keptNodes stage inside next :=
    fun h => hapart c hbelow ((tree.keptNodes_sublist stage inside next).subset h)
  have hne : c ≠ a := fun heq => hnotBelow (heq ▸ hbelow)
  rcases tree.keptNodes_node stage inside a below next with hout | ⟨inner, hin⟩
  · rw [hout] at hc
    exact absurd hc hnotNext
  · refine ⟨inner, ?_, hin⟩
    rw [hin] at hc
    exact (List.mem_append.mp (List.mem_of_ne_of_mem hne hc)).resolve_right hnotNext

/-- What is kept beside a node is kept, whatever becomes of the node. -/
theorem mem_keptNodes_of_next {a c : NodeKey} {below next : Outline NodeKey}
    (hnodup : (Outline.node a below next).preorder.Nodup) {inside : Bool}
    (hnext : c ∈ next.preorder) : c ∈ tree.keptNodes stage inside (.node a below next) ↔
      c ∈ tree.keptNodes stage inside next := by
  obtain ⟨⟨-, hnotNext⟩, -, -, hapart⟩ := nodup_preorder_node.mp hnodup
  have hne : c ≠ a := fun heq => hnotNext (heq ▸ hnext)
  rcases tree.keptNodes_node stage inside a below next with hout | ⟨inner, hin⟩
  · rw [hout]
  · have hnotBelow : c ∉ tree.keptNodes stage inner below :=
      fun h => hapart c ((tree.keptNodes_sublist stage inner below).subset h) hnext
    rw [hin, List.mem_cons, List.mem_append]
    simp only [hne, hnotBelow, false_or]

/-- With a node its parent is kept. Were the parent left out, then with all nodes below it. -/
theorem mem_keptNodes_of_child (hu : Unfolds tree.children roots o) (hnodup : o.preorder.Nodup)
    {inside : Bool} {p c : NodeKey} (hp : p ∈ o.preorder) (hchild : c ∈ tree.children p)
    (hc : c ∈ tree.keptNodes stage inside o) : p ∈ tree.keptNodes stage inside o := by
  induction hu generalizing inside with
  | nil => exact absurd hp List.not_mem_nil
  | @node a as below next hbelow hnext ihb ihn =>
      obtain ⟨-, hnodupBelow, hnodupNext, -⟩ := nodup_preorder_node.mp hnodup
      -- the child is in the same part of the outline as its parent, or the parent heads that part
      rcases hbelow.child_cases hnext hp hchild with ⟨hcBelow, hp⟩ | ⟨hcNext, hp⟩
      · obtain ⟨inner, hinner, hin⟩ := keptNodes_of_below hnodup hcBelow hc
        rw [hin]
        cases hp with
        | inl hpa => exact hpa ▸ List.mem_cons_self
        | inr hp =>
            have hkept := ihb hnodupBelow hp hinner
            exact List.mem_cons_of_mem a (List.mem_append_left _ hkept)
      · rw [mem_keptNodes_of_next hnodup hcNext] at hc
        rw [mem_keptNodes_of_next hnodup hp]
        exact ihn hnodupNext hp hc

/-- Every kept item is the verdict on its node, whichever parent it was judged under. -/
theorem verdict_of_mem {inside : Bool} {item : PaintItem K}
    (h : item ∈ tree.keptItems stage inside o) :
    ∃ inner, tree.verdict stage inner item.node (tree.subtreeVolume item.node) = some item := by
  induction o generalizing inside with
  | nil => exact absurd h List.not_mem_nil
  | node a below next ihb ihn =>
      rw [keptItems] at h
      cases hverdict : tree.verdict stage inside a (tree.subtreeVolume a) with
      | none =>
          rw [hverdict] at h
          exact ihn h
      | some first =>
          rw [hverdict] at h
          rcases List.mem_cons.mp h with rfl | h
          · obtain ⟨rfl, -⟩ := of_verdict hverdict
            exact ⟨inside, hverdict⟩
          · rcases List.mem_append.mp h with h | h
            · exact ihb h
            · exact ihn h

/-- What is left out is counted. -/
theorem count_add_culled_select (trace : Bool) (pool : VolumePool K) (inside : Bool)
    (labelled : Outline (NodeKey × Bound)) :
    (tree.select stage trace pool inside labelled).value.count +
      (tree.select stage trace pool inside labelled).value.culled = labelled.size := by
  induction labelled generalizing inside with
  | nil => rfl
  | node label below next ihb ihn =>
      obtain ⟨key, bound⟩ := label
      have hnext := ihn inside
      simp only [PaintList.count] at ihb hnext ⊢
      simp only [select, Logged.value_bind, decideItem_value, size]
      cases tree.verdict stage inside key (bound.volume? pool) with
      | none =>
          simp only [Logged.value_bind, Logged.value_pure, PaintList.items_append,
            PaintList.culled_append, PaintList.skipped, List.nil_append]
          omega
      | some item =>
          have hbelow := ihb (item.visibility == some .inside)
          simp only [Logged.value_bind, Logged.value_pure, PaintList.items_append,
            PaintList.culled_append, PaintList.single, List.length_append, List.length_cons,
            List.length_nil]
          omega

/-- Without children the subtree volume is the node's own, so the pixels are the same. -/
theorem pixels_of_leaf (hleaf : tree.children node = []) {inside : Bool} {item : PaintItem K}
    (h : tree.verdict stage inside node (tree.subtreeVolume node) = some item) :
    item.pixels = (tree.untestedItem stage node).value.pixels := by
  have hbelow : tree.below node = .nil := by
    rw [below, hleaf]
    cases tree.depth <;> rfl
  have hvolume : tree.subtreeVolume node = tree.startVolume node := by
    rw [subtreeVolume, hbelow]
    rfl
  rw [hvolume, startVolume] at h
  rw [untestedItem_value]
  cases hown : (tree.ownVolume node).value with
  | some own =>
      simp only [hown, verdict] at h
      split at h
      · cases h
      · obtain rfl := Option.some.inj h
        rfl
  | none =>
      simp only [hown] at h
      split at h
      · obtain rfl := Option.some.inj h
        rfl
      · -- a node that paints nothing has an empty volume, which is never listed
        simp [verdict, test, Volume.new] at h

end Hierarchy

namespace Culler

/-- The nodes that culling lists and those that it leaves out are all nodes under the root. -/
theorem Reachable.count_add_culled {tree : Hierarchy K} {stage : Stage K}
    (hunfolds : ∀ n ∈ (tree.outline stage.root).preorder,
      Unfolds tree.children (tree.children n) (tree.below n))
    {culler : Culler K} (h : culler.Reachable) (settings : Settings) :
    ((Culler.cull tree stage settings).run culler).value.1.count +
      ((Culler.cull tree stage settings).run culler).value.1.culled =
        (tree.outline stage.root).size := by
  have hsound := VolumePool.sound_of_live_eq_zero h.live_eq_zero
  have hsize := congrArg Outline.size (Hierarchy.measure_spec hunfolds hsound)
  rw [size_map, size_map] at hsize
  rw [← hsize]
  exact Hierarchy.count_add_culled_select settings.traceCulling _ false _

end Culler

/-! ## Results -/

/-- What is culled: a scene that holds the root of the stage, or nodes of a host program whose
lists of children form a finite tree under that root. -/
inductive Cullable [Approximation K] (root : NodeKey) : Hierarchy K → Prop where
  | scene {scene : Scene K} : scene.Reachable → scene.contains root = true →
      Cullable root scene.hierarchy
  | host {tree : Hierarchy K} : tree.IsTree root → Cullable root tree

theorem Cullable.isTree [Approximation K] {root : NodeKey} {tree : Hierarchy K}
    (h : Cullable root tree) : tree.IsTree root := by
  cases h with
  | scene hreachable hroot => exact hreachable.consistent.toLinked.isTree hroot
  | host htree => exact htree

/-- How the list of everything and the list of what is visible account for the nodes of an
outline under a root. -/
structure Accounts (tree : Hierarchy K) (root : NodeKey) (o : Outline NodeKey)
    (all kept : PaintList K) : Prop where
  all_nodes : all.nodes = o.preorder
  all_untested : ∀ item ∈ all.items, item.visibility = none
  all_culled : all.culled = 0
  kept_nodes : kept.nodes.Sublist all.nodes
  /-- With a node, except for the root, its only parent is listed. -/
  kept_parent : ∀ c ∈ kept.nodes, c ≠ root → ∃ p ∈ kept.nodes, c ∈ tree.children p ∧
    ∀ q ∈ all.nodes, c ∈ tree.children q → q = p
  kept_visible : ∀ item ∈ kept.items, item.visibility ≠ some .outside
  kept_count : kept.count + kept.culled = o.size
  all_indexed : all.Indexed
  kept_indexed : kept.Indexed
  /-- A node without children covers the same pixels in both lists. -/
  leaf_pixels : ∀ item ∈ kept.items, tree.children item.node = [] →
    ∃ other ∈ all.items, other.node = item.node ∧ other.pixels = item.pixels

theorem Hierarchy.IsTree.accounts {tree : Hierarchy K} {stage : Stage K}
    (htree : tree.IsTree stage.root) {kept : PaintList K}
    (hitems : kept.items = tree.keptItems stage false (tree.outline stage.root))
    (hcount : kept.count + kept.culled = (tree.outline stage.root).size) :
    Accounts tree stage.root (tree.outline stage.root) (tree.paintAll stage).value kept := by
  have hu := htree.unfolds_outline
  have hnodup := htree.nodup_outline
  have hall := tree.nodes_paintAll stage
  have hkept : kept.nodes = tree.keptNodes stage false (tree.outline stage.root) := by
    rw [PaintList.nodes, hitems]
    rfl
  have hsublist : kept.nodes.Sublist (tree.outline stage.root).preorder := by
    rw [hkept]
    exact tree.keptNodes_sublist stage false _
  have hverdict : ∀ item ∈ kept.items, ∃ inside, tree.verdict stage inside item.node
      (tree.subtreeVolume item.node) = some item := by
    intro item hitem
    rw [hitems] at hitem
    exact tree.verdict_of_mem hitem
  refine {
    all_nodes := hall
    all_untested := ?_
    all_culled := by rw [tree.paintAll_value]
    kept_nodes := by rwa [hall]
    kept_parent := ?_
    kept_visible := ?_
    kept_count := hcount
    all_indexed := PaintList.indexed_of_nodup (by rwa [hall])
    kept_indexed := PaintList.indexed_of_nodup (hsublist.nodup hnodup)
    leaf_pixels := ?_ }
  · intro item hitem
    rw [tree.paintAll_value] at hitem
    obtain ⟨node, -, rfl⟩ := List.mem_map.mp hitem
    rw [tree.untestedItem_value]
  · intro c hc hne
    rw [hall]
    rcases hu.mem_cases (hsublist.subset hc) with hroot | ⟨p, hp, hchild⟩
    · exact absurd (List.mem_singleton.mp hroot) hne
    · rw [hkept] at hc ⊢
      exact ⟨p, tree.mem_keptNodes_of_child hu hnodup hp hchild hc, hchild,
        fun q hq hother => hu.parent_unique hnodup hq hother hp hchild⟩
  · intro item hitem
    obtain ⟨inside, hitem⟩ := hverdict item hitem
    exact (tree.of_verdict hitem).2
  · intro item hitem hleaf
    have hmem := hsublist.subset (List.mem_map_of_mem hitem)
    obtain ⟨inside, hitem⟩ := hverdict item hitem
    refine ⟨(tree.untestedItem stage item.node).value, ?_, ?_, ?_⟩
    · rw [tree.paintAll_value]
      exact List.mem_map_of_mem hmem
    · rw [tree.untestedItem_value]
    · exact (tree.pixels_of_leaf hleaf hitem).symm

/-- Both cullers account for the tree under the root of a stage. It is finite and holds no node
twice. The loop over pending nodes ends, and with the list of everything and no other. The list
of what is visible is a part of that one, in which nothing is lost or counted twice. This does
not depend on the arithmetic, the effects, or what the culler did in earlier frames. -/
theorem Culler.Reachable.accounts_for_tree [Approximation K] {culler : Culler K}
    (hculler : culler.Reachable) {tree : Hierarchy K} {stage : Stage K}
    (hcullable : Cullable stage.root tree) (settings : Settings) :
    ∃ o, Unfolds tree.children [stage.root] o ∧ o.preorder.Nodup ∧
      (∀ list, tree.Runs stage ⟨[stage.root], .empty⟩ ⟨[], list⟩ ↔
        list = (tree.paintAll stage).value) ∧
      Accounts tree stage.root o (tree.paintAll stage).value
        ((Culler.cull tree stage settings).run culler).value.1 := by
  have htree := hcullable.isTree
  have hitems := Culler.items_cull htree.unfolds_below hculler settings
  have hcount := hculler.count_add_culled htree.unfolds_below settings
  exact ⟨_, htree.unfolds_outline, htree.nodup_outline,
    fun _ => Hierarchy.runs_iff htree.unfolds_outline, htree.accounts hitems hcount⟩

/-- A host program with two nodes below a third one. All are squares at the same place. -/
def twins : Hierarchy Rat where
  size? _ := some ⟨1, 1⟩
  modelview? _ _ := some .identity
  stageOf? _ := none
  children
    | ⟨1, _⟩ => [⟨2, 1⟩, ⟨3, 1⟩]
    | _ => []
  effects _ := []
  depth := 2

/-- The window shows what is between -1 and 1 in the space of the root. -/
def twinsStage : Stage Rat :=
  @Stage.new Rat _ .ofSquares ⟨1, 1⟩ .identity (.ofRect 0 0 100 100)

theorem isTree_twins : twins.IsTree ⟨1, 1⟩ := by
  have hu : Unfolds twins.children [⟨1, 1⟩]
      (.node ⟨1, 1⟩ (.node ⟨2, 1⟩ .nil (.node ⟨3, 1⟩ .nil .nil)) .nil) :=
    .node (.node .nil (.node .nil .nil)) .nil
  exact .of_size_le hu (by decide) (by decide)

/-- A scene with a chain of three nodes. -/
def threeDeep : Scene Rat := @Scene.slotsReused Rat _ .ofSquares

theorem cullable_threeDeep : @Cullable Rat _ .ofSquares ⟨1, 1⟩ threeDeep.hierarchy :=
  @Cullable.scene Rat _ .ofSquares _ _ (@Scene.reachable_slotsReused Rat _ .ofSquares) rfl

/-- The culler of the second frame has culled the nodes of the host program before. -/
theorem twins_accounts_for_tree :
    let first := (Culler.cull twins twinsStage {}).run (.new {})
    let second := (Culler.cull threeDeep.hierarchy twinsStage {}).run first.value.2
    (Culler.new {} : Culler Rat).Reachable ∧ first.value.2.Reachable ∧
      @Cullable Rat _ .ofSquares twinsStage.root twins ∧
      @Cullable Rat _ .ofSquares twinsStage.root threeDeep.hierarchy ∧
      (∃ o, Accounts twins twinsStage.root o (twins.paintAll twinsStage).value first.value.1) ∧
      ∃ o, Accounts threeDeep.hierarchy twinsStage.root o
        (threeDeep.hierarchy.paintAll twinsStage).value second.value.1 := by
  intro first second
  have hnew : (Culler.new {} : Culler Rat).Reachable := .new {}
  have hused : first.value.2.Reachable := .cull twins twinsStage {} hnew
  have hhost : @Cullable Rat _ .ofSquares twinsStage.root twins :=
    @Cullable.host Rat _ .ofSquares _ _ isTree_twins
  have hscene : @Cullable Rat _ .ofSquares twinsStage.root threeDeep.hierarchy :=
    cullable_threeDeep
  obtain ⟨o, -, -, -, hfirst⟩ :=
    @Culler.Reachable.accounts_for_tree Rat _ .ofSquares _ hnew _ _ hhost {}
  obtain ⟨o', -, -, -, hsecond⟩ :=
    @Culler.Reachable.accounts_for_tree Rat _ .ofSquares _ hused _ _ hscene {}
  exact ⟨hnew, hused, hhost, hscene, ⟨o, hfirst⟩, o', hsecond⟩

end SceneCulling
