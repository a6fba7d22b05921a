import SceneCulling.Proofs.Diagnostics.Listening
import SceneCulling.Proofs.Painting.Accounting
import SceneCulling.Proofs.Painting.EffectLog
import SceneCulling.Proofs.Painting.Tracing

/-!
# Marks

A trace says of each node that culling visits what became of it: a mark for an item of the list,
or a mark for a subtree that is left out. The marks come from the recursion, at two different
places, and the list is put together beside them. They agree: the marks are those of the listed
items and of the topmost nodes that are left out, in the order of painting, each once, and the
entries that a host program hears are the texts of the marks.
-/

namespace SceneCulling

variable {K : Type}

open Outline

/-- What became of a node that culling visits. -/
inductive Mark (K : Type) where
  /-- The node is listed. -/
  | listed (item : PaintItem K)
  /-- The node is skipped with all nodes below it, in all a number of nodes. -/
  | skipped (node : NodeKey) (count : Nat)

namespace Mark

def node : Mark K → NodeKey
  | listed item => item.node
  | skipped node _ => node

def item? : Mark K → Option (PaintItem K)
  | listed item => some item
  | skipped _ _ => none

/-- The number of nodes that are left out with the mark. -/
def count : Mark K → Nat
  | listed _ => 0
  | skipped _ count => count

def message : Mark K → String
  | listed item => item.node.text ++ " -> " ++ Hierarchy.visibilityText item.visibility
  | skipped node count => node.text ++ " culled (" ++ toString count ++ " nodes)"

/-- The entry of a trace. -/
def entry (mark : Mark K) : Entry where
  severity := .trace
  source := Component.culler.text
  message := mark.message

/-- The mark for a decision about a node with a number of nodes in its subtree. -/
def ofDecision (node : NodeKey) (size : Nat) : Option (PaintItem K) → Mark K
  | none => skipped node size
  | some item => listed item

/-- The entries of a trace, if one is asked for. -/
def entries (trace : Bool) (marks : List (Mark K)) : List Entry :=
  if trace then marks.map entry else []

@[simp] theorem entries_nil (trace : Bool) : entries trace ([] : List (Mark K)) = [] := by
  cases trace <;> rfl

theorem entries_append (trace : Bool) (marks marks' : List (Mark K)) :
    entries trace (marks ++ marks') = entries trace marks ++ entries trace marks' := by
  cases trace with
  | false => rfl
  | true => exact List.map_append

/-- If no node has two marks, a node that is marked as skipped is not marked as listed. -/
theorem not_listed_of_skipped {marks : List (Mark K)} (honce : (marks.map Mark.node).Nodup)
    {node : NodeKey} {count : Nat} (h : skipped node count ∈ marks) :
    node ∉ (marks.filterMap item?).map PaintItem.node := by
  intro hlisted
  obtain ⟨item, hitem, hsame⟩ := List.mem_map.mp hlisted
  obtain ⟨mark, hmark, hmarkItem⟩ := List.mem_filterMap.mp hitem
  cases mark with
  | skipped => cases hmarkItem
  | listed other =>
      obtain rfl := Option.some.inj hmarkItem
      have hmarks : listed other = skipped node count :=
        List.inj_on_of_nodup_map honce hmark h hsame
      cases hmarks

end Mark

/-- The last entry of a frame: how many nodes are listed and how many are left out. -/
def PaintList.tally (list : PaintList K) : Entry where
  severity := .debug
  source := Component.culler.text
  message := toString list.count ++ " nodes to paint, " ++ toString list.culled ++ " culled"

namespace Hierarchy

theorem chatter_noteIf (trace : Bool) (mark : Mark K) :
    chatter (noteIf trace mark.message).log = Mark.entries trace [mark] := by
  cases trace <;> rfl

variable [Scalar K] {tree : Hierarchy K} {stage : Stage K} {roots : List NodeKey}
  {o : Outline NodeKey}

/-- The marks of the nodes of an outline, judged with both short cuts. `inside` tells whether the
parent of its roots is inside the view. -/
def marks (tree : Hierarchy K) (stage : Stage K) : (inside : Bool) → Outline NodeKey →
    List (Mark K)
  | _, .nil => []
  | inside, .node a below next =>
    match tree.verdict stage inside a (tree.subtreeVolume a) with
    | none => .skipped a (1 + below.size) :: tree.marks stage inside next
    | some item =>
      .listed item :: (tree.marks stage (item.visibility == some .inside) below ++
        tree.marks stage inside next)

/-! ## Marks are recorded -/

/-- A decision records its mark and is quiet otherwise. -/
theorem chatter_decideItem (tree : Hierarchy K) (stage : Stage K) (trace inside : Bool)
    (node : NodeKey) (volume : Option (Volume K)) (size : Nat) :
    chatter (tree.decideItem stage trace inside node volume size).log =
      Mark.entries trace [.ofDecision node size (tree.verdict stage inside node volume)] := by
  cases volume with
  | none =>
      rw [decideItem, Logged.chatter_bind_pure]
      exact chatter_noteIf trace (.listed { node, visibility := none, pixels := none })
  | some v =>
      rw [decideItem, (tree.quiet_test stage inside node v).chatter_bind, verdict]
      by_cases hout : (tree.test stage inside node v).value = .outside
      · rw [if_pos hout, if_pos hout, Logged.chatter_bind_pure]
        exact chatter_noteIf trace (Mark.skipped node size)
      · rw [if_neg hout, if_neg hout, (tree.quiet_pixelRect stage v).chatter_bind,
          Logged.chatter_bind_pure]
        exact chatter_noteIf trace (.listed { node, visibility := some _, pixels := _ })

/-- The recursion that makes the list records the marks, if the labels of its outline refer to the
subtree volumes. -/
theorem chatter_select (trace : Bool) {pool : VolumePool K} {labelled : Outline (NodeKey × Bound)}
    (hlabels : labelled.map (labelVolume pool) = o.map fun n => (n, tree.subtreeVolume n))
    (inside : Bool) : chatter (tree.select stage trace pool inside labelled).log =
      Mark.entries trace (tree.marks stage inside o) := by
  induction o generalizing labelled inside with
  | nil =>
      cases labelled with
      | nil => exact (Mark.entries_nil trace).symm
      | node => simp [Outline.map] at hlabels
  | node node below next ihb ihn =>
      cases labelled with
      | nil => simp [Outline.map] at hlabels
      | node label labelledBelow labelledNext =>
          obtain ⟨key, bound⟩ := label
          simp only [Outline.map, Outline.node.injEq] at hlabels
          obtain ⟨hlabel, hbelow, hnext⟩ := hlabels
          obtain ⟨rfl, hvolume⟩ := Prod.mk.inj hlabel
          have hsize : labelledBelow.size = below.size := by
            rw [← size_map (labelVolume pool), hbelow, size_map]
          simp only [select, Logged.log_bind, chatter_append, chatter_decideItem, decideItem_value,
            hvolume, hsize, marks]
          cases tree.verdict stage inside key (tree.subtreeVolume key) with
          | none =>
              simp only [Mark.ofDecision, Logged.log_bind, Logged.log_pure, List.append_nil,
                ihn hnext, ← Mark.entries_append]
              rfl
          | some item =>
              simp only [Mark.ofDecision, Logged.log_bind, Logged.log_pure, List.append_nil,
                chatter_append, ihb hbelow, ihn hnext, ← Mark.entries_append]
              rfl

/-! ## Marks and the list -/

/-- A node is marked as skipped and left out of the list with all nodes below it, or it is marked
with its item and stands in the list before the nodes below it. -/
theorem marks_cases (tree : Hierarchy K) (stage : Stage K) (inside : Bool) (a : NodeKey)
    (below next : Outline NodeKey) :
    (tree.marks stage inside (.node a below next) =
        .skipped a (1 + below.size) :: tree.marks stage inside next ∧
      tree.keptItems stage inside (.node a below next) = tree.keptItems stage inside next) ∨
    ∃ item inner, item.node = a ∧
      tree.marks stage inside (.node a below next) =
        .listed item :: (tree.marks stage inner below ++ tree.marks stage inside next) ∧
      tree.keptItems stage inside (.node a below next) =
        item :: (tree.keptItems stage inner below ++ tree.keptItems stage inside next) := by
  rw [marks, keptItems]
  cases hverdict : tree.verdict stage inside a (tree.subtreeVolume a) with
  | none => exact .inl ⟨rfl, rfl⟩
  | some item => exact .inr ⟨item, _, (of_verdict hverdict).1, rfl, rfl⟩

theorem filterMap_marks (tree : Hierarchy K) (stage : Stage K) (inside : Bool)
    (o : Outline NodeKey) :
    (tree.marks stage inside o).filterMap Mark.item? = tree.keptItems stage inside o := by
  induction o generalizing inside with
  | nil => rfl
  | node a below next ihb ihn =>
      rcases tree.marks_cases stage inside a below next with
        ⟨hmarks, hkept⟩ | ⟨item, inner, -, hmarks, hkept⟩
      · rw [hmarks, hkept]
        exact ihn inside
      · rw [hmarks, hkept, ← ihb inner, ← ihn inside, ← List.filterMap_append]
        rfl

theorem nodes_marks_sublist (tree : Hierarchy K) (stage : Stage K) (inside : Bool)
    (o : Outline NodeKey) : ((tree.marks stage inside o).map Mark.node).Sublist o.preorder := by
  induction o generalizing inside with
  | nil => exact .slnil
  | node a below next ihb ihn =>
      rcases tree.marks_cases stage inside a below next with
        ⟨hmarks, -⟩ | ⟨item, inner, rfl, hmarks, -⟩
      · rw [hmarks]
        exact ((ihn inside).trans (List.sublist_append_right _ _)).cons_cons a
      · rw [hmarks, List.map_cons, List.map_append]
        exact ((ihb inner).append (ihn inside)).cons_cons item.node

/-- Every node is listed or counted by one of the marks. -/
theorem length_add_count_marks (tree : Hierarchy K) (stage : Stage K) (inside : Bool)
    (o : Outline NodeKey) : (tree.keptItems stage inside o).length +
      ((tree.marks stage inside o).map Mark.count).sum = o.size := by
  induction o generalizing inside with
  | nil => rfl
  | node a below next ihb ihn =>
      have hnext := ihn inside
      rw [size]
      rcases tree.marks_cases stage inside a below next with
        ⟨hmarks, hkept⟩ | ⟨item, inner, -, hmarks, hkept⟩
      · simp only [hmarks, hkept, List.map_cons, List.sum_cons, Mark.count]
        omega
      · have hbelow := ihb inner
        simp only [hmarks, hkept, List.map_cons, List.map_append, List.sum_cons, List.sum_append,
          List.length_cons, List.length_append, Mark.count]
        omega

/-- Culling visits the roots and the children of the nodes that it lists. -/
theorem mem_marks_iff (hu : Unfolds tree.children roots o) {inside : Bool} {n : NodeKey} :
    n ∈ (tree.marks stage inside o).map Mark.node ↔
      n ∈ roots ∨ ∃ item ∈ tree.keptItems stage inside o, n ∈ tree.children item.node := by
  induction hu generalizing inside with
  | nil => simp [marks, keptItems]
  | @node a as below next _ _ ihb ihn =>
      rcases tree.marks_cases stage inside a below next with
        ⟨hmarks, hkept⟩ | ⟨item, inner, rfl, hmarks, hkept⟩
      · rw [hmarks, hkept, List.map_cons, List.mem_cons, ihn, List.mem_cons, or_assoc]
        rfl
      · -- the children of the node are the roots of what is below it
        simp only [hmarks, hkept, List.map_cons, List.map_append, List.mem_cons, List.mem_append,
          ihb, ihn, or_and_right, exists_or, exists_eq_left, Mark.node, or_assoc]
        simp only [or_left_comm]

/-- A mark of a node that is skipped counts the nodes of the whole tree on it. -/
theorem count_of_skipped (hu : Unfolds tree.children roots o) {inside : Bool} {n : NodeKey}
    {count : Nat} (h : Mark.skipped n count ∈ tree.marks stage inside o) :
    ∃ part, Unfolds tree.children [n] part ∧ count = part.size := by
  induction hu generalizing inside with
  | nil => exact absurd h List.not_mem_nil
  | @node a as below next hbelow _ ihb ihn =>
      rcases tree.marks_cases stage inside a below next with
        ⟨hmarks, -⟩ | ⟨item, inner, -, hmarks, -⟩
      · rw [hmarks] at h
        cases h with
        | head => exact ⟨_, .node hbelow .nil, rfl⟩
        | tail _ h => exact ihn h
      · rw [hmarks] at h
        rcases List.mem_append.mp (List.mem_of_ne_of_mem (by simp) h) with h | h
        · exact ihb h
        · exact ihn h

end Hierarchy

/-! ## Results -/

/-- Some marks say of the nodes of an outline under a root what became of them when a list was
made. -/
structure PaintList.Marked (list : PaintList K) (tree : Hierarchy K) (root : NodeKey)
    (o : Outline NodeKey) (marks : List (Mark K)) : Prop where
  /-- The marks stand in the order of painting. -/
  order : (marks.map Mark.node).Sublist o.preorder
  /-- No node is visited twice. -/
  once : (marks.map Mark.node).Nodup
  /-- The visited nodes are the root and the children of the listed nodes. -/
  visited : ∀ n, n ∈ marks.map Mark.node ↔ n = root ∨ ∃ p ∈ list.nodes, n ∈ tree.children p
  /-- What is marked as listed is the list. -/
  listed : marks.filterMap Mark.item? = list.items
  /-- What is marked as skipped is a whole tree, and nothing else of it is visited. -/
  skipped : ∀ node count, Mark.skipped node count ∈ marks →
    ∃ part, Unfolds tree.children [node] part ∧ count = part.size ∧
      ∀ n ∈ part.preorder, n ∈ marks.map Mark.node → n = node
  total : (marks.map Mark.count).sum = list.culled

variable [Scalar K] {tree : Hierarchy K} {stage : Stage K}

/-- Below a node that is not listed no node is visited: its parent would be listed. -/
theorem Hierarchy.IsTree.not_visited (htree : tree.IsTree stage.root) {inside : Bool}
    {node : NodeKey} (hnode : node ∈ (tree.outline stage.root).preorder)
    (hleft : node ∉ tree.keptNodes stage inside (tree.outline stage.root))
    {part : Outline NodeKey} (hpart : Unfolds tree.children [node] part) {n : NodeKey}
    (hn : n ∈ part.preorder) (hvisited : n = stage.root ∨
      ∃ p ∈ tree.keptNodes stage inside (tree.outline stage.root), n ∈ tree.children p) :
    n = node := by
  have hu := htree.unfolds_outline
  have hnodup := htree.nodup_outline
  have hunlisted : ∀ m ∈ part.preorder, m ∈ (tree.outline stage.root).preorder ∧
      m ∉ tree.keptNodes stage inside (tree.outline stage.root) := by
    refine hpart.of_step (fun m hm => ?_) fun p c hp hc => ?_
    · rw [List.mem_singleton.mp hm]
      exact ⟨hnode, hleft⟩
    · exact ⟨hu.mem_children hp.1 hc,
        fun hkept => hp.2 (tree.mem_keptNodes_of_child hu hnodup hp.1 hc hkept)⟩
  rcases hpart.mem_cases hn with hself | ⟨p, hp, hchild⟩
  · exact List.mem_singleton.mp hself
  · obtain ⟨hpOutline, hpLeft⟩ := hunlisted p hp
    rcases hvisited with rfl | ⟨q, hq, hchild'⟩
    · exact absurd hchild
        (hu.not_mem_children_of_root hnodup (List.mem_singleton_self _) hpOutline)
    · have hqOutline := (tree.keptNodes_sublist stage inside _).subset hq
      obtain rfl := hu.parent_unique hnodup hpOutline hchild hqOutline hchild'
      exact absurd hq hpLeft

theorem Hierarchy.IsTree.marked (htree : tree.IsTree stage.root) {list : PaintList K}
    (hitems : list.items = tree.keptItems stage false (tree.outline stage.root))
    (hcount : list.count + list.culled = (tree.outline stage.root).size) :
    list.Marked tree stage.root (tree.outline stage.root)
      (tree.marks stage false (tree.outline stage.root)) := by
  have hu := htree.unfolds_outline
  have horder := tree.nodes_marks_sublist stage false (tree.outline stage.root)
  have honce := horder.nodup htree.nodup_outline
  have hlisted := tree.filterMap_marks stage false (tree.outline stage.root)
  have hnodes : list.nodes = tree.keptNodes stage false (tree.outline stage.root) := by
    rw [PaintList.nodes, hitems]
    rfl
  have hvisited : ∀ n, n ∈ (tree.marks stage false (tree.outline stage.root)).map Mark.node ↔
      n = stage.root ∨ ∃ p ∈ list.nodes, n ∈ tree.children p := fun n => by
    rw [Hierarchy.mem_marks_iff hu, PaintList.nodes, hitems, List.mem_singleton]
    simp only [List.mem_map, exists_exists_and_eq_and]
  refine ⟨horder, honce, hvisited, hlisted.trans hitems.symm, fun node count hmark => ?_, ?_⟩
  · obtain ⟨part, hpart, hsize⟩ := Hierarchy.count_of_skipped hu hmark
    have hnode := List.mem_map_of_mem (f := Mark.node) hmark
    have hleft : node ∉ list.nodes := by
      rw [PaintList.nodes, hitems, ← hlisted]
      exact Mark.not_listed_of_skipped honce hmark
    refine ⟨part, hpart, hsize, fun n hn hmarked => ?_⟩
    rw [hvisited, hnodes] at hmarked
    exact htree.not_visited (horder.subset hnode) (hnodes ▸ hleft) hpart hn hmarked
  · have hmarks := tree.length_add_count_marks stage false (tree.outline stage.root)
    rw [PaintList.count, hitems] at hcount
    omega

/-- The chatter of a frame: that of the effects, the marks if a trace is asked for, and the tally
of the list. -/
theorem Culler.Reachable.chatter_cull {culler : Culler K} (hculler : culler.Reachable)
    (htree : tree.IsTree stage.root) (settings : Settings) :
    chatter ((Culler.cull tree stage settings).run culler).log =
      tree.effectChatter (tree.outline stage.root).preorder ++
        Mark.entries settings.traceCulling
          (tree.marks stage false (tree.outline stage.root)) ++
        [((Culler.cull tree stage settings).run culler).value.1.tally] := by
  have hsound := VolumePool.sound_of_live_eq_zero hculler.live_eq_zero
  have hlabels := Hierarchy.measure_spec htree.unfolds_below hsound
  rw [← tree.chatter_measure stage.root culler.pool, ← Hierarchy.chatter_select _ hlabels,
    List.append_assoc]
  exact (chatter_append _ _).trans (congrArg _ (chatter_append _ _))

/-- A frame of a culler as a host program with a logger gets it: the list, and the entries that are
heard in the meantime. -/
def Culler.heardFrame (tree : Hierarchy K) (stage : Stage K) (settings : Settings)
    (culler : Culler K) : PaintList K × List Entry :=
  let monitor : Monitor := { settings, sink := .host }
  let ((list, _), entries) :=
    (monitor.listen ((Culler.cull tree stage settings).run culler)).run []
  (list, entries)

theorem Culler.heardFrame_eq (tree : Hierarchy K) (stage : Stage K) {settings : Settings}
    (h : settings.minSeverity = .trace) (culler : Culler K) :
    culler.heardFrame tree stage settings =
      (((Culler.cull tree stage settings).run culler).value.1,
        ((Culler.cull tree stage settings).run culler).log) := by
  rw [heardFrame, Monitor.run_listen rfl, Monitor.deliver_of_trace h]
  rfl

/-- Traces are faithful. Whatever the culler did before, frames on one tree make one list, and some
marks tell of it what became of the nodes: the visited nodes stand in the order of painting, those
that are listed with their items in the order of the list, the others with the number of nodes of
their trees, of which no other node is visited. A host program that listens without a floor hears
of the chatter of the effects, then of the marks one after the other if a trace is asked for and of
none of them otherwise, and then of the tally of the list, once. -/
theorem Culler.Reachable.heard_marks {culler : Culler K} (hculler : culler.Reachable)
    (htree : tree.IsTree stage.root) :
    ∃ o list marks, Unfolds tree.children [stage.root] o ∧
      list.Marked tree stage.root o marks ∧
      ∀ settings : Settings, settings.minSeverity = .trace →
        (culler.heardFrame tree stage settings).1 = list ∧
          chatter (culler.heardFrame tree stage settings).2 =
            tree.effectChatter o.preorder ++ Mark.entries settings.traceCulling marks ++
              [list.tally] := by
  have hitems := Culler.items_cull htree.unfolds_below hculler {}
  have hcount := hculler.count_add_culled htree.unfolds_below {}
  refine ⟨_, _, _, htree.unfolds_outline, htree.marked hitems hcount, fun settings hfloor => ?_⟩
  have hsame := (Culler.sameButTraces_cull tree stage settings {} culler).value
  have hlist : ((Culler.cull tree stage settings).run culler).value.1 =
      ((Culler.cull tree stage {}).run culler).value.1 := congrArg Prod.fst hsame
  rw [Culler.heardFrame_eq tree stage hfloor, hculler.chatter_cull htree, hlist]
  exact ⟨rfl, rfl⟩

/-- A host program with a square at the root, one beside it, and one far off that has a child. The
square beside the root has an unbounded effect. -/
def scattered : Hierarchy Rat where
  size? _ := some ⟨1, 1⟩
  modelview?
    | ⟨3, _⟩, ⟨1, _⟩ | ⟨4, _⟩, ⟨1, _⟩ => some (.shift ⟨9, 0, 0⟩)
    | _, _ => some .identity
  stageOf? _ := none
  children
    | ⟨1, _⟩ => [⟨2, 1⟩, ⟨3, 1⟩]
    | ⟨3, _⟩ => [⟨4, 1⟩]
    | _ => []
  effects
    | ⟨2, _⟩ => [.unbounded]
    | _ => [.padding (.uniform (1 / 4))]
  depth := 3

theorem isTree_scattered : scattered.IsTree twinsStage.root := by
  have hu : Unfolds scattered.children [⟨1, 1⟩] (.node ⟨1, 1⟩
      (.node ⟨2, 1⟩ .nil (.node ⟨3, 1⟩ (.node ⟨4, 1⟩ .nil .nil) .nil)) .nil) :=
    .node (.node .nil (.node (.node .nil .nil) .nil)) .nil
  exact .of_size_le hu (by decide) (by decide)

theorem quiet_scattered (node : NodeKey) :
    ∀ effect ∈ scattered.effects node, effect.Quiet := by
  intro effect heffect
  dsimp only [scattered] at heffect
  split at heffect
  · rw [List.mem_singleton.mp heffect]
    exact Effect.quiet_unbounded
  · rw [List.mem_singleton.mp heffect]
    exact Effect.quiet_padding _

/-- The culler has culled other nodes before. The root is unbounded with its first child, and the
other child is out of view, together with its own child. -/
theorem scattered_heard_marks :
    let culler := ((Culler.cull twins twinsStage {}).run (.new {})).value.2
    let settings : Settings := { minSeverity := .trace, traceCulling := true }
    let frame := culler.heardFrame scattered twinsStage settings
    culler.Reachable ∧ scattered.IsTree twinsStage.root ∧ settings.minSeverity = .trace ∧
      (∃ o marks, frame.1.Marked scattered twinsStage.root o marks ∧
        chatter frame.2 = Mark.entries true marks ++ [frame.1.tally]) ∧
      frame.2.map (fun entry => entry.message) = ["NodeKey(1v1) -> None", "NodeKey(2v1) -> None",
        "NodeKey(3v1) culled (2 nodes)", "2 nodes to paint, 2 culled"] := by
  intro culler settings frame
  have hculler : culler.Reachable := .cull twins twinsStage {} (.new {})
  obtain ⟨o, list, marks, -, hmarked, hheard⟩ := hculler.heard_marks isTree_scattered
  obtain ⟨rfl, hchatter⟩ := hheard settings rfl
  rw [scattered.effectChatter_of_quiet quiet_scattered] at hchatter
  exact ⟨hculler, isTree_scattered, rfl, ⟨o, marks, hmarked, hchatter⟩, by decide +kernel⟩

end SceneCulling
