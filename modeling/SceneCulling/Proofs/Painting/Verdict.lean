import SceneCulling.Painting.Culler
import SceneCulling.Proofs.Painting.Measure

/-!
# Culling without storage

What culling lists is a walk over the nodes under a root that looks at their subtree
volumes. It takes two short cuts: below a node that is inside nothing is tested, and a node
that is not listed is skipped with all nodes below it. The naive walk takes neither and
judges every node by its own subtree volume alone.
-/

namespace SceneCulling

variable {K : Type} [Scalar K]

namespace Hierarchy

/-- The item of a node by its subtree volume, or none if the node is not painted. An
unbounded node is painted, whatever its place. -/
def verdict (tree : Hierarchy K) (stage : Stage K) (parentInside : Bool) (node : NodeKey)
    (volume : Option (Volume K)) : Option (PaintItem K) :=
  match volume with
  | none => some { node, visibility := none, pixels := none }
  | some v =>
    let visibility := (tree.test stage parentInside node v).value
    if visibility = .outside then none
    else some {
      node
      visibility := some visibility
      pixels := (tree.pixelRect stage v).run.value.toOption }

/-- The items of the nodes of an outline, judged with both short cuts. `inside` tells
whether the parent of its roots is inside the view. -/
def keptItems (tree : Hierarchy K) (stage : Stage K) : (inside : Bool) → Outline NodeKey →
    List (PaintItem K)
  | _, .nil => []
  | inside, .node node below next =>
    match tree.verdict stage inside node (tree.subtreeVolume node) with
    | none => tree.keptItems stage inside next
    | some item =>
      item :: (tree.keptItems stage (item.visibility == some .inside) below ++
        tree.keptItems stage inside next)

/-- The items that the naive walk lists: it visits every node under the root of the stage,
each before its children, and tests each node that is bounded. -/
def naiveItems (tree : Hierarchy K) (stage : Stage K) : List (PaintItem K) :=
  (tree.outline stage.root).preorder.filterMap fun node =>
    tree.verdict stage false node (tree.subtreeVolume node)

variable {tree : Hierarchy K} {stage : Stage K}

/-- The record that culling keeps and the size of the subtree do not matter for an item. -/
theorem decideItem_value (tree : Hierarchy K) (stage : Stage K) (trace parentInside : Bool)
    (node : NodeKey) (volume : Option (Volume K)) (size : Nat) :
    (tree.decideItem stage trace parentInside node volume size).value =
      tree.verdict stage parentInside node volume := by
  cases volume with
  | none => rfl
  | some v =>
      simp only [decideItem, verdict, Logged.value_bind]
      by_cases hout : (tree.test stage parentInside node v).value = .outside
      · simp [hout]
      · simp [hout]

/-- Culling lists the kept items, if the labels of its outline refer to the subtree
volumes. -/
theorem items_select (trace : Bool) {pool : VolumePool K} {o : Outline NodeKey}
    {labelled : Outline (NodeKey × Bound)}
    (hlabels : labelled.map (labelVolume pool) = o.map fun n => (n, tree.subtreeVolume n))
    (inside : Bool) : (tree.select stage trace pool inside labelled).value.items =
      tree.keptItems stage inside o := by
  induction o generalizing labelled inside with
  | nil =>
      cases labelled with
      | nil => rfl
      | node => simp [Outline.map] at hlabels
  | node node below next ihb ihn =>
      cases labelled with
      | nil => simp [Outline.map] at hlabels
      | node label labelledBelow labelledNext =>
          obtain ⟨key, bound⟩ := label
          simp only [Outline.map, Outline.node.injEq] at hlabels
          obtain ⟨hlabel, hbelow, hnext⟩ := hlabels
          obtain ⟨rfl, hvolume⟩ := Prod.mk.inj hlabel
          simp only [select, Logged.value_bind, decideItem_value, hvolume, keptItems]
          cases tree.verdict stage inside key (tree.subtreeVolume key) with
          | none => simpa [PaintList.skipped] using ihn hnext inside
          | some item =>
              simp [PaintList.single, ihb hbelow, ihn hnext]

end Hierarchy

namespace Culler

/-- What a program can make of a culler: it is new, or it has culled some scenes before. -/
inductive Reachable : Culler K → Prop where
  | new (settings : Settings) : Reachable (.new settings)
  | cull {culler : Culler K} (tree : Hierarchy K) (stage : Stage K) (settings : Settings) :
      Reachable culler → Reachable ((Culler.cull tree stage settings).run culler).value.2

/-- Between two frames no volume is handed out. -/
theorem Reachable.live_eq_zero {culler : Culler K} (h : culler.Reachable) :
    culler.pool.live = 0 := by
  cases h <;> rfl

theorem items_cull {tree : Hierarchy K} {stage : Stage K}
    (hunfolds : ∀ n ∈ (tree.outline stage.root).preorder,
      Outline.Unfolds tree.children (tree.children n) (tree.below n))
    {culler : Culler K} (h : culler.Reachable) (settings : Settings) :
    ((Culler.cull tree stage settings).run culler).value.1.items =
      tree.keptItems stage false (tree.outline stage.root) :=
  Hierarchy.items_select settings.traceCulling
    (Hierarchy.measure_spec hunfolds (VolumePool.sound_of_live_eq_zero h.live_eq_zero)) false

end Culler

end SceneCulling
