import Mathlib.Data.Set.Card
import SceneCulling.Proofs.Painting.Accounting

/-!
# One frame after another

A culler is used for many frames, and trees change between them. What it lists for a frame is
what a new culler lists: the first pass writes each slot before the second pass reads it. Only
the storage stays, which has grown to the number of nodes of the greatest tree.

The outline of a frame carries the bound of each node. A culler could as well enter the bounds
in a table by node. Then the table need not be cleared after a frame, because every entry that
the second pass reads is one of the same frame.
-/

namespace SceneCulling

variable {K : Type} [Scalar K]

open Outline

namespace Hierarchy

variable {tree : Hierarchy K} {node child root : NodeKey} {pool : VolumePool K}

theorem openVolume_takes (h : pool.Sound) (tree : Hierarchy K) (node : NodeKey) :
    pool.Takes (tree.openVolume node pool).value.2 1 := by
  have hfresh := VolumePool.takes_allocate h (some node)
  cases hown : (tree.ownVolume node).value with
  | some own =>
      have hwritten :=
        hfresh.trans (VolumePool.takes_set hfresh.sound (pool.allocate (some node)).1 own)
      simpa [openVolume, hown] using hwritten
  | none => simpa [openVolume, hown] using hfresh

/-- Taking in a child writes one slot or none. -/
theorem merge_value_pool (tree : Hierarchy K) (node child : NodeKey) (slot : Nat)
    (bounded : Bool) (bound : Bound) (pool : VolumePool K) :
    (tree.merge node slot bounded child bound pool).value.2 = pool ∨
      ∃ v, (tree.merge node slot bounded child bound pool).value.2 = pool.set slot v := by
  simp only [merge]
  split
  · exact .inl rfl
  · split
    · exact .inl rfl
    · split
      · rename_i below own _ _
        split
        · exact .inl rfl
        · refine .inr ⟨((tree.enclose node below).perform own).value.2, ?_⟩
          rw [Logged.value_bind]
          split <;> rfl
      · exact .inl rfl

theorem merge_takes (tree : Hierarchy K) (node child : NodeKey) (h : pool.Sound) (slot : Nat)
    (bounded : Bool) (bound : Bound) :
    pool.Takes (tree.merge node slot bounded child bound pool).value.2 0 := by
  rcases tree.merge_value_pool node child slot bounded bound pool with hsame | ⟨v, hset⟩
  · rw [hsame]
    exact .refl h
  · rw [hset]
    exact VolumePool.takes_set h slot v

/-- Measuring some trees takes a slot for each node. -/
theorem measureBelow_takes (tree : Hierarchy K) (o : Outline NodeKey) (h : pool.Sound)
    (node : NodeKey) (slot : Nat) (bounded : Bool) :
    pool.Takes (tree.measureBelow node slot o bounded pool).value.2 o.size ∧
      (tree.measureBelow node slot o bounded pool).value.1.1.map Prod.fst = o := by
  induction o generalizing node slot bounded pool with
  | nil => exact ⟨.refl h, rfl⟩
  | node child below next ihb ihn =>
      rw [measureBelow_node]
      rcases hopened : (tree.openVolume child pool).value with ⟨⟨childSlot, opened⟩, pool1⟩
      rcases hinner : (tree.measureBelow child childSlot below opened pool1).value with
        ⟨⟨labelledBelow, childBounded⟩, pool2⟩
      rcases hmerged : (tree.merge node slot bounded child
        (if childBounded then Bound.inSlot childSlot else .unbounded) pool2).value with
        ⟨mergedBounded, pool3⟩
      have htakes1 := openVolume_takes h tree child
      rw [hopened] at htakes1
      obtain ⟨htakes2, hbelow⟩ := ihb htakes1.sound child childSlot opened
      rw [hinner] at htakes2 hbelow
      have htakes3 := merge_takes tree node child htakes2.sound slot bounded
        (if childBounded then Bound.inSlot childSlot else .unbounded)
      rw [hmerged] at htakes3
      obtain ⟨htakes4, hnext⟩ := ihn htakes3.sound node slot mergedBounded
      simp only [hinner, hmerged, Outline.map, hbelow, hnext, and_true]
      exact ((htakes1.trans htakes2).trans htakes3).trans htakes4

/-- Measuring a tree takes a slot for each of its nodes. -/
theorem measure_takes (tree : Hierarchy K) (root : NodeKey) (h : pool.Sound) :
    pool.Takes (tree.measure root pool).value.2 (tree.outline root).size ∧
      (tree.measure root pool).value.1.map Prod.fst = tree.outline root := by
  have hopened := openVolume_takes h tree root
  obtain ⟨hbelow, hkeys⟩ := measureBelow_takes tree (tree.below root) hopened.sound root
    (tree.openVolume root pool).value.1.1 (tree.openVolume root pool).value.1.2
  refine ⟨hopened.trans hbelow, ?_⟩
  rw [outline, ← hkeys]
  rfl

/-! ## Bounds by node -/

/-- Enters the bounds of an outline in a table: what is below a node, the node, and what is
beside it. -/
def enter : Outline (NodeKey × Bound) → (NodeKey → Option Bound) → NodeKey → Option Bound
  | .nil, table => table
  | .node label below next, table =>
    enter next (Function.update (enter below table) label.1 (some label.2))

/-- Lists the visible nodes of an outline like `select`, but looks their bounds up. A node that
is not in the table counts as unbounded. -/
def selectByKey (tree : Hierarchy K) (stage : Stage K) (trace : Bool) (pool : VolumePool K)
    (table : NodeKey → Option Bound) (inside : Bool) : Outline NodeKey → Logged (PaintList K)
  | .nil => return .empty
  | .node node below next => do
    let size := 1 + below.size
    let volume := (table node).bind (Bound.volume? pool)
    match ← tree.decideItem stage trace inside node volume size with
    | none =>
      let rest ← tree.selectByKey stage trace pool table inside next
      return .skipped size ++ rest
    | some item =>
      let descendants ←
        tree.selectByKey stage trace pool table (item.visibility == some .inside) below
      let rest ← tree.selectByKey stage trace pool table inside next
      return .single item ++ descendants ++ rest

/-- Entering bounds leaves the entries of other nodes alone. -/
theorem enter_of_not_mem {labelled : Outline (NodeKey × Bound)} {key : NodeKey}
    (h : key ∉ (labelled.map Prod.fst).preorder) (table : NodeKey → Option Bound) :
    enter labelled table key = table key := by
  induction labelled generalizing table with
  | nil => rfl
  | node label below next ihb ihn =>
      simp only [Outline.map, mem_preorder, not_or] at h
      obtain ⟨hne, hbelow, hnext⟩ := h
      rw [enter, ihn hnext, Function.update_of_ne hne, ihb hbelow]

/-- After the bounds are entered, the table has them, whatever it had before. -/
theorem enter_of_mem {labelled : Outline (NodeKey × Bound)}
    (hnodup : (labelled.map Prod.fst).preorder.Nodup) {label : NodeKey × Bound}
    (hlabel : label ∈ labelled.preorder) (table : NodeKey → Option Bound) :
    enter labelled table label.1 = some label.2 := by
  induction labelled generalizing table with
  | nil => exact absurd hlabel List.not_mem_nil
  | node first below next ihb ihn =>
      simp only [Outline.map, nodup_preorder_node] at hnodup
      obtain ⟨⟨hnotBelow, hnotNext⟩, hnodupBelow, hnodupNext, hapart⟩ := hnodup
      have hkeys : ∀ {o : Outline (NodeKey × Bound)}, label ∈ o.preorder →
          label.1 ∈ (o.map Prod.fst).preorder := fun hl => by
        rw [preorder_map]
        exact List.mem_map_of_mem hl
      rw [enter]
      rcases mem_preorder.mp hlabel with rfl | hl | hl
      · rw [enter_of_not_mem hnotNext, Function.update_self]
      · have hne : label.1 ≠ first.1 := fun heq => hnotBelow (heq ▸ hkeys hl)
        rw [enter_of_not_mem (hapart _ (hkeys hl)), Function.update_of_ne hne, ihb hnodupBelow hl]
      · exact ihn hnodupNext hl _

/-- Looking up the bounds of an outline lists what the outline lists. -/
theorem selectByKey_eq (tree : Hierarchy K) (stage : Stage K) (trace : Bool)
    (pool : VolumePool K) {table : NodeKey → Option Bound} {labelled : Outline (NodeKey × Bound)}
    (htable : ∀ label ∈ labelled.preorder, table label.1 = some label.2) (inside : Bool) :
    tree.selectByKey stage trace pool table inside (labelled.map Prod.fst) =
      tree.select stage trace pool inside labelled := by
  induction labelled generalizing inside with
  | nil => rfl
  | node label below next ihb ihn =>
      have hlabel := htable label (mem_preorder.mpr (.inl rfl))
      have hbelow := ihb fun l hl => htable l (mem_preorder.mpr (.inr (.inl hl)))
      have hnext := ihn fun l hl => htable l (mem_preorder.mpr (.inr (.inr hl)))
      obtain ⟨node, bound⟩ := label
      simp only [Outline.map, selectByKey, select, hlabel, size_map, Option.bind_some]
      refine congrArg (tree.decideItem stage trace inside node (bound.volume? pool)
        (1 + below.size) >>= ·) (funext fun item => ?_)
      cases item with
      | none => simp only [hnext]
      | some item => simp only [hbelow, hnext]

end Hierarchy

/-! ## Frames -/

/-- What a culler is asked for: the nodes at that time, how they are seen, and the settings. -/
structure Frame (K : Type) where
  tree : Hierarchy K
  stage : Stage K
  settings : Settings

/-- A table of bounds that a culler keeps by node. -/
abbrev BoundTable := NodeKey → Option Bound

namespace Frame

/-- The nodes under the root of the stage, itself included. -/
def nodes (frame : Frame K) : Set NodeKey := {n | Under frame.tree.children frame.stage.root n}

/-- The nodes are those of a finite tree. -/
def IsTree (frame : Frame K) : Prop := frame.tree.IsTree frame.stage.root

/-- Culls with the bounds in the outline. -/
def cull (frame : Frame K) : StateT (Culler K) Logged (PaintList K) :=
  Culler.cull frame.tree frame.stage frame.settings

/-- Culls with the bounds in a table, which is cleared in this way afterwards. -/
def cullByKey (clear : BoundTable → BoundTable) (frame : Frame K) :
    StateT (Culler K × BoundTable) Logged (PaintList K) := fun (culler, table) => do
  let (outline, pool) ← frame.tree.measure frame.stage.root culler.pool
  let table := Hierarchy.enter outline table
  let list ← frame.tree.selectByKey frame.stage frame.settings.traceCulling pool table false
    (frame.tree.outline frame.stage.root)
  Logged.note .debug .culler
    (toString list.count ++ " nodes to paint, " ++ toString list.culled ++ " culled")
  return (list, ⟨pool.release⟩, clear table)

/-- What a culler lists that is used for the first time. -/
def fresh (frame : Frame K) (capacity : Settings) : PaintList K :=
  (frame.cull.run (.new capacity)).value.1

variable {frame : Frame K} {culler other : Culler K}

omit [Scalar K] in
/-- The size of the outline is the number of nodes. -/
theorem ncard_nodes (h : frame.IsTree) :
    frame.nodes.ncard = (frame.tree.outline frame.stage.root).size := by
  have hnodes : frame.nodes =
      ((frame.tree.outline frame.stage.root).preorder.toFinset : Set NodeKey) := by
    ext n
    simp [Frame.nodes, h.unfolds_outline.mem_preorder_iff_under]
  rw [hnodes, Set.ncard_coe_finset, List.toFinset_card_of_nodup h.nodup_outline, length_preorder]

/-- The storage grows to the number of nodes, if it is smaller. -/
theorem highWater_cull (h : frame.IsTree) (hculler : culler.Reachable) :
    (frame.cull.run culler).value.2.highWater = max culler.highWater frame.nodes.ncard := by
  have hsound := VolumePool.sound_of_live_eq_zero hculler.live_eq_zero
  have hsize := (frame.tree.measure_takes frame.stage.root hsound).1.size
  rw [hculler.live_eq_zero, Nat.zero_add, ← ncard_nodes h] at hsize
  exact hsize

/-- What is listed for a tree does not depend on what the culler did before. -/
theorem list_cull (h : frame.IsTree) (hculler : culler.Reachable) (hother : other.Reachable) :
    (frame.cull.run culler).value.1 = (frame.cull.run other).value.1 := by
  have hitems : (frame.cull.run culler).value.1.items = _ :=
    Culler.items_cull h.unfolds_below hculler frame.settings
  have hitems' : (frame.cull.run other).value.1.items = _ :=
    Culler.items_cull h.unfolds_below hother frame.settings
  have hcount : (frame.cull.run culler).value.1.count +
      (frame.cull.run culler).value.1.culled = _ :=
    hculler.count_add_culled h.unfolds_below frame.settings
  have hcount' : (frame.cull.run other).value.1.count +
      (frame.cull.run other).value.1.culled = _ :=
    hother.count_add_culled h.unfolds_below frame.settings
  generalize (frame.cull.run culler).value.1 = list at hitems hcount
  generalize (frame.cull.run other).value.1 = list' at hitems' hcount'
  obtain ⟨items, culled⟩ := list
  obtain ⟨items', culled'⟩ := list'
  obtain rfl : items = items' := hitems.trans hitems'.symm
  obtain rfl : culled = culled' := Nat.add_left_cancel (hcount.trans hcount'.symm)
  rfl

/-- A table of bounds lists the same as the outline with its bounds, whatever earlier frames
left in the table, and the culler is the same afterwards. -/
theorem cullByKey_eq (h : frame.IsTree) (hculler : culler.Reachable)
    (clear : BoundTable → BoundTable) (table : BoundTable) :
    ((frame.cullByKey clear).run (culler, table)).value.1 = (frame.cull.run culler).value.1 ∧
      ((frame.cullByKey clear).run (culler, table)).value.2.1 =
        (frame.cull.run culler).value.2 := by
  have hsound := VolumePool.sound_of_live_eq_zero hculler.live_eq_zero
  have hkeys := (frame.tree.measure_takes frame.stage.root hsound).2
  have hnodup := h.nodup_outline
  rw [← hkeys] at hnodup
  have hlist := frame.tree.selectByKey_eq frame.stage frame.settings.traceCulling
    (frame.tree.measure frame.stage.root culler.pool).value.2
    (fun _ hlabel => Hierarchy.enter_of_mem hnodup hlabel table) false
  rw [hkeys] at hlist
  exact ⟨congrArg Logged.value hlist, rfl⟩

end Frame

/-! ## Runs -/

/-- Culls one frame after another, each in this way. -/
def cullFrames {σ : Type} (cull : Frame K → StateT σ Logged (PaintList K)) :
    List (Frame K) → StateT σ Logged (List (PaintList K))
  | [] => return []
  | frame :: frames => do
    let list ← cull frame
    let lists ← cullFrames cull frames
    return list :: lists

/-- By induction on the frames, for any state that has a culler in it: after each frame the
culler is reachable, so the next one is culled as if the culler were new. -/
theorem cullFrames_eq {σ : Type} {cull : Frame K → StateT σ Logged (PaintList K)}
    {culler : σ → Culler K} {frames : List (Frame K)} (htrees : ∀ frame ∈ frames, frame.IsTree)
    (hcull : ∀ frame ∈ frames, ∀ s, (culler s).Reachable →
      ((cull frame).run s).value.1 = (frame.cull.run (culler s)).value.1 ∧
      culler ((cull frame).run s).value.2 = (frame.cull.run (culler s)).value.2)
    {s : σ} (hs : (culler s).Reachable) (capacity : Settings) :
    ((cullFrames cull frames).run s).value.1 = frames.map (·.fresh capacity) ∧
      (culler ((cullFrames cull frames).run s).value.2).highWater =
        (frames.map (·.nodes.ncard)).foldl max (culler s).highWater := by
  induction frames generalizing s with
  | nil => exact ⟨rfl, rfl⟩
  | cons frame frames ih =>
      obtain ⟨htree, htrees⟩ := List.forall_mem_cons.mp htrees
      obtain ⟨hfirst, hcull⟩ := List.forall_mem_cons.mp hcull
      obtain ⟨hlist, hnext⟩ := hfirst s hs
      have hfresh : ((cull frame).run s).value.1 = frame.fresh capacity :=
        hlist.trans (frame.list_cull htree hs (.new capacity))
      have hreachable : (culler ((cull frame).run s).value.2).Reachable := by
        rw [hnext]
        exact hs.cull frame.tree frame.stage frame.settings
      obtain ⟨hlists, hhigh⟩ := ih htrees hcull hreachable
      rw [hnext, frame.highWater_cull htree hs] at hhigh
      exact ⟨congrArg₂ List.cons hfresh hlists, hhigh⟩

/-! ## Results -/

/-- A culler carries nothing from one frame to the next: it lists for each frame what a new
culler lists. Only its storage stays, for as many volumes as the greatest tree has nodes. The
same holds for a culler with a table of bounds by node, whatever is in the table at first and
however it is cleared between frames. -/
theorem Culler.cullFrames_fresh {frames : List (Frame K)}
    (htrees : ∀ frame ∈ frames, frame.IsTree) (settings capacity : Settings) :
    (((cullFrames Frame.cull frames).run (.new settings)).value.1 =
        frames.map (·.fresh capacity) ∧
      ((cullFrames Frame.cull frames).run (.new settings)).value.2.highWater =
        (frames.map (·.nodes.ncard)).foldl max 0) ∧
    ∀ (clear : BoundTable → BoundTable) (table : BoundTable),
      ((cullFrames (Frame.cullByKey clear) frames).run (.new settings, table)).value.1 =
        frames.map (·.fresh capacity) ∧
      ((cullFrames (Frame.cullByKey clear) frames).run
        (.new settings, table)).value.2.1.highWater =
          (frames.map (·.nodes.ncard)).foldl max 0 := by
  have hnew : (Culler.new settings : Culler K).Reachable := .new settings
  constructor
  · have hself : ∀ frame ∈ frames, ∀ culler : Culler K, (id culler).Reachable →
        (frame.cull.run culler).value.1 = (frame.cull.run (id culler)).value.1 ∧
          id (frame.cull.run culler).value.2 = (frame.cull.run (id culler)).value.2 :=
      fun _ _ _ _ => ⟨rfl, rfl⟩
    exact cullFrames_eq htrees hself hnew capacity
  · intro clear table
    exact cullFrames_eq (s := (.new settings, table)) htrees
      (fun frame hframe s hs => frame.cullByKey_eq (htrees frame hframe) hs clear s.2) hnew
      capacity

/-- Three nodes of a host program, then one of them alone, then a chain of three nodes of a scene
in slots that were used before. -/
theorem twins_cullFrames_fresh :
    let frames : List (Frame Rat) := [⟨twins, twinsStage, {}⟩,
      ⟨twins, { twinsStage with root := ⟨2, 1⟩ }, {}⟩, ⟨threeDeep.hierarchy, twinsStage, {}⟩]
    (∀ frame ∈ frames, frame.IsTree) ∧
      ((cullFrames Frame.cull frames).run (.new {})).value.1 = frames.map (·.fresh {}) ∧
      ((cullFrames Frame.cull frames).run (.new {})).value.2.highWater = 3 := by
  intro frames
  have hthree : (⟨twins, twinsStage, {}⟩ : Frame Rat).IsTree := isTree_twins
  have hone : (⟨twins, { twinsStage with root := ⟨2, 1⟩ }, {}⟩ : Frame Rat).IsTree :=
    .of_size_le (o := .node ⟨2, 1⟩ .nil .nil) (.node .nil .nil) (by decide) (by decide)
  have hchain : (⟨threeDeep.hierarchy, twinsStage, {}⟩ : Frame Rat).IsTree :=
    @Cullable.isTree Rat _ .ofSquares _ _ cullable_threeDeep
  have htrees : ∀ frame ∈ frames, frame.IsTree := by
    simpa [frames] using ⟨hthree, hone, hchain⟩
  obtain ⟨⟨hlists, hhigh⟩, -⟩ := Culler.cullFrames_fresh htrees {} {}
  have hsize : (threeDeep.hierarchy.outline twinsStage.root).size = 3 := by decide +kernel
  refine ⟨htrees, hlists, hhigh.trans ?_⟩
  simp only [frames, List.map_cons, List.map_nil, Frame.ncard_nodes hthree,
    Frame.ncard_nodes hone, Frame.ncard_nodes hchain, hsize]
  rfl

end SceneCulling
