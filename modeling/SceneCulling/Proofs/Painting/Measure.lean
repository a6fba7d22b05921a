import SceneCulling.Painting.SubtreeVolume
import SceneCulling.Scene.Placement
import SceneCulling.Proofs.Scene.Unfolding
import SceneCulling.Proofs.Volume.Pool
import SceneCulling.Proofs.Volume.Reachable

/-!
# Subtree volumes without storage

The subtree volume of a node by recursion on the nodes below it, with no pool and no slots.
Measuring a tree computes these volumes: it only ever writes to slots that it hands out
itself, so a volume stays in its slot while the rest of the tree is measured.
-/

namespace SceneCulling

variable {K : Type} [Scalar K]

namespace Hierarchy

variable {tree : Hierarchy K} {node child : NodeKey}

/-! ## The volumes -/

/-- The subtree volume of a node before any child is taken in. -/
def startVolume (tree : Hierarchy K) (node : NodeKey) : Option (Volume K) :=
  match (tree.ownVolume node).value with
  | some own => some own
  | none =>
    if (tree.size? node).any fun size => size.width != 0 && size.height != 0 then none
    else some (.new (some node))

/-- The subtree volume of a node after another child is taken in. There is none from the
first child on that is unbounded or cannot be enclosed. -/
def joined (tree : Hierarchy K) (node : NodeKey) : (acc child : Option (Volume K)) →
    Option (Volume K)
  | some own, some below =>
    if below.flags.empty then some own
    else match ((tree.enclose node below).perform own).value with
      | (.ok (), own) => some own
      | (.error _, _) => none
  | _, _ => none

/-- The subtree volume of a node after the children in an outline are taken in, each with
all nodes below it. -/
def gathered (tree : Hierarchy K) (node : NodeKey) :
    Outline NodeKey → (acc : Option (Volume K)) → Option (Volume K)
  | .nil, acc => acc
  | .node child below next, acc =>
    tree.gathered node next
      (tree.joined node acc (tree.gathered child below (tree.startVolume child)))

/-- Nothing is taken in once a node is unbounded. -/
theorem gathered_none (tree : Hierarchy K) (node : NodeKey) (o : Outline NodeKey) :
    tree.gathered node o none = none := by
  induction o with
  | nil => rfl
  | node _ _ _ _ ihn => exact ihn

/-- The volume that encloses all painting of a node and of the nodes below it, in the space
of the node. An unbounded node has none. -/
def subtreeVolume (tree : Hierarchy K) (node : NodeKey) : Option (Volume K) :=
  tree.gathered node (tree.below node) (tree.startVolume node)

/-- The trees of an outline are taken in one after the other, each with its subtree volume. -/
theorem gathered_eq_foldl {roots : List NodeKey} {o : Outline NodeKey}
    (hu : Outline.Unfolds tree.children roots o) (hunfolds : ∀ n ∈ o.preorder,
      Outline.Unfolds tree.children (tree.children n) (tree.below n))
    (acc : Option (Volume K)) : tree.gathered node o acc =
      roots.foldl (fun acc child => tree.joined node acc (tree.subtreeVolume child)) acc := by
  induction hu generalizing acc with
  | nil => rfl
  | @node child roots below next hbelow _ _ ihn =>
      have hvolume : tree.gathered child below (tree.startVolume child) =
          tree.subtreeVolume child := by
        rw [subtreeVolume, hbelow.unique (hunfolds child List.mem_cons_self)]
      rw [gathered, hvolume, List.foldl_cons]
      exact ihn (fun n hn => hunfolds n (Outline.mem_preorder.mpr (.inr (.inr hn)))) _

/-- The subtree volume of a node takes in those of its children in their order. -/
theorem subtreeVolume_eq_foldl
    (hunfolds : ∀ n ∈ (tree.outline node).preorder,
      Outline.Unfolds tree.children (tree.children n) (tree.below n)) :
    tree.subtreeVolume node = (tree.children node).foldl
      (fun acc child => tree.joined node acc (tree.subtreeVolume child))
      (tree.startVolume node) :=
  gathered_eq_foldl (hunfolds node List.mem_cons_self)
    (fun n hn => hunfolds n (Outline.mem_preorder.mpr (.inr (.inl hn)))) _

/-- An empty child adds nothing. -/
theorem joined_of_empty {own below : Volume K} (he : below.flags.empty = true) :
    tree.joined node (some own) (some below) = some own := by
  simp [joined, he]

/-- Any other child that can be taken to the space of the node is merged, if the volume of the
node can grow. -/
theorem joined_of_moved {own below moved : Volume K} {log : List Entry}
    (hmove : (tree.takeTo (some node)).perform below = ⟨(.ok (), moved), log⟩)
    (he : below.flags.empty = false) (hmoved : moved.FlagsSound) :
    tree.joined node (some own) (some below) =
      if own.flags.aligned then some (own.merged moved) else none := by
  have henclose : ((tree.enclose node below).perform own).value =
      ((Volume.union moved).perform own).value := by
    rw [enclose, Edit.perform_bind_of_ok (Edit.perform_onCopy_of_ok hmove own)]
  simp only [joined, he, Bool.false_eq_true, if_false, henclose]
  cases ha : own.flags.aligned with
  | true => rw [hmoved.perform_union ha, if_pos rfl]
  | false => rw [Volume.perform_union_refused moved ha, if_neg Bool.false_ne_true]

/-- A child's volume is enclosed after it is taken to the space of the node. -/
theorem perform_enclose {own below : Volume K} {m : Mat4 K}
    (hreference : below.reference = some child) (hm : tree.modelview? child node = some m) :
    (tree.enclose node below).perform own =
      (Volume.union ((below.transform m).withReference (some node))).perform own :=
  Edit.perform_bind_of_silent (Edit.perform_onCopy_of_ok (perform_takeTo hreference hm) own) _

/-! ## Measuring computes them -/

/-- A slot that is handed out holds the volume so far, unless the node is unbounded. -/
structure Holds (pool : VolumePool K) (slot : Nat) (bounded : Bool) (acc : Option (Volume K)) :
    Prop where
  live : slot < pool.live
  bounded_eq : bounded = acc.isSome
  stored : ∀ v, acc = some v → pool.get? slot = some v

omit [Scalar K] in
theorem Holds.of_kept {pool pool' : VolumePool K} {slot : Nat} {bounded : Bool}
    {acc : Option (Volume K)} (h : Holds pool slot bounded acc) (hlive : pool.live ≤ pool'.live)
    (hkept : pool'.get? slot = pool.get? slot) : Holds pool' slot bounded acc := by
  refine ⟨Nat.lt_of_lt_of_le h.live hlive, h.bounded_eq, fun v hv => ?_⟩
  rw [hkept]
  exact h.stored v hv

/-- The bound of a node refers to its volume as long as the slot is kept. -/
theorem Holds.volume?_eq {pool pool' : VolumePool K} {slot : Nat} {bounded : Bool}
    {acc : Option (Volume K)} (h : Holds pool slot bounded acc)
    (hkept : pool'.get? slot = pool.get? slot) :
    (if bounded then Bound.inSlot slot else .unbounded).volume? pool' = acc := by
  rw [h.bounded_eq]
  cases hacc : acc with
  | none => rfl
  | some v => exact hkept.trans (h.stored v hacc)

/-- A fresh slot is handed out for the volume that a node starts with. -/
theorem openVolume_spec {pool : VolumePool K} (h : pool.Sound) (tree : Hierarchy K)
    (node : NodeKey) {slot : Nat} {bounded : Bool} {after : VolumePool K}
    (hopen : (tree.openVolume node pool).value = ((slot, bounded), after)) :
    slot = pool.live ∧ after.live = pool.live + 1 ∧ after.Sound ∧
      (∀ other < pool.live, after.get? other = pool.get? other) ∧
      Holds after slot bounded (tree.startVolume node) := by
  have hsound := VolumePool.sound_allocate h (some node)
  have hget := VolumePool.get?_allocate h (some node)
  have hlive : pool.live < (pool.allocate (some node)).2.live := Nat.lt_succ_self _
  have hslot : (pool.allocate (some node)).1 = pool.live := rfl
  cases hown : (tree.ownVolume node).value with
  | some own =>
      have hvalue : (tree.openVolume node pool).value =
          ((pool.live, true), (pool.allocate (some node)).2.set pool.live own) := by
        simp [openVolume, hown, hslot]
      obtain ⟨hkey, rfl⟩ := Prod.mk.inj (hvalue.symm.trans hopen)
      obtain ⟨rfl, rfl⟩ := Prod.mk.inj hkey
      have hset := VolumePool.get?_set hsound hlive own
      refine ⟨rfl, VolumePool.live_set _ _ _, VolumePool.sound_set hsound _ _,
        fun other hother => ?_, ⟨?_, ?_, fun v hv => ?_⟩⟩
      · have hne : other ≠ pool.live := Nat.ne_of_lt hother
        rw [hset, if_neg hne, hget, if_neg hne]
      · rw [VolumePool.live_set]
        exact hlive
      · simp [startVolume, hown]
      · rw [hset, if_pos rfl, ← hv]
        simp [startVolume, hown]
  | none =>
      have hvalue : (tree.openVolume node pool).value =
          ((pool.live, !(tree.size? node).any fun size => size.width != 0 && size.height != 0),
            (pool.allocate (some node)).2) := by
        simp [openVolume, hown, hslot]
      obtain ⟨hkey, rfl⟩ := Prod.mk.inj (hvalue.symm.trans hopen)
      obtain ⟨rfl, rfl⟩ := Prod.mk.inj hkey
      refine ⟨rfl, rfl, hsound, fun other hother => ?_, ⟨Nat.lt_succ_self _, ?_, fun v hv => ?_⟩⟩
      · rw [hget, if_neg (Nat.ne_of_lt hother)]
      · simp only [startVolume, hown]
        split <;> simp_all
      · simp only [startVolume, hown] at hv
        rw [hget, if_pos rfl]
        split at hv
        · cases hv
        · exact hv

/-- What taking in a child makes of a pool: only the slot of the node is written, and it holds
the result. -/
structure Merged (pool after : VolumePool K) (slot : Nat) (bounded : Bool)
    (result : Option (Volume K)) : Prop where
  live : after.live = pool.live
  sound : after.Sound
  kept : ∀ other, other ≠ slot → after.get? other = pool.get? other
  holds : Holds after slot bounded result

omit [Scalar K] in
theorem Merged.unchanged {pool : VolumePool K} (h : pool.Sound) {slot : Nat}
    (hslot : slot < pool.live) {bounded : Bool} {result : Option (Volume K)}
    (hbounded : bounded = result.isSome)
    (hstored : ∀ v, result = some v → pool.get? slot = some v) :
    Merged pool pool slot bounded result :=
  ⟨rfl, h, fun _ _ => rfl, hslot, hbounded, hstored⟩

omit [Scalar K] in
theorem Merged.written {pool : VolumePool K} (h : pool.Sound) {slot : Nat}
    (hslot : slot < pool.live) (v : Volume K) (bounded : Bool) :
    Merged pool (pool.set slot v) slot bounded (if bounded then some v else none) := by
  have hset := VolumePool.get?_set h hslot v
  refine ⟨VolumePool.live_set _ _ _, VolumePool.sound_set h _ _, fun other hother => ?_,
    ?_, ?_, fun u hu => ?_⟩
  · rw [hset, if_neg hother]
  · rw [VolumePool.live_set]
    exact hslot
  · cases bounded <;> rfl
  · rw [hset, if_pos rfl]
    cases bounded with
    | false => cases hu
    | true => exact hu

theorem merge_spec {pool : VolumePool K} (h : pool.Sound) {slot : Nat} {bounded : Bool}
    {acc : Option (Volume K)} (hacc : Holds pool slot bounded acc) {bound : Bound}
    (hbound : ∀ s, bound = .inSlot s → (pool.get? s).isSome) {bounded' : Bool}
    {after : VolumePool K}
    (hmerge : (tree.merge node slot bounded child bound pool).value = (bounded', after)) :
    Merged pool after slot bounded' (tree.joined node acc (bound.volume? pool)) := by
  cases bound with
  | unbounded =>
      obtain ⟨rfl, rfl⟩ := Prod.mk.inj hmerge
      have hjoined : tree.joined node acc (Bound.volume? pool .unbounded) = none := by
        cases acc <;> rfl
      rw [hjoined]
      exact .unchanged h hacc.live rfl fun v hv => absurd hv (by simp)
  | inSlot childSlot =>
      obtain ⟨below, hbelow⟩ := Option.isSome_iff_exists.mp (hbound childSlot rfl)
      have hvolume : Bound.volume? pool (.inSlot childSlot) = some below := hbelow
      rw [hvolume]
      cases acc with
      | none =>
          have hfalse : bounded = false := hacc.bounded_eq
          simp only [merge, hfalse] at hmerge
          obtain ⟨rfl, rfl⟩ := Prod.mk.inj hmerge
          exact .unchanged h hacc.live rfl fun v hv => absurd hv (by simp [joined])
      | some own =>
          have htrue : bounded = true := hacc.bounded_eq
          have hown := hacc.stored own rfl
          cases he : below.flags.empty with
          | true =>
              simp only [merge, htrue, hbelow, hown, he] at hmerge
              obtain ⟨rfl, rfl⟩ := Prod.mk.inj hmerge
              have hjoined : tree.joined node (some own) (some below) = some own := by
                simp [joined, he]
              rw [hjoined]
              exact .unchanged h hacc.live rfl fun v hv => hown.trans hv
          | false =>
              rcases hperform : ((tree.enclose node below).perform own).value with ⟨result, u⟩
              have hvalue : (tree.merge node slot bounded child (.inSlot childSlot) pool).value =
                  (result.isOk, pool.set slot u) := by
                simp only [merge, htrue, hbelow, hown, he]
                rw [Bool.not_true, if_neg (by decide), if_neg (by decide)]
                cases result <;> simp [hperform] <;> rfl
              obtain ⟨rfl, rfl⟩ := Prod.mk.inj (hvalue.symm.trans hmerge)
              have hjoined : tree.joined node (some own) (some below) =
                  if result.isOk then some u else none := by
                cases result <;> simp [joined, he, hperform] <;> rfl
              rw [hjoined]
              exact .written h hacc.live u _

/-- A label with the volume that its bound refers to. -/
def labelVolume (pool : VolumePool K) (label : NodeKey × Bound) :
    NodeKey × Option (Volume K) := (label.1, label.2.volume? pool)

/-- All slots that an outline refers to lie in a range. -/
def SlotsWithin (low high : Nat) (labelled : Outline (NodeKey × Bound)) : Prop :=
  ∀ label ∈ labelled.preorder, ∀ slot, label.2 = .inSlot slot → low ≤ slot ∧ slot < high

/-- The bound of a node refers to its slot, if the node is bounded. -/
theorem eq_of_inSlot {bounded : Bool} {slot other : Nat}
    (h : (if bounded then Bound.inSlot slot else .unbounded) = .inSlot other) :
    bounded = true ∧ slot = other := by
  cases bounded with
  | false => simp at h
  | true => exact ⟨rfl, by simpa using h⟩

theorem SlotsWithin.mono {low high low' high' : Nat} {labelled : Outline (NodeKey × Bound)}
    (h : SlotsWithin low high labelled) (hlow : low' ≤ low) (hhigh : high ≤ high') :
    SlotsWithin low' high' labelled := by
  intro label hlabel slot hslot
  obtain ⟨hl, hh⟩ := h label hlabel slot hslot
  exact ⟨Nat.le_trans hlow hl, Nat.lt_of_lt_of_le hh hhigh⟩

theorem SlotsWithin.cons {low high slot : Nat} {child : NodeKey} {bounded : Bool}
    {below next : Outline (NodeKey × Bound)} (hslot : low ≤ slot ∧ slot < high)
    (hbelow : SlotsWithin low high below) (hnext : SlotsWithin low high next) :
    SlotsWithin low high
      (.node (child, if bounded then .inSlot slot else .unbounded) below next) := by
  intro label hlabel other hother
  rcases Outline.mem_preorder.mp hlabel with rfl | hlabel | hlabel
  · obtain ⟨-, rfl⟩ := eq_of_inSlot hother
    exact hslot
  · exact hbelow label hlabel other hother
  · exact hnext label hlabel other hother

theorem map_labelVolume_of_kept {low high : Nat} {labelled : Outline (NodeKey × Bound)}
    (h : SlotsWithin low high labelled) {pool pool' : VolumePool K}
    (hkept : ∀ slot, low ≤ slot → slot < high → pool'.get? slot = pool.get? slot) :
    labelled.map (labelVolume pool') = labelled.map (labelVolume pool) := by
  induction labelled with
  | nil => rfl
  | node label below next ihb ihn =>
      obtain ⟨node, bound⟩ := label
      have hlabel : bound.volume? pool' = bound.volume? pool := by
        cases bound with
        | unbounded => rfl
        | inSlot slot =>
            obtain ⟨hlow, hhigh⟩ := h (node, .inSlot slot) List.mem_cons_self slot rfl
            exact hkept slot hlow hhigh
      have hbelow := ihb fun label hl =>
        h label (List.mem_cons_of_mem _ (List.mem_append_left _ hl))
      have hnext := ihn fun label hl =>
        h label (List.mem_cons_of_mem _ (List.mem_append_right _ hl))
      simp only [Outline.map, labelVolume, hlabel, hbelow, hnext]

/-- What measuring some trees makes of a pool, an outline of them, and the volume so far of
the node above: only slots beyond the old ones are referred to, and of the old slots only
that of the node is written. -/
structure Measured (tree : Hierarchy K) (o : Outline NodeKey) (pool after : VolumePool K)
    (slot : Nat) (labelled : Outline (NodeKey × Bound)) : Prop where
  sound : after.Sound
  live : pool.live ≤ after.live
  kept : ∀ other < pool.live, other ≠ slot → after.get? other = pool.get? other
  within : SlotsWithin pool.live after.live labelled
  volumes : labelled.map (labelVolume after) = o.map fun n => (n, tree.subtreeVolume n)

theorem measureBelow_node (tree : Hierarchy K) (node child : NodeKey) (slot : Nat)
    (below next : Outline NodeKey) (bounded : Bool) (pool : VolumePool K) :
    (tree.measureBelow node slot (.node child below next) bounded pool).value =
      (let opened := (tree.openVolume child pool).value
       let inner := (tree.measureBelow child opened.1.1 below opened.1.2 opened.2).value
       let bound := if inner.1.2 then Bound.inSlot opened.1.1 else .unbounded
       let merged := (tree.merge node slot bounded child bound inner.2).value
       let rest := (tree.measureBelow node slot next merged.1 merged.2).value
       ((.node (child, bound) inner.1.1 rest.1.1, rest.1.2), rest.2)) := rfl

/-- Measuring the trees below a node gathers their volumes in the slot of the node. -/
theorem measureBelow_spec {roots : List NodeKey} {o : Outline NodeKey}
    (hu : Outline.Unfolds tree.children roots o) (hunfolds : ∀ n ∈ o.preorder,
      Outline.Unfolds tree.children (tree.children n) (tree.below n))
    {pool : VolumePool K} (h : pool.Sound) {slot : Nat} {bounded : Bool}
    {acc : Option (Volume K)} (hacc : Holds pool slot bounded acc)
    {labelled : Outline (NodeKey × Bound)} {bounded' : Bool} {after : VolumePool K}
    (hmeasure : (tree.measureBelow node slot o bounded pool).value =
      ((labelled, bounded'), after)) :
    Measured tree o pool after slot labelled ∧
      Holds after slot bounded' (tree.gathered node o acc) := by
  induction hu generalizing node pool slot bounded acc labelled bounded' after with
  | nil =>
      obtain ⟨hlabels, rfl⟩ := Prod.mk.inj hmeasure
      obtain ⟨rfl, rfl⟩ := Prod.mk.inj hlabels
      exact ⟨⟨h, Nat.le_refl _, fun _ _ _ => rfl, fun _ hl => absurd hl List.not_mem_nil, rfl⟩,
        hacc⟩
  | @node child roots below next hbelow _ ihb ihn =>
      rw [measureBelow_node] at hmeasure
      rcases hopened : (tree.openVolume child pool).value with ⟨⟨childSlot, opened⟩, pool1⟩
      rcases hinner : (tree.measureBelow child childSlot below opened pool1).value with
        ⟨⟨labelledBelow, childBounded⟩, pool2⟩
      obtain ⟨rfl, hlive1, hsound1, hkept1, hholds1⟩ := openVolume_spec h tree child hopened
      have hunfoldsBelow := fun n hn => hunfolds n (Outline.mem_preorder.mpr (.inr (.inl hn)))
      have hunfoldsNext := fun n hn => hunfolds n (Outline.mem_preorder.mpr (.inr (.inr hn)))
      obtain ⟨hbelowMeasured, hholds2⟩ := ihb hunfoldsBelow hsound1 hholds1 hinner
      have hvolume : tree.gathered child below (tree.startVolume child) =
          tree.subtreeVolume child := by
        rw [subtreeVolume, hbelow.unique (hunfolds child List.mem_cons_self)]
      rw [hvolume] at hholds2
      have hslot := hacc.live
      have hlive2 := hbelowMeasured.live
      have hacc2 : Holds pool2 slot bounded acc := by
        refine hacc.of_kept (by omega) ?_
        rw [hbelowMeasured.kept slot (by omega) (by omega), hkept1 slot hslot]
      have hstored : ∀ s, (if childBounded then Bound.inSlot pool.live else .unbounded) =
          .inSlot s → (pool2.get? s).isSome := by
        intro s hs
        obtain ⟨hb, rfl⟩ := eq_of_inSlot hs
        obtain ⟨v, hv⟩ := Option.isSome_iff_exists.mp (hholds2.bounded_eq.symm.trans hb)
        rw [hholds2.stored v hv]
        rfl
      rcases hmerged : (tree.merge node slot bounded child
        (if childBounded then Bound.inSlot pool.live else .unbounded) pool2).value with
        ⟨mergedBounded, pool3⟩
      obtain ⟨hlive3, hsound3, hkept3, hholds3⟩ :=
        merge_spec hbelowMeasured.sound hacc2 hstored hmerged
      rw [hholds2.volume?_eq rfl] at hholds3
      rcases hrest : (tree.measureBelow node slot next mergedBounded pool3).value with
        ⟨⟨labelledNext, restBounded⟩, pool4⟩
      obtain ⟨hnextMeasured, hholds4⟩ := ihn hunfoldsNext hsound3 hholds3 hrest
      have hlive4 := hnextMeasured.live
      simp only [hopened, hinner, hmerged, hrest] at hmeasure
      obtain ⟨hlabels, rfl⟩ := Prod.mk.inj hmeasure
      obtain ⟨rfl, rfl⟩ := Prod.mk.inj hlabels
      have hlater : ∀ other < pool2.live, other ≠ slot →
          pool4.get? other = pool2.get? other := by
        intro other hother hne
        rw [hnextMeasured.kept other (by omega) hne, hkept3 other hne]
      refine ⟨⟨hnextMeasured.sound, by omega, fun other hother hne => ?_, ?_, ?_⟩, ?_⟩
      · rw [hlater other (by omega) hne, hbelowMeasured.kept other (by omega) (by omega),
          hkept1 other hother]
      · exact .cons ⟨Nat.le_refl _, by omega⟩ (hbelowMeasured.within.mono (by omega) (by omega))
          (hnextMeasured.within.mono (by omega) (Nat.le_refl _))
      · have hhead := hholds2.volume?_eq (hlater pool.live (by omega) (by omega))
        have hunder := map_labelVolume_of_kept hbelowMeasured.within
          fun s hlow hhigh => hlater s hhigh (by omega)
        simp only [Outline.map, labelVolume, hhead]
        rw [← hbelowMeasured.volumes, ← hnextMeasured.volumes, ← hunder]
      · change Holds pool4 slot restBounded (tree.gathered node next
          (tree.joined node acc (tree.gathered child below (tree.startVolume child))))
        rw [hvolume]
        exact hholds4

/-- Measuring the tree under a root labels each of its nodes with a bound that refers to
the subtree volume of the node. -/
theorem measure_spec {root : NodeKey} (hunfolds : ∀ n ∈ (tree.outline root).preorder,
      Outline.Unfolds tree.children (tree.children n) (tree.below n))
    {pool : VolumePool K} (h : pool.Sound) :
    (tree.measure root pool).value.1.map (labelVolume (tree.measure root pool).value.2) =
      (tree.outline root).map fun n => (n, tree.subtreeVolume n) := by
  rcases hopened : (tree.openVolume root pool).value with ⟨⟨slot, opened⟩, pool1⟩
  rcases hinner : (tree.measureBelow root slot (tree.below root) opened pool1).value with
    ⟨⟨labelled, bounded⟩, pool2⟩
  obtain ⟨rfl, -, hsound1, -, hholds1⟩ := openVolume_spec h tree root hopened
  have hbelow : ∀ n ∈ (tree.below root).preorder,
      Outline.Unfolds tree.children (tree.children n) (tree.below n) :=
    fun n hn => hunfolds n (Outline.mem_preorder.mpr (.inr (.inl hn)))
  obtain ⟨hmeasured, hholds2⟩ :=
    measureBelow_spec (hunfolds root List.mem_cons_self) hbelow hsound1 hholds1 hinner
  have hvalue : (tree.measure root pool).value =
      (.node (root, if bounded then .inSlot pool.live else .unbounded) labelled .nil, pool2) := by
    change (let opened := (tree.openVolume root pool).value
      let inner :=
        (tree.measureBelow root opened.1.1 (tree.below root) opened.1.2 opened.2).value
      ((.node (root, if inner.1.2 then Bound.inSlot opened.1.1 else .unbounded) inner.1.1 .nil,
        inner.2) : Outline (NodeKey × Bound) × VolumePool K)) = _
    simp only [hopened, hinner]
  rw [hvalue]
  simp only [Outline.map, outline, labelVolume, hholds2.volume?_eq rfl, ← hmeasured.volumes]
  rfl

end Hierarchy

end SceneCulling
