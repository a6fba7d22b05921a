import Mathlib.Tactic.FieldSimp
import SceneCulling.Proofs.Painting.Locality
import SceneCulling.Proofs.Stage.Window

/-!
# Painted pixels are nested

The subtree volume of a node holds the node's own volume and the subtree volumes of the
children. In the window this stays true as long as all of it is in front of the eye. To divide
by positive weights takes segments to segments, though not evenly, so it takes hulls to hulls;
the rectangle around a hull is that around its vertices; and to round outwards to whole pixels
keeps rectangles within each other.
-/

namespace SceneCulling

/-! ## Perspective -/

/-- Along a segment the image in homogeneous coordinates changes evenly. -/
theorem Mat4.apply_between (m : Mat4 Rat) (a b : Vec3 Rat) (t : Rat) :
    m.apply ((a.between b t).withWeight 1) =
      (m.apply (a.withWeight 1)).scale (1 - t) + (m.apply (b.withWeight 1)).scale t := by
  ext <;> simp only [apply, Vec3.between, Vec3.withWeight, Vec4.scale, Vec4.add_x, Vec4.add_y,
    Vec4.add_z, Vec4.add_w] <;> ring

/-- The quotient by a weight that changes along the way, as a part of the way. -/
private theorem divide_between {x y v w u t : Rat} (hv : v ≠ 0) (hw : w ≠ 0) (hu : u ≠ 0)
    (hsum : u = v * (1 - t) + w * t) :
    (x * (1 - t) + y * t) / u = x / v + w * t / u * (y / w - x / v) := by
  field_simp
  rw [hsum]
  ring

/-- In front of the eye the place in the window is that of the divided coordinates. -/
theorem Viewport.place_of_pos (view : Viewport Rat) {c : Vec4 Rat} (hc : 0 < c.w) :
    view.place c = ⟨view.x + (c.x / c.w + 1) * (1 / 2) * view.width,
      view.y + view.height - (c.y / c.w + 1) * (1 / 2) * view.height,
      view.nearDepth + (c.z / c.w + 1) * (1 / 2) * (view.farDepth - view.nearDepth)⟩ := by
  simp [place, hc.ne', Vec3.divide, Vec4.xyz]

/-- Between two points of clip space in front of the eye all is in front of the eye, and in the
window it is between their places, nearer to the place of the greater weight. -/
theorem Viewport.place_between (view : Viewport Rat) {c d : Vec4 Rat} {t : Rat} (hc : 0 < c.w)
    (hd : 0 < d.w) (h0 : 0 ≤ t) (h1 : t ≤ 1) :
    0 < (c.scale (1 - t) + d.scale t).w ∧ ∃ s, 0 ≤ s ∧ s ≤ 1 ∧
      view.place (c.scale (1 - t) + d.scale t) = (view.place c).between (view.place d) s := by
  have hrest : 0 ≤ c.w * (1 - t) := mul_nonneg hc.le (sub_nonneg.mpr h1)
  have hpart : 0 ≤ d.w * t := mul_nonneg hd.le h0
  have hw : 0 < (c.scale (1 - t) + d.scale t).w := by
    change 0 < c.w * (1 - t) + d.w * t
    rcases h1.lt_or_eq with hlt | rfl
    · exact add_pos_of_pos_of_nonneg (mul_pos hc (sub_pos.mpr hlt)) hpart
    · simpa using hd
  have hdivide : ∀ x y : Rat, (x * (1 - t) + y * t) / (c.scale (1 - t) + d.scale t).w =
      x / c.w + d.w * t / (c.scale (1 - t) + d.scale t).w * (y / d.w - x / c.w) :=
    fun x y => divide_between hc.ne' hd.ne' hw.ne' rfl
  refine ⟨hw, d.w * t / (c.scale (1 - t) + d.scale t).w, div_nonneg hpart hw.le, ?_, ?_⟩
  · rw [div_le_one hw]
    exact le_add_of_nonneg_left hrest
  · rw [view.place_of_pos hw, view.place_of_pos hc, view.place_of_pos hd]
    simp only [Vec4.add_x, Vec4.add_y, Vec4.add_z, Vec4.scale] at hdivide ⊢
    rw [hdivide, hdivide, hdivide]
    ext <;> simp only [Vec3.between] <;> ring

namespace InHull

variable {ps : List (Vec3 Rat)} {p : Vec3 Rat} {m : Mat4 Rat}

/-- The hull of points in front of the eye is in front of the eye, and its places in the window
are in the hull of the places of the points. -/
theorem windowPoint (h : InHull ps p) (view : Viewport Rat)
    (hfront : ∀ q ∈ ps, 0 < (m.apply (q.withWeight 1)).w) :
    0 < (m.apply (p.withWeight 1)).w ∧
      InHull (ps.map (view.windowPoint m)) (view.windowPoint m p) := by
  induction h with
  | vertex hp => exact ⟨hfront _ hp, .vertex (List.mem_map_of_mem hp)⟩
  | @between a b t _ _ h0 h1 iha ihb =>
      obtain ⟨ha, hpa⟩ := iha
      obtain ⟨hb, hpb⟩ := ihb
      obtain ⟨hw, s, hs0, hs1, hplace⟩ := view.place_between ha hb h0 h1
      rw [Viewport.windowPoint, Mat4.apply_between, hplace]
      exact ⟨hw, .between hpa hpb hs0 hs1⟩

/-- The hull of points within a side of a rectangle is within that side. -/
theorem offset_nonneg {r : Rect Rat} {side : Side} (h : InHull ps p)
    (hps : ∀ q ∈ ps, 0 ≤ side.offset r q) : 0 ≤ side.offset r p := by
  induction h with
  | vertex hp => exact hps _ hp
  | @between a b t _ _ h0 h1 iha ihb =>
      have hbetween : side.offset r (a.between b t) =
          (1 - t) * side.offset r a + t * side.offset r b := by
        cases side <;> simp only [Side.offset, Vec3.between] <;> ring
      rw [hbetween]
      exact add_nonneg (mul_nonneg (sub_nonneg.mpr h1) iha) (mul_nonneg h0 ihb)

end InHull

namespace Rect

variable {r s : Rect Rat}

/-- A rectangle around points of a hull is within the rectangle around the hull. -/
theorem Around.within_of_hull {ps qs : List (Vec3 Rat)} (hr : r.Around ps) (hs : s.Around qs)
    (hhull : ∀ p ∈ ps, InHull qs p) : r.Within s :=
  hr.within_iff.mpr fun side p hp => (hhull p hp).offset_nonneg (hs.holds side)

/-- Rounding outwards to whole pixels keeps a rectangle within another one. -/
theorem Within.toPixels (h : r.Within s) : r.toPixels.Within s.toPixels := by
  obtain ⟨hleft, hright, hbottom, htop⟩ := h
  have hfloor : ∀ {a b : Rat}, a ≤ b → Scalar.floor a ≤ Scalar.floor b :=
    fun hab => Int.cast_le.mpr (Rat.floor_monotone hab)
  have hceil : ∀ {a b : Rat}, a ≤ b → Scalar.ceil a ≤ Scalar.ceil b :=
    fun hab => Int.cast_le.mpr (Rat.ceil_le_iff.mpr (hab.trans Rat.le_ceil))
  exact ⟨hfloor hleft, hceil hright, hceil hbottom, hfloor htop⟩

end Rect

/-- A volume whose points in eye space are all points of another one, which is in front of the
eye, covers no more of the window than that one. -/
theorem Volume.boundingRect_project_within {u v : Volume Rat} {a b projection : Mat4 Rat}
    (ha : a.IsAffine) (hb : b.IsAffine) (view : Viewport Rat) (he : u.flags.empty = false)
    (hregion : ∀ p, u.Contains p → ∃ q, v.Contains q ∧ a.applyPoint p = b.applyPoint q)
    (hfront : ∀ q ∈ v.complete.vertices, 0 < ((projection * b).apply (q.withWeight 1)).w) :
    (u.project a projection view).boundingRect.Within
      (v.project b projection view).boundingRect := by
  refine (u.around_boundingRect_project a projection view).within_of_hull
    (v.around_boundingRect_project b projection view) fun place hplace => ?_
  obtain ⟨p, hp, rfl⟩ := List.mem_map.mp hplace
  obtain ⟨q, ⟨-, hq⟩, hsame⟩ := hregion p ⟨he, .vertex hp⟩
  have hwindow : view.windowPoint (projection * a) p = view.windowPoint (projection * b) q := by
    rw [← view.windowPoint_applyPoint ha, hsame, view.windowPoint_applyPoint hb]
  rw [hwindow]
  exact (hq.windowPoint view hfront).2

/-! ## Nodes -/

namespace Hierarchy

variable {tree : Hierarchy Rat} {stage : Stage Rat} {node child : NodeKey}
  {own below v : Volume Rat} {toRoot : Mat4 Rat}

/-- The subtree volume of a node is in front of the eye of a stage: its vertices have positive
weights in clip space. -/
def InFront (tree : Hierarchy Rat) (stage : Stage Rat) (node : NodeKey) : Prop :=
  ∀ toRoot v, tree.modelview? node stage.root = some toRoot →
    tree.subtreeVolume node = some v → ∀ q ∈ v.complete.vertices,
      0 < ((stage.projection * (stage.eye * toRoot)).apply (q.withWeight 1)).w

/-- An item of the naive walk is the verdict on its node. -/
theorem verdict_of_mem_naiveItems {item : PaintItem Rat} (hitem : item ∈ tree.naiveItems stage) :
    item.node ∈ (tree.outline stage.root).preorder ∧
      tree.verdict stage false item.node (tree.subtreeVolume item.node) = some item := by
  obtain ⟨n, hn, hverdict⟩ := List.mem_filterMap.mp hitem
  obtain ⟨rfl, -⟩ := of_verdict hverdict
  exact ⟨hn, hverdict⟩

/-- A bounded node that is painted has a volume that is not empty, and the pixels of it. -/
theorem of_verdict_some {inside : Bool} {item : PaintItem Rat}
    (h : tree.verdict stage inside node (some v) = some item) :
    v.flags.empty = false ∧ item.pixels = (tree.pixelRect stage v).run.value.toOption := by
  have hvisible : (tree.test stage inside node v).value ≠ .outside := by
    intro hout
    rw [(verdict_eq_none_iff tree stage inside node v).mpr hout] at h
    cases h
  constructor
  · by_contra hempty
    have he : v.flags.empty = true := by simpa using hempty
    exact hvisible (by simp [test, he])
  · rw [verdict, if_neg hvisible] at h
    obtain rfl := Option.some.inj h
    rfl

/-- The window rectangle of a volume in the space of a node. -/
def windowRect (stage : Stage Rat) (toRoot : Mat4 Rat) (v : Volume Rat) : Rect Rat :=
  (v.project (stage.eye * toRoot) stage.projection stage.viewport).boundingRect

/-- The pixels of a volume in the space of a node under the root of a stage. -/
theorem InSpace.pixels (hv : InSpace node v)
    (hroot : tree.modelview? node stage.root = some toRoot) :
    (tree.pixelRect stage v).run.value.toOption = some (windowRect stage toRoot v).toPixels := by
  rw [run_pixelRect hv.reference_eq hroot]
  rfl

section Nested

variable (h : tree.Coherent stage.root) (hnode : node ∈ (tree.outline stage.root).preorder)
  (hv : tree.subtreeVolume node = some v)
  (hroot : tree.modelview? node stage.root = some toRoot)
include h hnode hv hroot

/-- The item of a bounded node has the pixels of the subtree volume. -/
theorem Coherent.pixels_of_verdict {item : PaintItem Rat}
    (hverdict : tree.verdict stage false node (tree.subtreeVolume node) = some item) :
    v.flags.empty = false ∧ item.pixels = some (windowRect stage toRoot v).toPixels := by
  obtain ⟨_, -, hgathers⟩ := h.subtreeVolume hnode hv
  rw [hv] at hverdict
  obtain ⟨he, hpixels⟩ := of_verdict_some hverdict
  exact ⟨he, hpixels.trans (hgathers.toInSpace.pixels hroot)⟩

variable (heye : stage.eye.IsAffine) (haffine : toRoot.IsAffine)
  (hfront : tree.InFront stage node)
include heye haffine hfront

/-- What is painted under a child covers no more of the window than what is painted under its
parent. -/
theorem Coherent.child_within (hchild : child ∈ tree.children node)
    (hbelow : tree.subtreeVolume child = some below) (he : below.flags.empty = false)
    {toRoot' : Mat4 Rat} (hroot' : tree.modelview? child stage.root = some toRoot')
    (haffine' : toRoot'.IsAffine) :
    (windowRect stage toRoot' below).Within (windowRect stage toRoot v) := by
  obtain ⟨below', hbelow', hregion⟩ := h.child_nested hnode hv hchild hroot hroot'
  obtain rfl := Option.some.inj (hbelow.symm.trans hbelow')
  refine Volume.boundingRect_project_within (heye.mul haffine') (heye.mul haffine)
    stage.viewport he (fun p hp => ?_) (hfront toRoot v hroot hv)
  obtain ⟨q, hq, hsame⟩ := hregion p hp
  refine ⟨q, hq, ?_⟩
  rw [Mat4.applyPoint_mul heye haffine', Mat4.applyPoint_mul heye haffine, hsame]

/-- What a node paints itself covers no more of the window than what is painted under it. -/
theorem Coherent.own_within (hown : (tree.ownVolume node).value = some own)
    (he : own.flags.empty = false) :
    (windowRect stage toRoot own).Within (windowRect stage toRoot v) :=
  Volume.boundingRect_project_within (heye.mul haffine) (heye.mul haffine) stage.viewport he
    (fun p hp => ⟨p, h.own_nested hnode hown hp hv, rfl⟩) (hfront toRoot v hroot hv)

end Nested

end Hierarchy

namespace Scene

variable {scene : Scene Rat}

/-! ### A square that stands on another one -/

/-- The x axis turns towards the eye. -/
def towardsEye : Mat4 Rat := ⟨⟨0, 0, 1, 0⟩, ⟨0, 1, 0, 0⟩, ⟨-1, 0, 0, 0⟩, ⟨0, 0, 0, 1⟩⟩

/-- A square, and another one that stands on its left edge. -/
def standing : Scene Rat :=
  let scene := ((createNode none .identity).perform (.empty : Scene Rat)).value.2
  let scene := ((createNode (some ⟨1, 1⟩) towardsEye).perform scene).value.2
  let scene := ((setSize ⟨1, 1⟩ (some ⟨1, 1⟩)).perform scene).value.2
  ((setSize ⟨2, 1⟩ (some ⟨1, 1⟩)).perform scene).value.2

theorem reachable_standing [Approximation Rat] : standing.Reachable := by
  have hroot := Reachable.empty.step (.createNode _ none (.identity : Mat4 Rat))
  have hchild := hroot.step (.createNode _ (some ⟨1, 1⟩) towardsEye)
  have hsize := hchild.step (.setSize _ ⟨1, 1⟩ (some ⟨1, 1⟩))
  exact hsize.step (.setSize _ ⟨2, 1⟩ (some ⟨1, 1⟩))

theorem standing_isExact (k : NodeKey) (entry : Node Rat)
    (h : standing.nodes.get? k = some entry) : entry.IsExact := by
  have hslots : standing.nodes.slots = #[
      ⟨1, some ⟨none, [⟨2, 1⟩], .identity, some ⟨1, 1⟩, []⟩⟩,
      ⟨1, some ⟨some ⟨1, 1⟩, [], towardsEye, some ⟨1, 1⟩, []⟩⟩] := rfl
  obtain ⟨slot, hslot, hvalue⟩ := KeyStore.exists_slot_of_get? h
  rw [hslots] at hslot
  simp only [List.mem_toArray, List.mem_cons, List.not_mem_nil, or_false] at hslot
  rcases hslot with rfl | rfl
  · obtain rfl := Option.some.inj hvalue
    exact ⟨Mat4.isAffine_identity, fun _ h => absurd h List.not_mem_nil⟩
  · obtain rfl := Option.some.inj hvalue
    exact ⟨⟨rfl, rfl, rfl, rfl⟩, fun _ h => absurd h List.not_mem_nil⟩

/-- The eye looks at the squares from a distance, through a right angle. -/
def standingStage : Stage Rat :=
  let _ := Approximation.ofSquares
  Stage.rightAngleStage.change (.eye (.shift ⟨0, 0, -3⟩))

/-- What culling lists of the squares. -/
def standingView : PaintList Rat :=
  ((Culler.cull standing.hierarchy standingStage {}).run (.new {})).value.1

theorem standing_inFront : standing.hierarchy.InFront standingStage ⟨1, 1⟩ := by
  intro toRoot v hroot hv
  have hself : standing.hierarchy.modelview? ⟨1, 1⟩ standingStage.root = some .identity := rfl
  obtain rfl := Option.some.inj (hself.symm.trans hroot)
  have hfront : ∀ q ∈ ((standing.hierarchy.subtreeVolume ⟨1, 1⟩).getD
      (.new none)).complete.vertices, 0 < ((standingStage.projection *
        (standingStage.eye * .identity)).apply (q.withWeight 1)).w := by
    decide +kernel
  rwa [hv] at hfront

/-! ## Results -/

/-- The pixels of a bounded node that is in front of the eye hold the pixels of each of its
children that is listed, and the pixels of the node itself in the list of everything, unless
the node itself paints nothing. -/
theorem pixels_nested [Approximation Rat] (h : scene.Reachable)
    (haffine : ∀ key m, scene.transform? key = some m → m.IsAffine)
    (hpublic : ∀ key, ∀ effect ∈ scene.effects key, effect.IsPublic)
    {stage : Stage Rat} (heye : stage.eye.IsAffine)
    {culler : Culler Rat} (hculler : culler.Reachable) (settings : Settings)
    {view : PaintList Rat}
    (hview : view = ((Culler.cull scene.hierarchy stage settings).run culler).value.1)
    {item : PaintItem Rat} (hitem : item ∈ view.items) (hbounded : item.visibility.isSome)
    (hfront : scene.hierarchy.InFront stage item.node) :
    ∃ rect, item.pixels = some rect ∧
      (∀ inner ∈ view.items, inner.node ∈ scene.children item.node →
        ∃ r, inner.pixels = some r ∧ r.Within rect) ∧
      ∀ own, (scene.hierarchy.ownVolume item.node).value = some own → own.flags.empty = false →
        ∀ whole ∈ (scene.hierarchy.paintAll stage).value.items, whole.node = item.node →
          ∃ r, whole.pixels = some r ∧ r.Within rect := by
  have hlinked := h.consistent.toLinked
  have hcoherent := hlinked.coherent haffine hpublic stage.root
  rw [hview, hcoherent.items_cull heye hculler settings]
  rw [hview, hcoherent.items_cull heye hculler settings] at hitem
  obtain ⟨hnode, hverdict⟩ := Hierarchy.verdict_of_mem_naiveItems hitem
  obtain ⟨toRoot, hroot, htoRoot⟩ := hcoherent.toRoot item.node hnode
  cases hv : scene.hierarchy.subtreeVolume item.node with
  | none =>
      rw [hv] at hverdict
      have hnone : none = item.visibility := congrArg (·.visibility) (Option.some.inj hverdict)
      rw [← hnone] at hbounded
      cases hbounded
  | some v =>
      have hpixels := (hcoherent.pixels_of_verdict hnode hv hroot hverdict).2
      refine ⟨_, hpixels, fun inner hinner hchild => ?_, fun own hown he whole hwhole hsame => ?_⟩
      · obtain ⟨hnode', hverdict'⟩ := Hierarchy.verdict_of_mem_naiveItems hinner
        obtain ⟨toRoot', hroot', htoRoot'⟩ := hcoherent.toRoot inner.node hnode'
        obtain ⟨below, hbelow, -⟩ := hcoherent.child_nested hnode hv hchild hroot hroot'
        obtain ⟨he, hinnerPixels⟩ :=
          hcoherent.pixels_of_verdict hnode' hbelow hroot' hverdict'
        have hwithin := hcoherent.child_within hnode hv hroot heye htoRoot hfront hchild hbelow he
          hroot' htoRoot'
        exact ⟨_, hinnerPixels, hwithin.toPixels⟩
      · rw [Hierarchy.paintAll_value] at hwhole
        obtain ⟨n, -, rfl⟩ := List.mem_map.mp hwhole
        rw [Hierarchy.untestedItem_value] at hsame
        obtain rfl : n = item.node := hsame
        have hspace := Hierarchy.ownVolume_reachable (hpublic item.node) hown
        have hownPixels := Hierarchy.InSpace.pixels ⟨hspace.1, hspace.2⟩ hroot
        have hwithin := hcoherent.own_within hnode hv hroot heye htoRoot hfront hown he
        refine ⟨_, ?_, hwithin.toPixels⟩
        rw [Hierarchy.untestedItem_value, hown]
        exact hownPixels

/-- The standing square is nearer to the eye, so it looks higher than the one that it stands
on. -/
theorem standing_pixels_nested :
    let _ := Approximation.ofSquares
    (standing.Reachable ∧ (∀ key m, standing.transform? key = some m → m.IsAffine) ∧
      (∀ key, ∀ effect ∈ standing.effects key, effect.IsPublic) ∧ standingStage.eye.IsAffine ∧
      (Culler.new {} : Culler Rat).Reachable) ∧
    ∃ item ∈ standingView.items, item.node = ⟨1, 1⟩ ∧ item.visibility = some .inside ∧
      standing.hierarchy.InFront standingStage item.node ∧
      ∃ rect, item.pixels = some rect ∧
        (∀ inner ∈ standingView.items, inner.node ∈ standing.children item.node →
          ∃ r, inner.pixels = some r ∧ r.Within rect) ∧
        ∀ own, (standing.hierarchy.ownVolume item.node).value = some own →
          own.flags.empty = false →
            ∀ whole ∈ (standing.hierarchy.paintAll standingStage).value.items,
              whole.node = item.node → ∃ r, whole.pixels = some r ∧ r.Within rect := by
  intro _
  have h := reachable_standing
  obtain ⟨haffine, hpublic⟩ := forall_isExact_iff.mp standing_isExact
  have heye : standingStage.eye.IsAffine := ⟨rfl, rfl, rfl, rfl⟩
  have hfound : (standingView.item? ⟨1, 1⟩).map (·.visibility) = some (some .inside) := by
    decide +kernel
  obtain ⟨item, hitem, hinside⟩ := Option.map_eq_some_iff.mp hfound
  have hmem : item ∈ standingView.items := List.mem_reverse.mp (List.mem_of_find?_eq_some hitem)
  have hnode : item.node = ⟨1, 1⟩ := by simpa using List.find?_some hitem
  have hfront : standing.hierarchy.InFront standingStage item.node := hnode ▸ standing_inFront
  have hbounded : item.visibility.isSome := by rw [hinside]; rfl
  exact ⟨⟨h, haffine, hpublic, heye, .new {}⟩, item, hmem, hnode, hinside, hfront,
    pixels_nested h haffine hpublic heye (.new {}) {} rfl hmem hbounded hfront⟩

end Scene

end SceneCulling
