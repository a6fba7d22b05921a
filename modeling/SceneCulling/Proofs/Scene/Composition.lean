import SceneCulling.Proofs.Painting.OwnVolume
import SceneCulling.Scene.Placement
import SceneCulling.Proofs.Scene.Reachable
import SceneCulling.Proofs.Scene.Transforms

/-!
# Spaces compose

The way from a node to an ancestor may stop at any node between them. The matrices multiply,
the last step on the left, and a volume that is taken to one ancestor and then to the next is
the volume that is taken there at once. The eye space of a stage is one more step of this
kind. The pixels of the volume on the stage stay the same on the whole way, because what is
left of the way to the window is added where the volume is.
-/

namespace SceneCulling

/-! ## One map after another -/

namespace Volume

section Maps

variable {K : Type} (f g : Vec3 K → Vec3 K) (v : Volume K)

/-- The volume is complete after the first map, so the second one derives nothing. -/
theorem mapVertices_mapVertices : (v.mapVertices f).mapVertices g = v.mapVertices (g ∘ f) := by
  cases he : v.flags.empty with
  | true => simp [mapVertices, he]
  | false =>
      have hflags := flags_mapVertices f he
      have hempty : (v.mapVertices f).flags.empty = false := (empty_mapVertices f v).trans he
      have hcomplete : (v.mapVertices f).complete = v.mapVertices f :=
        complete_of_complete (by rw [hflags])
      rw [mapVertices, hempty, hcomplete]
      simp only [mapVertices, he, Bool.false_eq_true, if_false]
      cases hflat : v.complete.flags.flat <;> rfl

theorem mapVertices_withReference (reference : Option NodeKey) :
    (v.withReference reference).mapVertices f =
      (v.mapVertices f).withReference reference := by
  cases he : v.flags.empty with
  | true => simp [mapVertices, withReference, he]
  | false =>
      have hempty : (v.withReference reference).flags.empty = false := he
      simp only [mapVertices, he, hempty, Bool.false_eq_true, if_false, complete_withReference]
      rfl

/-- The space of a volume does not show in its window rectangle. -/
theorem boundingRect_withReference [Scalar K] (reference : Option NodeKey) :
    (v.withReference reference).boundingRect = v.boundingRect := by
  simp only [boundingRect, complete_withReference]
  rfl

end Maps

section Exact

variable {a : Mat4 Rat} (ha : a.IsAffine) (b : Mat4 Rat) (v : Volume Rat)
include ha

theorem transform_transform {b : Mat4 Rat} (hb : b.IsAffine) :
    (v.transform a).transform b = v.transform (b * a) := by
  have hpoints : b.applyPoint ∘ a.applyPoint = (b * a).applyPoint :=
    funext fun p => (Mat4.applyPoint_mul hb ha p).symm
  rw [transform, transform, transform, mapVertices_mapVertices, hpoints]

theorem project_transform (projection : Mat4 Rat) (view : Viewport Rat) :
    (v.transform a).project b projection view = v.project (b * a) projection view := by
  have hpoints : view.windowPoint (projection * b) ∘ a.applyPoint =
      view.windowPoint (projection * (b * a)) := by
    funext p
    rw [Function.comp_apply, Viewport.windowPoint_applyPoint ha, Mat4.mul_assoc]
  rw [project, project, transform, mapVertices_mapVertices, hpoints]

/-- The next step of a volume that was moved and labelled. -/
theorem transform_moved {b : Mat4 Rat} (hb : b.IsAffine) (reference next : Option NodeKey) :
    (((v.transform a).withReference reference).transform b).withReference next =
      (v.transform (b * a)).withReference next := by
  have hmap := mapVertices_withReference b.applyPoint (v.transform a) reference
  rw [← transform_transform ha v hb, transform, hmap]
  rfl

/-- The window rectangle of a volume that was moved and labelled. -/
theorem boundingRect_moved (reference : Option NodeKey) (projection : Mat4 Rat)
    (view : Viewport Rat) :
    (((v.transform a).withReference reference).project b projection view).boundingRect =
      (v.project (b * a) projection view).boundingRect := by
  rw [project, mapVertices_withReference, boundingRect_withReference,
    ← project_transform ha b v projection view]
  rfl

end Exact

end Volume

namespace Scene

open Outline

variable {K : Type} {scene : Scene K} {node ancestor upper root : NodeKey} {stage : Stage K}

/-! ## The way up -/

theorem Linked.mem_outline_iff_under [Scalar K] (h : scene.Linked) :
    node ∈ (scene.hierarchy.outline root).preorder ↔ Under scene.children root node := by
  simp [(h.unfolds_outline root).mem_preorder_iff_under]

theorem Linked.root?_child {child : NodeKey} (h : scene.Linked)
    (hchild : child ∈ scene.children node) : scene.root? child = scene.root? node := by
  obtain ⟨hlive, hparent⟩ := h.of_mem_children hchild
  obtain ⟨entry, hentry⟩ := contains_iff.mp hlive
  rw [h.root?_eq hentry, (parent?_of_get? hentry).symm.trans hparent]
  rfl

/-- All nodes of a tree have one topmost ancestor. -/
theorem Linked.root?_under (h : scene.Linked) (hunder : Under scene.children ancestor node) :
    scene.root? node = scene.root? ancestor := by
  induction hunder with
  | refl => rfl
  | tail _ hc ih => exact (h.root?_child hc).trans ih

theorem Linked.stageOf?_under (h : scene.Linked) (hunder : Under scene.children ancestor node) :
    scene.stageOf? node = scene.stageOf? ancestor := by
  rw [stageOf?, stageOf?, h.root?_under hunder]

theorem Linked.under_root (h : scene.Linked) (hroot : scene.root? node = some root) :
    Under scene.children root node := by
  have hseeks := h.seeksRoot node
  rw [hroot] at hseeks
  generalize hanswer : some root = answer at hseeks
  induction hseeks with
  | gone => cases hanswer
  | top => rw [Option.some.inj hanswer]; exact .refl
  | up hnode hparent _ ih =>
      refine .tail (ih ?_ hanswer) (h.mem_children_iff.mpr ⟨contains_iff.mpr ⟨_, hnode⟩,
        (parent?_of_get? hnode).trans hparent⟩)
      rw [← hroot, h.root?_eq hnode, hparent]
      rfl

/-- A node on a stage is under the root of the stage. -/
theorem Consistent.under_stage [Scalar K] [Approximation K] (h : scene.Consistent)
    (hstage : scene.stageOf? node = some stage) : Under scene.children stage.root node := by
  obtain ⟨root, hroot, hlookup⟩ := Option.bind_eq_some_iff.mp hstage
  rw [h.root_eq (mem_stages_of_stage? hlookup)]
  exact h.toLinked.under_root hroot

section Exact

variable {scene : Scene Rat} (h : scene.Linked)
  (haffine : ∀ key m, scene.transform? key = some m → m.IsAffine)
include h haffine

/-- By induction on the way from a node to the lower ancestor: the transform of a child is the
first factor of its transforms to both ancestors. -/
theorem Linked.modelview?_mul (hnode : Under scene.children ancestor node)
    (hancestor : Under scene.children upper ancestor) :
    ∃ first second, (scene.modelview? node ancestor = some first ∧ first.IsAffine) ∧
      (scene.modelview? ancestor upper = some second ∧ second.IsAffine) ∧
      scene.modelview? node upper = some (second * first) := by
  obtain ⟨second, hsecond, hsecondAffine⟩ :=
    h.modelview?_root haffine (h.mem_outline_iff_under.mpr hancestor)
  induction hnode with
  | refl =>
      have hself : scene.modelview? ancestor ancestor = some .identity := by simp [modelview?]
      refine ⟨.identity, second, ⟨hself, Mat4.isAffine_identity⟩, ⟨hsecond, hsecondAffine⟩, ?_⟩
      rw [Mat4.mul_identity, hsecond]
  | @tail node child hnode hchild ih =>
      obtain ⟨first, second', ⟨hfirst, hfirstAffine⟩, ⟨hsecond', -⟩, hboth⟩ := ih
      obtain rfl := Option.some.inj (hsecond.symm.trans hsecond')
      obtain ⟨m, hm, hlower⟩ := h.modelview?_child (h.mem_outline_iff_under.mpr hnode) hchild
      obtain ⟨m', hm', hupper⟩ :=
        h.modelview?_child (h.mem_outline_iff_under.mpr (hancestor.trans hnode)) hchild
      obtain rfl := Option.some.inj (hm.symm.trans hm')
      rw [hfirst] at hlower
      rw [hboth] at hupper
      refine ⟨first * m, second, ⟨hlower, hfirstAffine.mul (haffine child m hm)⟩,
        ⟨hsecond, hsecondAffine⟩, ?_⟩
      rw [hupper, Option.map_some, Mat4.mul_assoc]

end Exact

end Scene

/-! ## Volumes on the way -/

/-- Taking a volume to a space succeeds with this volume and no message. -/
def Hierarchy.Arrives {K : Type} [Scalar K] (tree : Hierarchy K) (space : Option NodeKey)
    (v v' : Volume K) : Prop :=
  (tree.takeTo space).perform v = ⟨(.ok (), v'), []⟩ ∧ v'.reference = space

namespace Hierarchy

variable {tree : Hierarchy Rat} {stage : Stage Rat} {node : NodeKey} {m toRoot : Mat4 Rat}

/-- The last step to eye space, of a volume that was moved and labelled with a node. -/
theorem arrives_eye_of_moved (hm : m.IsAffine) (v : Volume Rat)
    (hstage : tree.stageOf? node = some stage)
    (hroot : tree.modelview? node stage.root = some toRoot)
    (heye : (stage.eye * toRoot).IsAffine) :
    tree.Arrives none ((v.transform m).withReference (some node))
      ((v.transform (stage.eye * toRoot * m)).withReference none) := by
  refine ⟨?_, rfl⟩
  rw [perform_takeTo_eye rfl hstage hroot, Volume.transform_moved hm v heye]

/-- The pixels of a volume that was moved and labelled with a node. -/
theorem pixelRect_of_moved (hm : m.IsAffine) (v : Volume Rat)
    (hroot : tree.modelview? node stage.root = some toRoot) :
    (tree.pixelRect stage ((v.transform m).withReference (some node))).run =
      ⟨.ok (v.project (stage.eye * toRoot * m) stage.projection
        stage.viewport).boundingRect.toPixels, []⟩ := by
  rw [run_pixelRect rfl hroot, Volume.boundingRect_moved hm]

/-- The pixels of a volume that was moved to eye space. -/
theorem pixelRect_eye_of_moved (hm : m.IsAffine) (tree : Hierarchy Rat) (stage : Stage Rat)
    (v : Volume Rat) : (tree.pixelRect stage ((v.transform m).withReference none)).run =
      ⟨.ok (v.project m stage.projection stage.viewport).boundingRect.toPixels, []⟩ := by
  rw [run_pixelRect_eye _ _ rfl, Volume.boundingRect_moved hm, Mat4.identity_mul]

end Hierarchy

namespace Scene

open Outline

variable {scene : Scene Rat} {node ancestor upper : NodeKey}

section Waiting

variable [Approximation Rat] (h : scene.Consistent)
  (haffine : ∀ key m, scene.transform? key = some m → m.IsAffine)
  (hnode : Under scene.children ancestor node) {stage : Stage Rat}
  (hstage : scene.stageOf? node = some stage) {m toRoot : Mat4 Rat}
  (hm : scene.modelview? node ancestor = some m)
  (hroot : scene.modelview? node stage.root = some toRoot) (v : Volume Rat)
include h haffine hnode hstage hm hroot

/-- The way from a node to the root of its stage, when it stops at an ancestor. -/
theorem Consistent.modelview?_stage : m.IsAffine ∧ scene.stageOf? ancestor = some stage ∧
    ∃ second, (scene.modelview? ancestor stage.root = some second ∧ second.IsAffine) ∧
      toRoot = second * m := by
  have hstage' : scene.stageOf? ancestor = some stage :=
    (h.toLinked.stageOf?_under hnode).symm.trans hstage
  obtain ⟨first, second, ⟨hfirst, hfirstAffine⟩, hsecond, hboth⟩ :=
    h.toLinked.modelview?_mul haffine hnode (h.under_stage hstage')
  obtain rfl := Option.some.inj (hm.symm.trans hfirst)
  exact ⟨hfirstAffine, hstage', second, hsecond, Option.some.inj (hroot.symm.trans hboth)⟩

/-- The pixels of a volume do not depend on the space in which it waits. -/
theorem Consistent.pixelRect_of_ancestor :
    (scene.hierarchy.pixelRect stage ((v.transform m).withReference (some ancestor))).run =
      ⟨.ok (v.project (stage.eye * toRoot) stage.projection
        stage.viewport).boundingRect.toPixels, []⟩ := by
  obtain ⟨hmAffine, -, second, ⟨hsecond, -⟩, rfl⟩ :=
    h.modelview?_stage haffine hnode hstage hm hroot
  rw [← Mat4.mul_assoc]
  exact Hierarchy.pixelRect_of_moved hmAffine v hsecond

/-- What becomes of a volume in eye space does not depend on the space in which it waits. -/
theorem Consistent.arrives_eye_of_ancestor (heye : stage.eye.IsAffine) :
    scene.hierarchy.Arrives none ((v.transform m).withReference (some ancestor))
      ((v.transform (stage.eye * toRoot)).withReference none) := by
  obtain ⟨hmAffine, hstage', second, ⟨hsecond, hsecondAffine⟩, rfl⟩ :=
    h.modelview?_stage haffine hnode hstage hm hroot
  rw [← Mat4.mul_assoc]
  exact Hierarchy.arrives_eye_of_moved hmAffine v hstage' hsecond (heye.mul hsecondAffine)

end Waiting

/-! ### A winding chain -/

/-- The window shows what is between -1 and 1 in the space of the root, after a turn. -/
def windingStage [Approximation Rat] : Stage Rat :=
  (Stage.new ⟨1, 1⟩ .identity (.ofRect 0 0 100 100)).change (.eye .quarterTurn)

/-- A root with a turned stage, a node beside its origin, and below that a turned node. -/
def winding [Approximation Rat] : Scene Rat :=
  let scene := ((createNode none .identity).perform (.empty : Scene Rat)).value.2
  let scene := ((setStage (.new ⟨1, 1⟩ .identity (.ofRect 0 0 100 100))).perform scene).value.2
  let scene := scene.changeStage ⟨1, 1⟩ (.eye .quarterTurn)
  let scene := ((createNode (some ⟨1, 1⟩) (.shift ⟨2, 0, 0⟩)).perform scene).value.2
  ((createNode (some ⟨2, 1⟩) .quarterTurn).perform scene).value.2

theorem reachable_winding [Approximation Rat] : winding.Reachable := by
  have hroot := Reachable.empty.step (.createNode _ none (.identity : Mat4 Rat))
  have hstage := hroot.step (.setStage _ (.new ⟨1, 1⟩ .identity (.ofRect 0 0 100 100)))
  have hturned := hstage.step (.changeStage _ ⟨1, 1⟩ (.eye .quarterTurn))
  have hupper := hturned.step (.createNode _ (some ⟨1, 1⟩) (.shift ⟨2, 0, 0⟩))
  exact hupper.step (.createNode _ (some ⟨2, 1⟩) .quarterTurn)

theorem winding_get? [Approximation Rat] (key : NodeKey) : winding.nodes.get? key =
    if key = ⟨1, 1⟩ then some ⟨none, [⟨2, 1⟩], .identity, none, []⟩
    else if key = ⟨2, 1⟩ then some ⟨some ⟨1, 1⟩, [⟨3, 1⟩], .shift ⟨2, 0, 0⟩, none, []⟩
    else if key = ⟨3, 1⟩ then some ⟨some ⟨2, 1⟩, [], .quarterTurn, none, []⟩
    else none := by
  have hslots : winding.nodes.slots = #[
      ⟨1, some ⟨none, [⟨2, 1⟩], .identity, none, []⟩⟩,
      ⟨1, some ⟨some ⟨1, 1⟩, [⟨3, 1⟩], .shift ⟨2, 0, 0⟩, none, []⟩⟩,
      ⟨1, some ⟨some ⟨2, 1⟩, [], .quarterTurn, none, []⟩⟩] := rfl
  obtain ⟨slot, version⟩ := key
  rcases slot with _ | _ | _ | _ | slot <;>
    simp [KeyStore.get?, hslots, KeyStore.position?, eq_comm]

theorem winding_transforms [Approximation Rat] (key : NodeKey) (m : Mat4 Rat)
    (h : winding.transform? key = some m) : m.IsAffine := by
  rw [transform?, winding_get?] at h
  split_ifs at h
  · exact Option.some.inj h ▸ Mat4.isAffine_identity
  · exact Option.some.inj h ▸ ⟨rfl, rfl, rfl, rfl⟩
  · exact Option.some.inj h ▸ Mat4.isAffine_quarterTurn
  · cases h

theorem winding_stageOf? [Approximation Rat] :
    winding.stageOf? ⟨3, 1⟩ = some windingStage := by
  have hlinked := reachable_winding.consistent.toLinked
  have hroot : winding.root? ⟨3, 1⟩ = some ⟨1, 1⟩ := by
    rw [hlinked.root?_eq (winding_get? _), Option.elim_some, hlinked.root?_eq (winding_get? _),
      Option.elim_some, hlinked.root?_eq (winding_get? _), Option.elim_none]
  have hstages : winding.stages = [(⟨1, 1⟩, windingStage)] := rfl
  simp [stageOf?, hroot, stage?, hstages]

/-- A volume of the lowest node that is longer than high. -/
def strip : Volume Rat := ((Volume.setWidth 2).perform (.new (some ⟨3, 1⟩))).value.2

/-! ## Results -/

/-- From a node to an ancestor and from there to the next, to which the matrices multiply. A
volume is the same after both steps as after one step, and so it is in eye space, from
wherever it is taken there. It covers the same pixels everywhere on this way. -/
theorem spaces_compose [Approximation Rat] (h : scene.Reachable)
    (haffine : ∀ key m, scene.transform? key = some m → m.IsAffine)
    (hnode : Under scene.children ancestor node)
    (hancestor : Under scene.children upper ancestor) :
    (∃ first second, scene.modelview? node ancestor = some first ∧
      scene.modelview? ancestor upper = some second ∧
      scene.modelview? node upper = some (second * first)) ∧
    ∀ v : Volume Rat, v.reference = some node → ∃ lower higher,
      scene.hierarchy.Arrives (some ancestor) v lower ∧
      scene.hierarchy.Arrives (some upper) lower higher ∧
      scene.hierarchy.Arrives (some upper) v higher ∧
      ∀ stage, scene.stageOf? node = some stage → ∃ rect,
        (∀ u ∈ [v, lower, higher],
          (scene.hierarchy.pixelRect stage u).run = ⟨.ok rect, []⟩) ∧
        (stage.eye.IsAffine → ∃ inEye,
          (∀ u ∈ [v, lower, higher], scene.hierarchy.Arrives none u inEye) ∧
          (scene.hierarchy.pixelRect stage inEye).run = ⟨.ok rect, []⟩) := by
  have hconsistent := h.consistent
  have hlinked := hconsistent.toLinked
  obtain ⟨first, second, ⟨hfirst, hfirstAffine⟩, ⟨hsecond, hsecondAffine⟩, hboth⟩ :=
    hlinked.modelview?_mul haffine hnode hancestor
  refine ⟨⟨first, second, hfirst, hsecond, hboth⟩, fun v hv => ?_⟩
  refine ⟨(v.transform first).withReference (some ancestor),
    (v.transform (second * first)).withReference (some upper),
    ⟨Hierarchy.perform_takeTo hv hfirst, rfl⟩, ⟨?_, rfl⟩,
    ⟨Hierarchy.perform_takeTo hv hboth, rfl⟩, fun stage hstage => ?_⟩
  · rw [← Volume.transform_moved hfirstAffine v hsecondAffine (some ancestor)]
    exact Hierarchy.perform_takeTo rfl hsecond
  · obtain ⟨toRoot, hroot, htoRoot⟩ := hlinked.modelview?_root haffine
      (hlinked.mem_outline_iff_under.mpr (hconsistent.under_stage hstage))
    refine ⟨(v.project (stage.eye * toRoot) stage.projection
      stage.viewport).boundingRect.toPixels, ?_, fun heye => ?_⟩
    · have hown : (scene.hierarchy.pixelRect stage v).run = _ := Hierarchy.run_pixelRect hv hroot
      have hlower :=
        hconsistent.pixelRect_of_ancestor haffine hnode hstage hfirst hroot v
      have hhigher := hconsistent.pixelRect_of_ancestor haffine (hancestor.trans hnode) hstage
        hboth hroot v
      simpa only [List.forall_mem_cons, List.not_mem_nil, false_imp_iff, implies_true, and_true]
        using ⟨hown, hlower, hhigher⟩
    · have hown : scene.hierarchy.Arrives none v
          ((v.transform (stage.eye * toRoot)).withReference none) :=
        ⟨Hierarchy.perform_takeTo_eye hv hstage hroot, rfl⟩
      have hlower :=
        hconsistent.arrives_eye_of_ancestor haffine hnode hstage hfirst hroot v heye
      have hhigher := hconsistent.arrives_eye_of_ancestor haffine (hancestor.trans hnode) hstage
        hboth hroot v heye
      refine ⟨_, ?_, Hierarchy.pixelRect_eye_of_moved (heye.mul htoRoot) _ stage v⟩
      simpa only [List.forall_mem_cons, List.not_mem_nil, false_imp_iff, implies_true, and_true]
        using ⟨hown, hlower, hhigher⟩

/-- The shift and the turns do not commute, so the order of the steps shows. -/
theorem winding_spaces_compose :
    let _ := Approximation.ofSquares
    (winding.Reachable ∧ (∀ key m, winding.transform? key = some m → m.IsAffine) ∧
      Under winding.children ⟨2, 1⟩ ⟨3, 1⟩ ∧ Under winding.children ⟨1, 1⟩ ⟨2, 1⟩ ∧
      strip.reference = some ⟨3, 1⟩ ∧
      winding.stageOf? ⟨3, 1⟩ = some windingStage ∧ windingStage.eye.IsAffine) ∧
    (∃ first second, winding.modelview? ⟨3, 1⟩ ⟨2, 1⟩ = some first ∧
      winding.modelview? ⟨2, 1⟩ ⟨1, 1⟩ = some second ∧
      winding.modelview? ⟨3, 1⟩ ⟨1, 1⟩ = some (second * first)) ∧
    ∃ lower higher rect inEye, winding.hierarchy.Arrives (some ⟨2, 1⟩) strip lower ∧
      winding.hierarchy.Arrives (some ⟨1, 1⟩) lower higher ∧
      winding.hierarchy.Arrives (some ⟨1, 1⟩) strip higher ∧
      (∀ u ∈ [strip, lower, higher],
        (winding.hierarchy.pixelRect windingStage u).run = ⟨.ok rect, []⟩) ∧
      (∀ u ∈ [strip, lower, higher], winding.hierarchy.Arrives none u inEye) ∧
      (winding.hierarchy.pixelRect windingStage inEye).run = ⟨.ok rect, []⟩ := by
  intro _
  have hlower : Under winding.children ⟨2, 1⟩ ⟨3, 1⟩ := by
    have hchildren : winding.children ⟨2, 1⟩ = [⟨3, 1⟩] := by simp [children, winding_get?]
    exact .single (hchildren ▸ List.mem_cons_self)
  have hupper : Under winding.children ⟨1, 1⟩ ⟨2, 1⟩ := by
    have hchildren : winding.children ⟨1, 1⟩ = [⟨2, 1⟩] := by simp [children, winding_get?]
    exact .single (hchildren ▸ List.mem_cons_self)
  have heye : windingStage.eye.IsAffine := Mat4.isAffine_quarterTurn
  obtain ⟨hproduct, hvolumes⟩ :=
    spaces_compose reachable_winding winding_transforms hlower hupper
  obtain ⟨lower, higher, hfirst, hsecond, hboth, hstages⟩ := hvolumes strip rfl
  obtain ⟨rect, hpixels, heyes⟩ := hstages windingStage winding_stageOf?
  obtain ⟨inEye, heyes, heyePixels⟩ := heyes heye
  exact ⟨⟨reachable_winding, winding_transforms, hlower, hupper, rfl, winding_stageOf?, heye⟩,
    hproduct, lower, higher, rect, inEye, hfirst, hsecond, hboth, hpixels, heyes, heyePixels⟩

end Scene

end SceneCulling
