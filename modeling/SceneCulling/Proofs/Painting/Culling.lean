import SceneCulling.Proofs.Painting.Nesting
import SceneCulling.Proofs.Painting.Verdict
import SceneCulling.Proofs.Scalar.Ranked
import SceneCulling.Proofs.Scene.Reachable
import SceneCulling.Proofs.Scene.Transforms
import SceneCulling.Proofs.Volume.Classification

/-!
# Culling is exact

In exact arithmetic the short cuts of culling change nothing. The subtree volume of a child
lies within that of its parent, also in eye space, so below a node that is inside every
volume is inside or empty, and below one that is outside or empty every volume is outside
or empty. Nothing unbounded is below a node that is not painted. For the same reason
nothing visible is dropped.
-/

namespace SceneCulling

namespace Hierarchy

variable {tree : Hierarchy Rat} {stage : Stage Rat} {node child : NodeKey} {v : Volume Rat}
  {toRoot : Mat4 Rat}

/-! ## One node -/

/-- A volume is tested by the images of its vertices in eye space. -/
theorem test_value (hroot : tree.modelview? node stage.root = some toRoot) :
    (tree.test stage false node v).value =
      if v.flags.empty then .outside
      else stage.planes.classify (v.complete.vertices.map (stage.eye * toRoot).applyPoint) := by
  cases he : v.flags.empty with
  | true => simp [test, he]
  | false =>
      have heye : (tree.eyeTransform stage node).run.value = .ok (stage.eye * toRoot) := by
        simp only [eyeTransform, hroot]
        rfl
      simp only [test, he, Bool.false_eq_true, if_false, Logged.value_bind, heye]
      exact Volume.visibility_transform stage.planes _ he

/-- A bounded node is not painted iff its volume is empty or outside. -/
theorem verdict_eq_none_iff (tree : Hierarchy Rat) (stage : Stage Rat) (inside : Bool)
    (node : NodeKey) (v : Volume Rat) : tree.verdict stage inside node (some v) = none ↔
      (tree.test stage inside node v).value = .outside := by
  simp only [verdict]
  split <;> simp_all

section Nested

variable (h : tree.Coherent stage.root) (heye : stage.eye.IsAffine)
  (hnode : node ∈ (tree.outline stage.root).preorder)
include h heye hnode

/-- In eye space the vertices of a child's volume are in the hull of those of the parent's
volume, which is then not empty either. -/
theorem Coherent.images_nested (hv : tree.subtreeVolume node = some v)
    (hchild : child ∈ tree.children node) {toRoot toRoot' : Mat4 Rat}
    (hroot : tree.modelview? node stage.root = some toRoot) (hroot' :
      tree.modelview? child stage.root = some toRoot') (haffine : toRoot.IsAffine)
    (haffine' : toRoot'.IsAffine) :
    ∃ below, tree.subtreeVolume child = some below ∧ (below.flags.empty = false →
      v.flags.empty = false ∧
        ∀ p ∈ below.complete.vertices.map (stage.eye * toRoot').applyPoint,
          InHull (v.complete.vertices.map (stage.eye * toRoot).applyPoint) p) := by
  obtain ⟨below, hbelow, hregion⟩ := h.child_nested hnode hv hchild hroot hroot'
  refine ⟨below, hbelow, fun he => ⟨?_, fun p hp => ?_⟩⟩
  · obtain ⟨p, hp⟩ := Volume.exists_contains he
    obtain ⟨q, hq, -⟩ := hregion p hp
    exact hq.1
  · obtain ⟨w, hw, rfl⟩ := List.mem_map.mp hp
    obtain ⟨q, ⟨-, hq⟩, hsame⟩ := hregion w ⟨he, .vertex hw⟩
    have himage : (stage.eye * toRoot').applyPoint w = (stage.eye * toRoot).applyPoint q := by
      rw [Mat4.applyPoint_mul heye haffine', Mat4.applyPoint_mul heye haffine, hsame]
    rw [himage]
    exact hq.map (Mat4.applyPoint_between (heye.mul haffine))

/-- Below a node that is not painted no child is painted. -/
theorem Coherent.child_skipped
    (hskipped : tree.verdict stage false node (tree.subtreeVolume node) = none)
    (hchild : child ∈ tree.children node) :
    tree.verdict stage false child (tree.subtreeVolume child) = none := by
  obtain ⟨toRoot, hroot, haffine⟩ := h.toRoot node hnode
  obtain ⟨toRoot', hroot', haffine'⟩ := h.toRoot child (h.unfolds_outline.mem_children hnode hchild)
  cases hv : tree.subtreeVolume node with
  | none =>
      rw [hv] at hskipped
      cases hskipped
  | some v =>
      rw [hv, verdict_eq_none_iff, test_value hroot] at hskipped
      obtain ⟨below, hbelow, hnested⟩ :=
        h.images_nested heye hnode hv hchild hroot hroot' haffine haffine'
      rw [hbelow, verdict_eq_none_iff, test_value hroot']
      cases he : below.flags.empty with
      | true => rfl
      | false =>
          obtain ⟨hfull, hhull⟩ := hnested he
          rw [hfull] at hskipped
          exact SidePlanes.classify_outside_of_hull hskipped hhull

/-- Below a node that is inside every child that paints is inside. -/
theorem Coherent.child_inside (hv : tree.subtreeVolume node = some v)
    (hinside : (tree.test stage false node v).value = .inside)
    (hchild : child ∈ tree.children node) {below : Volume Rat}
    (hbelow : tree.subtreeVolume child = some below) (he : below.flags.empty = false) :
    (tree.test stage false child below).value = .inside := by
  obtain ⟨toRoot, hroot, haffine⟩ := h.toRoot node hnode
  obtain ⟨toRoot', hroot', haffine'⟩ := h.toRoot child (h.unfolds_outline.mem_children hnode hchild)
  obtain ⟨below', hbelow', hnested⟩ :=
    h.images_nested heye hnode hv hchild hroot hroot' haffine haffine'
  obtain rfl := Option.some.inj (hbelow.symm.trans hbelow')
  obtain ⟨hfull, hhull⟩ := hnested he
  rw [test_value hroot, hfull] at hinside
  rw [test_value hroot', he]
  refine SidePlanes.classify_inside_of_hull ?_ ?_ hinside hhull
  · simpa using Volume.vertices_ne_nil below.complete
  · simpa using Volume.vertices_ne_nil v.complete

end Nested

/-! ## The whole walk -/

/-- Inheriting `inside` from the parent does not change the item of a node that is inside
anyway. -/
theorem verdict_inherit {inside : Bool} (hinside : inside = true →
    ∀ v, tree.subtreeVolume node = some v → v.flags.empty = false →
      (tree.test stage false node v).value = .inside) :
    tree.verdict stage inside node (tree.subtreeVolume node) =
      tree.verdict stage false node (tree.subtreeVolume node) := by
  cases inside with
  | false => rfl
  | true =>
      cases hv : tree.subtreeVolume node with
      | none => rfl
      | some v =>
          have hsame : (tree.test stage true node v).value =
              (tree.test stage false node v).value := by
            cases he : v.flags.empty with
            | true => simp [test, he]
            | false =>
                rw [hinside rfl v hv he]
                simp [test, he]
          simp only [verdict, hsame]

variable (h : tree.Coherent stage.root) (heye : stage.eye.IsAffine)
include h heye

/-- Below a node that is not painted nothing is painted. -/
theorem Coherent.skipped {roots : List NodeKey} {o : Outline NodeKey}
    (hu : Outline.Unfolds tree.children roots o)
    (hroots : ∀ a ∈ roots, a ∈ (tree.outline stage.root).preorder ∧
      tree.verdict stage false a (tree.subtreeVolume a) = none) :
    o.preorder.filterMap (fun a => tree.verdict stage false a (tree.subtreeVolume a)) = [] := by
  rw [List.filterMap_eq_nil_iff]
  intro a ha
  refine (hu.of_step hroots (fun a c ha hc => ⟨h.unfolds_outline.mem_children ha.1 hc, ?_⟩) a ha).2
  exact h.child_skipped heye ha.1 ha.2 hc

/-- The kept items are those of the naive walk. By induction on the trees; what is known
about the parent of the roots is that its verdict `inside` holds of them, too. -/
theorem Coherent.keptItems_eq {roots : List NodeKey} {o : Outline NodeKey}
    (hu : Outline.Unfolds tree.children roots o)
    (hroots : ∀ a ∈ roots, a ∈ (tree.outline stage.root).preorder) {inside : Bool}
    (hinside : inside = true → ∀ a ∈ roots, ∀ v, tree.subtreeVolume a = some v →
      v.flags.empty = false → (tree.test stage false a v).value = .inside) :
    tree.keptItems stage inside o =
      o.preorder.filterMap fun a => tree.verdict stage false a (tree.subtreeVolume a) := by
  induction hu generalizing inside with
  | nil => rfl
  | @node a roots below next hbelow _ ihb ihn =>
      have ha := hroots a List.mem_cons_self
      have hchildren : ∀ c ∈ tree.children a, c ∈ (tree.outline stage.root).preorder :=
        fun c hc => h.unfolds_outline.mem_children ha hc
      have hsame := verdict_inherit fun htrue => hinside htrue a List.mem_cons_self
      have hnext := ihn (fun b hb => hroots b (List.mem_cons_of_mem _ hb))
        fun htrue b hb => hinside htrue b (List.mem_cons_of_mem _ hb)
      simp only [keptItems, hsame, Outline.preorder, List.filterMap_cons, List.filterMap_append]
      cases hverdict : tree.verdict stage false a (tree.subtreeVolume a) with
      | none =>
          have hnone := h.skipped heye hbelow fun c hc =>
            ⟨hchildren c hc, h.child_skipped heye ha hverdict hc⟩
          simpa [hnone] using hnext
      | some item =>
          simp only
          rw [hnext, ihb hchildren]
          intro htrue c hc w hw he
          cases hv : tree.subtreeVolume a with
          | none =>
              rw [hv] at hverdict
              obtain rfl := Option.some.inj hverdict
              simp at htrue
          | some v =>
              refine h.child_inside heye ha hv ?_ hc hw he
              rw [hv] at hverdict
              simp only [verdict] at hverdict
              split at hverdict
              · cases hverdict
              · obtain rfl := Option.some.inj hverdict
                simpa using htrue

/-- Culling lists what the naive walk lists. -/
theorem Coherent.items_cull {culler : Culler Rat} (hculler : culler.Reachable)
    (settings : Settings) :
    ((Culler.cull tree stage settings).run culler).value.1.items = tree.naiveItems stage := by
  rw [Culler.items_cull (fun n _ => h.unfolds n) hculler, naiveItems]
  refine h.keptItems_eq heye h.unfolds_outline (fun a ha => ?_)
    fun hfalse => absurd hfalse (by decide)
  obtain rfl := List.mem_singleton.mp ha
  exact List.mem_cons_self

/-- A node is painted if a point that it paints itself is on the visible side of all
planes. -/
theorem Coherent.verdict_isSome (hnode : node ∈ (tree.outline stage.root).preorder)
    (hroot : tree.modelview? node stage.root = some toRoot) {own : Volume Rat}
    (hown : (tree.ownVolume node).value = some own) {p : Vec3 Rat} (hp : own.Contains p)
    (hvisible : ∀ plane ∈ stage.planes.toList,
      0 ≤ plane.signedDistance ((stage.eye * toRoot).applyPoint p)) :
    ∃ item, tree.verdict stage false node (tree.subtreeVolume node) = some item ∧
      item.node = node := by
  obtain ⟨toRoot', hroot', haffine⟩ := h.toRoot node hnode
  obtain rfl := Option.some.inj (hroot.symm.trans hroot')
  cases hv : tree.subtreeVolume node with
  | none => exact ⟨_, rfl, rfl⟩
  | some v =>
      obtain ⟨hfull, hinner⟩ := h.own_nested hnode hown hp hv
      have himage := hinner.map (Mat4.applyPoint_between (heye.mul haffine))
      have hnot : (tree.test stage false node v).value ≠ .outside := by
        rw [test_value hroot, hfull]
        exact SidePlanes.classify_ne_outside_of_hull himage hvisible
      simp only [verdict, if_neg hnot]
      exact ⟨_, rfl, rfl⟩

end Hierarchy

/-! ## Scenes -/

namespace Scene

variable {scene : Scene Rat} {node root : NodeKey}

/-- A scene answers coherently if the transforms and the effects of its nodes allow it. -/
theorem Linked.coherent (h : scene.Linked)
    (haffine : ∀ key m, scene.transform? key = some m → m.IsAffine)
    (hpublic : ∀ key, ∀ effect ∈ scene.effects key, effect.IsPublic) (root : NodeKey) :
    scene.hierarchy.Coherent root where
  unfolds n := by
    cases h.unfolds_outline n with
    | node hbelow => exact hbelow
  toRoot _ hmem := h.modelview?_root haffine hmem
  toParent _ _ c hc := by
    obtain ⟨m, hm, hparent⟩ := h.modelview?_parent hc
    exact ⟨_, hparent, .mul (haffine c m hm) Mat4.isAffine_identity⟩
  compose _ hmem _ hc _ _ _ hm hroot hroot' p := h.modelview?_comp haffine hmem hc hm hroot hroot' p
  effects n _ := hpublic n

/-- A node whose ascent meets a root is under that root. -/
theorem Linked.mem_outline_of_modelview? (h : scene.Linked) {toRoot : Mat4 Rat}
    (hroot : scene.modelview? node root = some toRoot) :
    node ∈ (scene.hierarchy.outline root).preorder := by
  have hu := h.unfolds_outline root
  have hseeks := h.seeksAncestor node root
  rw [hroot] at hseeks
  clear hroot
  generalize (Mat4.identity : Mat4 Rat) = m at hseeks
  generalize hanswer : some toRoot = answer at hseeks
  induction hseeks with
  | found => exact hu.mem_roots (List.mem_singleton.mpr rfl)
  | gone => cases hanswer
  | top => cases hanswer
  | up _ hnode hparent _ ih =>
      refine hu.mem_children (ih hanswer) (h.mem_children_iff.mpr ⟨?_, ?_⟩)
      · exact contains_iff.mpr ⟨_, hnode⟩
      · exact (parent?_of_get? hnode).trans hparent

/-! ### A scene with a padded node -/

/-- A root that paints nothing, and below it a node that paints beyond its sides. -/
def padded (K : Type) [Scalar K] : Scene K :=
  let scene := ((createNode none .identity).perform (.empty : Scene K)).value.2
  let scene := ((createNode (some ⟨1, 1⟩) (.shift ⟨1, 0, 0⟩)).perform scene).value.2
  let scene := ((setSize ⟨2, 1⟩ (some ⟨1, 1⟩)).perform scene).value.2
  ((addEffect ⟨2, 1⟩ (.padding (.uniform 1))).perform scene).value.2

theorem reachable_padded (K : Type) [Scalar K] [Approximation K] : (padded K).Reachable := by
  have hroot := Reachable.empty.step (.createNode _ none (.identity : Mat4 K))
  have hnode := hroot.step (.createNode _ (some ⟨1, 1⟩) (.shift ⟨1, 0, 0⟩))
  have hsize := hnode.step (.setSize _ ⟨2, 1⟩ (some ⟨1, 1⟩))
  exact hsize.step (.addEffect _ ⟨2, 1⟩ (.padding (.uniform 1)))

theorem padded_cases {key : NodeKey} {entry : Node Rat}
    (h : (padded Rat).nodes.get? key = some entry) :
    entry = ⟨none, [⟨2, 1⟩], .identity, none, []⟩ ∨
      entry = ⟨some ⟨1, 1⟩, [], .shift ⟨1, 0, 0⟩, some ⟨1, 1⟩, [.padding (.uniform 1)]⟩ := by
  have hslots : (padded Rat).nodes.slots = #[
      ⟨1, some ⟨none, [⟨2, 1⟩], .identity, none, []⟩⟩,
      ⟨1, some ⟨some ⟨1, 1⟩, [], .shift ⟨1, 0, 0⟩, some ⟨1, 1⟩,
        [.padding (.uniform 1)]⟩⟩] := rfl
  obtain ⟨slot, hslot, hvalue⟩ := KeyStore.exists_slot_of_get? h
  rw [hslots] at hslot
  simp only [List.mem_toArray, List.mem_cons, List.not_mem_nil, or_false] at hslot
  rcases hslot with rfl | rfl
  · exact .inl (Option.some.inj hvalue).symm
  · exact .inr (Option.some.inj hvalue).symm

theorem padded_transforms (key : NodeKey) (m : Mat4 Rat)
    (h : (padded Rat).transform? key = some m) : m.IsAffine := by
  obtain ⟨entry, hentry, rfl⟩ := Option.map_eq_some_iff.mp h
  rcases padded_cases hentry with rfl | rfl <;> exact ⟨rfl, rfl, rfl, rfl⟩

theorem padded_effects (key : NodeKey) (effect : Effect Rat)
    (h : effect ∈ (padded Rat).effects key) : effect.IsPublic := by
  cases hentry : (padded Rat).nodes.get? key with
  | none => simp [effects, hentry] at h
  | some entry =>
      rcases padded_cases hentry with rfl | rfl
      · simp [effects, hentry] at h
      · obtain rfl : effect = .padding (.uniform 1) := by simpa [effects, hentry] using h
        exact Effect.isPublic_padding _

/-- The window shows what is between -1 and 1 in the space of the root. -/
def paddedStage : Stage Rat :=
  @Stage.new Rat _ .ofSquares ⟨1, 1⟩ .identity (.ofRect 0 0 100 100)

/-! ## Results -/

/-- Culling a scene lists what the naive walk over all nodes under the root of the stage
lists: the short cuts never change the outcome of any node. -/
theorem items_cull_eq_naiveItems [Approximation Rat] (h : scene.Reachable)
    (haffine : ∀ key m, scene.transform? key = some m → m.IsAffine)
    (hpublic : ∀ key, ∀ effect ∈ scene.effects key, effect.IsPublic)
    {stage : Stage Rat} (heye : stage.eye.IsAffine)
    {culler : Culler Rat} (hculler : culler.Reachable) (settings : Settings) :
    Outline.Unfolds scene.children [stage.root] (scene.hierarchy.outline stage.root) ∧
      ((Culler.cull scene.hierarchy stage settings).run culler).value.1.items =
        scene.hierarchy.naiveItems stage := by
  have hlinked := h.consistent.toLinked
  have hcoherent := hlinked.coherent haffine hpublic stage.root
  exact ⟨hlinked.unfolds_outline stage.root, hcoherent.items_cull heye hculler settings⟩

theorem padded_items_cull_eq_naiveItems :
    @Reachable Rat _ .ofSquares (padded Rat) ∧
    (∀ key m, (padded Rat).transform? key = some m → m.IsAffine) ∧
    (∀ key, ∀ effect ∈ (padded Rat).effects key, effect.IsPublic) ∧
    paddedStage.eye.IsAffine ∧ (Culler.new {} : Culler Rat).Reachable ∧
    Outline.Unfolds (padded Rat).children [paddedStage.root]
        ((padded Rat).hierarchy.outline paddedStage.root) ∧
      ((Culler.cull (padded Rat).hierarchy paddedStage {}).run (.new {})).value.1.items =
        (padded Rat).hierarchy.naiveItems paddedStage := by
  let _ := Approximation.ofSquares
  have h := reachable_padded Rat
  have heye : paddedStage.eye.IsAffine := Mat4.isAffine_identity
  exact ⟨h, padded_transforms, padded_effects, heye, .new {},
    items_cull_eq_naiveItems h padded_transforms padded_effects heye (.new {}) {}⟩

/-- No visible node is dropped: a node is listed if a point of its own volume, taken to eye
space, is on the visible side of all planes of the stage. -/
theorem isVisible_of_visible_point [Approximation Rat] (h : scene.Reachable)
    (haffine : ∀ key m, scene.transform? key = some m → m.IsAffine)
    (hpublic : ∀ key, ∀ effect ∈ scene.effects key, effect.IsPublic)
    {stage : Stage Rat} (heye : stage.eye.IsAffine)
    {culler : Culler Rat} (hculler : culler.Reachable) (settings : Settings)
    {toRoot : Mat4 Rat} (hroot : scene.modelview? node stage.root = some toRoot)
    {own : Volume Rat} (hown : (scene.hierarchy.ownVolume node).value = some own)
    (he : own.flags.empty = false) {p : Vec3 Rat} (hp : InHull own.complete.vertices p)
    (hvisible : ∀ plane ∈ stage.planes.toList,
      0 ≤ plane.signedDistance ((stage.eye * toRoot).applyPoint p)) :
    ((Culler.cull scene.hierarchy stage settings).run culler).value.1.isVisible node = true := by
  have hlinked := h.consistent.toLinked
  have hcoherent := hlinked.coherent haffine hpublic stage.root
  have hnode := hlinked.mem_outline_of_modelview? hroot
  obtain ⟨item, hitem, hkey⟩ :=
    hcoherent.verdict_isSome heye hnode hroot hown ⟨he, hp⟩ hvisible
  have hlisted : item ∈ scene.hierarchy.naiveItems stage :=
    List.mem_filterMap.mpr ⟨node, hnode, hitem⟩
  rw [← hcoherent.items_cull heye hculler settings] at hlisted
  rw [PaintList.isVisible, PaintList.item?, List.find?_isSome]
  exact ⟨item, List.mem_reverse.mpr hlisted, by simp [hkey]⟩

/-- The own volume of the padded node. -/
def paddedVolume : Volume Rat :=
  ((padded Rat).hierarchy.ownVolume ⟨2, 1⟩).value.getD (.new none)

theorem padded_isVisible :
    @Reachable Rat _ .ofSquares (padded Rat) ∧
    ((padded Rat).hierarchy.ownVolume ⟨2, 1⟩).value = some paddedVolume ∧
    paddedVolume.flags.empty = false ∧
    (∀ plane ∈ paddedStage.planes.toList, 0 ≤ plane.signedDistance
      ((paddedStage.eye * (.shift ⟨1, 0, 0⟩ * .identity)).applyPoint
        paddedVolume.complete.front.topLeft)) ∧
    ((Culler.cull (padded Rat).hierarchy paddedStage {}).run (.new {})).value.1.isVisible
      ⟨2, 1⟩ = true := by
  let _ := Approximation.ofSquares
  have h := reachable_padded Rat
  have heye : paddedStage.eye.IsAffine := Mat4.isAffine_identity
  have hroot : (padded Rat).modelview? ⟨2, 1⟩ paddedStage.root =
      some (.shift ⟨1, 0, 0⟩ * .identity) := rfl
  have hsome : ((padded Rat).hierarchy.ownVolume ⟨2, 1⟩).value.isSome = true := by
    decide +kernel
  have hown : ((padded Rat).hierarchy.ownVolume ⟨2, 1⟩).value = some paddedVolume := by
    obtain ⟨own, hown⟩ := Option.isSome_iff_exists.mp hsome
    rw [paddedVolume, hown]
    rfl
  have he : paddedVolume.flags.empty = false := by decide +kernel
  have hvisible : ∀ plane ∈ paddedStage.planes.toList, 0 ≤ plane.signedDistance
      ((paddedStage.eye * (.shift ⟨1, 0, 0⟩ * .identity)).applyPoint
        paddedVolume.complete.front.topLeft) := by decide +kernel
  have hvertex := Volume.topLeft_mem_vertices paddedVolume.complete
  exact ⟨h, hown, he, hvisible,
    isVisible_of_visible_point h padded_transforms padded_effects heye (.new {}) {} hroot hown
      he (.vertex hvertex) hvisible⟩

end Scene

end SceneCulling
