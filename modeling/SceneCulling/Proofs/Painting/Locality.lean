import SceneCulling.Proofs.Painting.Accounting
import SceneCulling.Proofs.Painting.Culling
import SceneCulling.Proofs.Scene.Composition

/-!
# Changes stay in their branch

A change to one node may move the volumes of all its ancestors, up to the root, and so turn
culling off or on above a node far from it. The item of that node does not notice. By
exactness it is the verdict of the naive walk, and this reads two things only: the subtree
volume of the node, which is made from the nodes under it, and its transform to the root,
which is made from the nodes above it. If the changed node is neither, both are as before.
-/

namespace SceneCulling

/-! ## Items by node -/

namespace PaintList

variable {K : Type} {list : PaintList K} {nodes : List NodeKey}
  {f : NodeKey → Option (PaintItem K)} {node : NodeKey}

/-- A list of one item for each node at most has the item of a node, and no other of it. -/
theorem mem_items_iff (hitems : list.items = nodes.filterMap f)
    (hnode : ∀ n item, f n = some item → item.node = n) (hmem : node ∈ nodes)
    (item : PaintItem K) : item ∈ list.items ∧ item.node = node ↔ f node = some item := by
  rw [hitems, List.mem_filterMap]
  constructor
  · rintro ⟨⟨n, -, hn⟩, rfl⟩
    rwa [hnode n item hn]
  · exact fun hitem => ⟨⟨node, hmem, hitem⟩, hnode node item hitem⟩

/-- The item of a node is found. -/
theorem item?_eq (hitems : list.items = nodes.filterMap f)
    (hnode : ∀ n item, f n = some item → item.node = n) (hmem : node ∈ nodes) :
    list.item? node = f node := by
  have hlisted := mem_items_iff hitems hnode hmem
  cases hfound : list.item? node with
  | some item =>
      have hitem : item ∈ list.items := List.mem_reverse.mp (List.mem_of_find?_eq_some hfound)
      exact ((hlisted item).mp ⟨hitem, by simpa using List.find?_some hfound⟩).symm
  | none =>
      rw [eq_comm, Option.eq_none_iff_forall_ne_some]
      intro item hitem
      obtain ⟨hin, hkey⟩ := (hlisted item).mpr hitem
      have hnot := List.find?_eq_none.mp hfound item (List.mem_reverse.mpr hin)
      simp [hkey] at hnot

end PaintList

namespace Hierarchy

open Outline

variable {tree tree' : Hierarchy Rat} {stage : Stage Rat} {root node child : NodeKey}
  {below : Volume Rat}

/-! ## What an item reads -/

/-- The trees answer the same about the nodes under a root and about the way up to it. -/
structure AgreesUnder (tree tree' : Hierarchy Rat) (root : NodeKey) : Prop where
  children : ∀ n, tree'.children n = tree.children n
  size? : ∀ n ∈ (tree.outline root).preorder, tree'.size? n = tree.size? n
  effects : ∀ n ∈ (tree.outline root).preorder, tree'.effects n = tree.effects n
  toParent : ∀ n ∈ (tree.outline root).preorder, ∀ c ∈ tree.children n,
    tree'.modelview? c n = tree.modelview? c n

theorem startVolume_congr (hsize : tree'.size? node = tree.size? node)
    (heffects : tree'.effects node = tree.effects node) :
    tree'.startVolume node = tree.startVolume node := by
  have hown : tree'.ownVolume node = tree.ownVolume node := by
    simp only [ownVolume, fitSize, hsize, heffects]
  simp only [startVolume, hown, hsize]

/-- A child is taken in by its transform to the node, and by nothing else of the tree. -/
theorem joined_congr (hbelow : InSpace child below) {m : Mat4 Rat}
    (hm : tree.modelview? child node = some m) (hm' : tree'.modelview? child node = some m)
    (acc : Option (Volume Rat)) :
    tree'.joined node acc (some below) = tree.joined node acc (some below) := by
  cases acc with
  | none => rfl
  | some own =>
      simp only [joined, perform_enclose hbelow.reference_eq hm,
        perform_enclose hbelow.reference_eq hm']

section Agree

variable (h : tree.Coherent root) (hagree : tree.AgreesUnder tree' root)
include h hagree

/-- By induction on the trees below a node: the volumes of the children are the same, and
each is taken in the same way. -/
theorem Coherent.gathered_congr {roots : List NodeKey} {o : Outline NodeKey}
    (hu : Unfolds tree.children roots o) (hnode : node ∈ (tree.outline root).preorder)
    (hroots : ∀ c ∈ roots, c ∈ tree.children node) (acc : Option (Volume Rat)) :
    tree'.gathered node o acc = tree.gathered node o acc := by
  induction hu generalizing node acc with
  | nil => rfl
  | @node child roots below next hbelow _ ihb ihn =>
      have hmem := hroots child List.mem_cons_self
      have hchild := h.unfolds_outline.mem_children hnode hmem
      have hvolume : tree.gathered child below (tree.startVolume child) =
          tree.subtreeVolume child := by
        rw [Hierarchy.subtreeVolume, hbelow.unique (h.unfolds child)]
      have hsame : tree'.gathered child below (tree'.startVolume child) =
          tree.subtreeVolume child := by
        rw [startVolume_congr (hagree.size? child hchild) (hagree.effects child hchild),
          ihb hchild (fun _ hc => hc), hvolume]
      have hjoined : tree'.joined node acc (tree.subtreeVolume child) =
          tree.joined node acc (tree.subtreeVolume child) := by
        obtain ⟨m, hm, -⟩ := h.toParent node hnode child hmem
        have hm' := (hagree.toParent node hnode child hmem).trans hm
        cases hv : tree.subtreeVolume child with
        | none => cases acc <;> rfl
        | some v =>
            obtain ⟨_, -, hgathers⟩ := h.subtreeVolume hchild hv
            exact joined_congr hgathers.toInSpace hm hm' acc
      simp only [Hierarchy.gathered]
      rw [hsame, hvolume, hjoined]
      exact ihn hnode (fun c hc => hroots c (List.mem_cons_of_mem _ hc)) _

theorem Coherent.subtreeVolume_congr (h' : tree'.Coherent root) :
    tree'.subtreeVolume root = tree.subtreeVolume root := by
  have hroot : root ∈ (tree.outline root).preorder := List.mem_cons_self
  have hbelow : tree'.below root = tree.below root := by
    have hunfolds := h'.unfolds root
    rw [funext hagree.children] at hunfolds
    exact hunfolds.unique (h.unfolds root)
  rw [Hierarchy.subtreeVolume, hbelow, startVolume_congr (hagree.size? root hroot)
    (hagree.effects root hroot)]
  exact h.gathered_congr hagree (h.unfolds root) hroot (fun _ hc => hc) _

/-- The verdict on a node reads its subtree volume and its transform to eye space. -/
theorem Coherent.verdict_congr (h' : tree'.Coherent root)
    (htoRoot : tree'.modelview? root stage.root = tree.modelview? root stage.root) :
    tree'.verdict stage false root (tree'.subtreeVolume root) =
      tree.verdict stage false root (tree.subtreeVolume root) := by
  have heye : tree'.eyeTransform stage root = tree.eyeTransform stage root := by
    simp only [eyeTransform, htoRoot]
  rw [h.subtreeVolume_congr hagree h']
  cases hv : tree.subtreeVolume root with
  | none => rfl
  | some v =>
      obtain ⟨_, -, hgathers⟩ := h.subtreeVolume List.mem_cons_self hv
      have htest : tree'.test stage false root v = tree.test stage false root v := by
        simp only [test, heye]
      have hpixels : tree'.pixelRect stage v = tree.pixelRect stage v := by
        simp only [pixelRect, hgathers.reference_eq, heye]
      simp only [verdict, htest, hpixels]

end Agree

end Hierarchy

/-! ## Scenes -/

/-- What exact culling asks of a node. -/
structure Node.IsExact (node : Node Rat) : Prop where
  affine : node.transform.IsAffine
  effects : ∀ effect ∈ node.effects, effect.IsPublic

namespace Scene

open Outline

variable {scene scene' : Scene Rat} {key node root : NodeKey}

theorem forall_isExact_iff : (∀ k entry, scene.nodes.get? k = some entry → entry.IsExact) ↔
    (∀ k m, scene.transform? k = some m → m.IsAffine) ∧
      ∀ k, ∀ effect ∈ scene.effects k, effect.IsPublic := by
  constructor
  · refine fun h => ⟨fun k m hm => ?_, fun k effect heffect => ?_⟩
    · obtain ⟨entry, hentry, rfl⟩ := Option.map_eq_some_iff.mp hm
      exact (h k entry hentry).affine
    · cases hentry : scene.nodes.get? k with
      | none => simp [effects, hentry] at heffect
      | some entry =>
          exact (h k entry hentry).effects effect (by simpa [effects, hentry] using heffect)
  · rintro ⟨haffine, hpublic⟩ k entry hentry
    exact ⟨haffine k _ (by simp [transform?, hentry]),
      fun effect heffect => hpublic k effect (by simpa [effects, hentry] using heffect)⟩

/-- The scenes differ at one node at most, and there not in the links. -/
structure DiffersAt (scene scene' : Scene Rat) (key : NodeKey) : Prop
    extends SameLinks scene scene' where
  get? : ∀ k, k ≠ key → scene'.nodes.get? k = scene.nodes.get? k

theorem differsAt_changeNode (scene : Scene Rat) (key : NodeKey) {f : Node Rat → Node Rat}
    (hparent : ∀ entry, (f entry).parent = entry.parent)
    (hchildren : ∀ entry, (f entry).children = entry.children) :
    scene.DiffersAt ((changeNode key f).perform scene).value.2 key := by
  rcases after_changeNode scene key f with hsame | hchanged
  · rw [hsame]
    exact ⟨⟨fun _ => rfl, fun _ => rfl, fun _ => rfl⟩, fun _ _ => rfl⟩
  · rw [hchanged]
    refine ⟨sameLinks_modify scene key hparent hchildren, fun k hk => ?_⟩
    exact (KeyStore.get?_modify _ _ _ _).trans (if_neg hk)

theorem forall_changeNode {P : Node Rat → Prop} {f : Node Rat → Node Rat}
    (hf : ∀ entry, P entry → P (f entry))
    (h : ∀ k entry, scene.nodes.get? k = some entry → P entry) (k : NodeKey) (entry : Node Rat)
    (hentry : ((changeNode key f).perform scene).value.2.nodes.get? k = some entry) :
    P entry := by
  rcases after_changeNode scene key f with hsame | hchanged
  · rw [hsame] at hentry
    exact h k entry hentry
  · rw [hchanged, KeyStore.get?_modify] at hentry
    split at hentry
    · obtain ⟨old, hold, rfl⟩ := Option.map_eq_some_iff.mp hentry
      exact hf old (h key old hold)
    · exact h k entry hentry

/-- The ascent from a node does not meet what is not above the node. -/
theorem DiffersAt.seeksAncestor (hdiffers : scene.DiffersAt scene' key) (h : scene.Linked)
    {m : Mat4 Rat} {answer : Option (Mat4 Rat)}
    (hseeks : scene.SeeksAncestor root node m answer) (hbeside : ¬ Under scene.children key node) :
    scene'.SeeksAncestor root node m answer := by
  have hne : ∀ {k}, ¬ Under scene.children key k → k ≠ key := by
    rintro k hk rfl
    exact hk .refl
  induction hseeks with
  | found m => exact .found m
  | gone m hroot hnone => exact .gone m hroot ((hdiffers.get? _ (hne hbeside)).trans hnone)
  | top m hroot hentry hparent =>
      exact .top m hroot ((hdiffers.get? _ (hne hbeside)).trans hentry) hparent
  | up hroot hentry hparent _ ih =>
      refine .up hroot ((hdiffers.get? _ (hne hbeside)).trans hentry) hparent
        (ih fun hunder => hbeside (.tail hunder ?_))
      exact h.mem_children_iff.mpr
        ⟨contains_iff.mpr ⟨_, hentry⟩, (parent?_of_get? hentry).trans hparent⟩

theorem DiffersAt.modelview? (hdiffers : scene.DiffersAt scene' key) (h : scene.Linked)
    (hbeside : ¬ Under scene.children key node) (root : NodeKey) :
    scene'.modelview? node root = scene.modelview? node root := by
  have hlinked' := h.of_sameLinks hdiffers.toSameLinks
  exact (hlinked'.seeksAncestor node root).unique
    (hdiffers.seeksAncestor h (h.seeksAncestor node root) hbeside)

/-- The nodes under another node do not meet what is not under it. -/
theorem DiffersAt.agreesUnder (hdiffers : scene.DiffersAt scene' key) (h : scene.Linked)
    (hbeside : ¬ Under scene.children node key) :
    scene.hierarchy.AgreesUnder scene'.hierarchy node := by
  have hlinked' := h.of_sameLinks hdiffers.toSameLinks
  have hget : ∀ n ∈ (scene.hierarchy.outline node).preorder,
      scene'.nodes.get? n = scene.nodes.get? n := by
    intro n hn
    refine hdiffers.get? n ?_
    rintro rfl
    exact hbeside (h.mem_outline_iff_under.mp hn)
  refine ⟨hdiffers.children, fun n hn => ?_, fun n hn => ?_, fun n hn c hc => ?_⟩
  · simp only [hierarchy, Scene.size?, hget n hn]
  · simp only [hierarchy, Scene.effects, hget n hn]
  · have hc' : c ∈ scene'.children n := by rwa [hdiffers.children]
    have hchild := (h.unfolds_outline node).mem_children hn hc
    obtain ⟨m, hm, hview⟩ := h.modelview?_parent hc
    obtain ⟨m', hm', hview'⟩ := hlinked'.modelview?_parent hc'
    have hsame : scene'.transform? c = scene.transform? c := by
      simp only [transform?, hget c hchild]
    obtain rfl : m' = m := Option.some.inj (hm'.symm.trans (hsame.trans hm))
    exact hview'.trans hview.symm

/-! ### One change -/

/-- One change to a node: an affine transform, a size, or an effect after the others that is
public. -/
inductive Adjusts (scene : Scene Rat) (key : NodeKey) : Scene Rat → Prop where
  | setTransform {transform : Mat4 Rat} : transform.IsAffine →
      Adjusts scene key ((setTransform key transform).perform scene).value.2
  | setSize (size : Option (Size Rat)) :
      Adjusts scene key ((setSize key size).perform scene).value.2
  | addEffect {effect : Effect Rat} : effect.IsPublic →
      Adjusts scene key ((addEffect key effect).perform scene).value.2

/-- Each of these changes the node in place, and leaves it as exact culling asks. -/
theorem Adjusts.eq_changeNode (h : scene.Adjusts key scene') : ∃ f : Node Rat → Node Rat,
    (∀ entry, (f entry).parent = entry.parent) ∧
      (∀ entry, (f entry).children = entry.children) ∧
      (∀ entry, entry.IsExact → (f entry).IsExact) ∧
      scene' = ((changeNode key f).perform scene).value.2 := by
  cases h with
  | @setTransform transform haffine =>
      exact ⟨({ · with transform }), fun _ => rfl, fun _ => rfl,
        fun _ hentry => ⟨haffine, hentry.effects⟩, rfl⟩
  | setSize size =>
      exact ⟨({ · with size }), fun _ => rfl, fun _ => rfl,
        fun _ hentry => ⟨hentry.affine, hentry.effects⟩, rfl⟩
  | @addEffect effect hpublic =>
      refine ⟨fun entry => { entry with effects := entry.effects ++ [effect] }, fun _ => rfl,
        fun _ => rfl, fun _ hentry => ⟨hentry.affine, ?_⟩, rfl⟩
      exact List.forall_mem_append.mpr ⟨hentry.effects, List.forall_mem_singleton.mpr hpublic⟩

/-- The verdict of the naive walk on a node decides what culling lists of it. -/
theorem Linked.cull_at (h : scene.Linked)
    (haffine : ∀ k m, scene.transform? k = some m → m.IsAffine)
    (hpublic : ∀ k, ∀ effect ∈ scene.effects k, effect.IsPublic) {stage : Stage Rat}
    (heye : stage.eye.IsAffine) (hnode : Under scene.children stage.root node)
    {culler : Culler Rat} (hculler : culler.Reachable) (settings : Settings) :
    let view := ((Culler.cull scene.hierarchy stage settings).run culler).value.1
    let verdict := scene.hierarchy.verdict stage false node (scene.hierarchy.subtreeVolume node)
    view.item? node = verdict ∧
      ∀ item, item ∈ view.items ∧ item.node = node ↔ verdict = some item := by
  have hitems := (h.coherent haffine hpublic stage.root).items_cull heye hculler settings
  have hmem := h.mem_outline_iff_under.mpr hnode
  have hkey : ∀ n item, scene.hierarchy.verdict stage false n
      (scene.hierarchy.subtreeVolume n) = some item → item.node = n :=
    fun _ _ hitem => (Hierarchy.of_verdict hitem).1
  exact ⟨PaintList.item?_eq hitems hkey hmem, PaintList.mem_items_iff hitems hkey hmem⟩

/-! ### Two nodes side by side -/

/-- A root with two nodes at the same place, each half as wide and high as the space that a
window shows to each side. -/
def sideBySide : Scene Rat :=
  let scene := ((createNode none .identity).perform (.empty : Scene Rat)).value.2
  let scene := ((createNode (some ⟨1, 1⟩) .identity).perform scene).value.2
  let scene := ((createNode (some ⟨1, 1⟩) .identity).perform scene).value.2
  let scene := ((setSize ⟨2, 1⟩ (some ⟨1 / 2, 1 / 2⟩)).perform scene).value.2
  ((setSize ⟨3, 1⟩ (some ⟨1 / 2, 1 / 2⟩)).perform scene).value.2

/-- The first of the nodes is moved out of the window. -/
def sideMoved : Scene Rat :=
  ((setTransform ⟨2, 1⟩ (.shift ⟨5, 0, 0⟩)).perform sideBySide).value.2

theorem reachable_sideBySide [Approximation Rat] : sideBySide.Reachable := by
  have hroot := Reachable.empty.step (.createNode _ none (.identity : Mat4 Rat))
  have hfirst := hroot.step (.createNode _ (some ⟨1, 1⟩) .identity)
  have hsecond := hfirst.step (.createNode _ (some ⟨1, 1⟩) .identity)
  have hsize := hsecond.step (.setSize _ ⟨2, 1⟩ (some ⟨1 / 2, 1 / 2⟩))
  exact hsize.step (.setSize _ ⟨3, 1⟩ (some ⟨1 / 2, 1 / 2⟩))

theorem sideBySide_isExact (k : NodeKey) (entry : Node Rat)
    (h : sideBySide.nodes.get? k = some entry) : entry.IsExact := by
  have hslots : sideBySide.nodes.slots = #[
      ⟨1, some ⟨none, [⟨2, 1⟩, ⟨3, 1⟩], .identity, none, []⟩⟩,
      ⟨1, some ⟨some ⟨1, 1⟩, [], .identity, some ⟨1 / 2, 1 / 2⟩, []⟩⟩,
      ⟨1, some ⟨some ⟨1, 1⟩, [], .identity, some ⟨1 / 2, 1 / 2⟩, []⟩⟩] := rfl
  obtain ⟨slot, hslot, hvalue⟩ := KeyStore.exists_slot_of_get? h
  rw [hslots] at hslot
  simp only [List.mem_toArray, List.mem_cons, List.not_mem_nil, or_false] at hslot
  rcases hslot with rfl | rfl | rfl <;> obtain rfl := Option.some.inj hvalue <;>
    exact ⟨Mat4.isAffine_identity, fun _ h => absurd h List.not_mem_nil⟩

/-- What culling lists of the nodes, in the window of `paddedStage`. -/
def sideView (scene : Scene Rat) : PaintList Rat :=
  ((Culler.cull scene.hierarchy paddedStage {}).run (.new {})).value.1

/-! ## Results -/

/-- A node that is neither above nor below a changed one is listed as before, whatever the
change does to the volumes above both. -/
theorem cull_beside_change [Approximation Rat] (h : scene.Reachable)
    (haffine : ∀ k m, scene.transform? k = some m → m.IsAffine)
    (hpublic : ∀ k, ∀ effect ∈ scene.effects k, effect.IsPublic) {stage : Stage Rat}
    (heye : stage.eye.IsAffine) (hadjusts : scene.Adjusts key scene')
    (hnode : Under scene.children stage.root node) (habove : ¬ Under scene.children node key)
    (hbelow : ¬ Under scene.children key node) {culler culler' : Culler Rat}
    (hculler : culler.Reachable) (hculler' : culler'.Reachable) (settings settings' : Settings) :
    let before := ((Culler.cull scene.hierarchy stage settings).run culler).value.1
    let after := ((Culler.cull scene'.hierarchy stage settings').run culler').value.1
    after.item? node = before.item? node ∧
      ∀ item, item.node = node → (item ∈ after.items ↔ item ∈ before.items) := by
  obtain ⟨f, hparent, hchildren, hexact, rfl⟩ := hadjusts.eq_changeNode
  have hlinked := h.consistent.toLinked
  have hdiffers := scene.differsAt_changeNode key hparent hchildren
  have hlinked' := hlinked.of_sameLinks hdiffers.toSameLinks
  obtain ⟨haffine', hpublic'⟩ := forall_isExact_iff.mp
    (forall_changeNode hexact (forall_isExact_iff.mpr ⟨haffine, hpublic⟩))
  have hnode' : Under (Scene.children _) stage.root node := funext hdiffers.children ▸ hnode
  obtain ⟨hitem, hlisted⟩ := hlinked.cull_at haffine hpublic heye hnode hculler settings
  obtain ⟨hitem', hlisted'⟩ :=
    hlinked'.cull_at haffine' hpublic' heye hnode' hculler' settings'
  have hverdict := (hlinked.coherent haffine hpublic node).verdict_congr
    (hdiffers.agreesUnder hlinked habove) (hlinked'.coherent haffine' hpublic' node)
    (hdiffers.modelview? hlinked hbelow stage.root)
  refine ⟨hitem'.trans (hverdict.trans hitem.symm), fun item hkey => ?_⟩
  have hbefore := hlisted item
  have hafter := hlisted' item
  rw [hverdict] at hafter
  simp only [hkey, and_true] at hbefore hafter
  exact hafter.trans hbefore.symm

/-- The root is inside the window before the change and partly outside after it, so the second
node is tested after the change only. -/
theorem sideMoved_cull_beside_change :
    let _ := Approximation.ofSquares
    (sideBySide.Reachable ∧ (∀ k m, sideBySide.transform? k = some m → m.IsAffine) ∧
      (∀ k, ∀ effect ∈ sideBySide.effects k, effect.IsPublic) ∧ paddedStage.eye.IsAffine ∧
      sideBySide.Adjusts ⟨2, 1⟩ sideMoved ∧ Under sideBySide.children ⟨1, 1⟩ ⟨3, 1⟩ ∧
      ¬ Under sideBySide.children ⟨3, 1⟩ ⟨2, 1⟩ ∧ ¬ Under sideBySide.children ⟨2, 1⟩ ⟨3, 1⟩ ∧
      (Culler.new {} : Culler Rat).Reachable) ∧
    (((sideView sideBySide).item? ⟨1, 1⟩).map (·.visibility) = some (some .inside) ∧
      ((sideView sideMoved).item? ⟨1, 1⟩).map (·.visibility) = some (some .partly)) ∧
    (sideView sideMoved).item? ⟨3, 1⟩ = (sideView sideBySide).item? ⟨3, 1⟩ ∧
      ∀ item, item.node = ⟨3, 1⟩ →
        (item ∈ (sideView sideMoved).items ↔ item ∈ (sideView sideBySide).items) := by
  intro _
  have h := reachable_sideBySide
  have hlinked := h.consistent.toLinked
  obtain ⟨haffine, hpublic⟩ := forall_isExact_iff.mp sideBySide_isExact
  have heye : paddedStage.eye.IsAffine := Mat4.isAffine_identity
  have hadjusts : sideBySide.Adjusts ⟨2, 1⟩ sideMoved := .setTransform ⟨rfl, rfl, rfl, rfl⟩
  have hnode : Under sideBySide.children paddedStage.root ⟨3, 1⟩ :=
    hlinked.mem_outline_iff_under.mp (by decide)
  have habove : ¬ Under sideBySide.children ⟨3, 1⟩ ⟨2, 1⟩ := by
    rw [← hlinked.mem_outline_iff_under]
    decide
  have hbelow : ¬ Under sideBySide.children ⟨2, 1⟩ ⟨3, 1⟩ := by
    rw [← hlinked.mem_outline_iff_under]
    decide
  exact ⟨⟨h, haffine, hpublic, heye, hadjusts, hnode, habove, hbelow, .new {}⟩,
    ⟨by decide +kernel, by decide +kernel⟩,
    cull_beside_change h haffine hpublic heye hadjusts hnode habove hbelow (.new {}) (.new {})
      {} {}⟩

end Scene

end SceneCulling
