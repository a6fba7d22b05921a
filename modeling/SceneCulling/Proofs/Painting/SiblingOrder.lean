import SceneCulling.Proofs.Painting.Frames
import SceneCulling.Proofs.Painting.Unbounded
import SceneCulling.Proofs.Volume.Accumulation
import SceneCulling.Proofs.Volume.Handling

/-!
# The order of siblings

The children of a node are taken in one after the other, the first that is not empty by another
way than the later ones, and none after one that cannot be taken in. Still the outcome does not
depend on their order: two children may be exchanged, because the joins of their boxes are the
same and the node is unbounded after both as soon as one of them makes it so. So the same nodes
are painted, each with the same item.

Effects may do anything here that the public operations allow. They may leave a volume labelled
with the space of another node; it is then moved from there, or not at all.
-/

namespace SceneCulling.Hierarchy

open Outline

variable {tree tree' : Hierarchy Rat} {stage : Stage Rat} {root node : NodeKey}
  {own below : Volume Rat}

/-! ## Bounds that a program can make -/

/-- If there is a bound, it is made by the public operations, in whatever space. -/
def Made (bound : Option (Volume Rat)) : Prop := ∀ v, bound = some v → v.Reachable

theorem made_startVolume (heffects : ∀ effect ∈ tree.effects node, effect.Operates) :
    Made (tree.startVolume node) := by
  intro v hv
  rcases of_startVolume hv with hown | ⟨-, rfl⟩
  · exact Effect.of_adjustAll heffects (tree.isPublic_fitSize node _ (.new _)).1
      (of_ownVolume hown)
  · exact .new _

/-- What taking in a child makes of a bound: nothing is left of it, or it stays as it is, or a
volume that can grow joins another one. Which of these it is, the child decides alone. -/
inductive Takes (join : Option (Volume Rat) → Option (Volume Rat)) : Prop where
  | drops (h : ∀ acc, join acc = none)
  | keeps (h : ∀ acc, join acc = acc)
  | merges {moved : Volume Rat} (hmoved : moved.Reachable) (h : ∀ acc, join acc =
      acc.bind fun own => if own.flags.aligned then some (own.merged moved) else none)

/-- The moved child is the same for every volume that takes it in. -/
theorem takes_solid (hbelow : below.Reachable) (he : below.flags.empty = false) :
    Takes fun acc => tree.joined node acc (some below) := by
  have hreachable := tree.reachable_takeTo (some node) hbelow
  rcases hmove : (tree.takeTo (some node)).perform below with ⟨⟨result, moved⟩, log⟩
  rw [hmove] at hreachable
  cases result with
  | error fault =>
      refine .drops fun acc => ?_
      cases acc with
      | none => rfl
      | some own =>
          have henclose : (tree.enclose node below).perform own = ⟨(.error fault, own), log⟩ :=
            Edit.perform_bind_of_error (Edit.perform_onCopy_of_error hmove own) _
          simp [joined, he, henclose]
  | ok =>
      refine .merges hreachable fun acc => ?_
      cases acc with
      | none => rfl
      | some own => exact joined_of_moved hmove he hreachable.flagsSound

theorem Made.takes {bound : Option (Volume Rat)} (h : Made bound) (tree : Hierarchy Rat)
    (node : NodeKey) : Takes fun acc => tree.joined node acc bound := by
  cases bound with
  | none => exact .drops fun acc => by cases acc <;> rfl
  | some below =>
      cases he : below.flags.empty with
      | false => exact takes_solid (h below rfl) he
      | true =>
          refine .keeps fun acc => ?_
          cases acc with
          | none => rfl
          | some own => exact joined_of_empty he

theorem Made.joined {acc bound : Option (Volume Rat)} (hacc : Made acc) (hbound : Made bound) :
    Made (tree.joined node acc bound) := by
  intro v hv
  cases hbound.takes tree node with
  | drops h =>
      rw [h] at hv
      cases hv
  | keeps h =>
      rw [h] at hv
      exact hacc v hv
  | merges hmoved h =>
      rw [h] at hv
      obtain ⟨own, hown, hv⟩ := Option.bind_eq_some_iff.mp hv
      split at hv
      · next ha =>
          obtain rfl := Option.some.inj hv
          exact (hacc own hown).merged ha hmoved
      · cases hv

/-- Whatever is in an outline, what a node gathers is made by the public operations. -/
theorem made_gathered (heffects : ∀ n, ∀ effect ∈ tree.effects n, effect.Operates)
    (o : Outline NodeKey) {acc : Option (Volume Rat)} (hacc : Made acc) :
    Made (tree.gathered node o acc) := by
  induction o generalizing node acc with
  | nil => exact hacc
  | node child below next ihb ihn =>
      exact ihn (hacc.joined (ihb (made_startVolume (heffects child))))

theorem made_subtreeVolume (heffects : ∀ n, ∀ effect ∈ tree.effects n, effect.Operates)
    (node : NodeKey) : Made (tree.subtreeVolume node) :=
  made_gathered heffects _ (made_startVolume (heffects node))

/-! ## Exchanging children -/

/-- Two volumes may join an aligned one in either order. -/
theorem merged_comm {moved moved' : Volume Rat} (hown : own.Reachable)
    (ha : own.flags.aligned = true) (hmoved : moved.Reachable) (hmoved' : moved'.Reachable) :
    (own.merged moved).merged moved' = (own.merged moved').merged moved := by
  have hothers : ∀ m ∈ [moved, moved'], m.Reachable := by simpa using ⟨hmoved, hmoved'⟩
  have hothers' : ∀ m ∈ [moved', moved], m.Reachable := by simpa using ⟨hmoved', hmoved⟩
  have hsame : Volume.SameSolids [moved, moved'] [moved', moved] := fun m _ => by simp [or_comm]
  exact hown.mergedAll_eq ha hothers hothers' hsame

/-- Two children may be taken in in either order. -/
theorem joined_comm {acc bound bound' : Option (Volume Rat)} (hacc : Made acc)
    (hbound : Made bound) (hbound' : Made bound') :
    tree.joined node (tree.joined node acc bound) bound' =
      tree.joined node (tree.joined node acc bound') bound := by
  cases hbound.takes tree node with
  | drops h =>
      rw [h, h]
      cases bound' <;> rfl
  | keeps h => rw [h, h]
  | @merges moved hmoved h =>
      cases hbound'.takes tree node with
      | drops h' => rw [h', h', h, Option.bind_none]
      | keeps h' => rw [h', h']
      | @merges moved' hmoved' h' =>
          rw [h', h, h, h']
          cases acc with
          | none => rfl
          | some own =>
              cases ha : own.flags.aligned with
              | false => simp [ha]
              | true =>
                  simp only [Option.bind_some, ha, if_true, Volume.aligned_merged]
                  rw [merged_comm (hacc own rfl) ha hmoved hmoved']

/-- By induction on the exchanges of two neighbours that make one order from the other. -/
theorem foldl_joined_perm {bound : NodeKey → Option (Volume Rat)} (hbound : ∀ c, Made (bound c))
    {children children' : List NodeKey} (hperm : children.Perm children')
    {acc : Option (Volume Rat)} (hacc : Made acc) :
    children.foldl (fun acc c => tree.joined node acc (bound c)) acc =
      children'.foldl (fun acc c => tree.joined node acc (bound c)) acc := by
  induction hperm generalizing acc with
  | nil => rfl
  | cons c _ ih => exact ih (hacc.joined (hbound c))
  | swap c d rest =>
      exact congrArg (rest.foldl fun acc c => tree.joined node acc (bound c))
        (joined_comm hacc (hbound d) (hbound c))
  | trans _ _ ih ih' => exact (ih hacc).trans (ih' hacc)

/-! ## Trees with their siblings in another order -/

/-- The trees agree in all but the order of siblings, as far as culling reads them. Which stage a
node is on is not asked. -/
structure Reordered (tree tree' : Hierarchy Rat) : Prop extends tree.Rearranged tree' where
  modelview? : ∀ node ancestor, tree.modelview? node ancestor = tree'.modelview? node ancestor

namespace Reordered

variable (hsame : tree.Reordered tree')
include hsame

theorem startVolume (node : NodeKey) : tree.startVolume node = tree'.startVolume node := by
  simp only [Hierarchy.startVolume, hsame.ownVolume, hsame.size?]

theorem joined (node : NodeKey) (acc bound : Option (Volume Rat)) :
    tree.joined node acc bound = tree'.joined node acc bound := by
  have henclose : tree.enclose node = tree'.enclose node := by
    funext below
    simp only [enclose, takeTo, hsame.modelview?]
  cases acc with
  | none => cases bound <;> rfl
  | some own =>
      cases bound with
      | none => rfl
      | some below => simp only [Hierarchy.joined, henclose]

theorem verdict (stage : Stage Rat) (inside : Bool) (node : NodeKey)
    (bound : Option (Volume Rat)) :
    tree.verdict stage inside node bound = tree'.verdict stage inside node bound := by
  have heye : tree.eyeTransform stage = tree'.eyeTransform stage := by
    funext n
    simp only [eyeTransform, hsame.modelview?]
  cases bound with
  | none => rfl
  | some v =>
      have htest : tree.test stage inside node v = tree'.test stage inside node v := by
        simp only [test, heye]
      have hpixels : tree.pixelRect stage v = tree'.pixelRect stage v := by
        simp only [pixelRect, heye]
      simp only [Hierarchy.verdict, htest, hpixels]

variable (htree : tree.IsTree root) (htree' : tree'.IsTree root)
include htree htree'

theorem mem_outline_iff :
    node ∈ (tree.outline root).preorder ↔ node ∈ (tree'.outline root).preorder := by
  rw [htree.unfolds_outline.mem_preorder_iff_under, htree'.unfolds_outline.mem_preorder_iff_under,
    hsame.under]

/-- Neither tree has a node twice. -/
theorem size_outline : (tree.outline root).size = (tree'.outline root).size := by
  rw [← length_preorder, ← length_preorder]
  exact ((List.perm_ext_iff_of_nodup htree.nodup_outline htree'.nodup_outline).mpr
    fun _ => hsame.mem_outline_iff htree htree').length_eq

variable (heffects : ∀ n, ∀ effect ∈ tree.effects n, effect.Operates)
include heffects

/-- By induction from the children to their parent: the children have the same volumes, and their
order does not matter for taking them in. -/
theorem subtreeVolume : ∀ n ∈ (tree.outline root).preorder,
    tree.subtreeVolume n = tree'.subtreeVolume n := by
  refine htree.unfolds_outline.of_children fun n hn ih => ?_
  have hn' := (hsame.mem_outline_iff htree htree').mp hn
  have hperm := hsame.children n
  have hmade := made_startVolume (heffects n)
  rw [hsame.startVolume] at hmade
  calc tree.subtreeVolume n
      = (tree.children n).foldl (fun acc c => tree.joined n acc (tree.subtreeVolume c))
          (tree'.startVolume n) := by
        rw [subtreeVolume_eq_foldl (htree.unfolds_below_of_mem hn), hsame.startVolume]
    _ = (tree'.children n).foldl (fun acc c => tree.joined n acc (tree.subtreeVolume c))
          (tree'.startVolume n) := foldl_joined_perm (made_subtreeVolume heffects) hperm hmade
    _ = (tree'.children n).foldl (fun acc c => tree'.joined n acc (tree'.subtreeVolume c))
          (tree'.startVolume n) := by
        refine List.foldl_ext _ _ _ fun acc c hc => ?_
        rw [hsame.joined, ih c (hperm.mem_iff.mpr hc)]
    _ = tree'.subtreeVolume n := by rw [subtreeVolume_eq_foldl (htree'.unfolds_below_of_mem hn')]

end Reordered

/-! ## Painted nodes -/

/-- The kept items of some trees are those of one tree after the other. -/
theorem keptItems_eq_flatMap {roots : List NodeKey} {o : Outline NodeKey}
    (hu : Unfolds tree.children roots o) (hunfolds : ∀ n ∈ o.preorder,
      Unfolds tree.children (tree.children n) (tree.below n)) (inside : Bool) :
    tree.keptItems stage inside o =
      roots.flatMap fun n => tree.keptItems stage inside (tree.outline n) := by
  induction hu with
  | nil => rfl
  | @node n roots below next hbelow _ _ ihn =>
      have hsame : tree.outline n = .node n below .nil := by
        rw [outline, hbelow.unique (hunfolds n List.mem_cons_self)]
      have hnext := ihn fun m hm => hunfolds m (mem_preorder.mpr (.inr (.inr hm)))
      rw [List.flatMap_cons, hsame, ← hnext]
      simp only [keptItems]
      cases tree.verdict stage inside n (tree.subtreeVolume n) <;> simp

theorem keptItems_below (hunfolds : ∀ n ∈ (tree.outline node).preorder,
      Unfolds tree.children (tree.children n) (tree.below n)) (inside : Bool) :
    tree.keptItems stage inside (tree.below node) =
      (tree.children node).flatMap fun n => tree.keptItems stage inside (tree.outline n) :=
  keptItems_eq_flatMap (hunfolds node List.mem_cons_self)
    (fun n hn => hunfolds n (mem_preorder.mpr (.inr (.inl hn)))) inside

/-- By induction from the children to their parent, for a parent inside and for one that is not:
the verdict on a node is the same, and so are the items below it but for their order. -/
theorem Reordered.keptItems_perm (hsame : tree.Reordered tree') (htree : tree.IsTree root)
    (htree' : tree'.IsTree root) (heffects : ∀ n, ∀ effect ∈ tree.effects n, effect.Operates)
    (stage : Stage Rat) : ∀ n ∈ (tree.outline root).preorder, ∀ inside,
      (tree.keptItems stage inside (tree.outline n)).Perm
        (tree'.keptItems stage inside (tree'.outline n)) := by
  refine htree.unfolds_outline.of_children fun n hn ih inside => ?_
  have hn' := (hsame.mem_outline_iff htree htree').mp hn
  have hverdict : tree.verdict stage inside n (tree.subtreeVolume n) =
      tree'.verdict stage inside n (tree'.subtreeVolume n) := by
    rw [hsame.verdict, hsame.subtreeVolume htree htree' heffects n hn]
  simp only [outline, keptItems, hverdict, List.append_nil]
  cases tree'.verdict stage inside n (tree'.subtreeVolume n) with
  | none => exact .nil
  | some item =>
      refine .cons item ?_
      rw [keptItems_below (htree.unfolds_below_of_mem hn),
        keptItems_below (htree'.unfolds_below_of_mem hn')]
      exact .flatMap (hsame.children n) fun c hc => ih c hc _

/-! ## Results -/

/-- The order of siblings does not matter for what is painted. Whatever cullers look at the two
trees, they list the same items, each as often, and leave as many nodes out. -/
theorem cull_reordered (htree : tree.IsTree stage.root) (htree' : tree'.IsTree stage.root)
    (hsame : tree.Reordered tree') (heffects : ∀ n, ∀ effect ∈ tree.effects n, effect.Operates)
    {culler culler' : Culler Rat} (hculler : culler.Reachable) (hculler' : culler'.Reachable)
    (settings settings' : Settings) :
    let list := ((Culler.cull tree stage settings).run culler).value.1
    let list' := ((Culler.cull tree' stage settings').run culler').value.1
    list.items.Perm list'.items ∧ list.culled = list'.culled := by
  intro list list'
  have hitems : list.items.Perm list'.items := by
    rw [Culler.items_cull htree.unfolds_below hculler settings,
      Culler.items_cull htree'.unfolds_below hculler' settings']
    exact hsame.keptItems_perm htree htree' heffects stage stage.root List.mem_cons_self false
  refine ⟨hitems, ?_⟩
  have hcount : list.count + list.culled = (tree.outline stage.root).size :=
    hculler.count_add_culled htree.unfolds_below settings
  have hcount' : list'.count + list'.culled = (tree'.outline stage.root).size :=
    hculler'.count_add_culled htree'.unfolds_below settings'
  rw [← hsame.size_outline htree htree', ← hcount] at hcount'
  have hlength : list.count = list'.count := hitems.length_eq
  omega

/-- The first of the two is turned off the axes and the second is padded. -/
def unlikeTwins (children : List NodeKey) : Hierarchy Rat where
  size? _ := some ⟨1, 1⟩
  modelview? node _ := some (if node = ⟨2, 1⟩ then .quarterTurn else .identity)
  stageOf? _ := none
  children
    | ⟨1, _⟩ => children
    | _ => []
  effects
    | ⟨3, _⟩ => [.padding ⟨1, 0, 2, 0⟩]
    | _ => []
  depth := 2

theorem unlikeTwins_cull_reordered :
    let tree := unlikeTwins [⟨2, 1⟩, ⟨3, 1⟩]
    let tree' := unlikeTwins [⟨3, 1⟩, ⟨2, 1⟩]
    let list := ((Culler.cull tree twinsStage {}).run (.new {})).value.1
    let list' := ((Culler.cull tree' twinsStage {}).run (.new {})).value.1
    (tree.IsTree ⟨1, 1⟩ ∧ tree'.IsTree ⟨1, 1⟩ ∧ tree.Reordered tree' ∧
      (∀ n, ∀ effect ∈ tree.effects n, effect.Operates) ∧
      (Culler.new {} : Culler Rat).Reachable) ∧
    (list.items.Perm list'.items ∧ list.culled = list'.culled) ∧
    list.nodes = [⟨1, 1⟩, ⟨2, 1⟩, ⟨3, 1⟩] ∧ list'.nodes = [⟨1, 1⟩, ⟨3, 1⟩, ⟨2, 1⟩] := by
  intro tree tree' list list'
  have htree : tree.IsTree ⟨1, 1⟩ := .of_size_le
    (o := .node ⟨1, 1⟩ (.node ⟨2, 1⟩ .nil (.node ⟨3, 1⟩ .nil .nil)) .nil)
    (.node (.node .nil (.node .nil .nil)) .nil) (by decide) (by decide)
  have htree' : tree'.IsTree ⟨1, 1⟩ := .of_size_le
    (o := .node ⟨1, 1⟩ (.node ⟨3, 1⟩ .nil (.node ⟨2, 1⟩ .nil .nil)) .nil)
    (.node (.node .nil (.node .nil .nil)) .nil) (by decide) (by decide)
  have hsame : tree.Reordered tree' := {
    children := fun n => by
      simp only [tree, tree', unlikeTwins]
      split
      · exact .swap _ _ _
      · exact .nil
    size? := fun _ => rfl
    effects := fun _ => rfl
    modelview? := fun _ _ => rfl }
  have heffects : ∀ n, ∀ effect ∈ tree.effects n, effect.Operates := by
    intro n effect heffect
    simp only [tree, unlikeTwins] at heffect
    split at heffect
    · rw [List.mem_singleton.mp heffect]
      exact (Effect.isPublic_padding _).operates
    · cases heffect
  have hnew : (Culler.new {} : Culler Rat).Reachable := .new {}
  exact ⟨⟨htree, htree', hsame, heffects, hnew⟩,
    cull_reordered htree htree' hsame heffects hnew hnew {} {},
    by decide +kernel, by decide +kernel⟩

end SceneCulling.Hierarchy
