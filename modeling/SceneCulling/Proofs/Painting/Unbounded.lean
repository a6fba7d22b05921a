import Mathlib
import SceneCulling.Proofs.Painting.Accounting
import SceneCulling.Proofs.Painting.OwnVolume
import SceneCulling.Proofs.Scene.Transforms

/-!
# Unbounded nodes

A node is unbounded for a reason of its own, or because a node below it is. There are two
reasons: the node has a size, but no volume bounds what it paints; or its own volume is off
the axes and cannot grow around what a child paints. Nothing else makes a node unbounded. In
particular, no child is ever refused for its own volume or for its place, so neither the
transforms nor the order of the children matter. An unbounded node is always listed, because
all nodes above it are unbounded as well.
-/

namespace SceneCulling

variable {K : Type} [Scalar K]

open Outline

namespace Hierarchy

variable {tree : Hierarchy K} {stage : Stage K} {node child : NodeKey}
  {own below start v : Volume K} {roots : List NodeKey} {o : Outline NodeKey}

/-! ## Reasons -/

/-- The node has a size on both sides, but nothing bounds what it paints. -/
def Vetoed (tree : Hierarchy K) (node : NodeKey) : Prop :=
  (∃ size, tree.size? node = some size ∧ (size.width != 0) = true ∧
    (size.height != 0) = true) ∧ (tree.ownVolume node).value = none

/-- The own volume of the node is off the axes, and a child has a volume to be enclosed. -/
def Blocked (tree : Hierarchy K) (node : NodeKey) : Prop :=
  ∃ own, (tree.ownVolume node).value = some own ∧ own.flags.aligned = false ∧
    ∃ child ∈ tree.children node, ∃ below, tree.subtreeVolume child = some below ∧
      below.flags.empty = false

/-- The node, or a node below it, has a reason to be unbounded. -/
def Unbounded (tree : Hierarchy K) (node : NodeKey) : Prop :=
  ∃ d, Under tree.children node d ∧ (tree.Vetoed d ∨ tree.Blocked d)

/-- The node, or a node below it, has a volume of its own that is not empty. -/
def Solid (tree : Hierarchy K) (node : NodeKey) : Prop :=
  ∃ d, Under tree.children node d ∧
    ∃ own, (tree.ownVolume d).value = some own ∧ own.flags.empty = false

/-- What a host program owes to the joining of its volumes: finite trees that are not cut off,
a transform from each child to its parent, and public effects. -/
structure Joinable (tree : Hierarchy K) : Prop where
  unfolds : ∀ node, Unfolds tree.children (tree.children node) (tree.below node)
  toParent : ∀ node, ∀ child ∈ tree.children node, ∃ m, tree.modelview? child node = some m
  effects : ∀ node, ∀ effect ∈ tree.effects node, effect.IsPublic

/-! ## One child -/

/-- A volume in the space of a node, whose flags allow to enclose it. -/
structure Enclosable (node : NodeKey) (v : Volume K) : Prop where
  flags : v.FlagsSound
  reference_eq : v.reference = some node

/-- Only the volume of the node decides whether it can grow around a child. -/
theorem joined_eq (hbelow : Enclosable child below) {m : Mat4 K}
    (hm : tree.modelview? child node = some m) (he : below.flags.empty = false) :
    tree.joined node (some own) (some below) =
      if own.flags.aligned then
        some (own.merged ((below.transform m).withReference (some node)))
      else none := by
  have hmoved : ((below.transform m).withReference (some node)).FlagsSound := by
    have hsound : (below.transform m).FlagsSound := hbelow.flags.mapVertices _
    exact ⟨hsound.aligned_of_empty, hsound.complete_of_not_aligned⟩
  exact joined_of_moved (perform_takeTo hbelow.reference_eq hm) he hmoved

/-! ## All children -/

/-- The child stops a node with this volume from being bounded. -/
def Hinders (tree : Hierarchy K) (own : Volume K) (child : NodeKey) : Prop :=
  tree.subtreeVolume child = none ∨ own.flags.aligned = false ∧
    ∃ below, tree.subtreeVolume child = some below ∧ below.flags.empty = false

/-- A volume after some children are taken in, apart from where its faces are. -/
structure TakesIn (tree : Hierarchy K) (node : NodeKey) (roots : List NodeKey)
    (own v : Volume K) : Prop extends Enclosable node v where
  aligned_eq : v.flags.aligned = own.flags.aligned
  unhindered : ∀ child ∈ roots, ¬ tree.Hinders own child
  empty_iff : v.flags.empty = true ↔ own.flags.empty = true ∧ ∀ child ∈ roots,
    ∀ below, tree.subtreeVolume child = some below → below.flags.empty = true

theorem hinders_congr (h : v.flags.aligned = own.flags.aligned) :
    tree.Hinders v child ↔ tree.Hinders own child := by
  rw [Hinders, Hinders, h]

/-- Some children are taken in after others. -/
theorem TakesIn.trans {u : Volume K} {others : List NodeKey} (h : TakesIn tree node roots own u)
    (h' : TakesIn tree node others u v) : TakesIn tree node (roots ++ others) own v where
  toEnclosable := h'.toEnclosable
  aligned_eq := h'.aligned_eq.trans h.aligned_eq
  unhindered := List.forall_mem_append.mpr
    ⟨h.unhindered, fun c hc hhinders =>
      h'.unhindered c hc ((hinders_congr h.aligned_eq).mpr hhinders)⟩
  empty_iff := by
    rw [h'.empty_iff, h.empty_iff, List.forall_mem_append, and_assoc]

/-- A child hinders or is taken in. -/
theorem joined_cases (hown : Enclosable node own)
    (hinner : ∀ below, tree.subtreeVolume child = some below → Enclosable child below)
    {m : Mat4 K} (hm : tree.modelview? child node = some m) :
    tree.joined node (some own) (tree.subtreeVolume child) = none ∧ tree.Hinders own child ∨
      ∃ u, tree.joined node (some own) (tree.subtreeVolume child) = some u ∧
        TakesIn tree node [child] own u := by
  cases hvolume : tree.subtreeVolume child with
  | none => exact .inl ⟨rfl, .inl hvolume⟩
  | some below =>
      have hspace := hinner below hvolume
      have hunhindered : (own.flags.aligned = true ∨ below.flags.empty = true) →
          ∀ c ∈ [child], ¬ tree.Hinders own c := by
        rintro hfits c hc (hnone | ⟨hoff, w, hw, hfull⟩)
        all_goals obtain rfl := List.mem_singleton.mp hc
        · exact absurd (hnone.symm.trans hvolume) (by simp)
        · obtain rfl := Option.some.inj (hw.symm.trans hvolume)
          simp [hoff, hfull] at hfits
      cases he : below.flags.empty with
      | true =>
          refine .inr ⟨own, joined_of_empty he, hown, rfl, hunhindered (.inr he), ?_⟩
          simp [hvolume, he]
      | false =>
          rw [joined_eq hspace hm he]
          cases ha : own.flags.aligned with
          | false => exact .inl ⟨rfl, .inr ⟨ha, below, hvolume, he⟩⟩
          | true =>
              let moved := (below.transform m).withReference (some node)
              have haligned := Volume.aligned_merged own moved
              have hreference := Volume.reference_merged own moved
              have hempty : moved.flags.empty = false :=
                (Volume.empty_mapVertices m.applyPoint below).trans he
              refine .inr ⟨own.merged moved, rfl,
                ⟨.of_aligned (haligned.trans ha), hreference.trans hown.reference_eq⟩, haligned,
                hunhindered (.inl ha), ?_⟩
              simp [hvolume, he, (Volume.flags_merged own moved).1, hempty]

theorem startVolume_eq_none_iff : tree.startVolume node = none ↔ tree.Vetoed node := by
  rw [startVolume, Vetoed]
  cases (tree.ownVolume node).value with
  | some own => simp
  | none =>
      cases tree.size? node with
      | none => simp
      | some size => simp

/-- A node starts with its own volume, or with a new one if it paints nothing itself. -/
theorem of_startVolume (h : tree.startVolume node = some start) :
    (tree.ownVolume node).value = some start ∨
      (tree.ownVolume node).value = none ∧ start = .new (some node) := by
  rw [startVolume] at h
  cases hown : (tree.ownVolume node).value with
  | some own =>
      rw [hown] at h
      exact .inl h
  | none =>
      rw [hown] at h
      simp only at h
      split at h
      · cases h
      · exact .inr ⟨rfl, (Option.some.inj h).symm⟩

namespace Joinable

variable (h : tree.Joinable)
include h

theorem startVolume (hstart : tree.startVolume node = some start) : Enclosable node start := by
  rcases of_startVolume hstart with hown | ⟨-, rfl⟩
  · obtain ⟨hreachable, hreference⟩ := ownVolume_reachable (h.effects node) hown
    exact ⟨hreachable.flagsSound, hreference⟩
  · exact ⟨.of_aligned rfl, rfl⟩

/-- By induction on the trees below a node: a child that hinders makes the node unbounded, and
any other child is taken in. Taking in leaves the volume of the node as aligned as it was, so
whether a child hinders does not depend on those before it. -/
theorem gathered (hu : Unfolds tree.children roots o)
    (hroots : ∀ c ∈ roots, c ∈ tree.children node) (hown : Enclosable node own) :
    tree.gathered node o (some own) = none ∧ (∃ child ∈ roots, tree.Hinders own child) ∨
      ∃ v, tree.gathered node o (some own) = some v ∧ TakesIn tree node roots own v := by
  induction hu generalizing node own with
  | nil => exact .inr ⟨own, rfl, hown, rfl, fun _ hc => absurd hc List.not_mem_nil, by simp⟩
  | @node child roots below next hbelow _ ihb ihn =>
      obtain ⟨m, hm⟩ := h.toParent node child (hroots child List.mem_cons_self)
      have hvolume : tree.gathered child below (tree.startVolume child) =
          tree.subtreeVolume child := by
        rw [subtreeVolume, hbelow.unique (h.unfolds child)]
      have hinner : ∀ inner, tree.subtreeVolume child = some inner → Enclosable child inner := by
        intro inner hsome
        cases hstart : tree.startVolume child with
        | none =>
            rw [← hvolume, hstart, gathered_none] at hsome
            cases hsome
        | some start =>
            rw [← hvolume, hstart] at hsome
            rcases ihb (fun _ hc => hc) (h.startVolume hstart) with ⟨hnone, -⟩ | ⟨v, hv, htaken⟩
            · exact absurd (hnone.symm.trans hsome) (by simp)
            · obtain rfl := Option.some.inj (hv.symm.trans hsome)
              exact htaken.toEnclosable
      have hunfold : tree.gathered node (.node child below next) (some own) =
          tree.gathered node next (tree.joined node (some own) (tree.subtreeVolume child)) := by
        rw [← hvolume]
        rfl
      rw [hunfold]
      rcases joined_cases hown hinner hm with ⟨hnone, hhinders⟩ | ⟨u, hjoined, htaken⟩
      · rw [hnone]
        exact .inl ⟨gathered_none _ _ _, child, List.mem_cons_self, hhinders⟩
      · rw [hjoined]
        rcases ihn (fun c hc => hroots c (List.mem_cons_of_mem _ hc)) htaken.toEnclosable with
          ⟨hnone, c, hc, hhinders⟩ | ⟨v, hv, hrest⟩
        · exact .inl ⟨hnone, c, List.mem_cons_of_mem _ hc,
            (hinders_congr htaken.aligned_eq).mp hhinders⟩
        · exact .inr ⟨v, hv, htaken.trans hrest⟩

/-- A node is unbounded for a reason of its own, or because a child is. -/
theorem subtreeVolume_eq_none_iff : tree.subtreeVolume node = none ↔
    tree.Vetoed node ∨ tree.Blocked node ∨
      ∃ child ∈ tree.children node, tree.subtreeVolume child = none := by
  cases hstart : tree.startVolume node with
  | none =>
      have hvetoed := startVolume_eq_none_iff.mp hstart
      simp [subtreeVolume, hstart, gathered_none, hvetoed]
  | some start =>
      have hnot : ¬ tree.Vetoed node := fun hvetoed => by
        rw [startVolume_eq_none_iff.mpr hvetoed] at hstart
        cases hstart
      have hblocked : tree.Blocked node ↔ start.flags.aligned = false ∧
          ∃ child ∈ tree.children node, ∃ below, tree.subtreeVolume child = some below ∧
            below.flags.empty = false := by
        rcases of_startVolume hstart with hown | ⟨hown, rfl⟩
        · simp [Blocked, hown]
        · simp [Blocked, hown, Volume.new]
      have hhinders : (∃ child ∈ tree.children node, tree.Hinders start child) ↔
          tree.Blocked node ∨ ∃ child ∈ tree.children node, tree.subtreeVolume child = none := by
        simp only [hblocked, Hinders]
        grind
      rw [← hhinders, subtreeVolume, hstart]
      rcases h.gathered (h.unfolds node) (fun _ hc => hc) (h.startVolume hstart) with
        ⟨hnone, hsome⟩ | ⟨v, hv, htaken⟩
      · simp [hnone, hsome]
      · have hnone : ¬ ∃ child ∈ tree.children node, tree.Hinders start child := by
          rintro ⟨c, hc, hhinders⟩
          exact htaken.unhindered c hc hhinders
        simp [hv, hnot, hnone]

/-- The subtree volume of a bounded node is empty iff nothing under the node has a volume. -/
theorem empty_subtreeVolume_iff (hv : tree.subtreeVolume node = some v) :
    v.flags.empty = true ↔
      (∀ own, (tree.ownVolume node).value = some own → own.flags.empty = true) ∧
        ∀ child ∈ tree.children node, ∀ below, tree.subtreeVolume child = some below →
          below.flags.empty = true := by
  cases hstart : tree.startVolume node with
  | none =>
      rw [subtreeVolume, hstart, gathered_none] at hv
      cases hv
  | some start =>
      have hown : start.flags.empty = true ↔
          ∀ own, (tree.ownVolume node).value = some own → own.flags.empty = true := by
        rcases of_startVolume hstart with hown | ⟨hown, rfl⟩
        · simp [hown]
        · simp [hown, Volume.new]
      rw [subtreeVolume, hstart] at hv
      rcases h.gathered (h.unfolds node) (fun _ hc => hc) (h.startVolume hstart) with
        ⟨hnone, -⟩ | ⟨w, hw, htaken⟩
      · exact absurd (hnone.symm.trans hv) (by simp)
      · obtain rfl := Option.some.inj (hw.symm.trans hv)
        rw [← hown, htaken.empty_iff]

/-- What passes from the children of a node to the node holds of all nodes. -/
theorem of_children {P : NodeKey → Prop}
    (step : ∀ node, (∀ child ∈ tree.children node, P child) → P node) (node : NodeKey) : P node :=
  (Unfolds.node (h.unfolds node) .nil).of_children (fun a _ => step a) node List.mem_cons_self

/-- A node has no subtree volume iff a node under it has a reason for it. -/
theorem subtreeVolume_eq_none : tree.subtreeVolume node = none ↔ tree.Unbounded node := by
  constructor
  · intro hnone
    induction node using h.of_children with
    | step node ih =>
        rcases h.subtreeVolume_eq_none_iff.mp hnone with hvetoed | hblocked | ⟨c, hc, hchild⟩
        · exact ⟨node, .refl, .inl hvetoed⟩
        · exact ⟨node, .refl, .inr hblocked⟩
        · obtain ⟨d, hunder, hreason⟩ := ih c hc hchild
          exact ⟨d, .head hc hunder, hreason⟩
  · rintro ⟨d, hunder, hreason⟩
    induction hunder using Relation.ReflTransGen.head_induction_on with
    | refl => exact h.subtreeVolume_eq_none_iff.mpr (hreason.imp_right .inl)
    | head hc _ ih => exact h.subtreeVolume_eq_none_iff.mpr (.inr (.inr ⟨_, hc, ih⟩))

/-- The children of a bounded node are bounded. -/
theorem bounded_child (hv : tree.subtreeVolume node = some v)
    (hchild : child ∈ tree.children node) : ∃ below, tree.subtreeVolume child = some below := by
  refine Option.ne_none_iff_exists'.mp fun hnone => ?_
  have hlost := h.subtreeVolume_eq_none_iff.mpr (.inr (.inr ⟨child, hchild, hnone⟩))
  exact absurd (hlost.symm.trans hv) (by simp)

/-- A subtree volume is empty iff nothing under the node has a volume of its own. -/
theorem solid_iff (hv : tree.subtreeVolume node = some v) :
    v.flags.empty = false ↔ tree.Solid node := by
  induction node using h.of_children generalizing v with
  | step node ih =>
      rw [← Bool.not_eq_true, h.empty_subtreeVolume_iff hv, not_and_or]
      constructor
      · rintro (hown | hbelow)
        · push Not at hown
          obtain ⟨own, hown, hfull⟩ := hown
          exact ⟨node, .refl, own, hown, Bool.not_eq_true _ ▸ hfull⟩
        · push Not at hbelow
          obtain ⟨c, hc, u, hu, hfull⟩ := hbelow
          obtain ⟨d, hunder, hown⟩ := (ih c hc hu).mp (Bool.not_eq_true _ ▸ hfull)
          exact ⟨d, .head hc hunder, hown⟩
      · rintro ⟨d, hunder, own, hown, hfull⟩
        rcases Relation.ReflTransGen.cases_head hunder with rfl | ⟨c, hc, hunder⟩
        · exact .inl fun hempty => by simp [hempty own hown] at hfull
        · obtain ⟨u, hu⟩ := h.bounded_child hv hc
          have hsolid := (ih c hc hu).mpr ⟨d, hunder, own, hown, hfull⟩
          exact .inr fun hempty => by simp [hempty c hc u hu] at hsolid

/-- Own volumes alone decide which nodes are unbounded. -/
theorem unbounded_iff_own : tree.Unbounded node ↔ ∃ d, Under tree.children node d ∧
    (tree.Vetoed d ∨ ∃ own, (tree.ownVolume d).value = some own ∧ own.flags.aligned = false ∧
      ∃ child ∈ tree.children d, tree.Solid child) := by
  constructor
  · rintro ⟨d, hunder, hvetoed | ⟨own, hown, hoff, c, hc, below, hbelow, hfull⟩⟩
    · exact ⟨d, hunder, .inl hvetoed⟩
    · exact ⟨d, hunder, .inr ⟨own, hown, hoff, c, hc, (h.solid_iff hbelow).mp hfull⟩⟩
  · rintro ⟨d, hunder, hvetoed | ⟨own, hown, hoff, c, hc, hsolid⟩⟩
    · exact ⟨d, hunder, .inl hvetoed⟩
    · cases hbelow : tree.subtreeVolume c with
      | none =>
          obtain ⟨e, hce, hreason⟩ := h.subtreeVolume_eq_none.mp hbelow
          exact ⟨e, hunder.trans (.head hc hce), hreason⟩
      | some below =>
          exact ⟨d, hunder, .inr ⟨own, hown, hoff, c, hc, below, hbelow,
            (h.solid_iff hbelow).mpr hsolid⟩⟩

/-! ## Listing -/

/-- An unbounded node is listed, since no node above it is left out. -/
theorem mem_keptItems (hu : Unfolds tree.children roots o) (hnode : node ∈ o.preorder)
    (hunbounded : tree.Unbounded node) (inside : Bool) :
    (⟨node, none, none⟩ : PaintItem K) ∈ tree.keptItems stage inside o := by
  induction hu generalizing inside with
  | nil => exact absurd hnode List.not_mem_nil
  | @node a as below next hbelow _ ihb ihn =>
      rw [keptItems]
      rcases mem_preorder.mp hnode with rfl | hnode | hnode
      · rw [h.subtreeVolume_eq_none.mpr hunbounded]
        exact List.mem_cons_self
      · -- the reason under the node is a reason for the node above as well
        have habove : tree.Unbounded a := by
          obtain ⟨c, hc, hunder⟩ := hbelow.mem_preorder_iff_under.mp hnode
          obtain ⟨d, hd, hreason⟩ := hunbounded
          exact ⟨d, .head hc (hunder.trans hd), hreason⟩
        rw [h.subtreeVolume_eq_none.mpr habove]
        exact List.mem_cons_of_mem _ (List.mem_append_left _ (ihb hnode _))
      · cases tree.verdict stage inside a (tree.subtreeVolume a) with
        | none => exact ihn hnode inside
        | some item => exact List.mem_cons_of_mem _ (List.mem_append_right _ (ihn hnode inside))

/-- What is listed for a node shows whether the node is unbounded. -/
theorem of_mem_keptItems {inside : Bool} {item : PaintItem K}
    (hitem : item ∈ tree.keptItems stage inside o) :
    tree.Unbounded item.node ∧ item = ⟨item.node, none, none⟩ ∨
      ¬ tree.Unbounded item.node ∧
        (item.visibility = some .inside ∨ item.visibility = some .partly) := by
  obtain ⟨inner, hverdict⟩ := tree.verdict_of_mem hitem
  have hvisible := (of_verdict hverdict).2
  rw [← h.subtreeVolume_eq_none]
  cases hvolume : tree.subtreeVolume item.node with
  | none =>
      rw [hvolume] at hverdict
      exact .inl ⟨rfl, (Option.some.inj hverdict).symm⟩
  | some v =>
      refine .inr ⟨by simp, ?_⟩
      simp only [hvolume, verdict] at hverdict
      split at hverdict
      · cases hverdict
      · have hshown := congrArg (·.visibility) (Option.some.inj hverdict)
        simp only at hshown
        rw [← hshown] at hvisible ⊢
        cases hshow : (tree.test stage inner item.node v).value with
        | inside => exact .inl rfl
        | partly => exact .inr rfl
        | outside => exact absurd (congrArg some hshow) hvisible

/-- Culling lists nodes under the root of the stage only. -/
theorem under_of_mem_items (hu : Unfolds tree.children [stage.root] (tree.outline stage.root))
    {culler : Culler K} (hculler : culler.Reachable) (settings : Settings) {item : PaintItem K}
    (hitem : item ∈ ((Culler.cull tree stage settings).run culler).value.1.items) :
    Under tree.children stage.root item.node := by
  rw [Culler.items_cull (fun n _ => h.unfolds n) hculler settings] at hitem
  have hmem := (tree.keptNodes_sublist stage false _).subset (List.mem_map_of_mem hitem)
  obtain ⟨a, ha, hunder⟩ := hu.mem_preorder_iff_under.mp hmem
  rwa [List.mem_singleton.mp ha] at hunder

/-- Culling lists the unbounded nodes under the root, and no others, without a test. -/
theorem untested_iff (hu : Unfolds tree.children [stage.root] (tree.outline stage.root))
    {culler : Culler K} (hculler : culler.Reachable) (settings : Settings) (node : NodeKey) :
    (⟨node, none, none⟩ : PaintItem K) ∈
        ((Culler.cull tree stage settings).run culler).value.1.items ↔
      Under tree.children stage.root node ∧ tree.Unbounded node := by
  constructor
  · intro hitem
    refine ⟨h.under_of_mem_items hu hculler settings hitem, ?_⟩
    rw [Culler.items_cull (fun n _ => h.unfolds n) hculler settings] at hitem
    rcases h.of_mem_keptItems hitem with ⟨hunbounded, -⟩ | ⟨-, hshown | hshown⟩
    · exact hunbounded
    · cases hshown
    · cases hshown
  · rintro ⟨hunder, hunbounded⟩
    rw [Culler.items_cull (fun n _ => h.unfolds n) hculler settings]
    have hmem := hu.mem_preorder_iff_under.mpr ⟨_, List.mem_singleton_self _, hunder⟩
    exact h.mem_keptItems hu hmem hunbounded false

end Joinable

/-! ## Transforms and siblings -/

/-- The trees agree in all but the transforms, the stages and the order of siblings. -/
structure Rearranged (tree tree' : Hierarchy K) : Prop where
  children : ∀ node, (tree.children node).Perm (tree'.children node)
  size? : ∀ node, tree.size? node = tree'.size? node
  effects : ∀ node, tree.effects node = tree'.effects node

namespace Rearranged

variable {tree' : Hierarchy K} (hsame : tree.Rearranged tree')
include hsame

theorem ownVolume (node : NodeKey) : tree.ownVolume node = tree'.ownVolume node := by
  simp only [Hierarchy.ownVolume, fitSize, hsame.size?, hsame.effects]

omit [Scalar K] in
theorem under : Under tree.children = Under tree'.children := by
  have hstep : (fun p c => c ∈ tree.children p) = fun p c => c ∈ tree'.children p := by
    funext p c
    exact propext (hsame.children p).mem_iff
  rw [Under, Under, hstep]

/-- Neither the transforms nor the order of siblings decide which nodes are unbounded. -/
theorem unbounded_iff (h : tree.Joinable) (h' : tree'.Joinable) :
    tree.Unbounded node ↔ tree'.Unbounded node := by
  have hchild : ∀ p c, c ∈ tree.children p ↔ c ∈ tree'.children p :=
    fun p _ => (hsame.children p).mem_iff
  rw [h.unbounded_iff_own, h'.unbounded_iff_own]
  simp only [Vetoed, Solid, hsame.ownVolume, hsame.under, hsame.size?, hchild]

end Rearranged

end Hierarchy

/-! ## Scenes -/

namespace Scene

variable {scene : Scene K}

theorem Linked.joinable (h : scene.Linked)
    (hpublic : ∀ key, ∀ effect ∈ scene.effects key, effect.IsPublic) :
    scene.hierarchy.Joinable where
  unfolds n := by
    cases h.unfolds_outline n with
    | node hbelow => exact hbelow
  toParent _ _ hc := by
    obtain ⟨m, -, hparent⟩ := h.modelview?_parent hc
    exact ⟨_, hparent⟩
  effects := hpublic

/-! ### A turned root -/

/-- Adds a node below the first one. -/
def addBelow (place : Mat4 K) (scene : Scene K) : Scene K :=
  ((createNode (some ⟨1, 1⟩) place).perform scene).value.2

/-- A root with two nodes. The first of them has a slot that was used before, so it may also be
listed last. -/
def siblings (swapped : Bool) (place : Mat4 K) : Scene K :=
  let used := addBelow place ((createNode none .identity).perform (.empty : Scene K)).value.2
  if swapped then addBelow place (removeNode ⟨2, 1⟩ (addBelow place used)).2
  else addBelow place (addBelow place (removeNode ⟨2, 1⟩ used).2)

/-- The root is turned, and no volume bounds what the second of the nodes paints. -/
def turned (swapped : Bool) (place : Mat4 Rat) : Scene Rat :=
  let scene := ((setSize ⟨1, 1⟩ (some ⟨1, 1⟩)).perform (siblings swapped place)).value.2
  let scene := ((setSize ⟨2, 3⟩ (some ⟨1, 1⟩)).perform scene).value.2
  let scene := ((setSize ⟨3, 1⟩ (some ⟨1, 1⟩)).perform scene).value.2
  let scene := ((addEffect ⟨1, 1⟩ (.ofMap (Volume.transform .quarterTurn))).perform scene).value.2
  ((addEffect ⟨3, 1⟩ .unbounded).perform scene).value.2

theorem Reachable.addBelow [Approximation K] (h : scene.Reachable) (place : Mat4 K) :
    (scene.addBelow place).Reachable :=
  h.step (.createNode _ (some ⟨1, 1⟩) place)

theorem reachable_siblings [Approximation K] (swapped : Bool) (place : Mat4 K) :
    (siblings swapped place).Reachable := by
  have hroot := Reachable.empty.step (.createNode _ none (.identity : Mat4 K))
  have hused := hroot.addBelow place
  have hlate := (hused.addBelow place).step (.removeNode _ ⟨2, 1⟩)
  have hearly := (hused.step (.removeNode _ ⟨2, 1⟩)).addBelow place
  rw [siblings]
  split_ifs
  · exact hlate.addBelow place
  · exact hearly.addBelow place

theorem reachable_turned [Approximation Rat] (swapped : Bool) (place : Mat4 Rat) :
    (turned swapped place).Reachable := by
  have hfirst := (reachable_siblings swapped place).step (.setSize _ ⟨1, 1⟩ (some ⟨1, 1⟩))
  have hsecond := hfirst.step (.setSize _ ⟨2, 3⟩ (some ⟨1, 1⟩))
  have hthird := hsecond.step (.setSize _ ⟨3, 1⟩ (some ⟨1, 1⟩))
  have hturn := hthird.step (.addEffect _ ⟨1, 1⟩ (.ofMap (Volume.transform .quarterTurn)))
  exact hturn.step (.addEffect _ ⟨3, 1⟩ .unbounded)

/-- The order of the two nodes. -/
def siblingOrder : Bool → List NodeKey
  | true => [⟨3, 1⟩, ⟨2, 3⟩]
  | false => [⟨2, 3⟩, ⟨3, 1⟩]

theorem turned_get? (swapped : Bool) (place : Mat4 Rat) (key : NodeKey) :
    (turned swapped place).nodes.get? key =
      if key = ⟨1, 1⟩ then some ⟨none, siblingOrder swapped,
        .identity, some ⟨1, 1⟩, [.ofMap (Volume.transform .quarterTurn)]⟩
      else if key = ⟨2, 3⟩ then some ⟨some ⟨1, 1⟩, [], place, some ⟨1, 1⟩, []⟩
      else if key = ⟨3, 1⟩ then some ⟨some ⟨1, 1⟩, [], place, some ⟨1, 1⟩, [.unbounded]⟩
      else none := by
  have hslots : (turned swapped place).nodes.slots = #[
      ⟨1, some ⟨none, siblingOrder swapped, .identity,
        some ⟨1, 1⟩, [.ofMap (Volume.transform .quarterTurn)]⟩⟩,
      ⟨3, some ⟨some ⟨1, 1⟩, [], place, some ⟨1, 1⟩, []⟩⟩,
      ⟨1, some ⟨some ⟨1, 1⟩, [], place, some ⟨1, 1⟩, [.unbounded]⟩⟩] := by
    cases swapped <;> cbv
  obtain ⟨slot, version⟩ := key
  rcases slot with _ | _ | _ | _ | slot <;>
    simp [KeyStore.get?, hslots, KeyStore.position?, eq_comm]

theorem turned_effects (swapped : Bool) (place : Mat4 Rat) (key : NodeKey) (effect : Effect Rat)
    (h : effect ∈ (turned swapped place).effects key) : effect.IsPublic := by
  rw [effects, turned_get?] at h
  split_ifs at h <;> simp only [Option.elim, List.mem_singleton, List.not_mem_nil] at h
  · exact h ▸ Effect.isPublic_ofMap_transform .quarterTurn
  · exact h ▸ Effect.isPublic_unbounded

theorem turned_rearranged (place place' : Mat4 Rat) :
    (turned false place).hierarchy.Rearranged (turned true place').hierarchy where
  children key := by
    simp only [hierarchy, children, turned_get?]
    split_ifs
    · exact .swap _ _ _
    all_goals exact .refl _
  size? key := by
    simp only [hierarchy, size?, turned_get?]
    split_ifs <;> rfl
  effects key := by
    simp only [hierarchy, effects, turned_get?]
    split_ifs <;> rfl

/-- The window shows what is between -1 and 1 in the space of the root. -/
def turnedStage : Stage Rat :=
  @Stage.new Rat _ .ofSquares ⟨1, 1⟩ .identity (.ofRect 0 0 100 100)

/-- What a new culler lists. -/
def shown (scene : Scene Rat) : List (PaintItem Rat) :=
  ((Culler.cull scene.hierarchy turnedStage {}).run (.new {})).value.1.items

theorem blocked_turned : (turned false .identity).hierarchy.Blocked ⟨1, 1⟩ := by
  have hown : (((turned false .identity).hierarchy.ownVolume ⟨1, 1⟩).value.map
      (·.flags.aligned)) = some false := by decide +kernel
  have hbelow : (((turned false .identity).hierarchy.subtreeVolume ⟨2, 3⟩).map
      (·.flags.empty)) = some false := by decide +kernel
  have hchild : ⟨2, 3⟩ ∈ (turned false .identity).hierarchy.children ⟨1, 1⟩ := by decide +kernel
  obtain ⟨own, hown, hoff⟩ := Option.map_eq_some_iff.mp hown
  obtain ⟨below, hbelow, hfull⟩ := Option.map_eq_some_iff.mp hbelow
  exact ⟨own, hown, hoff, ⟨2, 3⟩, hchild, below, hbelow, hfull⟩

theorem vetoed_turned : (turned false .identity).hierarchy.Vetoed ⟨3, 1⟩ := by
  have hsize : (turned false .identity).hierarchy.size? ⟨3, 1⟩ = some ⟨1, 1⟩ := by cbv
  have hown : ((turned false .identity).hierarchy.ownVolume ⟨3, 1⟩).value.isNone = true := by
    decide +kernel
  exact ⟨⟨_, hsize, rfl, rfl⟩, Option.isNone_iff_eq_none.mp hown⟩

/-! ## Results -/

/-- A node under the root of a stage is listed without a test and without pixels iff it or a
node below it has a reason to be unbounded, and every other listed node is inside or partly
inside. What has a reason is decided without the stage, the transforms and the order of
siblings. -/
theorem listed_untested_iff_unbounded [Approximation K] (h : scene.Reachable)
    (hpublic : ∀ key, ∀ effect ∈ scene.effects key, effect.IsPublic) (stage : Stage K)
    {culler : Culler K} (hculler : culler.Reachable) (settings : Settings) :
    let list := ((Culler.cull scene.hierarchy stage settings).run culler).value.1
    (∀ node, Under scene.children stage.root node →
      ((⟨node, none, none⟩ : PaintItem K) ∈ list.items ↔ scene.hierarchy.Unbounded node)) ∧
    (∀ item ∈ list.items, Under scene.children stage.root item.node ∧
      (scene.hierarchy.Unbounded item.node ∧ item = ⟨item.node, none, none⟩ ∨
        ¬ scene.hierarchy.Unbounded item.node ∧
          (item.visibility = some .inside ∨ item.visibility = some .partly))) ∧
    ∀ {scene' : Scene K}, scene'.Reachable → scene.hierarchy.Rearranged scene'.hierarchy →
      ∀ stage' : Stage K, stage'.root = stage.root →
      ∀ {culler' : Culler K}, culler'.Reachable → ∀ (settings' : Settings) (node : NodeKey),
        (⟨node, none, none⟩ : PaintItem K) ∈ list.items ↔ ⟨node, none, none⟩ ∈
          ((Culler.cull scene'.hierarchy stage' settings').run culler').value.1.items := by
  have hlinked := h.consistent.toLinked
  have hjoinable := hlinked.joinable hpublic
  have huntested :=
    hjoinable.untested_iff (hlinked.unfolds_outline stage.root) hculler settings
  refine ⟨fun node hnode => ?_, fun item hitem => ⟨?_, ?_⟩, ?_⟩
  · rw [huntested]
    exact and_iff_right hnode
  · exact hjoinable.under_of_mem_items (hlinked.unfolds_outline stage.root) hculler settings hitem
  · rw [Culler.items_cull (fun n _ => hjoinable.unfolds n) hculler settings] at hitem
    exact hjoinable.of_mem_keptItems hitem
  · intro scene' h' hsame stage' hroot culler' hculler' settings' node
    have hlinked' := h'.consistent.toLinked
    have hjoinable' := hlinked'.joinable fun key effect heffect => by
      have heffects : scene.effects key = scene'.effects key := hsame.effects key
      rw [← heffects] at heffect
      exact hpublic key effect heffect
    rw [huntested, hjoinable'.untested_iff (hlinked'.unfolds_outline stage'.root) hculler'
      settings', hroot, hsame.under, hsame.unbounded_iff hjoinable hjoinable']

/-- The root is blocked by its first child, the second child is vetoed, and the first one is
bounded. Other places and the other order of the children change nothing. -/
theorem turned_listed_untested :
    (@Reachable Rat _ .ofSquares (turned false .identity) ∧
      (∀ key, ∀ effect ∈ (turned false .identity).effects key, effect.IsPublic) ∧
      (Culler.new {} : Culler Rat).Reachable ∧
      @Reachable Rat _ .ofSquares (turned true (.shift ⟨2, 0, 0⟩)) ∧
      (turned false .identity).hierarchy.Rearranged (turned true (.shift ⟨2, 0, 0⟩)).hierarchy) ∧
    (⟨⟨1, 1⟩, none, none⟩ ∈ shown (turned false .identity) ∧
      ⟨⟨3, 1⟩, none, none⟩ ∈ shown (turned false .identity) ∧
      ⟨⟨2, 3⟩, none, none⟩ ∉ shown (turned false .identity)) ∧
    ⟨⟨1, 1⟩, none, none⟩ ∈ shown (turned true (.shift ⟨2, 0, 0⟩)) ∧
      ⟨⟨3, 1⟩, none, none⟩ ∈ shown (turned true (.shift ⟨2, 0, 0⟩)) ∧
      ⟨⟨2, 3⟩, none, none⟩ ∉ shown (turned true (.shift ⟨2, 0, 0⟩)) := by
  let _ := Approximation.ofSquares
  have h := reachable_turned false .identity
  have hmoved := reachable_turned true (.shift ⟨2, 0, 0⟩)
  have hpublic := turned_effects false .identity
  have hnew : (Culler.new {} : Culler Rat).Reachable := .new {}
  have hsame := turned_rearranged .identity (.shift ⟨2, 0, 0⟩)
  have hchildren : (turned false .identity).children ⟨1, 1⟩ = [⟨2, 3⟩, ⟨3, 1⟩] := by cbv
  have hunder : ∀ c ∈ [⟨2, 3⟩, ⟨3, 1⟩],
      Under (turned false .identity).children turnedStage.root c :=
    fun c hc => .single (hchildren ▸ hc)
  have hbounded : ¬ (turned false .identity).hierarchy.Unbounded ⟨2, 3⟩ := by
    have hsome : ((turned false .identity).hierarchy.subtreeVolume ⟨2, 3⟩).isNone = false := by
      decide +kernel
    have hjoinable := h.consistent.toLinked.joinable hpublic
    rw [← hjoinable.subtreeVolume_eq_none, ← Option.isNone_iff_eq_none, hsome]
    exact Bool.false_ne_true
  obtain ⟨hiff, -, hother⟩ := listed_untested_iff_unbounded h hpublic turnedStage hnew {}
  have hother := fun node => hother hmoved hsame turnedStage rfl hnew {} node
  have hroot := (hiff ⟨1, 1⟩ .refl).mpr ⟨_, .refl, .inr blocked_turned⟩
  have hchild := (hiff ⟨3, 1⟩ (hunder _ (by decide))).mpr ⟨_, .refl, .inl vetoed_turned⟩
  have hnot := fun hlisted => hbounded ((hiff ⟨2, 3⟩ (hunder _ (by decide))).mp hlisted)
  exact ⟨⟨h, hpublic, hnew, hmoved, hsame⟩, ⟨hroot, hchild, hnot⟩, (hother _).mp hroot,
    (hother _).mp hchild, fun hlisted => hnot ((hother _).mpr hlisted)⟩

end Scene

end SceneCulling
