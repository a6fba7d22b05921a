import SceneCulling.Proofs.Painting.Locality
import SceneCulling.Proofs.Painting.Unbounded
import SceneCulling.Proofs.Volume.Accumulation
import SceneCulling.Proofs.Volume.Padding

/-!
# Padding hides nothing

Two runs are compared: in the second one a node is padded once more, by margins that are not
negative. The bound of the node widens: its volume bounds more, or there is none any more. A
node that takes in a wider child gets a wider bound, since the least box around fewer points is
within every box around more of them. So all bounds up to the root widen, and a wider volume is
outside of a plane only if the one within it is.
-/

namespace SceneCulling

/-! ## Effects -/

namespace Effect

/-- The effect pads a node, or lets it paint anywhere. -/
inductive IsMargin : Effect Rat → Prop where
  | padding (margins : Margins Rat) : IsMargin (.padding margins)
  | unbounded : IsMargin .unbounded

variable {effect : Effect Rat} {effects : List (Effect Rat)} {v own : Volume Rat}

theorem IsMargin.isPublic (h : effect.IsMargin) : effect.IsPublic := by
  cases h with
  | padding margins => exact isPublic_padding margins
  | unbounded => exact isPublic_unbounded

/-- The padding of an aligned volume is never refused. -/
theorem adjust_padding_of_full (ha : v.flags.aligned = true) (he : v.flags.empty = false)
    (margins : Margins Rat) : ((padding margins).adjust v).value = (true, margins.padded v) := by
  simp only [padding, he, Bool.false_eq_true, if_false, Edit.succeeds, Logged.value_bind,
    Margins.perform_pad ha he]
  rfl

theorem adjust_padding (h : v.Spread) (margins : Margins Rat) :
    ((padding margins).adjust v).value = (true, margins.around v) := by
  cases he : v.flags.empty with
  | true => simp [padding, Margins.around, he]
  | false =>
      rw [adjust_padding_of_full h.aligned he, Margins.around, he]
      rfl

theorem IsMargin.spread (h : effect.IsMargin) (hv : v.Spread) :
    (effect.adjust v).value.2.Spread := by
  cases h with
  | padding margins =>
      rw [adjust_padding hv]
      exact Margins.spread_around hv
  | unbounded => exact hv

/-- The last effect adjusts what the others leave. -/
theorem adjustAll_append (effects : List (Effect Rat)) (effect : Effect Rat) (v : Volume Rat) :
    (adjustAll (effects ++ [effect]) v).value = (adjustAll effects v).value.bind fun u =>
      if (effect.adjust u).value.1 then some (effect.adjust u).value.2 else none := by
  induction effects generalizing v with
  | nil =>
      simp only [List.nil_append, adjustAll, Logged.value_bind, Logged.value_pure,
        Option.bind_some]
      split <;> rfl
  | cons first effects ih =>
      simp only [List.cons_append, adjustAll, Logged.value_bind]
      cases (first.adjust v).value.1 with
      | false => rfl
      | true => exact ih _

end Effect

/-! ## Volumes that bound more -/

/-- A box around both corners of another one is around that one. -/
theorem InBox.within {a b c d p : Vec3 Rat} (hleast : InBox a b c) (hgreatest : InBox a b d)
    (hp : InBox c d p) : InBox a b p :=
  ⟨hleast.left.trans hp.left, hp.right.trans hgreatest.right, hleast.top.trans hp.top,
    hp.bottom.trans hgreatest.bottom, hleast.front.trans hp.front, hp.back.trans hgreatest.back⟩

namespace Volume

variable {v : Volume Rat}

/-- The second volume bounds all that the first one does, and can grow only if that can. -/
structure Grows (v v' : Volume Rat) : Prop where
  contains : ∀ p, v.Contains p → v'.Contains p
  aligned : v'.flags.aligned = true → v.flags.aligned = true

theorem Grows.refl (v : Volume Rat) : v.Grows v := ⟨fun _ hp => hp, fun ha => ha⟩

/-- What a volume bounds after a union, an aligned volume bounds that bounds what the two did. -/
theorem Reachable.merged_within {own other : Volume Rat} (hown : own.Reachable)
    (ha : own.flags.aligned = true) (hother : other.Reachable) (hv : v.Reachable)
    (halong : v.flags.aligned = true) (hfull : v.flags.empty = false)
    (hin : ∀ p, own.Contains p → v.Contains p)
    (hin' : other.flags.empty = false → ∀ p ∈ other.complete.vertices, v.Contains p)
    {p : Vec3 Rat} (hp : (own.merged other).Contains p) : v.Contains p := by
  have hbox : ∀ q, v.Contains q ↔ InBox v.least v.greatest q := fun _ =>
    hv.wellFormed.contains_iff halong hfull
  have hmerged := (hown.merged ha hother).wellFormed
  have hjoins := (hown.wellFormed.joins ha).merged hown.wellFormed ha hother.wellFormed
  obtain ⟨hleast, hgreatest⟩ := (hjoins.box hp.1).within v.least v.greatest fun q hq => by
    rcases hq with ⟨he, hq⟩ | ⟨he, hq⟩
    · exact (hbox q).mp (hin q ((hown.wellFormed.contains_iff ha he).mpr hq))
    · exact (hbox q).mp (hin' he q hq)
  exact (hbox p).mpr (hleast.within hgreatest
    ((hmerged.contains_iff ((aligned_merged own other).trans ha) hp.1).mp hp))

end Volume

namespace Hierarchy

variable {tree tree' : Hierarchy Rat} {stage : Stage Rat} {root node child : NodeKey}

/-! ## Own volumes -/

theorem spread_fitSize (tree : Hierarchy Rat) (node : NodeKey) :
    ((tree.fitSize node).perform (.new (some node))).value.2.Spread :=
  tree.of_fitSize node (fun x _ hv => hv.setWidth x) (fun y _ hv => hv.setHeight y)
    (Volume.spread_new _)

/-- With margins only, the own volume of a node is spread, and one more padding pads it. -/
theorem ownVolume_padded {margins : Margins Rat} (hsize : tree'.size? node = tree.size? node)
    (heffects : tree'.effects node = tree.effects node ++ [.padding margins])
    (hmargin : ∀ effect ∈ tree.effects node, effect.IsMargin) :
    (∀ own, (tree.ownVolume node).value = some own → own.Spread) ∧
      (tree'.ownVolume node).value = (tree.ownVolume node).value.map margins.around := by
  have hfit : tree'.fitSize node = tree.fitSize node := by simp only [fitSize, hsize]
  have hspread : ∀ own, (tree.ownVolume node).value = some own → own.Spread := fun own hown =>
    Effect.of_adjustAll (fun effect heffect _ => (hmargin effect heffect).spread)
      (tree.spread_fitSize node) (of_ownVolume hown)
  refine ⟨hspread, ?_⟩
  by_cases hfitted : ((tree.fitSize node).perform (.new (some node))).value.1 = .ok true
  · rw [ownVolume_of_fitted hfitted] at hspread ⊢
    rw [ownVolume_of_fitted (hfit ▸ hfitted), hfit, heffects, Effect.adjustAll_append]
    cases hvalue : (Effect.adjustAll (tree.effects node)
      ((tree.fitSize node).perform (.new (some node))).value.2).value with
    | none => rfl
    | some own => simp [Effect.adjust_padding (hspread own hvalue)]
  · rw [ownVolume_of_not_fitted hfitted, ownVolume_of_not_fitted (hfit ▸ hfitted)]
    rfl

/-! ## Bounds that widen -/

/-- In the second run a node has a wider bound than in the first one. No bound is the widest. -/
structure Widens (node : NodeKey) (bound bound' : Option (Volume Rat)) : Prop where
  inSpace : ∀ v, bound = some v → InSpace node v
  inSpace' : ∀ v, bound' = some v → InSpace node v
  grows : ∀ v', bound' = some v' → ∃ v, bound = some v ∧ v.Grows v'

theorem Widens.refl {bound : Option (Volume Rat)} (h : ∀ v, bound = some v → InSpace node v) :
    Widens node bound bound :=
  ⟨h, h, fun v' hv' => ⟨v', hv', .refl v'⟩⟩

theorem InSpace.enclosable {v : Volume Rat} (h : InSpace node v) : Enclosable node v :=
  ⟨h.reachable.flagsSound, h.reference_eq⟩

/-- A node that is padded once more starts with a wider bound. -/
theorem widens_startVolume {margins : Margins Rat} (hmargins : margins.Outward)
    (hsize : tree'.size? node = tree.size? node)
    (heffects : tree'.effects node = tree.effects node ++ [.padding margins])
    (hmargin : ∀ effect ∈ tree.effects node, effect.IsMargin) :
    Widens node (tree.startVolume node) (tree'.startVolume node) where
  inSpace _ hv := startVolume_inSpace (fun effect heffect => (hmargin effect heffect).isPublic) hv
  inSpace' v hv := by
    refine startVolume_inSpace (fun effect heffect => ?_) hv
    rw [heffects] at heffect
    rcases List.mem_append.mp heffect with hold | hnew
    · exact (hmargin effect hold).isPublic
    · rw [List.mem_singleton.mp hnew]
      exact Effect.isPublic_padding margins
  grows v' hv' := by
    obtain ⟨hspread, hpadded⟩ := ownVolume_padded hsize heffects hmargin
    cases hown : (tree.ownVolume node).value with
    | some own =>
        rw [hown, Option.map_some] at hpadded
        obtain rfl : margins.around own = v' := by simpa [startVolume, hpadded] using hv'
        have hown' : own.Spread := hspread own hown
        refine ⟨own, by simp [startVolume, hown], fun p hp => ?_, fun _ => hown'.aligned⟩
        exact Margins.contains_around hmargins hown' hp
    | none =>
        rw [hown, Option.map_none] at hpadded
        refine ⟨v', ?_, .refl v'⟩
        rw [← hv']
        simp only [startVolume, hown, hpadded, hsize]

section OneChild

variable {own own' below below' v' : Volume Rat} {m : Mat4 Rat}

/-- A volume that takes in another one is as aligned as before, and aligned if the other one is
not empty. -/
theorem aligned_joined (hbelow : InSpace child below) (hm : tree.modelview? child node = some m)
    (h : tree.joined node (some own) (some below) = some v') :
    v'.flags.aligned = own.flags.aligned ∧
      (below.flags.empty = false → own.flags.aligned = true) := by
  cases he : below.flags.empty with
  | true =>
      obtain rfl : own = v' := by simpa [joined_of_empty he] using h
      exact ⟨rfl, fun hfull => absurd hfull (by decide)⟩
  | false =>
      rw [joined_eq hbelow.enclosable hm he] at h
      split at h
      · next ha =>
          obtain rfl := Option.some.inj h
          exact ⟨Volume.aligned_merged own _, fun _ => ha⟩
      · cases h

/-- A wider volume that takes in a wider child bounds more than the first one does after it has
taken in the first child. -/
theorem joined_grows (hown : InSpace node own) (hown' : InSpace node own')
    (hbelow : InSpace child below) (hbelow' : InSpace child below') (hgrows : own.Grows own')
    (hinner : below.Grows below') (hm : tree.modelview? child node = some m)
    (hm' : tree'.modelview? child node = some m) (haffine : m.IsAffine)
    (h : tree'.joined node (some own') (some below') = some v') :
    ∃ v, tree.joined node (some own) (some below) = some v ∧ v.Grows v' := by
  obtain ⟨hspace', hkept', htaken'⟩ := joined_spec hown' hbelow' hm' haffine h
  obtain ⟨haligned, hforced⟩ := aligned_joined hbelow' hm' h
  have hkept : ∀ p, own.Contains p → v'.Contains p := fun p hp => hkept' p (hgrows.contains p hp)
  have htaken : ∀ p, below.Contains p → v'.Contains (m.applyPoint p) :=
    fun p hp => htaken' p (hinner.contains p hp)
  cases he : below.flags.empty with
  | true =>
      exact ⟨own, joined_of_empty he, hkept, fun ha => hgrows.aligned (haligned.symm.trans ha)⟩
  | false =>
      obtain ⟨p, hp⟩ := Volume.exists_contains he
      have ha' : own'.flags.aligned = true := hforced (hinner.contains p hp).1
      have ha : own.flags.aligned = true := hgrows.aligned ha'
      let moved := (below.transform m).withReference (some node)
      have hmoved : moved.Reachable := .withReference _ (.transform m hbelow.reachable)
      have hjoined : tree.joined node (some own) (some below) = some (own.merged moved) := by
        rw [joined_eq hbelow.enclosable hm he, if_pos ha]
      refine ⟨own.merged moved, hjoined, fun q hq => ?_,
        fun _ => (Volume.aligned_merged own moved).trans ha⟩
      refine hown.reachable.merged_within ha hmoved hspace'.reachable (haligned.trans ha')
        (htaken p hp).1 hkept (fun _ r hr => ?_) hq
      rw [Volume.vertices_moved] at hr
      obtain ⟨w, hw, rfl⟩ := List.mem_map.mp hr
      exact htaken w ⟨he, .vertex hw⟩

end OneChild

/-- A node with a wider bound that takes in a child with a wider bound has a wider bound. -/
theorem Widens.joined {acc acc' bound bound' : Option (Volume Rat)} {m : Mat4 Rat}
    (hacc : Widens node acc acc') (hbound : Widens child bound bound')
    (hm : tree.modelview? child node = some m) (hm' : tree'.modelview? child node = some m)
    (haffine : m.IsAffine) :
    Widens node (tree.joined node acc bound) (tree'.joined node acc' bound') where
  inSpace v hv := by
    obtain ⟨own, below, rfl, rfl⟩ := joined_eq_some hv
    exact (joined_spec (hacc.inSpace own rfl) (hbound.inSpace below rfl) hm haffine hv).1
  inSpace' v hv := by
    obtain ⟨own, below, rfl, rfl⟩ := joined_eq_some hv
    exact (joined_spec (hacc.inSpace' own rfl) (hbound.inSpace' below rfl) hm' haffine hv).1
  grows v' hv' := by
    obtain ⟨own', below', rfl, rfl⟩ := joined_eq_some hv'
    obtain ⟨own, rfl, hown⟩ := hacc.grows own' rfl
    obtain ⟨below, rfl, hbelow⟩ := hbound.grows below' rfl
    exact joined_grows (hacc.inSpace own rfl) (hacc.inSpace' own' rfl) (hbound.inSpace below rfl)
      (hbound.inSpace' below' rfl) hown hbelow hm hm' haffine hv'

/-- By induction on the children, which are taken in one after the other. -/
theorem Widens.foldl {acc acc' : Option (Volume Rat)} {children : List NodeKey}
    (hacc : Widens node acc acc') (hchildren : ∀ c ∈ children,
      Widens c (tree.subtreeVolume c) (tree'.subtreeVolume c) ∧ ∃ m,
        tree.modelview? c node = some m ∧ tree'.modelview? c node = some m ∧ m.IsAffine) :
    Widens node
      (children.foldl (fun acc c => tree.joined node acc (tree.subtreeVolume c)) acc)
      (children.foldl (fun acc c => tree'.joined node acc (tree'.subtreeVolume c)) acc') := by
  induction children generalizing acc acc' with
  | nil => exact hacc
  | cons c children ih =>
      obtain ⟨⟨hbound, m, hm, hm', haffine⟩, hrest⟩ := List.forall_mem_cons.mp hchildren
      exact ih (hacc.joined hbound hm hm' haffine) hrest

section Runs

variable (h : tree.Coherent root) (h' : tree'.Coherent root)
  (hchildren : ∀ n, tree'.children n = tree.children n)
  (hmodelview : ∀ n ancestor, tree'.modelview? n ancestor = tree.modelview? n ancestor)
include h h' hchildren hmodelview

/-- If all nodes start with wider bounds, all subtree volumes widen. By induction from the children
to their parent. -/
theorem Coherent.widens (hstart : ∀ n ∈ (tree.outline root).preorder,
      Widens n (tree.startVolume n) (tree'.startVolume n)) :
    ∀ n ∈ (tree.outline root).preorder,
      Widens n (tree.subtreeVolume n) (tree'.subtreeVolume n) := by
  refine h.unfolds_outline.of_children fun a ha ih => ?_
  rw [subtreeVolume_eq_foldl fun b _ => h.unfolds b, subtreeVolume_eq_foldl fun b _ => h'.unfolds b,
    hchildren]
  refine (hstart a ha).foldl fun c hc => ⟨ih c hc, ?_⟩
  obtain ⟨m, hm, haffine⟩ := h.toParent a ha c hc
  exact ⟨m, hm, (hmodelview c a).trans hm, haffine⟩

end Runs

/-- A node that is painted is painted with a wider bound as well. -/
theorem Coherent.verdict_widens (h : tree.Coherent stage.root) (heye : stage.eye.IsAffine)
    (hnode : node ∈ (tree.outline stage.root).preorder)
    (hmodelview : tree'.modelview? node stage.root = tree.modelview? node stage.root)
    {bound bound' : Option (Volume Rat)} (hwidens : Widens node bound bound')
    (hpainted : tree.verdict stage false node bound ≠ none) :
    tree'.verdict stage false node bound' ≠ none := by
  obtain ⟨toRoot, hroot, haffine⟩ := h.toRoot node hnode
  cases bound' with
  | none => simp [verdict]
  | some v' =>
      obtain ⟨v, rfl, hgrows⟩ := hwidens.grows v' rfl
      rw [ne_eq, verdict_eq_none_iff, test_value hroot] at hpainted
      rw [ne_eq, verdict_eq_none_iff, test_value (hmodelview.trans hroot)]
      intro hout
      cases he : v.flags.empty with
      | true => simp [he] at hpainted
      | false =>
          obtain ⟨p, hp⟩ := Volume.exists_contains he
          have he' : v'.flags.empty = false := (hgrows.contains p hp).1
          rw [he'] at hout
          rw [he] at hpainted
          refine hpainted (SidePlanes.classify_outside_of_hull hout fun q hq => ?_)
          obtain ⟨w, hw, rfl⟩ := List.mem_map.mp hq
          exact (hgrows.contains w ⟨he, .vertex hw⟩).2.map
            (Mat4.applyPoint_between (heye.mul haffine))

end Hierarchy

namespace Scene

variable {scene : Scene Rat} {key node : NodeKey}

/-! ## One more effect -/

/-- One more effect changes the effects of one node at most, and no place. -/
theorem after_addEffect (scene : Scene Rat) (key : NodeKey) (effect : Effect Rat) :
    let after := ((addEffect key effect).perform scene).value.2
    scene.SamePlaces after ∧ (∀ k, after.size? k = scene.size? k) ∧
      ∀ k, after.effects k = scene.effects k ∨ after.effects k = scene.effects k ++ [effect] := by
  let f : Node Rat → Node Rat := fun entry => { entry with effects := entry.effects ++ [effect] }
  have hlinks := (scene.differsAt_changeNode key (f := f) (fun _ => rfl) fun _ => rfl).toSameLinks
  rcases after_changeNode scene key f with hsame | hchanged
  · rw [addEffect, hsame]
    exact ⟨⟨⟨fun _ => rfl, fun _ => rfl, fun _ => rfl⟩, fun _ => rfl⟩, fun _ => rfl,
      fun _ => .inl rfl⟩
  · have hget : ∀ k, (scene.nodes.modify key f).get? k = scene.nodes.get? k ∨
        (scene.nodes.modify key f).get? k = (scene.nodes.get? k).map f := by
      intro k
      by_cases hk : k = key
      · exact .inr (by rw [KeyStore.get?_modify, if_pos hk, hk])
      · exact .inl (by rw [KeyStore.get?_modify, if_neg hk])
    rw [hchanged] at hlinks
    rw [addEffect, hchanged]
    refine ⟨⟨hlinks, fun k => ?_⟩, fun k => ?_, fun k => ?_⟩
    · rcases hget k with hkept | hmapped
      · simp only [transform?, hkept]
      · simp only [transform?, hmapped]
        cases scene.nodes.get? k <;> rfl
    · rcases hget k with hkept | hmapped
      · simp only [Scene.size?, hkept]
      · simp only [Scene.size?, hmapped]
        cases scene.nodes.get? k <;> rfl
    · rcases hget k with hkept | hmapped
      · exact .inl (by simp only [Scene.effects, hkept])
      · simp only [Scene.effects, hmapped]
        cases scene.nodes.get? k with
        | none => exact .inl rfl
        | some entry => exact .inr rfl

/-- A node is in view iff it is under the root and the naive walk paints it. -/
theorem Linked.isVisible_iff (h : scene.Linked)
    (haffine : ∀ k m, scene.transform? k = some m → m.IsAffine)
    (hpublic : ∀ k, ∀ effect ∈ scene.effects k, effect.IsPublic) {stage : Stage Rat}
    (heye : stage.eye.IsAffine) {culler : Culler Rat} (hculler : culler.Reachable)
    (settings : Settings) :
    ((Culler.cull scene.hierarchy stage settings).run culler).value.1.isVisible node = true ↔
      node ∈ (scene.hierarchy.outline stage.root).preorder ∧
        scene.hierarchy.verdict stage false node (scene.hierarchy.subtreeVolume node) ≠ none := by
  have hitems := (h.coherent haffine hpublic stage.root).items_cull heye hculler settings
  have hkey : ∀ n item, scene.hierarchy.verdict stage false n
      (scene.hierarchy.subtreeVolume n) = some item → item.node = n :=
    fun _ _ hitem => (Hierarchy.of_verdict hitem).1
  rw [PaintList.isVisible, Option.ne_none_iff_isSome]
  constructor
  · intro hsome
    obtain ⟨item, hitem⟩ := Option.isSome_iff_exists.mp hsome
    have hlisted := List.mem_reverse.mp (List.mem_of_find?_eq_some hitem)
    have hnode : item.node = node := by simpa using List.find?_some hitem
    rw [hitems] at hlisted
    obtain ⟨n, hn, hverdict⟩ := List.mem_filterMap.mp hlisted
    obtain rfl : n = node := (hkey n item hverdict).symm.trans hnode
    exact ⟨hn, by rw [hverdict]; rfl⟩
  · rintro ⟨hmem, hsome⟩
    rwa [PaintList.item?_eq hitems hkey hmem]

/-! ## Results -/

/-- If a node is padded once more, by margins that are not negative, no node leaves the view. -/
theorem isVisible_of_padded [Approximation Rat] (h : scene.Reachable)
    (haffine : ∀ k m, scene.transform? k = some m → m.IsAffine)
    (hmargin : ∀ k, ∀ effect ∈ scene.effects k, effect.IsMargin) {stage : Stage Rat}
    (heye : stage.eye.IsAffine) {margins : Margins Rat} (hmargins : margins.Outward)
    {after : Scene Rat}
    (hafter : after = ((addEffect key (.padding margins)).perform scene).value.2)
    {culler culler' : Culler Rat} (hculler : culler.Reachable) (hculler' : culler'.Reachable)
    (settings settings' : Settings) (hvisible :
      ((Culler.cull scene.hierarchy stage settings).run culler).value.1.isVisible node = true) :
    ((Culler.cull after.hierarchy stage settings').run culler').value.1.isVisible node = true := by
  obtain ⟨hplaces, hsize, heffects⟩ := scene.after_addEffect key (.padding margins)
  rw [← hafter] at hplaces hsize heffects
  have hlinked := h.consistent.toLinked
  have hlinked' := hlinked.of_sameLinks hplaces.toSameLinks
  have hpublic : ∀ k, ∀ effect ∈ scene.effects k, effect.IsPublic :=
    fun k effect heffect => (hmargin k effect heffect).isPublic
  have haffine' : ∀ k m, after.transform? k = some m → m.IsAffine := fun k m hm =>
    haffine k m ((hplaces.transform? k).symm.trans hm)
  have hpublic' : ∀ k, ∀ effect ∈ after.effects k, effect.IsPublic := by
    intro k effect heffect
    rcases heffects k with hsame | hmore
    · exact hpublic k effect (hsame ▸ heffect)
    · rw [hmore] at heffect
      rcases List.mem_append.mp heffect with hold | hnew
      · exact hpublic k effect hold
      · rw [List.mem_singleton.mp hnew]
        exact Effect.isPublic_padding margins
  have hcoherent := hlinked.coherent haffine hpublic stage.root
  have hcoherent' := hlinked'.coherent haffine' hpublic' stage.root
  have hmodelview := hlinked.modelview?_of_samePlaces hplaces
  have hstart : ∀ n ∈ (scene.hierarchy.outline stage.root).preorder, Hierarchy.Widens n
      (scene.hierarchy.startVolume n) (after.hierarchy.startVolume n) := by
    intro n _
    rcases heffects n with hsame | hmore
    · have hstart : after.hierarchy.startVolume n = scene.hierarchy.startVolume n :=
        Hierarchy.startVolume_congr (hsize n) hsame
      rw [hstart]
      exact .refl fun v hv => Hierarchy.startVolume_inSpace (hpublic n) hv
    · exact Hierarchy.widens_startVolume hmargins (hsize n) hmore (hmargin n)
  obtain ⟨hnode, hpainted⟩ :=
    (hlinked.isVisible_iff haffine hpublic heye hculler settings).mp hvisible
  have hwidens := hcoherent.widens hcoherent' hplaces.children hmodelview hstart node hnode
  refine (hlinked'.isVisible_iff haffine' hpublic' heye hculler' settings').mpr ⟨?_, ?_⟩
  · rw [hlinked'.mem_outline_iff_under, funext hplaces.children]
    exact hlinked.mem_outline_iff_under.mp hnode
  · exact hcoherent.verdict_widens heye hnode (hmodelview node stage.root) hwidens hpainted

theorem padded_margins (k : NodeKey) (effect : Effect Rat)
    (h : effect ∈ (padded Rat).effects k) : effect.IsMargin := by
  cases hentry : (padded Rat).nodes.get? k with
  | none => simp [effects, hentry] at h
  | some entry =>
      rcases padded_cases hentry with rfl | rfl
      · simp [effects, hentry] at h
      · obtain rfl : effect = .padding (.uniform 1) := by simpa [effects, hentry] using h
        exact .padding _

/-- The padded node is padded once more, to the right only. -/
def paddedTwice : Scene Rat :=
  ((addEffect ⟨2, 1⟩ (.padding ⟨0, 0, 3, 0⟩)).perform (padded Rat)).value.2

theorem paddedTwice_isVisible :
    let _ := Approximation.ofSquares
    ((padded Rat).Reachable ∧ (∀ k m, (padded Rat).transform? k = some m → m.IsAffine) ∧
      (∀ k, ∀ effect ∈ (padded Rat).effects k, effect.IsMargin) ∧ paddedStage.eye.IsAffine ∧
      (⟨0, 0, 3, 0⟩ : Margins Rat).Outward ∧ (Culler.new {} : Culler Rat).Reachable ∧
      ((Culler.cull (padded Rat).hierarchy paddedStage {}).run (.new {})).value.1.isVisible
        ⟨2, 1⟩ = true) ∧
    ((Culler.cull paddedTwice.hierarchy paddedStage {}).run (.new {})).value.1.isVisible
      ⟨2, 1⟩ = true := by
  intro _
  have h := reachable_padded Rat
  have heye : paddedStage.eye.IsAffine := Mat4.isAffine_identity
  have hmargins : (⟨0, 0, 3, 0⟩ : Margins Rat).Outward := by constructor <;> norm_num
  have hvisible : ((Culler.cull (padded Rat).hierarchy paddedStage {}).run
      (.new {})).value.1.isVisible ⟨2, 1⟩ = true := by decide +kernel
  exact ⟨⟨h, padded_transforms, padded_margins, heye, hmargins, .new {}, hvisible⟩,
    isVisible_of_padded h padded_transforms padded_margins heye hmargins rfl (.new {}) (.new {})
      {} {} hvisible⟩

end Scene

end SceneCulling
