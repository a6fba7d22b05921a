import SceneCulling.Proofs.Painting.Padding
import SceneCulling.Proofs.Scene.Sizing
import SceneCulling.Proofs.Volume.Attributes

/-!
# Own volumes with margins

In exact arithmetic a node with a size, whose effects only add margins, paints in the box of its
size with all margins added. Each effect reads the extents of the volume before it, so the box is
the invariant of an induction on the effects: a box that is padded is a box again, and its
extents never vanish since the margins are not negative.
-/

namespace SceneCulling

/-! ## Margins of many effects -/

/-- How far an effect paints beyond a node. -/
inductive Bleed where
  | within (margins : Margins Rat)
  | anywhere

namespace Margins

/-- The margins of two effects. -/
def plus (a b : Margins Rat) : Margins Rat :=
  ⟨a.left + b.left, a.top + b.top, a.right + b.right, a.bottom + b.bottom⟩

end Margins

namespace Bleed

def effect : Bleed → Effect Rat
  | .within margins => .padding margins
  | .anywhere => .unbounded

/-- The margins of the effect. An effect that paints anywhere counts for nothing here. -/
def sides : Bleed → Margins Rat
  | .within margins => margins
  | .anywhere => .uniform 0

/-- The margins of all effects together, side by side. -/
def total (bleeds : List Bleed) : Margins Rat where
  left := (bleeds.map (·.sides.left)).sum
  top := (bleeds.map (·.sides.top)).sum
  right := (bleeds.map (·.sides.right)).sum
  bottom := (bleeds.map (·.sides.bottom)).sum

theorem total_perm {bleeds bleeds' : List Bleed} (h : bleeds'.Perm bleeds) :
    total bleeds' = total bleeds := by
  have hsum (side : Bleed → Rat) : (bleeds'.map side).sum = (bleeds.map side).sum :=
    (h.map side).sum_eq
  simp only [total, hsum]

theorem total_cons (margins : Margins Rat) (bleeds : List Bleed) :
    total (.within margins :: bleeds) = margins.plus (total bleeds) := rfl

theorem total_outward {bleeds : List Bleed} (h : ∀ bleed ∈ bleeds, bleed.sides.Outward) :
    (total bleeds).Outward := by
  have hsum {side : Bleed → Rat} (hside : ∀ bleed ∈ bleeds, 0 ≤ side bleed) :
      0 ≤ (bleeds.map side).sum :=
    List.sum_nonneg (List.forall_mem_map.mpr hside)
  exact ⟨hsum fun b hb => (h b hb).left, hsum fun b hb => (h b hb).top,
    hsum fun b hb => (h b hb).right, hsum fun b hb => (h b hb).bottom⟩

theorem total_plus (before after : List Bleed) (a b : Margins Rat) :
    total (before ++ [.within a, .within b] ++ after) =
      total (before ++ [.within (a.plus b)] ++ after) := by
  simp [total, sides, Margins.plus, add_assoc]

theorem isMargin (bleed : Bleed) : bleed.effect.IsMargin := by
  cases bleed with
  | within margins => exact .padding margins
  | anywhere => exact .unbounded

end Bleed

/-! ## Boxes with margins -/

namespace Volume.Attributes

variable {a : Attributes} {reference : Option NodeKey}

/-- The attributes after the margins are added. -/
def padded (a : Attributes) (margins : Margins Rat) : Attributes where
  origin := a.origin - ⟨margins.left, margins.top, 0⟩
  width := a.width + (margins.left + margins.right)
  height := a.height + (margins.top + margins.bottom)
  depth := a.depth

theorem padded_padded (a : Attributes) (first second : Margins Rat) :
    (a.padded first).padded second = a.padded (first.plus second) := by
  have horigin : a.origin - ⟨first.left, first.top, 0⟩ - ⟨second.left, second.top, 0⟩ =
      a.origin - ⟨first.left + second.left, first.top + second.top, 0⟩ := by
    ext <;> simp only [Vec3.sub_x, Vec3.sub_y, Vec3.sub_z] <;> ring
  have hextent (x b c d e : Rat) : x + (b + c) + (d + e) = x + (b + d + (c + e)) := by ring
  simp only [padded, Margins.plus, horigin, hextent]

/-- A box reads as what it was made of. -/
theorem attributes_box (a : Attributes) : (a.box reference).attributes = a := by
  rw [attributes_eq_span, Assignment.gathered_box]
  simp [span, box, least, greatest]

/-- By the three setters of padding a box becomes the box with the margins. -/
theorem padded_box {margins : Margins Rat} (hmargins : margins.Outward) (hwidth : 0 < a.width)
    (hheight : 0 < a.height) :
    margins.padded (a.box reference) = (a.padded margins).box reference := by
  have hmoved (a : Attributes) (p : Vec3 Rat) :
      (a.box reference).movedTo p = ({ a with origin := p } : Attributes).box reference :=
    Assignment.change_box a (.origin p)
  have hwide (a : Attributes) (x : Rat) :
      (a.box reference).withWidth x = ({ a with width := x } : Attributes).box reference :=
    Assignment.change_box a (.width x)
  have hhigh (a : Attributes) (y : Rat) :
      (a.box reference).withHeight y = ({ a with height := y } : Attributes).box reference :=
    Assignment.change_box a (.height y)
  have hnewWidth : Scalar.greater (margins.width (a.box reference)) 0 =
      a.width + (margins.left + margins.right) := by
    have hsum : margins.width (a.box reference) = a.width + (margins.left + margins.right) := by
      simp [Margins.width, box, least, greatest, add_assoc]
    rw [hsum, greater_eq_max, max_eq_left]
    exact add_nonneg hwidth.le (add_nonneg hmargins.left hmargins.right)
  have hnewHeight : Scalar.greater (margins.height (a.box reference)) 0 =
      a.height + (margins.top + margins.bottom) := by
    have hsum : margins.height (a.box reference) = a.height + (margins.top + margins.bottom) := by
      simp [Margins.height, box, least, greatest, add_assoc]
    rw [hsum, greater_eq_max, max_eq_left]
    exact add_nonneg hheight.le (add_nonneg hmargins.top hmargins.bottom)
  rw [Margins.padded, Margins.widened, hmoved, hwide, hhigh, hnewWidth, hnewHeight]
  rfl

theorem empty_box (hwidth : 0 < a.width) : (a.box reference).flags.empty = false := by
  simp [box, hwidth.ne']

end Volume.Attributes

/-! ## Effects in a row -/

namespace Effect

open Volume

/-- An effect that paints anywhere leaves no bound, wherever it stands among the effects. -/
theorem adjustAll_unbounded {effects : List (Effect Rat)} (h : .unbounded ∈ effects)
    (v : Volume Rat) : (adjustAll effects v).value = none := by
  induction effects generalizing v with
  | nil => exact absurd h List.not_mem_nil
  | cons effect effects ih =>
      simp only [adjustAll, Logged.value_bind]
      rcases List.mem_cons.mp h with rfl | hrest
      · rfl
      · cases (effect.adjust v).value.1 with
        | false => rfl
        | true => exact ih hrest _

/-- By induction on the effects: each of them pads a box that has extents. -/
theorem adjustAll_box {bleeds : List Bleed} (hbounded : .anywhere ∉ bleeds)
    (houtward : ∀ bleed ∈ bleeds, bleed.sides.Outward) {a : Attributes}
    (hwidth : 0 < a.width) (hheight : 0 < a.height) (reference : Option NodeKey) :
    (adjustAll (bleeds.map Bleed.effect) (a.box reference)).value =
      some ((a.padded (Bleed.total bleeds)).box reference) := by
  induction bleeds generalizing a with
  | nil =>
      have hnone : a.padded (Bleed.total []) = a := by
        have horigin : a.origin - ⟨0, 0, 0⟩ = a.origin := by ext <;> simp
        simp [Attributes.padded, Bleed.total, horigin]
      rw [hnone]
      rfl
  | cons bleed bleeds ih =>
      cases bleed with
      | anywhere => exact absurd List.mem_cons_self hbounded
      | within margins =>
          obtain ⟨hmargins, hothers⟩ : margins.Outward ∧ ∀ bleed ∈ bleeds, bleed.sides.Outward :=
            List.forall_mem_cons.mp houtward
          -- The padded box has extents again, so the induction can go on with it.
          have hwidth' : 0 < (a.padded margins).width :=
            add_pos_of_pos_of_nonneg hwidth (add_nonneg hmargins.left hmargins.right)
          have hheight' : 0 < (a.padded margins).height :=
            add_pos_of_pos_of_nonneg hheight (add_nonneg hmargins.top hmargins.bottom)
          have hrest := ih (fun h => hbounded (List.mem_cons_of_mem _ h)) hothers hwidth' hheight'
          have hadjust : ((padding margins).adjust (a.box reference)).value =
              (true, (a.padded margins).box reference) := by
            rw [adjust_padding_of_full rfl (Attributes.empty_box hwidth),
              Attributes.padded_box hmargins hwidth hheight]
          rw [List.map_cons, Bleed.effect, adjustAll, Logged.value_bind, hadjust,
            Bleed.total_cons, ← Attributes.padded_padded]
          exact hrest

end Effect

namespace Hierarchy

open Volume

variable {tree tree' : Hierarchy Rat} {node : NodeKey} {size : Size Rat}
  {bleeds bleeds' : List Bleed}

/-- The node has this size, and its effects paint so far beyond it, none of them inward. -/
structure Bleeds (tree : Hierarchy Rat) (node : NodeKey) (size : Size Rat)
    (bleeds : List Bleed) : Prop where
  hasSize : tree.size? node = some size
  width : 0 < size.width
  height : 0 < size.height
  effects : tree.effects node = bleeds.map Bleed.effect
  outward : ∀ bleed ∈ bleeds, bleed.sides.Outward

/-- Without a width or without a height there is no own volume, whatever the effects are. -/
theorem ownVolume_of_no_extent
    (h : ∀ size, tree.size? node = some size → size.width ≤ 0 ∨ size.height ≤ 0) :
    (tree.ownVolume node).value = none := by
  refine ownVolume_of_not_fitted fun hfitted => ?_
  rcases tree.fitSize_cases node (.new (some node)) with
    hno | ⟨size, hsizes⟩ | ⟨fault, hrefused⟩ | ⟨size, hhalf⟩
  · simp [hno] at hfitted
  · obtain ⟨hsize, hsides⟩ := Option.filter_eq_some_iff.mp hsizes.extents
    obtain ⟨hwidth, hheight⟩ : size.width ≠ 0 ∧ size.height ≠ 0 := by simpa using hsides
    rcases h size hsize with hnarrow | hlow
    · exact hwidth (le_antisymm hnarrow (isExtent_iff.mp hsizes.width))
    · exact hheight (le_antisymm hlow (isExtent_iff.mp hsizes.height))
  · simp [hrefused] at hfitted
  · simp [hhalf.perform_fitSize] at hfitted

namespace Bleeds

/-- A fresh volume of the size of the node. -/
theorem perform_fitSize_new (h : tree.Bleeds node size bleeds) :
    (tree.fitSize node).perform (.new (some node)) =
      ⟨(.ok true, (⟨.zero, size.width, size.height, 0⟩ : Attributes).box (some node)), []⟩ := by
  have hextents : tree.extents? node = some size := by
    rw [extents?, h.hasSize, Option.filter_eq_some_iff]
    simp [h.width.ne', h.height.ne']
  have hsizes : tree.Sizes node (.new (some node)) size :=
    ⟨⟨hextents, rfl, isExtent_iff.mpr h.width.le⟩, isExtent_iff.mpr h.height.le⟩
  have hset : [Assignment.width size.width, .height size.height] ≠ [] := List.cons_ne_nil _ _
  have hbox : ((Volume.new (some node)).withWidth size.width).withHeight size.height =
      (⟨.zero, size.width, size.height, 0⟩ : Attributes).box (some node) :=
    Assignment.foldl_change_new hset
  rw [hsizes.perform_fitSize, hbox]

theorem ownVolume_of_anywhere (h : tree.Bleeds node size bleeds) (hany : .anywhere ∈ bleeds) :
    (tree.ownVolume node).value = none := by
  have hfitted := h.perform_fitSize_new
  rw [ownVolume_of_fitted (by rw [hfitted]), hfitted, h.effects]
  exact Effect.adjustAll_unbounded (List.mem_map_of_mem (f := Bleed.effect) hany) _

theorem ownVolume_eq (h : tree.Bleeds node size bleeds) (hbounded : .anywhere ∉ bleeds) :
    (tree.ownVolume node).value =
      some (((⟨.zero, size.width, size.height, 0⟩ : Attributes).padded
        (Bleed.total bleeds)).box (some node)) := by
  have hfitted := h.perform_fitSize_new
  rw [ownVolume_of_fitted (by rw [hfitted]), hfitted, h.effects]
  exact Effect.adjustAll_box hbounded h.outward h.width h.height (some node)

/-- The own volume depends on the margins together only. -/
theorem ownVolume_congr (h : tree.Bleeds node size bleeds) (h' : tree'.Bleeds node size bleeds')
    (hany : .anywhere ∈ bleeds' ↔ .anywhere ∈ bleeds)
    (htotal : Bleed.total bleeds' = Bleed.total bleeds) :
    (tree'.ownVolume node).value = (tree.ownVolume node).value := by
  by_cases hbounded : .anywhere ∈ bleeds
  · rw [h.ownVolume_of_anywhere hbounded, h'.ownVolume_of_anywhere (hany.mpr hbounded)]
  · rw [h.ownVolume_eq hbounded, h'.ownVolume_eq (mt hany.mp hbounded), htotal]

/-- A padding after the others encloses the volume that they leave. -/
theorem encloses {margins : Margins Rat} {own : Volume Rat} (h : tree.Bleeds node size bleeds)
    (h' : tree'.Bleeds node size (bleeds ++ [.within margins]))
    (hown : (tree.ownVolume node).value = some own) :
    ∃ own', (tree'.ownVolume node).value = some own' ∧ ∀ p, own.Contains p → own'.Contains p := by
  have heffects : tree'.effects node = tree.effects node ++ [.padding margins] := by
    rw [h'.effects, h.effects, List.map_append]
    rfl
  have hmargin : ∀ effect ∈ tree.effects node, effect.IsMargin := by
    rw [h.effects]
    rintro effect heffect
    obtain ⟨bleed, -, rfl⟩ := List.mem_map.mp heffect
    exact bleed.isMargin
  obtain ⟨hspread, hpadded⟩ :=
    ownVolume_padded (h'.hasSize.trans h.hasSize.symm) heffects hmargin
  have hmargins : margins.Outward :=
    h'.outward (.within margins) (List.mem_append_right _ List.mem_cons_self)
  refine ⟨margins.around own, by rw [hpadded, hown]; rfl, fun p hp => ?_⟩
  exact Margins.contains_around hmargins (hspread own hown) hp

end Bleeds

/-! ## Results -/

/-- A node whose size lacks a side that is positive has no own volume. Any other node whose
effects add margins and let nothing be painted anywhere has for its own volume the flat box of its
size with all margins added. So the order of the effects does not matter, two paddings are one
with their margins together, and a padding encloses the volume before it. -/
theorem ownVolume_margins :
    (∀ (tree : Hierarchy Rat) (node : NodeKey),
      (∀ size, tree.size? node = some size → size.width ≤ 0 ∨ size.height ≤ 0) →
        (tree.ownVolume node).value = none) ∧
    ∀ (tree : Hierarchy Rat) (node : NodeKey) (size : Size Rat) (bleeds : List Bleed),
      tree.Bleeds node size bleeds →
      (.anywhere ∈ bleeds → (tree.ownVolume node).value = none) ∧
      (.anywhere ∉ bleeds → ∃ own, (tree.ownVolume node).value = some own ∧
        own.reference = some node ∧
        (own.flags.aligned = true ∧ own.flags.flat = true ∧ own.flags.empty = false) ∧
        readAttributes.perform own =
          ⟨(.ok ⟨⟨-(Bleed.total bleeds).left, -(Bleed.total bleeds).top, 0⟩,
            size.width + ((Bleed.total bleeds).left + (Bleed.total bleeds).right),
            size.height + ((Bleed.total bleeds).top + (Bleed.total bleeds).bottom), 0⟩,
            own), []⟩) ∧
      (∀ (tree' : Hierarchy Rat) (bleeds' : List Bleed), tree'.Bleeds node size bleeds' →
        bleeds'.Perm bleeds → (tree'.ownVolume node).value = (tree.ownVolume node).value) ∧
      (∀ (tree' : Hierarchy Rat) (before after : List Bleed) (a b : Margins Rat),
        bleeds = before ++ [.within a, .within b] ++ after →
        tree'.Bleeds node size (before ++ [.within (a.plus b)] ++ after) →
          (tree'.ownVolume node).value = (tree.ownVolume node).value) ∧
      ∀ (tree' : Hierarchy Rat) (margins : Margins Rat),
        tree'.Bleeds node size (bleeds ++ [.within margins]) →
        ∀ own, (tree.ownVolume node).value = some own →
          ∃ own', (tree'.ownVolume node).value = some own' ∧
            ∀ p, own.Contains p → own'.Contains p := by
  refine ⟨fun tree node h => ownVolume_of_no_extent h, fun tree node size bleeds h =>
    ⟨h.ownVolume_of_anywhere, fun hbounded => ?_, fun tree' bleeds' h' hperm => ?_,
      fun tree' before after a b hsplit h' => ?_, fun tree' margins h' own hown =>
        h.encloses h' hown⟩⟩
  · have htotal := Bleed.total_outward h.outward
    have horigin : (.zero : Vec3 Rat) - ⟨(Bleed.total bleeds).left, (Bleed.total bleeds).top, 0⟩ =
        ⟨-(Bleed.total bleeds).left, -(Bleed.total bleeds).top, 0⟩ := by
      ext <;> simp [Vec3.zero]
    refine ⟨_, h.ownVolume_eq hbounded, rfl, ⟨rfl, rfl, Attributes.empty_box ?_⟩, ?_⟩
    · exact add_pos_of_pos_of_nonneg h.width (add_nonneg htotal.left htotal.right)
    · rw [perform_readAttributes rfl, Attributes.attributes_box, Attributes.padded, horigin]
  · exact h.ownVolume_congr h' hperm.mem_iff (Bleed.total_perm hperm)
  · subst hsplit
    exact h.ownVolume_congr h' (by simp) (Bleed.total_plus before after a b).symm

end Hierarchy

namespace Scene

open Volume

/-- A single node, 2 wide and 3 high, with these effects. -/
def framed (bleeds : List Bleed) : Scene Rat :=
  bleeds.foldl (fun scene bleed => ((addEffect ⟨1, 1⟩ bleed.effect).perform scene).value.2)
    (single ⟨2, 3⟩)

theorem reachable_framed [Approximation Rat] (bleeds : List Bleed) : (framed bleeds).Reachable := by
  rw [framed]
  generalize hscene : single ⟨2, 3⟩ = scene
  have h : scene.Reachable := hscene ▸ reachable_single ⟨2, 3⟩
  clear hscene
  induction bleeds generalizing scene with
  | nil => exact h
  | cons bleed bleeds ih => exact ih _ (h.step (.addEffect scene ⟨1, 1⟩ bleed.effect))

/-- Margins at all sides, and some more at the right. -/
def narrowFrame : Margins Rat := ⟨1, 2, 3, 4⟩

def rightFrame : Margins Rat := ⟨0, 0, 5, 0⟩

theorem outward_frames : narrowFrame.Outward ∧ rightFrame.Outward ∧
    (narrowFrame.plus rightFrame).Outward := by
  refine ⟨?_, ?_, ?_⟩ <;> constructor <;> norm_num [narrowFrame, rightFrame, Margins.plus]

theorem framed_ownVolume_margins :
    let scene := framed [.within narrowFrame, .within rightFrame]
    let tree := scene.hierarchy
    (@Reachable Rat _ .ofSquares scene ∧
      tree.Bleeds ⟨1, 1⟩ ⟨2, 3⟩ [.within narrowFrame, .within rightFrame]) ∧
    ((single ⟨0, 3⟩).hierarchy.ownVolume ⟨1, 1⟩).value = none ∧
    ((framed [.within narrowFrame, .anywhere]).hierarchy.ownVolume ⟨1, 1⟩).value = none ∧
    (∃ own, (tree.ownVolume ⟨1, 1⟩).value = some own ∧
      readAttributes.perform own = ⟨(.ok ⟨⟨-1, -2, 0⟩, 11, 9, 0⟩, own), []⟩) ∧
    ((framed [.within rightFrame, .within narrowFrame]).hierarchy.ownVolume ⟨1, 1⟩).value =
      (tree.ownVolume ⟨1, 1⟩).value ∧
    ((framed [.within (narrowFrame.plus rightFrame)]).hierarchy.ownVolume ⟨1, 1⟩).value =
      (tree.ownVolume ⟨1, 1⟩).value ∧
    ∃ inner outer,
      ((framed [.within narrowFrame]).hierarchy.ownVolume ⟨1, 1⟩).value = some inner ∧
      (tree.ownVolume ⟨1, 1⟩).value = some outer ∧ ∀ p, inner.Contains p → outer.Contains p := by
  intro scene tree
  have hscene : @Reachable Rat _ .ofSquares scene := @reachable_framed .ofSquares _
  obtain ⟨hnarrow, hright, hboth⟩ := outward_frames
  have hanywhere : Bleed.anywhere.sides.Outward := ⟨le_rfl, le_rfl, le_rfl, le_rfl⟩
  have hbleeds (bleeds : List Bleed)
      (hsize : (framed bleeds).hierarchy.size? ⟨1, 1⟩ = some ⟨2, 3⟩)
      (heffects : (framed bleeds).hierarchy.effects ⟨1, 1⟩ = bleeds.map Bleed.effect)
      (houtward : ∀ bleed ∈ bleeds, bleed.sides.Outward) :
      (framed bleeds).hierarchy.Bleeds ⟨1, 1⟩ ⟨2, 3⟩ bleeds :=
    ⟨hsize, by norm_num, by norm_num, heffects, houtward⟩
  have houter : tree.Bleeds ⟨1, 1⟩ ⟨2, 3⟩ [.within narrowFrame, .within rightFrame] :=
    hbleeds _ rfl rfl (by simpa using ⟨hnarrow, hright⟩)
  have hinner := hbleeds [.within narrowFrame] rfl rfl
    (List.forall_mem_singleton.mpr hnarrow)
  have hopen := hbleeds [.within narrowFrame, .anywhere] rfl rfl
    (by simpa using ⟨hnarrow, hanywhere⟩)
  have hswapped := hbleeds [.within rightFrame, .within narrowFrame] rfl rfl
    (by simpa using ⟨hright, hnarrow⟩)
  have hmerged := hbleeds [.within (narrowFrame.plus rightFrame)] rfl rfl
    (List.forall_mem_singleton.mpr hboth)
  obtain ⟨hflat, hsized⟩ := Hierarchy.ownVolume_margins
  obtain ⟨-, hbox, hperm, hmerge, -⟩ := hsized tree _ _ _ houter
  obtain ⟨own, hown, -, -, hread⟩ := hbox (by simp)
  obtain ⟨-, hinnerBox, -, -, hencloses⟩ := hsized _ _ _ _ hinner
  obtain ⟨inner, hinnerOwn, -⟩ := hinnerBox (by simp)
  obtain ⟨outer, houterOwn, hwithin⟩ := hencloses tree rightFrame houter inner hinnerOwn
  refine ⟨⟨hscene, houter⟩, hflat _ _ fun size hsize => ?_, (hsized _ _ _ _ hopen).1 (by simp),
    ⟨own, hown, ?_⟩, hperm _ _ hswapped (.swap _ _ _), hmerge _ [] [] _ _ rfl hmerged,
    inner, outer, hinnerOwn, houterOwn, hwithin⟩
  · obtain rfl := Option.some.inj ((size?_single ⟨0, 3⟩).symm.trans hsize)
    exact .inl le_rfl
  · norm_num [Bleed.total, Bleed.sides, narrowFrame, rightFrame] at hread
    exact hread

end Scene

end SceneCulling
