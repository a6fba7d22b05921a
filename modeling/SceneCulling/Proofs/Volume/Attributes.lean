import Mathlib.Data.List.Nodup
import SceneCulling.Proofs.Volume.Padding

/-!
# Attributes

The position, the width, the height and the depth of an aligned volume are read and set one at a
time. In exact arithmetic a setter writes what it is for and nothing else that can be read, so
setters of different attributes may come in any order.

The vertices do not show this directly. Of an empty volume only the position can be trusted, and
a setter may empty a volume or fill it again. So the attributes are compared with the span of the
key vertices after they were gathered, which is right in both cases. A fresh volume has all its
vertices at one point; by any setters it becomes the box of what was set last.
-/

namespace SceneCulling.Volume

/-- What can be read of an aligned volume. -/
structure Attributes where
  origin : Vec3 Rat
  width : Rat
  height : Rat
  depth : Rat

/-- The setter of an attribute, together with what it sets. -/
inductive Assignment where
  | origin (p : Vec3 Rat)
  | width (x : Rat)
  | height (y : Rat)
  | depth (z : Rat)

inductive Attribute where
  | origin
  | width
  | height
  | depth
deriving DecidableEq

namespace Assignment

/-- The attribute that is set. -/
def target : Assignment → Attribute
  | .origin _ => .origin
  | .width _ => .width
  | .height _ => .height
  | .depth _ => .depth

/-- Any point may be a position, and any number an extent that is not negative. -/
def IsAllowed : Assignment → Prop
  | .origin _ => True
  | .width x | .height x | .depth x => 0 ≤ x

def edit : Assignment → Edit (Volume Rat) Unit
  | .origin p => setOrigin p
  | .width x => setWidth x
  | .height y => setHeight y
  | .depth z => setDepth z

/-- What the setter makes of an aligned volume. -/
def change (v : Volume Rat) : Assignment → Volume Rat
  | .origin p => v.movedTo p
  | .width x => v.withWidth x
  | .height y => v.withHeight y
  | .depth z => v.withDepth z

/-- The attributes with one of them replaced. -/
def write (a : Attributes) : Assignment → Attributes
  | .origin p => { a with origin := p }
  | .width x => { a with width := x }
  | .height y => { a with height := y }
  | .depth z => { a with depth := z }

end Assignment

/-- Reads the four attributes. -/
def readAttributes : Edit (Volume Rat) Attributes := do
  let w ← width
  let h ← height
  let d ← depth
  return ⟨(← get).origin, w, h, d⟩

/-! ## Reading -/

variable {v : Volume Rat}

/-- The attributes of a volume as they are read if it is aligned. -/
def attributes (v : Volume Rat) : Attributes where
  origin := v.origin
  width := if v.flags.empty then 0 else v.greatest.x - v.least.x
  height := if v.flags.empty then 0 else v.greatest.y - v.least.y
  depth := if v.flags.empty then 0 else v.greatest.z - v.least.z

/-- The attributes that the key vertices show, whether the volume is empty or not. -/
def span (v : Volume Rat) : Attributes :=
  ⟨v.least, v.greatest.x - v.least.x, v.greatest.y - v.least.y, v.greatest.z - v.least.z⟩

theorem perform_readAttributes (ha : v.flags.aligned = true) :
    readAttributes.perform v = ⟨(.ok v.attributes, v), []⟩ := by
  have hread {operation : Operation} {extent : Volume Rat → Rat} :
      (readExtent operation extent).perform v =
        ⟨(.ok (if v.flags.empty then 0 else extent v), v), []⟩ := perform_readExtent ha
  rw [readAttributes, width, height, depth, Edit.perform_bind_of_silent hread,
    Edit.perform_bind_of_silent hread, Edit.perform_bind_of_silent hread]
  rfl

/-- Once the key vertices of an empty volume are gathered, they show what is read. -/
theorem attributes_eq_span (v : Volume Rat) : v.attributes = v.gathered.span := by
  cases he : v.flags.empty with
  | true => simp [attributes, span, gathered, least, greatest, origin, he]
  | false => simp [attributes, span, gathered, least, greatest, origin, he]

/-- After a change of an extent a volume is empty only if its key vertices show no extent. -/
theorem attributes_extentChanged (v : Volume Rat) : v.extentChanged.attributes = v.span := by
  cases he : v.extentChanged.flags.empty with
  | false =>
      simp only [attributes, he, Bool.false_eq_true, if_false]
      rfl
  | true =>
      -- An empty volume reads as 0, and its key vertices show no more than that.
      have hsame : v.least = v.greatest := by
        by_contra hne
        exact absurd (he.symm.trans (empty_extentChanged.mpr hne)) (by decide)
      have hextent (e : Vec3 Rat → Rat) : e v.greatest - e v.least = 0 := by
        rw [hsame, sub_self]
      simp only [attributes, span, he, if_true, hextent Vec3.x, hextent Vec3.y, hextent Vec3.z]
      rfl

namespace Assignment

/-! ## One setter -/

theorem aligned_change (v : Volume Rat) (s : Assignment) :
    (s.change v).flags.aligned = v.flags.aligned := by
  cases s with
  | origin p => rfl
  | width x => exact aligned_gathered v
  | height y => exact aligned_gathered v
  | depth z => exact aligned_gathered v

/-- The setters are refused for the same reasons: a volume off the axes or a negative extent. -/
theorem perform_edit (ha : v.flags.aligned = true) {s : Assignment} (hs : s.IsAllowed) :
    s.edit.perform v = ⟨(.ok (), s.change v), []⟩ := by
  cases s with
  | origin p => exact perform_setOrigin ha
  | width x => exact perform_setWidth ha (isExtent_iff.mpr hs)
  | height y => exact perform_setHeight ha (isExtent_iff.mpr hs)
  | depth z => exact perform_setDepth ha (isExtent_iff.mpr hs)

/-- A setter changes one attribute and leaves the other three. -/
theorem attributes_change (v : Volume Rat) (s : Assignment) :
    (s.change v).attributes = s.write v.attributes := by
  cases s with
  | origin p =>
      have hkept (e : Vec3 Rat → Rat) (hadd : ∀ a b, e (a + b) = e a + e b)
          (hsub : ∀ a b, e (a - b) = e a - e b) :
          e (v.movedTo p).greatest - e (v.movedTo p).least = e v.greatest - e v.least := by
        obtain ⟨hleast, hgreatest⟩ := corners_movedTo v p
        rw [hleast, hgreatest, hadd, hsub]
        ring
      simp only [change, write, attributes,
        hkept Vec3.x (fun _ _ => rfl) fun _ _ => rfl,
        hkept Vec3.y (fun _ _ => rfl) fun _ _ => rfl,
        hkept Vec3.z (fun _ _ => rfl) fun _ _ => rfl]
      rw [Volume.origin, movedTo_topLeft]
      rfl
  | width x =>
      rw [change, Volume.withWidth, attributes_extentChanged, attributes_eq_span v]
      simp [span, write, least, greatest, topLeft_gathered]
  | height y =>
      rw [change, Volume.withHeight, attributes_extentChanged, attributes_eq_span v]
      simp [span, write, least, greatest, topLeft_gathered]
  | depth z =>
      rw [change, Volume.withDepth, attributes_extentChanged, attributes_eq_span v]
      simp [span, write, least, greatest, topLeft_gathered]

theorem write_comm {s t : Assignment} (h : s.target ≠ t.target) (a : Attributes) :
    t.write (s.write a) = s.write (t.write a) := by
  cases s <;> cases t <;> first | rfl | exact absurd rfl h

/-! ## Setters in a row -/

/-- Setters in a row are all granted if each of them is. -/
theorem perform_forM (ha : v.flags.aligned = true) {order : List Assignment}
    (hallowed : ∀ s ∈ order, s.IsAllowed) :
    (order.forM edit).perform v = ⟨(.ok (), order.foldl change v), []⟩ := by
  induction order generalizing v with
  | nil => rfl
  | cons s order ih =>
      obtain ⟨hs, hrest⟩ := List.forall_mem_cons.mp hallowed
      have hnext : (s.change v).flags.aligned = true := (aligned_change v s).trans ha
      change (s.edit >>= fun _ => order.forM edit).perform v = _
      rw [Edit.perform_bind_of_silent (perform_edit ha hs), ih hnext hrest]
      rfl

theorem aligned_foldl (v : Volume Rat) (order : List Assignment) :
    (order.foldl change v).flags.aligned = v.flags.aligned := by
  induction order generalizing v with
  | nil => rfl
  | cons s order ih => exact (ih (s.change v)).trans (aligned_change v s)

theorem attributes_foldl (v : Volume Rat) (order : List Assignment) :
    (order.foldl change v).attributes = order.foldl write v.attributes := by
  induction order generalizing v with
  | nil => rfl
  | cons s order ih =>
      rw [List.foldl_cons, List.foldl_cons, ih, attributes_change]

/-- If no attribute is set twice, the setters may be made in any order. -/
theorem foldl_write_perm {order order' : List Assignment} (h : order.Perm order')
    (honce : (order.map target).Nodup) (a : Attributes) :
    order.foldl write a = order'.foldl write a := by
  refine h.foldl_eq' (fun s hs t ht b => ?_) a
  by_cases htarget : s.target = t.target
  · rw [List.inj_on_of_nodup_map honce hs ht htarget]
  · exact write_comm htarget b

end Assignment

/-! ## Fresh volumes -/

namespace Attributes

/-- The attributes of a fresh volume. -/
def none : Attributes := ⟨.zero, 0, 0, 0⟩

/-- The volume with these attributes whose derived vertices were never written. -/
def box (reference : Option NodeKey) (a : Attributes) : Volume Rat where
  front := ⟨a.origin, a.origin + ⟨a.width, 0, 0⟩, .zero, a.origin + ⟨0, a.height, 0⟩⟩
  back := ⟨a.origin + ⟨0, 0, a.depth⟩, .zero, .zero, .zero⟩
  flags := ⟨a.width == 0 && a.height == 0 && a.depth == 0, true, false, a.depth == 0⟩
  reference := reference

end Attributes

namespace Assignment

variable {reference : Option NodeKey}

/-- Gathering an empty box changes nothing, since all its key vertices are at its position. -/
theorem gathered_box (a : Attributes) : (a.box reference).gathered = a.box reference := by
  rw [gathered]
  split
  · next he =>
      obtain ⟨⟨hw, hh⟩, hd⟩ : (a.width = 0 ∧ a.height = 0) ∧ a.depth = 0 := by
        simpa [Attributes.box] using he
      have hpoint : a.origin + ⟨0, 0, 0⟩ = a.origin := by ext <;> simp
      simp [Attributes.box, hw, hh, hd, hpoint]
  · rfl

/-- A setter makes of a box the box with the new attribute. -/
theorem change_box (a : Attributes) (s : Assignment) :
    s.change (a.box reference) = (s.write a).box reference := by
  have hnone (x y : Rat) : (x == x + y) = (y == 0) := by
    rw [Bool.eq_iff_iff, beq_iff_eq, beq_iff_eq, left_eq_add]
  cases s with
  | origin p =>
      have hpoint (q : Vec3 Rat) : a.origin + q + (p - a.origin) = p + q := by
        ext <;> simp only [Vec3.add_x, Vec3.add_y, Vec3.add_z, Vec3.sub_x, Vec3.sub_y,
          Vec3.sub_z] <;> ring
      have horigin : a.origin + (p - a.origin) = p := by ext <;> simp
      simp [change, write, Volume.movedTo, Attributes.box, hpoint, horigin]
  | width x =>
      rw [change, Volume.withWidth, gathered_box]
      simp [write, extentChanged, Attributes.box, Vec3.ext_iff, hnone]
  | height y =>
      rw [change, Volume.withHeight, gathered_box]
      simp [write, extentChanged, Attributes.box, Vec3.ext_iff, hnone]
  | depth z =>
      rw [change, Volume.withDepth, gathered_box]
      simp [write, extentChanged, Attributes.box, Vec3.ext_iff, hnone]

/-- A fresh volume is complete, which no setter looks at. -/
theorem change_new (s : Assignment) :
    s.change (.new reference) = (s.write .none).box reference := by
  have hbox : (Attributes.none.box reference) =
      { (new reference : Volume Rat) with flags.complete := false } := by
    have hpoint : (Vec3.zero : Vec3 Rat) + ⟨0, 0, 0⟩ = .zero := by ext <;> simp [Vec3.zero]
    simp [Attributes.box, Attributes.none, new, Face.collapsed, hpoint]
  rw [← change_box, hbox]
  cases s <;> rfl

theorem foldl_change_box (a : Attributes) (order : List Assignment) :
    order.foldl change (a.box reference) = (order.foldl write a).box reference := by
  induction order generalizing a with
  | nil => rfl
  | cons s order ih => rw [List.foldl_cons, List.foldl_cons, change_box, ih]

/-- By any setters a fresh volume becomes the box of what was set last. -/
theorem foldl_change_new {order : List Assignment} (h : order ≠ []) :
    order.foldl change (.new reference) = (order.foldl write .none).box reference := by
  obtain ⟨s, order, rfl⟩ := List.exists_cons_of_ne_nil h
  rw [List.foldl_cons, List.foldl_cons, change_new, foldl_change_box]

end Assignment

/-! ## Results -/

namespace Assignment

/-- A setter of an aligned volume is granted, and of what is read before and after it only the
attribute that it sets is different. -/
theorem edit_writes (ha : v.flags.aligned = true) {s : Assignment} (hs : s.IsAllowed) :
    ∃ a u, readAttributes.perform v = ⟨(.ok a, v), []⟩ ∧ s.edit.perform v = ⟨(.ok (), u), []⟩ ∧
      readAttributes.perform u = ⟨(.ok (s.write a), u), []⟩ := by
  have hu : (s.change v).flags.aligned = true := (aligned_change v s).trans ha
  refine ⟨v.attributes, s.change v, perform_readAttributes ha, perform_edit ha hs, ?_⟩
  rw [perform_readAttributes hu, attributes_change]

theorem forM_perm (ha : v.flags.aligned = true) {order order' : List Assignment}
    (h : order.Perm order') (honce : (order.map target).Nodup)
    (hallowed : ∀ s ∈ order, s.IsAllowed) :
    ∃ a u u', (order.forM edit).perform v = ⟨(.ok (), u), []⟩ ∧
      (order'.forM edit).perform v = ⟨(.ok (), u'), []⟩ ∧
      readAttributes.perform u = ⟨(.ok a, u), []⟩ ∧
      readAttributes.perform u' = ⟨(.ok a, u'), []⟩ := by
  have hallowed' : ∀ s ∈ order', s.IsAllowed := fun s hs => hallowed s (h.mem_iff.mpr hs)
  have hread (order : List Assignment) : readAttributes.perform (order.foldl change v) =
      ⟨(.ok (order.foldl write v.attributes), order.foldl change v), []⟩ := by
    rw [perform_readAttributes ((aligned_foldl v order).trans ha), attributes_foldl]
  refine ⟨order.foldl write v.attributes, order.foldl change v, order'.foldl change v,
    perform_forM ha hallowed, perform_forM ha hallowed', hread order, ?_⟩
  rw [foldl_write_perm h honce]
  exact hread order'

/-- Each attribute of a fresh volume is set once, in any order. -/
theorem forM_new (reference : Option NodeKey) (a : Attributes) (hwidth : 0 ≤ a.width)
    (hheight : 0 ≤ a.height) (hdepth : 0 ≤ a.depth) {order : List Assignment}
    (h : order.Perm [.origin a.origin, .width a.width, .height a.height, .depth a.depth]) :
    (order.forM edit).perform (.new reference) = ⟨(.ok (), a.box reference), []⟩ := by
  have hallowed : ∀ s ∈ order, s.IsAllowed := by
    intro s hs
    have hmem := h.mem_iff.mp hs
    simp only [List.mem_cons, List.not_mem_nil, or_false] at hmem
    obtain rfl | rfl | rfl | rfl := hmem
    exacts [trivial, hwidth, hheight, hdepth]
  have honce : (order.map target).Nodup := (h.map target).nodup_iff.mpr (by simp [target])
  have hne : order ≠ [] := by
    rintro rfl
    simp at h
  rw [perform_forM rfl hallowed, foldl_change_new hne, foldl_write_perm h honce]
  rfl

end Assignment

/-- The attributes of an aligned volume are independent of each other in exact arithmetic,
whatever was done to the volume before. A setter is granted, after it the attribute that it sets
is read as it was set, and the other three are read as before. So setters of different attributes
may be made in any order, with the same readings in the end. If all four attributes of a fresh
volume are set, in any order, and the volume is completed, even all its vertices and flags are
the same. -/
theorem attributes_independent :
    (∀ v : Volume Rat, v.flags.aligned = true → ∀ s : Assignment, s.IsAllowed →
      ∃ a u, readAttributes.perform v = ⟨(.ok a, v), []⟩ ∧
        s.edit.perform v = ⟨(.ok (), u), []⟩ ∧
        readAttributes.perform u = ⟨(.ok (s.write a), u), []⟩) ∧
    (∀ v : Volume Rat, v.flags.aligned = true → ∀ order order' : List Assignment,
      order.Perm order' → (order.map Assignment.target).Nodup → (∀ s ∈ order, s.IsAllowed) →
      ∃ a u u', (order.forM Assignment.edit).perform v = ⟨(.ok (), u), []⟩ ∧
        (order'.forM Assignment.edit).perform v = ⟨(.ok (), u'), []⟩ ∧
        readAttributes.perform u = ⟨(.ok a, u), []⟩ ∧
        readAttributes.perform u' = ⟨(.ok a, u'), []⟩) ∧
    ∀ (reference : Option NodeKey) (p : Vec3 Rat) (w h d : Rat), 0 ≤ w → 0 ≤ h → 0 ≤ d →
      ∀ order : List Assignment, order.Perm [.origin p, .width w, .height h, .depth d] →
      ∃ u, (order.forM Assignment.edit).perform (.new reference) = ⟨(.ok (), u), []⟩ ∧
        u.complete = ((⟨p, w, h, d⟩ : Attributes).box reference).complete := by
  refine ⟨fun v ha s hs => Assignment.edit_writes ha hs,
    fun v ha order order' h honce hallowed => Assignment.forM_perm ha h honce hallowed,
    fun reference p w h d hw hh hd order horder => ?_⟩
  exact ⟨_, Assignment.forM_new reference ⟨p, w, h, d⟩ hw hh hd horder, rfl⟩

/-- An empty volume that a transform has moved, and with it none of its other key vertices. -/
def carried : Volume Rat := (new none).transform (.shift ⟨1, 2, 3⟩)

theorem carried_attributes_independent :
    (carried.Reachable ∧ carried.flags.aligned = true ∧ carried.flags.empty = true ∧
      (carried.origin == ⟨1, 2, 3⟩ && carried.back.topLeft == ⟨0, 0, 0⟩) = true) ∧
    (∃ a u, readAttributes.perform carried = ⟨(.ok a, carried), []⟩ ∧
      (setWidth 2).perform carried = ⟨(.ok (), u), []⟩ ∧
      readAttributes.perform u = ⟨(.ok { a with width := 2 }, u), []⟩) ∧
    (∃ a u u',
      ([.width 2, .origin ⟨7, 8, 9⟩].forM Assignment.edit).perform carried = ⟨(.ok (), u), []⟩ ∧
      ([.origin ⟨7, 8, 9⟩, .width 2].forM Assignment.edit).perform carried =
        ⟨(.ok (), u'), []⟩ ∧
      readAttributes.perform u = ⟨(.ok a, u), []⟩ ∧
      readAttributes.perform u' = ⟨(.ok a, u'), []⟩) ∧
    ∃ u, ([.depth 0, .height 4, .width 2, .origin ⟨7, 8, 9⟩].forM Assignment.edit).perform
        (.new none) = ⟨(.ok (), u), []⟩ ∧
      u.complete = ((⟨⟨7, 8, 9⟩, 2, 4, 0⟩ : Attributes).box none).complete := by
  have ha : carried.flags.aligned = true := by decide +kernel
  have hwidth : (Assignment.width 2).IsAllowed := by norm_num [Assignment.IsAllowed]
  have hallowed : ∀ s ∈ [Assignment.width 2, .origin ⟨7, 8, 9⟩], s.IsAllowed := by
    simp [Assignment.IsAllowed]
  have hbackward : [Assignment.depth 0, .height 4, .width 2, .origin ⟨7, 8, 9⟩].Perm
      [.origin ⟨7, 8, 9⟩, .width 2, .height 4, .depth 0] :=
    List.reverse_perm [Assignment.origin ⟨7, 8, 9⟩, .width 2, .height 4, .depth 0]
  obtain ⟨hwrites, hcommute, hfresh⟩ := attributes_independent
  exact ⟨⟨.transform _ (.new none), ha, by decide +kernel, by decide +kernel⟩,
    hwrites carried ha (.width 2) hwidth,
    hcommute carried ha _ _ (.swap _ _ _) (by decide) hallowed,
    hfresh none ⟨7, 8, 9⟩ 2 4 0 (by norm_num) (by norm_num) (by norm_num) _ hbackward⟩

end SceneCulling.Volume
