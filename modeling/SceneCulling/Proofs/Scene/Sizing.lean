import SceneCulling.Proofs.Scene.Reachable
import SceneCulling.Proofs.Volume.Box
import SceneCulling.Scene.Placement

/-!
# Sizing a volume

A volume gets the width of a node and then its height. Each of the two setters is all or nothing,
but nothing looks at the height before the width is written. So if the height alone is refused,
the volume is left with the new width. In every other case the size is written as a whole or the
volume stays as it was.
-/

namespace SceneCulling.Hierarchy

section Outcomes

variable {K : Type} [Scalar K] {tree : Hierarchy K} {node : NodeKey} {size : Size K}
  {v : Volume K}

/-- The size that a node writes into volumes, which has no side that is zero. -/
def extents? (tree : Hierarchy K) (node : NodeKey) : Option (Size K) :=
  (tree.size? node).filter fun size => !(size.width == 0 || size.height == 0)

/-- Of the size that the node writes, the volume takes the width. -/
structure SizesWidth (tree : Hierarchy K) (node : NodeKey) (v : Volume K) (size : Size K) :
    Prop where
  extents : tree.extents? node = some size
  aligned : v.flags.aligned = true
  width : Volume.isExtent size.width = true

/-- The volume takes the width and the height. -/
structure Sizes (tree : Hierarchy K) (node : NodeKey) (v : Volume K) (size : Size K) : Prop
    extends tree.SizesWidth node v size where
  height : Volume.isExtent size.height = true

/-- The volume takes the width and refuses the height. -/
structure HalfSizes (tree : Hierarchy K) (node : NodeKey) (v : Volume K) (size : Size K) : Prop
    extends tree.SizesWidth node v size where
  height : Volume.isExtent size.height = false

/-! ## Outcomes -/

/-- A node that writes no size leaves the volume as it is. -/
theorem perform_fitSize_of_none (h : tree.extents? node = none) (v : Volume K) :
    (tree.fitSize node).perform v = ⟨(.ok false, v), []⟩ := by
  rw [fitSize]
  cases hsize : tree.size? node with
  | none => rfl
  | some size =>
      rw [extents?, hsize, Option.filter_eq_none_iff] at h
      have hzero : (size.width == 0 || size.height == 0) = true := by
        simpa only [Bool.not_eq_true', Bool.not_eq_false] using h size rfl
      simp only [hzero, if_true]
      rfl

theorem fitSize_eq (h : tree.extents? node = some size) :
    tree.fitSize node = (do
      Volume.setWidth size.width
      Volume.setHeight size.height
      return true) := by
  obtain ⟨hsize, hsides⟩ := Option.filter_eq_some_iff.mp h
  rw [Bool.not_eq_true'] at hsides
  rw [fitSize, hsize]
  simp only [hsides]
  rfl

theorem size?_of_extents? (h : tree.extents? node = some size) : tree.size? node = some size :=
  (Option.filter_eq_some_iff.mp h).1

/-- After the width only the height is left to be set. -/
theorem SizesWidth.perform_fitSize (h : tree.SizesWidth node v size) :
    (tree.fitSize node).perform v =
      (do Volume.setHeight size.height; return true : Edit (Volume K) Bool).perform
        (v.withWidth size.width) := by
  rw [fitSize_eq h.extents,
    Edit.perform_bind_of_silent (Volume.perform_setWidth h.aligned h.width)]

theorem SizesWidth.aligned_withWidth (h : tree.SizesWidth node v size) :
    (v.withWidth size.width).flags.aligned = true :=
  (Volume.aligned_gathered v).trans h.aligned

theorem Sizes.perform_fitSize (h : tree.Sizes node v size) : (tree.fitSize node).perform v =
    ⟨(.ok true, (v.withWidth size.width).withHeight size.height), []⟩ := by
  rw [h.toSizesWidth.perform_fitSize,
    Edit.perform_bind_of_silent (Volume.perform_setHeight h.aligned_withWidth h.height)]
  rfl

theorem HalfSizes.perform_fitSize (h : tree.HalfSizes node v size) :
    (tree.fitSize node).perform v =
      ⟨(.error (.badExtent .setHeight (Scalar.text size.height)), v.withWidth size.width),
        [(Fault.badExtent .setHeight (Scalar.text size.height)).entry]⟩ := by
  have hrefused : (Volume.setHeight size.height).perform (v.withWidth size.width) =
      ⟨(.error (.badExtent .setHeight (Scalar.text size.height)), v.withWidth size.width),
        [(Fault.badExtent .setHeight (Scalar.text size.height)).entry]⟩ :=
    Edit.perform_bind_of_error
      (Volume.perform_requireExtent_refused h.aligned_withWidth h.height) _
  rw [h.toSizesWidth.perform_fitSize, Edit.perform_bind_of_error hrefused]

/-- If the width is refused, the height is not looked at. -/
theorem perform_fitSize_refused (h : tree.extents? node = some size)
    (hwidth : ¬ tree.SizesWidth node v size) :
    ∃ fault, (tree.fitSize node).perform v = ⟨(.error fault, v), [fault.entry]⟩ := by
  have hrefused : ∃ fault, (Volume.setWidth size.width).perform v =
      ⟨(.error fault, v), [fault.entry]⟩ := by
    cases ha : v.flags.aligned with
    | false =>
        exact ⟨_, Edit.perform_bind_of_error (Volume.perform_requireExtent_not_aligned ha) _⟩
    | true =>
        have hbad : Volume.isExtent size.width = false :=
          Bool.eq_false_iff.mpr fun hgood => hwidth ⟨h, ha, hgood⟩
        exact ⟨_, Edit.perform_bind_of_error (Volume.perform_requireExtent_refused ha hbad) _⟩
  obtain ⟨fault, hfault⟩ := hrefused
  exact ⟨fault, by rw [fitSize_eq h, Edit.perform_bind_of_error hfault]⟩

/-- The four ways in which sizing a volume ends. -/
theorem fitSize_cases (tree : Hierarchy K) (node : NodeKey) (v : Volume K) :
    (tree.fitSize node).perform v = ⟨(.ok false, v), []⟩ ∨
      (∃ size, tree.Sizes node v size) ∨
      (∃ fault, (tree.fitSize node).perform v = ⟨(.error fault, v), [fault.entry]⟩) ∨
      ∃ size, tree.HalfSizes node v size := by
  cases h : tree.extents? node with
  | none => exact .inl (perform_fitSize_of_none h v)
  | some size =>
      by_cases hwidth : tree.SizesWidth node v size
      · cases hheight : Volume.isExtent size.height with
        | true => exact .inr (.inl ⟨size, hwidth, hheight⟩)
        | false => exact .inr (.inr (.inr ⟨size, hwidth, hheight⟩))
      · exact .inr (.inr (.inl (perform_fitSize_refused h hwidth)))

/-! ## Results -/

/-- If the answer is yes, both sides of the size were written. If it is no, or if the size is
refused, the volume is as it was, unless its height alone was refused; then the new width stays
in the volume. -/
theorem fitSize_whole_or_half (tree : Hierarchy K) (node : NodeKey) (v : Volume K) :
    (((tree.fitSize node).perform v).value.1 = .ok true → ∃ size, tree.size? node = some size ∧
      (tree.fitSize node).perform v =
        ⟨(.ok true, (v.withWidth size.width).withHeight size.height), []⟩) ∧
    (((tree.fitSize node).perform v).value.1 ≠ .ok true →
      (∀ size, ¬ tree.HalfSizes node v size) → ((tree.fitSize node).perform v).value.2 = v) ∧
    ∀ size, tree.HalfSizes node v size → (tree.fitSize node).perform v =
      ⟨(.error (.badExtent .setHeight (Scalar.text size.height)), v.withWidth size.width),
        [(Fault.badExtent .setHeight (Scalar.text size.height)).entry]⟩ := by
  refine ⟨fun hyes => ?_, fun hno hwhole => ?_, fun size hhalf => hhalf.perform_fitSize⟩
  · rcases tree.fitSize_cases node v with h | ⟨size, hsizes⟩ | ⟨fault, h⟩ | ⟨size, hhalf⟩
    · simp [h] at hyes
    · exact ⟨size, size?_of_extents? hsizes.extents, hsizes.perform_fitSize⟩
    · simp [h] at hyes
    · simp [hhalf.perform_fitSize] at hyes
  · rcases tree.fitSize_cases node v with h | ⟨size, hsizes⟩ | ⟨fault, h⟩ | ⟨size, hhalf⟩
    · rw [h]
    · simp [hsizes.perform_fitSize] at hno
    · rw [h]
    · exact absurd hhalf (hwhole size)

end Outcomes

end SceneCulling.Hierarchy

namespace SceneCulling.Scene

/-- A single node of this size. -/
def single (size : Size Rat) : Scene Rat :=
  let scene := ((createNode none .identity).perform (.empty : Scene Rat)).value.2
  ((setSize ⟨1, 1⟩ (some size)).perform scene).value.2

theorem reachable_single [Approximation Rat] (size : Size Rat) : (single size).Reachable :=
  (Reachable.empty.step (.createNode _ none .identity)).step (.setSize _ ⟨1, 1⟩ (some size))

theorem size?_single (size : Size Rat) : (single size).hierarchy.size? ⟨1, 1⟩ = some size := rfl

theorem extents?_single {size : Size Rat} (h : (size.width == 0 || size.height == 0) = false) :
    (single size).hierarchy.extents? ⟨1, 1⟩ = some size := by
  rw [Hierarchy.extents?, size?_single, Option.filter_eq_some_iff, h]
  exact ⟨rfl, rfl⟩

/-- A fresh volume takes the width of a node and refuses its height. -/
theorem halfSizes_single :
    (single ⟨2, -1⟩).hierarchy.HalfSizes ⟨1, 1⟩ (.new none) ⟨2, -1⟩ :=
  ⟨⟨extents?_single (by decide +kernel), rfl, by decide +kernel⟩, by decide +kernel⟩

/-- A size that is written, one whose width is refused, and one whose height is refused. -/
theorem single_whole_or_half :
    (((single ⟨2, 3⟩).hierarchy.fitSize ⟨1, 1⟩).perform (.new none)).value.1 = .ok true ∧
    (∃ size, (single ⟨2, 3⟩).hierarchy.size? ⟨1, 1⟩ = some size ∧
      ((single ⟨2, 3⟩).hierarchy.fitSize ⟨1, 1⟩).perform (.new none) =
        ⟨(.ok true, ((Volume.new none).withWidth size.width).withHeight size.height), []⟩) ∧
    (((single ⟨-1, 2⟩).hierarchy.fitSize ⟨1, 1⟩).perform (.new none)).value.1 ≠ .ok true ∧
    (∀ size, ¬ (single ⟨-1, 2⟩).hierarchy.HalfSizes ⟨1, 1⟩ (.new none) size) ∧
    (((single ⟨-1, 2⟩).hierarchy.fitSize ⟨1, 1⟩).perform (.new none)).value.2 = .new none ∧
    (single ⟨2, -1⟩).hierarchy.HalfSizes ⟨1, 1⟩ (.new none) ⟨2, -1⟩ ∧
    ((single ⟨2, -1⟩).hierarchy.fitSize ⟨1, 1⟩).perform (.new none) =
      ⟨(.error (.badExtent .setHeight (Scalar.text (-1 : Rat))), (Volume.new none).withWidth 2),
        [(Fault.badExtent .setHeight (Scalar.text (-1 : Rat))).entry]⟩ := by
  obtain ⟨hwhole, -, -⟩ := (single ⟨2, 3⟩).hierarchy.fitSize_whole_or_half ⟨1, 1⟩ (.new none)
  obtain ⟨-, hnone, -⟩ := (single ⟨-1, 2⟩).hierarchy.fitSize_whole_or_half ⟨1, 1⟩ (.new none)
  obtain ⟨-, -, hhalf⟩ := (single ⟨2, -1⟩).hierarchy.fitSize_whole_or_half ⟨1, 1⟩ (.new none)
  have hyes : (((single ⟨2, 3⟩).hierarchy.fitSize ⟨1, 1⟩).perform (.new none)).value.1 =
      .ok true := by
    have hsizes : (single ⟨2, 3⟩).hierarchy.Sizes ⟨1, 1⟩ (.new none) ⟨2, 3⟩ :=
      ⟨⟨extents?_single (by decide +kernel), rfl, by decide +kernel⟩, by decide +kernel⟩
    rw [hsizes.perform_fitSize]
  have hnarrow : (single ⟨-1, 2⟩).hierarchy.extents? ⟨1, 1⟩ = some ⟨-1, 2⟩ :=
    extents?_single (by decide +kernel)
  have hrefuses (size : Size Rat) :
      ¬ (single ⟨-1, 2⟩).hierarchy.SizesWidth ⟨1, 1⟩ (.new none) size := by
    intro h
    obtain rfl := Option.some.inj (hnarrow.symm.trans h.extents)
    exact absurd h.width (by decide +kernel)
  have hno : (((single ⟨-1, 2⟩).hierarchy.fitSize ⟨1, 1⟩).perform (.new none)).value.1 ≠
      .ok true := by
    obtain ⟨fault, hrefused⟩ := Hierarchy.perform_fitSize_refused hnarrow (hrefuses _)
    rw [hrefused]
    simp
  have hneither (size : Size Rat) :
      ¬ (single ⟨-1, 2⟩).hierarchy.HalfSizes ⟨1, 1⟩ (.new none) size :=
    fun h => hrefuses size h.toSizesWidth
  exact ⟨hyes, hwhole hyes, hno, hneither, hnone hno hneither, halfSizes_single,
    hhalf ⟨2, -1⟩ halfSizes_single⟩

/-- So a refusal may leave its mark: of a fresh volume the refused node has moved a vertex. -/
theorem single_half_written :
    let _ := Approximation.ofSquares
    (single ⟨2, -1⟩).Reachable ∧ (Volume.new none : Volume Rat).Reachable ∧
      ∃ fault u, ((single ⟨2, -1⟩).hierarchy.fitSize ⟨1, 1⟩).perform (.new none) =
        ⟨(.error fault, u), [fault.entry]⟩ ∧ u ≠ .new none := by
  intro _
  refine ⟨reachable_single _, .new none, _, _, halfSizes_single.perform_fitSize, fun hsame => ?_⟩
  have hmoved : (((Volume.new none : Volume Rat).withWidth 2).front.topRight.x == 2) = true := by
    decide +kernel
  rw [hsame] at hmoved
  exact absurd hmoved (by decide +kernel)

end SceneCulling.Scene
