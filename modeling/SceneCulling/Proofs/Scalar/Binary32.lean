import Mathlib.Data.Prod.Lex
import Mathlib.Data.Int.Order.Basic
import SceneCulling.Proofs.Scalar.Ranked
import SceneCulling.Scalar.Binary32

/-!
# Places of binary floating point numbers

Binary floating point numbers compare by sign, exponent and mantissa. Both zeros have the same
place, and a missing number has none. An operation works on unpacked numbers and packs its
result again. On the way the sign of a zero may get lost or turn up, but nothing else depends
on it, except for a division by that zero.
-/

namespace SceneCulling

namespace Binary32

open Float.Model

/-- A class of numbers, from negative infinity to positive infinity, with the exponent and
the mantissa inside of the class. -/
abbrev Place := ℤ ×ₗ ℤ ×ₗ ℤ

open UnpackedFloat in
/-- The place of an unpacked number in canonical form. -/
def placeOf : UnpackedFloat → Option Place
  | .infinity .negative => some (toLex (-2, toLex (0, 0)))
  | .finite .negative m e _ => some (toLex (-1, toLex (-e, -m)))
  | .zero _ => some (toLex (0, toLex (0, 0)))
  | .finite .positive m e _ => some (toLex (1, toLex (e, m)))
  | .infinity .positive => some (toLex (2, toLex (0, 0)))
  | .notANumber => none

def place (x : Float32) : Option Place := placeOf x.toModel.unpack

/-! ## Comparisons -/

theorem compare_neg_neg (a b : ℤ) : compare (-a) (-b) = (compare a b).swap := by
  rcases lt_trichotomy a b with h | rfl | h
  · rw [compare_lt_iff_lt.mpr h, compare_gt_iff_gt.mpr (Int.neg_lt_neg h)]
    rfl
  · rw [compare_eq_iff_eq.mpr rfl, compare_eq_iff_eq.mpr rfl]
    rfl
  · rw [compare_gt_iff_gt.mpr h, compare_lt_iff_lt.mpr (Int.neg_lt_neg h)]
    rfl

theorem compare_natCast (m n : ℕ) : compare (m : ℤ) n = compare m n := by
  rcases lt_trichotomy m n with h | rfl | h
  · rw [compare_lt_iff_lt.mpr h, compare_lt_iff_lt.mpr (Int.ofNat_lt.mpr h)]
  · rw [compare_eq_iff_eq.mpr rfl, compare_eq_iff_eq.mpr rfl]
  · rw [compare_gt_iff_gt.mpr h, compare_gt_iff_gt.mpr (Int.ofNat_lt.mpr h)]

/-- Numbers compare as their places do. -/
theorem compare_eq (a b : UnpackedFloat) :
    a.compare b = (placeOf a).bind fun r => (placeOf b).map (compare r) := by
  rcases a with s | _ | s | ⟨s, m, e, hm⟩ <;> try rcases s with _ | _
  all_goals rcases b with t | _ | t | ⟨t, n, f, hn⟩ <;> try rcases t with _ | _
  -- Numbers of different classes compare by the class alone.
  all_goals try rfl
  case finite.negative.finite.negative =>
    change some ((compare e f).then (compare m n)).swap =
      some ((compare (-e) (-f)).then (compare (-(m : ℤ)) (-(n : ℤ))))
    rw [compare_neg_neg, compare_neg_neg, compare_natCast, Ordering.swap_then]
  case finite.positive.finite.positive =>
    change some ((compare e f).then (compare m n)) =
      some ((compare e f).then (compare (m : ℤ) (n : ℤ)))
    rw [compare_natCast]

theorem beq_iff (a b : Float32) :
    (a == b) = true ↔ ∃ r, place a = some r ∧ place b = some r := by
  change (a.toModel.unpack.compare b.toModel.unpack == some .eq) = true ↔ _
  rw [beq_iff_eq, compare_eq, place, place]
  rcases placeOf a.toModel.unpack with _ | r <;> rcases placeOf b.toModel.unpack with _ | s
  case some.some => simpa [compare_eq_iff_eq] using eq_comm
  all_goals simp

theorem lt_iff (a b : Float32) :
    a < b ↔ ∃ r s, place a = some r ∧ place b = some s ∧ r < s := by
  have hmodel : a < b ↔ (a.toModel.unpack.compare b.toModel.unpack == some .lt) = true :=
    decide_eq_true_iff
  rw [hmodel, beq_iff_eq, compare_eq, place, place]
  rcases placeOf a.toModel.unpack with _ | r <;> rcases placeOf b.toModel.unpack with _ | s
  case some.some => simpa using compare_lt_iff_lt
  all_goals simp

theorem le_iff (a b : Float32) :
    a ≤ b ↔ ∃ r s, place a = some r ∧ place b = some s ∧ r ≤ s := by
  have hmodel : a ≤ b ↔ (a.toModel.unpack.compare b.toModel.unpack).any (·.isLE) = true :=
    decide_eq_true_iff
  rw [hmodel, compare_eq, place, place]
  rcases placeOf a.toModel.unpack with _ | r <;> rcases placeOf b.toModel.unpack with _ | s
  case some.some => simpa [← Ordering.ne_gt_iff_isLE] using compare_le_iff_le
  all_goals simp

theorem isNaN_eq (a : UnpackedFloat) : a.isNaN = (placeOf a).isNone := by
  rcases a with s | _ | s | ⟨s, m, e, hm⟩ <;> try rcases s with _ | _
  all_goals rfl

theorem isNaN_iff (a : Float32) : a.isNaN = true ↔ place a = none := by
  change a.toModel.unpack.isNaN = true ↔ _
  rw [isNaN_eq, Option.isNone_iff_eq_none, place]

/-! ## The smaller and the larger number -/

theorem place_choose {before : Float32 → Float32 → Bool} {pick : Place → Place → Place}
    (hpick : ∀ {a b r s}, place a = some r → place b = some s →
      pick r s = if before a b then r else s) (a b : Float32) :
    place (choose before a b) = Option.merge pick (place a) (place b) := by
  rw [choose]
  cases ha : place a with
  | none => rw [if_pos ((isNaN_iff a).mpr ha), Option.merge_none_left]
  | some r =>
      have hanum : ¬a.isNaN = true := fun h => by simp [(isNaN_iff a).mp h] at ha
      rw [if_neg hanum]
      cases hb : place b with
      | none =>
          rw [(isNaN_iff b).mpr hb, Bool.true_or, if_pos rfl, Option.merge_none_right, ha]
      | some s =>
          have hbnum : b.isNaN = false :=
            Bool.eq_false_iff.mpr fun h => by simp [(isNaN_iff b).mp h] at hb
          rw [hbnum, Bool.false_or, apply_ite place, ha, hb]
          change _ = some (pick r s)
          rw [hpick ha hb]
          split <;> rfl

theorem place_lesser (a b : Float32) :
    place (Scalar.lesser a b) = Option.merge min (place a) (place b) := by
  refine place_choose (fun {a b r s} ha hb => ?_) a b
  have hlt : a < b ↔ r < s := by simp [lt_iff, ha, hb]
  rw [min_def_lt]
  simp [hlt]

theorem place_greater (a b : Float32) :
    place (Scalar.greater a b) = Option.merge max (place a) (place b) := by
  refine place_choose (fun {a b r s} ha hb => ?_) a b
  have hlt : b < a ↔ s < r := by simp [lt_iff, ha, hb]
  rw [max_comm, max_def_lt]
  simp [hlt]

/-! ## Arithmetic -/

/-- Only the two zeros share a place. -/
theorem placeOf_inj {a b : UnpackedFloat} (h : placeOf a = placeOf b) :
    a = b ∨ ∃ s t, a = .zero s ∧ b = .zero t := by
  rcases a with s | _ | s | ⟨s, m, e, hm⟩ <;> try rcases s with _ | _
  all_goals rcases b with t | _ | t | ⟨t, n, f, hn⟩ <;> try rcases t with _ | _
  all_goals first
    | exact .inl rfl
    | exact .inr ⟨_, _, rfl, rfl⟩
    | exact absurd h (Option.some_ne_none _)
    | exact absurd h.symm (Option.some_ne_none _)
    | have hplace := Option.some.inj h
      simp at hplace
  -- What is left are two numbers of one class.
  all_goals
    obtain ⟨rfl, rfl⟩ := hplace
    exact .inl rfl

/-- Packing a number and unpacking it again may round it, but it does not tell the zeros
apart. -/
theorem placeOf_unpack_pack {a b : UnpackedFloat} (h : placeOf a = placeOf b) :
    placeOf (Float32.Model.pack a).unpack = placeOf (Float32.Model.pack b).unpack := by
  obtain rfl | ⟨s, t, rfl, rfl⟩ := placeOf_inj h
  · rfl
  · cases s <;> cases t <;> rfl

section Operations

variable {op : UnpackedFloat → UnpackedFloat → UnpackedFloat} {a a' b b' : UnpackedFloat}

theorem placeOf_congr_left (hzero : ∀ s t b, placeOf (op (.zero s) b) = placeOf (op (.zero t) b))
    (ha : placeOf a = placeOf a') : placeOf (op a b) = placeOf (op a' b) := by
  obtain rfl | ⟨s, t, rfl, rfl⟩ := placeOf_inj ha
  · rfl
  · exact hzero s t b

theorem placeOf_congr_right (hzero : ∀ a s t, placeOf (op a (.zero s)) = placeOf (op a (.zero t)))
    (hb : placeOf b = placeOf b') : placeOf (op a b) = placeOf (op a b') := by
  obtain rfl | ⟨s, t, rfl, rfl⟩ := placeOf_inj hb
  · rfl
  · exact hzero a s t

/-- An operation that may drop or make the sign of a zero, but does not go by it. -/
theorem placeOf_congr (hleft : ∀ s t b, placeOf (op (.zero s) b) = placeOf (op (.zero t) b))
    (hright : ∀ a s t, placeOf (op a (.zero s)) = placeOf (op a (.zero t)))
    (ha : placeOf a = placeOf a') (hb : placeOf b = placeOf b') :
    placeOf (op a b) = placeOf (op a' b') :=
  (placeOf_congr_left hleft ha).trans (placeOf_congr_right hright hb)

theorem placeOf_add : placeOf a = placeOf a' → placeOf b = placeOf b' →
    placeOf (.add .binary32 a b) = placeOf (.add .binary32 a' b') := by
  refine placeOf_congr (fun s t b => ?_) (fun a s t => ?_)
  · rcases b with u | _ | u | u <;> cases s <;> cases t <;> try rfl
    all_goals cases u <;> rfl
  · rcases a with u | _ | u | u <;> cases s <;> cases t <;> try rfl
    all_goals cases u <;> rfl

theorem placeOf_sub : placeOf a = placeOf a' → placeOf b = placeOf b' →
    placeOf (.sub .binary32 a b) = placeOf (.sub .binary32 a' b') := by
  refine placeOf_congr (fun s t b => ?_) (fun a s t => ?_)
  · rcases b with u | _ | u | u <;> cases s <;> cases t <;> try rfl
    all_goals cases u <;> rfl
  · rcases a with u | _ | u | u <;> cases s <;> cases t <;> try rfl
    all_goals cases u <;> rfl

theorem placeOf_mul : placeOf a = placeOf a' → placeOf b = placeOf b' →
    placeOf (.mul .binary32 a b) = placeOf (.mul .binary32 a' b') := by
  refine placeOf_congr (fun s t b => ?_) (fun a s t => ?_)
  · rcases b with u | _ | u | u <;> cases s <;> cases t <;> rfl
  · rcases a with u | _ | u | u <;> cases s <;> cases t <;> rfl

/-- The sign of an infinite quotient is that of the zero that divides. -/
theorem placeOf_div (ha : placeOf a = placeOf a') (hb : placeOf b = placeOf b')
    (hne : placeOf b ≠ placeOf (.zero .positive)) :
    placeOf (.div .binary32 a b) = placeOf (.div .binary32 a' b') := by
  obtain rfl | ⟨s, t, rfl, rfl⟩ := placeOf_inj hb
  · refine placeOf_congr_left (fun s t b => ?_) ha
    rcases b with u | _ | u | u <;> cases s <;> cases t <;> rfl
  · exact absurd rfl hne

end Operations

end Binary32

instance : Ranked Float32 where
  Place := Binary32.Place
  place := Binary32.place
  beq_iff := Binary32.beq_iff
  lt_iff := Binary32.lt_iff
  le_iff := Binary32.le_iff
  place_lesser := Binary32.place_lesser
  place_greater := Binary32.place_greater
  place_add ha hb := Binary32.placeOf_unpack_pack (Binary32.placeOf_add ha hb)
  place_sub ha hb := Binary32.placeOf_unpack_pack (Binary32.placeOf_sub ha hb)
  place_mul ha hb := Binary32.placeOf_unpack_pack (Binary32.placeOf_mul ha hb)
  place_div {a a' b b'} ha hb hne := by
    refine Binary32.placeOf_unpack_pack (Binary32.placeOf_div ha hb fun hzero => ?_)
    have hb0 : (b == 0) = true := (Binary32.beq_iff b 0).mpr ⟨_, hzero, rfl⟩
    rw [hne] at hb0
    exact Bool.false_ne_true hb0

end SceneCulling
