import Mathlib.Algebra.Order.Ring.Rat
import Mathlib.Data.List.Forall2
import Mathlib.Data.Rat.Sqrt
import Mathlib.Order.MinMax
import Mathlib.Tactic.Linarith
import SceneCulling.Scalar

/-!
# Numbers with a place in an order

In binary floating point two different numbers can be equal, because zero has a sign, and a
missing number is not equal to itself. What arithmetic makes of a number nevertheless depends
on nothing but its place in the order of the numbers, or on its having none.

`Scalar.Same` relates numbers that no operation tells apart. `Ranked` holds the laws behind
this, for exact and for rounded arithmetic alike.

On the squares of rational numbers the square root is exact. A length that is such a square root
can then be computed with; there is no such tangent, and the one below stands for any.
-/

namespace SceneCulling

namespace Scalar

variable {K : Type} [Scalar K]

/-- The numbers are equal, or both are missing. -/
def Same (a b : K) : Prop := (a == b) = true ∨ (a == a) = false ∧ (b == b) = false

end Scalar

/-- Numbers that comparisons and arithmetic know by their places in a linear order only. A
number without a place is missing: it is equal to nothing and compares with nothing. -/
class Ranked (K : Type) [Scalar K] where
  /-- The places of the numbers. -/
  Place : Type
  [order : LinearOrder Place]
  place : K → Option Place
  beq_iff : ∀ a b : K, (a == b) = true ↔ ∃ r, place a = some r ∧ place b = some r
  lt_iff : ∀ a b : K, a < b ↔ ∃ r s, place a = some r ∧ place b = some s ∧ r < s
  le_iff : ∀ a b : K, a ≤ b ↔ ∃ r s, place a = some r ∧ place b = some s ∧ r ≤ s
  /-- The smaller and the larger of two numbers prefer a number that has a place. -/
  place_lesser : ∀ a b : K, place (Scalar.lesser a b) = Option.merge min (place a) (place b)
  place_greater : ∀ a b : K, place (Scalar.greater a b) = Option.merge max (place a) (place b)
  place_add : ∀ {a a' b b' : K}, place a = place a' → place b = place b' →
    place (a + b) = place (a' + b')
  place_sub : ∀ {a a' b b' : K}, place a = place a' → place b = place b' →
    place (a - b) = place (a' - b')
  place_mul : ∀ {a a' b b' : K}, place a = place a' → place b = place b' →
    place (a * b) = place (a' * b')
  /-- Only a division by zero may depend on the sign of the zero. -/
  place_div : ∀ {a a' b b' : K}, place a = place a' → place b = place b' →
    (b == 0) = false → place (a / b) = place (a' / b')

instance (K : Type) [Scalar K] [Ranked K] : LinearOrder (Ranked.Place K) := Ranked.order

namespace Scalar

variable {K : Type} [Scalar K] [Ranked K] {a b c a' b' : K}

theorem same_iff_place : Same a b ↔ Ranked.place a = Ranked.place b := by
  rw [Same, ← Bool.not_eq_true (a == a), ← Bool.not_eq_true (b == b), Ranked.beq_iff,
    Ranked.beq_iff, Ranked.beq_iff]
  cases Ranked.place a <;> cases Ranked.place b <;> simp [eq_comm]

/-! ## No operation tells the same numbers apart -/

namespace Same

@[refl] theorem refl (a : K) : Same a a := same_iff_place.mpr rfl

@[symm] theorem symm (h : Same a b) : Same b a :=
  same_iff_place.mpr (same_iff_place.mp h).symm

theorem trans (h : Same a b) (h' : Same b c) : Same a c :=
  same_iff_place.mpr ((same_iff_place.mp h).trans (same_iff_place.mp h'))

omit [Ranked K] in
theorem of_beq (h : (a == b) = true) : Same a b := .inl h

theorem beq (ha : Same a a') (hb : Same b b') : (a == b) = (a' == b') := by
  rw [Bool.eq_iff_iff, Ranked.beq_iff, Ranked.beq_iff, same_iff_place.mp ha,
    same_iff_place.mp hb]

theorem lt (ha : Same a a') (hb : Same b b') : a < b ↔ a' < b' := by
  rw [Ranked.lt_iff, Ranked.lt_iff, same_iff_place.mp ha, same_iff_place.mp hb]

theorem le (ha : Same a a') (hb : Same b b') : a ≤ b ↔ a' ≤ b' := by
  rw [Ranked.le_iff, Ranked.le_iff, same_iff_place.mp ha, same_iff_place.mp hb]

theorem decide_lt (ha : Same a a') (hb : Same b b') : decide (a < b) = decide (a' < b') :=
  decide_eq_decide.mpr (ha.lt hb)

theorem decide_le (ha : Same a a') (hb : Same b b') : decide (a ≤ b) = decide (a' ≤ b') :=
  decide_eq_decide.mpr (ha.le hb)

theorem add (ha : Same a a') (hb : Same b b') : Same (a + b) (a' + b') :=
  same_iff_place.mpr (Ranked.place_add (same_iff_place.mp ha) (same_iff_place.mp hb))

theorem sub (ha : Same a a') (hb : Same b b') : Same (a - b) (a' - b') :=
  same_iff_place.mpr (Ranked.place_sub (same_iff_place.mp ha) (same_iff_place.mp hb))

theorem mul (ha : Same a a') (hb : Same b b') : Same (a * b) (a' * b') :=
  same_iff_place.mpr (Ranked.place_mul (same_iff_place.mp ha) (same_iff_place.mp hb))

theorem div (ha : Same a a') (hb : Same b b') (hne : (b == 0) = false) :
    Same (a / b) (a' / b') :=
  same_iff_place.mpr (Ranked.place_div (same_iff_place.mp ha) (same_iff_place.mp hb) hne)

end Same

/-! ## The smallest and the largest of some numbers -/

/-- A choice among places that goes by what it is given and not by how often does not notice
that all of it is given again. -/
theorem foldl_append_cons_self {α : Type} (op : α → α → α) [Std.Associative op]
    [Std.IdempotentOp op] (a : α) (xs : List α) :
    (xs ++ a :: xs).foldl op a = xs.foldl op a := by
  rw [List.foldl_append, List.foldl_cons, List.foldl_assoc]
  exact Std.IdempotentOp.idempotent _

theorem map_place_eq {xs ys : List K} (h : List.Forall₂ Same xs ys) :
    xs.map Ranked.place = ys.map Ranked.place := by
  induction h with
  | nil => rfl
  | cons hab _ ih => rw [List.map_cons, List.map_cons, same_iff_place.mp hab, ih]

/-- Choosing among numbers that are given twice gives the same as choosing among them. -/
theorem Same.foldl_twice {op : K → K → K} {pick : Ranked.Place K → Ranked.Place K → Ranked.Place K}
    [Std.Associative pick] [Std.IdempotentOp pick]
    (hop : ∀ a b, Ranked.place (op a b) = Option.merge pick (Ranked.place a) (Ranked.place b))
    {xs xs' ys : List K} (ha : Same a a') (hxs : List.Forall₂ Same xs xs')
    (hys : List.Forall₂ Same (a :: xs) ys) :
    Same (xs.foldl op a) ((xs' ++ ys).foldl op a') := by
  have hplace (b : K) (zs : List K) : Ranked.place (zs.foldl op b) =
      (zs.map Ranked.place).foldl (Option.merge pick) (Ranked.place b) := by
    rw [List.foldl_map]
    exact (List.foldl_hom Ranked.place fun x y => (hop x y).symm).symm
  rw [same_iff_place, hplace, hplace, List.map_append, ← map_place_eq hxs, ← map_place_eq hys,
    ← same_iff_place.mp ha, List.map_cons, foldl_append_cons_self]

/-- Equality in arithmetic is not reflexive, because a missing number is not equal to itself. -/
instance : PartialEquivBEq K where
  symm {a b} h := by
    rw [Ranked.beq_iff] at h ⊢
    obtain ⟨r, ha, hb⟩ := h
    exact ⟨r, hb, ha⟩
  trans {a b c} h h' := by
    rw [Ranked.beq_iff] at h h' ⊢
    obtain ⟨r, ha, hb⟩ := h
    obtain ⟨s, hb', hc⟩ := h'
    exact ⟨r, ha, hc.trans (hb'.symm.trans hb)⟩

theorem beq_self_of_le (h : a ≤ b) : (b == b) = true := by
  obtain ⟨r, s, -, hb, -⟩ := (Ranked.le_iff a b).mp h
  exact (Ranked.beq_iff b b).mpr ⟨s, hb, hb⟩

theorem le_of_beq (h : (a == b) = true) : a ≤ b := by
  obtain ⟨r, ha, hb⟩ := (Ranked.beq_iff a b).mp h
  exact (Ranked.le_iff a b).mpr ⟨r, r, ha, hb, le_rfl⟩

end Scalar

/-! ## Exact arithmetic -/

instance : Ranked Rat where
  Place := Rat
  order := inferInstance
  place := some
  beq_iff a b := by
    rw [beq_iff_eq]
    exact ⟨fun h => ⟨a, rfl, congrArg some h.symm⟩,
      fun ⟨r, ha, hb⟩ => (Option.some.inj ha).trans (Option.some.inj hb).symm⟩
  lt_iff a b := by simp
  le_iff a b := by simp
  place_lesser a b := by
    change some (if a ≤ b then a else b) = some (min a b)
    rw [min_def]
  place_greater a b := by
    change some (if a ≤ b then b else a) = some (max a b)
    rw [max_def]
  place_add ha hb := by rw [Option.some.inj ha, Option.some.inj hb]
  place_sub ha hb := by rw [Option.some.inj ha, Option.some.inj hb]
  place_mul ha hb := by rw [Option.some.inj ha, Option.some.inj hb]
  place_div ha hb _ := by rw [Option.some.inj ha, Option.some.inj hb]

/-- Square roots that are exact on squares. -/
@[reducible] def Approximation.ofSquares : Approximation Rat where
  sqrt := Rat.sqrt
  tan x := x
  degree := 1 / 57

/-- Rounding to a fraction of integral square roots never rounds to zero. -/
theorem sqrt_ofSquares_pos {x : Rat} (hx : 0 < x) : 0 < Approximation.ofSquares.sqrt x := by
  have hnum : 0 < Int.sqrt x.num := by
    have hpos := Rat.num_pos.mpr hx
    have hnat : 0 < Nat.sqrt x.num.toNat := Nat.sqrt_pos.mpr (by omega)
    simp only [Int.sqrt]
    exact_mod_cast hnat
  have hden : 0 < Nat.sqrt x.den := Nat.sqrt_pos.mpr x.den_pos
  change 0 < Rat.sqrt x
  rw [Rat.sqrt, Rat.mkRat_eq_div]
  exact div_pos (by exact_mod_cast hnum) (by exact_mod_cast hden)

end SceneCulling
