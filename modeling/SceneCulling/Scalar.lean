/-!
# Numbers

Coordinates are numbers of an arbitrary type `K`, so that one set of definitions
runs on binary floating point and is reasoned about in exact arithmetic.
`Scalar` holds what both kinds of number have. Its laws are left open: in binary
floating point addition rounds, and a comparison with a missing number (NaN) fails.

`Approximation` holds the operations whose exact results need not be numbers of the
type. A theorem in exact arithmetic takes any such operations as a parameter.

Rational numbers are the exact coordinates: every operation is exact and every number is
finite. There is no square root or tangent here, so `Approximation ℚ` stays a parameter.
-/

namespace SceneCulling

/-- Arithmetic on coordinates, with the literals, comparisons and roundings that the
geometry uses and the text in which a number is shown. -/
class Scalar (K : Type) extends Add K, Sub K, Mul K, Div K, Neg K, BEq K, LT K, LE K where
  /-- The number that a numeral denotes. -/
  literal : ∀ n : Nat, OfNat K n
  decLt : ∀ a b : K, Decidable (a < b)
  decLe : ∀ a b : K, Decidable (a ≤ b)
  /-- The smaller of two numbers. If one of them is missing, the other one. -/
  lesser : K → K → K
  /-- The larger of two numbers. If one of them is missing, the other one. -/
  greater : K → K → K
  /-- The largest whole number that is not above the given one. -/
  floor : K → K
  /-- The smallest whole number that is not below the given one. -/
  ceil : K → K
  /-- Neither infinite nor missing. -/
  isFinite : K → Bool
  text : K → String

/-- Operations that a number type may only approximate. -/
class Approximation (K : Type) where
  sqrt : K → K
  /-- The tangent of an angle in radians. -/
  tan : K → K
  /-- The radian measure of one degree. -/
  degree : K

namespace Scalar

variable {K : Type} [Scalar K]

instance (n : Nat) : OfNat K n := literal n

instance (a b : K) : Decidable (a < b) := decLt a b

instance (a b : K) : Decidable (a ≤ b) := decLe a b

end Scalar

/-- Exact arithmetic. -/
instance : Scalar Rat where
  literal := inferInstance
  decLt := inferInstance
  decLe := inferInstance
  lesser a b := if a ≤ b then a else b
  greater a b := if a ≤ b then b else a
  floor a := a.floor
  ceil a := a.ceil
  isFinite _ := true
  text a := toString a

end SceneCulling
