/-!
# Shortest decimals

A binary floating-point number stands for every real number that rounds to it. Among
the decimals in that range this module chooses one with the fewest digits, and of
those the one nearest to the number. All arithmetic is exact.

A positive number is given as `m * 2 ^ q`. Its range reaches half a unit to each
side, except that the lower half is a quarter where `m` is the least significand of
its binade, because the numbers below are twice as dense. The ends belong to the
range iff `m` is even.
-/

namespace SceneCulling.Decimal

/-- The decimal `digits * 10 ^ exponent`. -/
structure Scientific where
  digits : Nat
  exponent : Int
deriving DecidableEq, Repr

namespace Scientific

/-- The power of two with this exponent, one if the exponent is negative. -/
def twoTo (q : Int) : Nat := Nat.pow 2 q.toNat

/-- The power of ten with this exponent, one if the exponent is negative. -/
def tenTo (e : Int) : Nat := Nat.pow 10 e.toNat

/-- Comparison of `a * 2 ^ p` with `b * 10 ^ e`, without rounding. -/
def compareBinary (a : Nat) (p : Int) (b : Nat) (e : Int) : Ordering :=
  compare (a * twoTo p * tenTo (-e)) (b * tenTo e * twoTo (-p))

/-- The greatest `d` with `d * 10 ^ e ≤ m * 2 ^ q`. -/
def floorOnGrid (m : Nat) (q e : Int) : Nat :=
  m * twoTo q * tenTo (-e) / (tenTo e * twoTo (-q))

/-- The exponent `e` with `10 ^ e ≤ m * 2 ^ q < 10 ^ (e + 1)`, for a positive `m`.
The search goes up from an exponent that is never too large, since `10 ^ q ≤ 2 ^ q` for
a negative `q`, and the number of bits bounds its length. -/
def leadingExponent (m : Nat) (q : Int) : Int :=
  go (m.log2 + q.natAbs + 1) (min q 0)
where
  go : Nat → Int → Int
    | 0, e => e
    | fuel + 1, e => if 10 ≤ floorOnGrid m q e then go fuel (e + 1) else e

/-- The decimals on the grid of step `10 ^ e` that lie next to `m * 2 ^ q`, below and
above, and that round to it; the nearer one, and the upper one on a tie. `least` says
that `m` is the least significand of its binade. -/
def onGrid? (m : Nat) (q : Int) (least : Bool) (e : Int) : Option Nat :=
  let below := floorOnGrid m q e
  let above := below + 1
  let lowEnd := if least then 4 * m - 1 else 4 * m - 2
  let holdsBelow := match compareBinary lowEnd (q - 2) below e with
    | .lt => true
    | .eq => m % 2 == 0
    | .gt => false
  let holdsAbove := match compareBinary (4 * m + 2) (q - 2) above e with
    | .gt => true
    | .eq => m % 2 == 0
    | .lt => false
  match holdsBelow, holdsAbove with
  | true, true =>
    -- Twice the number against the sum of its neighbours.
    if compareBinary (2 * m) q (below + above) e = .lt then some below else some above
  | true, false => some below
  | false, true => some above
  | false, false => none

/-- A decimal with the fewest digits that rounds to `m * 2 ^ q`. Seventeen digits
suffice for significands of up to 53 bits. -/
def shortest (m : Nat) (q : Int) (least : Bool) : Scientific :=
  go 17 (leadingExponent m q)
where
  go : Nat → Int → Scientific
    | 0, e => ⟨floorOnGrid m q e, e⟩
    | fuel + 1, e =>
      match onGrid? m q least e with
      | some d => ⟨d, e⟩
      | none => go fuel (e - 1)

/-- The decimal without an exponent: digits, then zeros up to the point, or a point
with no zero at the end of the fraction. -/
def positional (x : Scientific) : String :=
  if 0 ≤ x.exponent then
    toString (x.digits * tenTo x.exponent)
  else
    let places := (-x.exponent).toNat
    let whole := x.digits / tenTo places
    let fraction := (toString (x.digits % tenTo places)).toList
    let padded := List.replicate (places - fraction.length) '0' ++ fraction
    let trimmed := (padded.reverse.dropWhile (· == '0')).reverse
    if trimmed.isEmpty then toString whole
    else toString whole ++ "." ++ String.ofList trimmed

end Scientific

end SceneCulling.Decimal
