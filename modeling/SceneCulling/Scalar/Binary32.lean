import SceneCulling.Scalar
import SceneCulling.Decimal.Shortest

/-!
# Single precision

Binary floating point of 32 bits as coordinates: each operation rounds once, to the
nearest number with ties to an even significand.
-/

namespace SceneCulling

namespace Binary32

/-- The fewest digits that read back as the same number, without an exponent. The sign
of zero is kept, and a missing number has no sign. -/
def text (x : Float32) : String :=
  let bits := x.toBits.toNat
  let fraction : Nat := bits % 0x800000
  let exponent : Nat := bits / 0x800000 % 0x100
  let sign := if bits / 0x80000000 = 1 then "-" else ""
  if exponent = 255 then
    if fraction = 0 then sign ++ "inf" else "NaN"
  else if exponent = 0 then
    if fraction = 0 then sign ++ "0"
    else sign ++ (Decimal.Scientific.shortest fraction (-149) false).positional
  else
    let least := fraction = 0 && exponent ≠ 1
    sign ++ (Decimal.Scientific.shortest (0x800000 + fraction) (exponent - 150) least).positional

/-- `lesser` and `greater` prefer a present number to a missing one. -/
def choose (left : Float32 → Float32 → Bool) (a b : Float32) : Float32 :=
  if a.isNaN then b else if b.isNaN || left a b then a else b

end Binary32

instance : Scalar Float32 where
  literal := inferInstance
  decLt := inferInstance
  decLe := inferInstance
  lesser := Binary32.choose (· < ·)
  greater := Binary32.choose (· > ·)
  floor := Float32.floor
  ceil := Float32.ceil
  isFinite := Float32.isFinite
  text := Binary32.text

instance : Approximation Float32 where
  sqrt := Float32.sqrt
  tan := Float32.tan
  -- The nearest number to 180 divides the nearest number to pi.
  degree := Float32.ofBits 0x3c8efa35

end SceneCulling
