import SceneCulling.Geometry.Matrix

/-!
# Side planes of a projection

A plane is given by one of its points and a normal that points to its visible side. A projection
maps the visible part of eye space to the square from -1 to 1. Each side of the square, taken back
to eye space, spans a plane. There is no plane in front and none behind: nothing is dropped for its
depth.
-/

namespace SceneCulling

structure Plane (K : Type) where
  /-- Any point on the plane. -/
  origin : Vec3 K
  /-- Points to the visible side; its length scales all distances. -/
  normal : Vec3 K
deriving BEq, ReflBEq, LawfulBEq

/-- The four planes at the sides of a view. -/
structure SidePlanes (K : Type) where
  left : Plane K
  right : Plane K
  bottom : Plane K
  top : Plane K
deriving BEq, ReflBEq, LawfulBEq

variable {K : Type} [Scalar K]

/-- The distance of a point times the length of the normal, negative outside. -/
def Plane.signedDistance (plane : Plane K) (p : Vec3 K) : K :=
  plane.normal.dot (p - plane.origin)

/-- The planes in the order in which they are tested. -/
def SidePlanes.toList (planes : SidePlanes K) : List (Plane K) :=
  [planes.left, planes.right, planes.bottom, planes.top]

namespace SidePlanes

variable [Approximation K]

/-- The plane through three points, oriented so that `inner` is not on its negative side.
The normal is that of the turn from the second to the third point, seen from the first. -/
def through (a b c inner : Vec3 K) : Plane K :=
  let normal := ((b - a).cross (c - a)).normalize
  ⟨a, if normal.dot (inner - a) < 0 then -normal else normal⟩

/-- The planes at the sides of a projection. The corners of the square are taken back at
two depths, which both lie in the range of either depth convention. -/
def ofProjection (projection : Mat4 K) : SidePlanes K :=
  let inverse := projection.inverse
  let near (x y : K) : Vec3 K := inverse.applyProjective ⟨x, y, 0⟩
  let far (x y : K) : Vec3 K := inverse.applyProjective ⟨x, y, 1 / 2⟩
  let side (ax ay bx by' : K) : Plane K :=
    through (near ax ay) (near bx by') (far ax ay) (near 0 0)
  { left := side (-1) (-1) (-1) 1
    right := side 1 1 1 (-1)
    bottom := side 1 (-1) (-1) (-1)
    top := side (-1) 1 1 1 }

end SidePlanes

end SceneCulling
