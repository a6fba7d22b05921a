import SceneCulling.Geometry.Vector

/-!
# Matrices

Square matrices of order four, stored by columns, which act on homogeneous points from
the left. The order of the operations is fixed, because rounding makes it visible.
-/

namespace SceneCulling

/-- A transform of homogeneous points, by columns. -/
structure Mat4 (K : Type) where
  c0 : Vec4 K
  c1 : Vec4 K
  c2 : Vec4 K
  c3 : Vec4 K
deriving BEq, ReflBEq, LawfulBEq

namespace Mat4

variable {K : Type} [Scalar K]

def identity : Mat4 K := ⟨⟨1, 0, 0, 0⟩, ⟨0, 1, 0, 0⟩, ⟨0, 0, 1, 0⟩, ⟨0, 0, 0, 1⟩⟩

/-- Moves every point by a vector. -/
def shift (t : Vec3 K) : Mat4 K := ⟨⟨1, 0, 0, 0⟩, ⟨0, 1, 0, 0⟩, ⟨0, 0, 1, 0⟩, t.withWeight 1⟩

/-- Scales each coordinate by a factor of its own. -/
def scaling (s : Vec3 K) : Mat4 K := ⟨⟨s.x, 0, 0, 0⟩, ⟨0, s.y, 0, 0⟩, ⟨0, 0, s.z, 0⟩, ⟨0, 0, 0, 1⟩⟩

/-- The image of a homogeneous point. -/
def apply (m : Mat4 K) (v : Vec4 K) : Vec4 K :=
  m.c0.scale v.x + m.c1.scale v.y + m.c2.scale v.z + m.c3.scale v.w

/-- The product `a * b` does `b` first. -/
instance : Mul (Mat4 K) := ⟨fun a b => ⟨a.apply b.c0, a.apply b.c1, a.apply b.c2, a.apply b.c3⟩⟩

/-- The image of a point of space. An affine transform leaves the weight at one; any
other weight except zero divides the image. -/
def applyPoint (m : Mat4 K) (p : Vec3 K) : Vec3 K :=
  let image := m.apply (p.withWeight 1)
  if image.w != 1 && image.w != 0 then image.xyz.divide image.w else image.xyz

/-- The image of a point of space, divided by its weight even if that is zero. -/
def applyProjective (m : Mat4 K) (p : Vec3 K) : Vec3 K :=
  let image := m.c3 + (m.c2.scale p.z + (m.c1.scale p.y + m.c0.scale p.x))
  image.xyz.divide image.w

/-- The minors of the last three columns on two rows, given by their entries in the
columns 1, 2 and 3. -/
def minors (p1 p2 p3 q1 q2 q3 : K) : Vec4 K :=
  let last := p2 * q3 - p3 * q2
  ⟨last, last, p1 * q3 - p3 * q1, p1 * q2 - p2 * q1⟩

/-- The inverse by cofactors. A singular matrix divides by zero. -/
def inverse (m : Mat4 K) : Mat4 K :=
  let f0 := minors m.c1.z m.c2.z m.c3.z m.c1.w m.c2.w m.c3.w
  let f1 := minors m.c1.y m.c2.y m.c3.y m.c1.w m.c2.w m.c3.w
  let f2 := minors m.c1.y m.c2.y m.c3.y m.c1.z m.c2.z m.c3.z
  let f3 := minors m.c1.x m.c2.x m.c3.x m.c1.w m.c2.w m.c3.w
  let f4 := minors m.c1.x m.c2.x m.c3.x m.c1.z m.c2.z m.c3.z
  let f5 := minors m.c1.x m.c2.x m.c3.x m.c1.y m.c2.y m.c3.y
  let v0 : Vec4 K := ⟨m.c1.x, m.c0.x, m.c0.x, m.c0.x⟩
  let v1 : Vec4 K := ⟨m.c1.y, m.c0.y, m.c0.y, m.c0.y⟩
  let v2 : Vec4 K := ⟨m.c1.z, m.c0.z, m.c0.z, m.c0.z⟩
  let v3 : Vec4 K := ⟨m.c1.w, m.c0.w, m.c0.w, m.c0.w⟩
  let even : Vec4 K := ⟨1, -1, 1, -1⟩
  let odd : Vec4 K := ⟨-1, 1, -1, 1⟩
  let i0 := (v1 * f0 - v2 * f1 + v3 * f2) * even
  let i1 := (v0 * f0 - v2 * f3 + v3 * f4) * odd
  let i2 := (v0 * f1 - v1 * f3 + v3 * f5) * even
  let i3 := (v0 * f2 - v1 * f4 + v2 * f5) * odd
  let determinant := (m.c0.x * i0.x + m.c0.z * i2.x) + (m.c0.y * i1.x + m.c0.w * i3.x)
  let reciprocal := 1 / determinant
  ⟨i0.scale reciprocal, i1.scale reciprocal, i2.scale reciprocal, i3.scale reciprocal⟩

/-- The perspective projection of a right-handed eye space onto the depths from -1 to 1.
The vertical field of view is an angle in radians. -/
def perspective [Approximation K] (fovy aspect near far : K) : Mat4 K :=
  let reciprocal := 1 / (near - far)
  let t := 1 / Approximation.tan (1 / 2 * fovy)
  ⟨⟨t / aspect, 0, 0, 0⟩, ⟨0, t, 0, 0⟩, ⟨0, 0, (near + far) * reciprocal, -1⟩,
    ⟨0, 0, 2 * near * far * reciprocal, 0⟩⟩

/-- The last row is `0, 0, 0, 1`, so the weight of a point of space stays one. -/
def IsAffine (m : Mat4 K) : Prop :=
  m.c0.w = 0 ∧ m.c1.w = 0 ∧ m.c2.w = 0 ∧ m.c3.w = 1

end Mat4

end SceneCulling
