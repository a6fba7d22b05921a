import SceneCulling.Scalar

/-!
# Points and vectors

Triples and quadruples of coordinates with componentwise arithmetic. The order of the
additions in `dot`, `cross` and `normalize` is fixed, because rounding makes it visible.
-/

namespace SceneCulling

/-- A point or a vector of space. -/
structure Vec3 (K : Type) where
  x : K
  y : K
  z : K
deriving BEq, ReflBEq, LawfulBEq

/-- A point in homogeneous coordinates. -/
structure Vec4 (K : Type) where
  x : K
  y : K
  z : K
  w : K
deriving BEq, ReflBEq, LawfulBEq

variable {K : Type} [Scalar K]

namespace Vec3

instance : Add (Vec3 K) := ⟨fun a b => ⟨a.x + b.x, a.y + b.y, a.z + b.z⟩⟩

instance : Sub (Vec3 K) := ⟨fun a b => ⟨a.x - b.x, a.y - b.y, a.z - b.z⟩⟩

instance : Neg (Vec3 K) := ⟨fun a => ⟨-a.x, -a.y, -a.z⟩⟩

@[simp] theorem add_x (a b : Vec3 K) : (a + b).x = a.x + b.x := rfl
@[simp] theorem add_y (a b : Vec3 K) : (a + b).y = a.y + b.y := rfl
@[simp] theorem add_z (a b : Vec3 K) : (a + b).z = a.z + b.z := rfl
@[simp] theorem sub_x (a b : Vec3 K) : (a - b).x = a.x - b.x := rfl
@[simp] theorem sub_y (a b : Vec3 K) : (a - b).y = a.y - b.y := rfl
@[simp] theorem sub_z (a b : Vec3 K) : (a - b).z = a.z - b.z := rfl
@[simp] theorem neg_x (a : Vec3 K) : (-a).x = -a.x := rfl
@[simp] theorem neg_y (a : Vec3 K) : (-a).y = -a.y := rfl
@[simp] theorem neg_z (a : Vec3 K) : (-a).z = -a.z := rfl

def zero : Vec3 K := ⟨0, 0, 0⟩

def scale (a : Vec3 K) (k : K) : Vec3 K := ⟨a.x * k, a.y * k, a.z * k⟩

def divide (a : Vec3 K) (k : K) : Vec3 K := ⟨a.x / k, a.y / k, a.z / k⟩

def dot (a b : Vec3 K) : K := a.x * b.x + a.y * b.y + a.z * b.z

def cross (a b : Vec3 K) : Vec3 K :=
  ⟨a.y * b.z - b.y * a.z, a.z * b.x - b.z * a.x, a.x * b.y - b.x * a.y⟩

/-- The least coordinate of two points in each direction. -/
def lesser (a b : Vec3 K) : Vec3 K :=
  ⟨Scalar.lesser a.x b.x, Scalar.lesser a.y b.y, Scalar.lesser a.z b.z⟩

/-- The greatest coordinate of two points in each direction. -/
def greater (a b : Vec3 K) : Vec3 K :=
  ⟨Scalar.greater a.x b.x, Scalar.greater a.y b.y, Scalar.greater a.z b.z⟩

/-- The vector of length one in the same direction. A vector whose length has no
positive finite reciprocal, such as the zero vector, becomes zero. -/
def normalize [Approximation K] (a : Vec3 K) : Vec3 K :=
  let reciprocal := 1 / Approximation.sqrt (a.dot a)
  if Scalar.isFinite reciprocal && 0 < reciprocal then a.scale reciprocal else zero

/-- The point in homogeneous coordinates with the given weight. -/
def withWeight (a : Vec3 K) (w : K) : Vec4 K := ⟨a.x, a.y, a.z, w⟩

end Vec3

namespace Vec4

instance : Add (Vec4 K) := ⟨fun a b => ⟨a.x + b.x, a.y + b.y, a.z + b.z, a.w + b.w⟩⟩

instance : Sub (Vec4 K) := ⟨fun a b => ⟨a.x - b.x, a.y - b.y, a.z - b.z, a.w - b.w⟩⟩

/-- The componentwise product. -/
instance : Mul (Vec4 K) := ⟨fun a b => ⟨a.x * b.x, a.y * b.y, a.z * b.z, a.w * b.w⟩⟩

@[simp] theorem add_x (a b : Vec4 K) : (a + b).x = a.x + b.x := rfl
@[simp] theorem add_y (a b : Vec4 K) : (a + b).y = a.y + b.y := rfl
@[simp] theorem add_z (a b : Vec4 K) : (a + b).z = a.z + b.z := rfl
@[simp] theorem add_w (a b : Vec4 K) : (a + b).w = a.w + b.w := rfl
@[simp] theorem sub_x (a b : Vec4 K) : (a - b).x = a.x - b.x := rfl
@[simp] theorem sub_y (a b : Vec4 K) : (a - b).y = a.y - b.y := rfl
@[simp] theorem sub_z (a b : Vec4 K) : (a - b).z = a.z - b.z := rfl
@[simp] theorem sub_w (a b : Vec4 K) : (a - b).w = a.w - b.w := rfl
@[simp] theorem mul_x (a b : Vec4 K) : (a * b).x = a.x * b.x := rfl
@[simp] theorem mul_y (a b : Vec4 K) : (a * b).y = a.y * b.y := rfl
@[simp] theorem mul_z (a b : Vec4 K) : (a * b).z = a.z * b.z := rfl
@[simp] theorem mul_w (a b : Vec4 K) : (a * b).w = a.w * b.w := rfl

def scale (a : Vec4 K) (k : K) : Vec4 K := ⟨a.x * k, a.y * k, a.z * k, a.w * k⟩

/-- The first three components. -/
def xyz (a : Vec4 K) : Vec3 K := ⟨a.x, a.y, a.z⟩

end Vec4

end SceneCulling
