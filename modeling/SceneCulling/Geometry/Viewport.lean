import SceneCulling.Geometry.Matrix

/-!
# Rectangles and viewports

Rectangles of the window, and viewports. A viewport places the square from -1 to 1 of a projection
on a rectangle of the window. The window's y axis points down, the projection's points up.
-/

namespace SceneCulling

/-- The rectangle from the corner `(left, top)` to the corner `(right, bottom)`. -/
structure Rect (K : Type) where
  left : K
  top : K
  right : K
  bottom : K
deriving BEq, ReflBEq, LawfulBEq

namespace Rect

variable {K : Type} [Scalar K]

def width (r : Rect K) : K := r.right - r.left

def height (r : Rect K) : K := r.bottom - r.top

def area (r : Rect K) : K := r.width * r.height

/-- The rectangle without extent at the corner of the window. -/
def zero : Rect K := ⟨0, 0, 0, 0⟩

/-- The rectangle that holds a single point. -/
def point (x y : K) : Rect K := ⟨x, y, x, y⟩

/-- The least rectangle around a rectangle and a point. -/
def extend (r : Rect K) (x y : K) : Rect K :=
  ⟨Scalar.lesser r.left x, Scalar.lesser r.top y, Scalar.greater r.right x,
    Scalar.greater r.bottom y⟩

/-- The least rectangle of whole pixels around a rectangle. -/
def toPixels (r : Rect K) : Rect K :=
  ⟨Scalar.floor r.left, Scalar.floor r.top, Scalar.ceil r.right, Scalar.ceil r.bottom⟩

end Rect

/-- A rectangle of the window in pixels, with a range of depths. -/
structure Viewport (K : Type) where
  x : K
  y : K
  width : K
  height : K
  nearDepth : K
  farDepth : K
deriving BEq, ReflBEq, LawfulBEq

namespace Viewport

variable {K : Type} [Scalar K]

/-- The rectangle with depths from zero to one. -/
def ofRect (x y width height : K) : Viewport K := ⟨x, y, width, height, 0, 1⟩

/-- The window position of a point of clip space: divide by the weight, unless it is
zero, and scale to the viewport. -/
def place (view : Viewport K) (clip : Vec4 K) : Vec3 K :=
  let ndc := if clip.w != 0 then clip.xyz.divide clip.w else clip.xyz
  ⟨view.x + (ndc.x + 1) * (1 / 2) * view.width,
    view.y + view.height - (ndc.y + 1) * (1 / 2) * view.height,
    view.nearDepth + (ndc.z + 1) * (1 / 2) * (view.farDepth - view.nearDepth)⟩

/-- The window position of a point, where `m` maps its space to clip space. -/
def windowPoint (view : Viewport K) (m : Mat4 K) (p : Vec3 K) : Vec3 K :=
  view.place (m.apply (p.withWeight 1))

end Viewport

end SceneCulling
