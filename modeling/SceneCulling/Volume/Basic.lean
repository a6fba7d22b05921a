import SceneCulling.Geometry.Vector
import SceneCulling.KeyStore

/-!
# Volumes

A volume is the box that a node of the scene may paint in. It has eight vertices, four
on its front face and four on its back face. While the edges follow the axes, four key
vertices determine the box: the top left vertex of the front face, its neighbours to the
right and below, and the one behind it. The others are derived when they are needed.

Four flags say which vertices can be trusted. An empty volume has a position only. A
flat volume has no depth, and its back face is never read. An aligned volume has its
edges along the axes. A complete volume has its derived vertices up to date.
-/

namespace SceneCulling

/-- The vertices of a face, seen from the front. The y axis points down. -/
structure Face (K : Type) where
  topLeft : Vec3 K
  topRight : Vec3 K
  bottomRight : Vec3 K
  bottomLeft : Vec3 K
deriving BEq, ReflBEq, LawfulBEq

namespace Face

variable {K : Type}

/-- The vertices in the order around the face. -/
def toList (face : Face K) : List (Vec3 K) :=
  [face.topLeft, face.topRight, face.bottomRight, face.bottomLeft]

def map (f : Vec3 K → Vec3 K) (face : Face K) : Face K :=
  ⟨f face.topLeft, f face.topRight, f face.bottomRight, f face.bottomLeft⟩

@[simp] theorem toList_map (f : Vec3 K → Vec3 K) (face : Face K) :
    (face.map f).toList = face.toList.map f := rfl

/-- All vertices at one point. -/
def collapsed (p : Vec3 K) : Face K := ⟨p, p, p, p⟩

end Face

/-- What is known about the shape and the vertices of a volume. -/
structure VolumeFlags where
  /-- The volume has a position but no extent. -/
  empty : Bool
  /-- The edges follow the axes. -/
  aligned : Bool
  /-- The derived vertices are up to date. -/
  complete : Bool
  /-- The depth is zero, and the back face is not read. -/
  flat : Bool
deriving DecidableEq, Repr

namespace VolumeFlags

/-- The flags and their letters, from the lowest bit on. -/
def letters (flags : VolumeFlags) : List (Char × Bool) :=
  [('E', flags.empty), ('A', flags.aligned), ('C', flags.complete), ('F', flags.flat)]

/-- The letters of the flags that are set. -/
def text (flags : VolumeFlags) : String :=
  String.ofList (flags.letters.filterMap fun (letter, set) => if set then some letter else none)

/-- The flags as a binary number. -/
def bits (flags : VolumeFlags) : Nat :=
  flags.letters.foldr (fun (_, set) rest => set.toNat + 2 * rest) 0

end VolumeFlags

/-- The box that a node may paint in. -/
structure Volume (K : Type) where
  front : Face K
  back : Face K
  flags : VolumeFlags
  /-- The node in whose space the vertices are expressed; none in eye space. -/
  reference : Option NodeKey
deriving BEq, ReflBEq, LawfulBEq

namespace Volume

variable {K : Type} [Scalar K]

/-- The empty volume at the origin of a node's space. -/
def new (reference : Option NodeKey) : Volume K where
  front := .collapsed Vec3.zero
  back := .collapsed Vec3.zero
  flags := ⟨true, true, true, true⟩
  reference := reference

/-- The vertex from which the extents are measured. -/
def origin (v : Volume K) : Vec3 K := v.front.topLeft

/-- Re-labels the space of the vertices without moving them. -/
def withReference (v : Volume K) (reference : Option NodeKey) : Volume K := { v with reference }

/-- All stored vertices, front face first. -/
def stored (v : Volume K) : List (Vec3 K) := v.front.toList ++ v.back.toList

/-- The vertices that count: the position of an empty volume, the front face of a flat
one, and both faces of a solid one. -/
def vertices (v : Volume K) : List (Vec3 K) :=
  if v.flags.empty then [v.front.topLeft]
  else if v.flags.flat then v.front.toList
  else v.stored

/-- Derives the missing vertices from the key vertices. Nothing is done for a volume
that is complete or empty, and the back face of a flat volume is left alone. -/
def complete (v : Volume K) : Volume K :=
  if v.flags.complete || v.flags.empty then v
  else
    let a := v.front.topLeft
    let right := v.front.topRight.x
    let bottom := v.front.bottomLeft.y
    let rear := v.back.topLeft.z
    { v with
      front.bottomRight := ⟨right, bottom, a.z⟩
      back := if v.flags.flat then v.back else
        { v.back with
          topRight := ⟨right, a.y, rear⟩
          bottomRight := ⟨right, bottom, rear⟩
          bottomLeft := ⟨a.x, bottom, rear⟩ }
      flags.complete := true }

end Volume

end SceneCulling
