import SceneCulling.Volume.Basic
import SceneCulling.Geometry.SidePlanes
import SceneCulling.Diagnostics.Edit

/-!
# Visibility

A volume is classified against the side planes of a view. It is out if a single plane
has all its vertices outside, and in if no plane has any. In doubt it counts as partly
visible, so that nothing visible is ever dropped.
-/

namespace SceneCulling

/-- How a volume lies to the side planes. -/
inductive Visibility where
  /-- No vertex is outside of any plane. -/
  | inside
  /-- All vertices are outside of one plane. -/
  | outside
  /-- Some vertices are outside of some plane, but not all of any. -/
  | partly
deriving DecidableEq, Repr

/-- The text in which a classification is shown. -/
def Visibility.text : Visibility → String
  | inside => "In"
  | outside => "Out"
  | partly => "Partial"

/-- Whether anything of the volume has to be painted. -/
def Visibility.isVisible (visibility : Visibility) : Bool := visibility != .outside

variable {K : Type} [Scalar K]

/-- How many of some points are outside of a plane. -/
def Plane.countOutside (plane : Plane K) (ps : List (Vec3 K)) : Nat :=
  ps.countP fun p => decide (plane.signedDistance p < 0)

/-- How the points of a shape lie to the side planes. -/
def SidePlanes.classify (planes : SidePlanes K) (ps : List (Vec3 K)) : Visibility :=
  if planes.toList.any fun plane => plane.countOutside ps == ps.length then .outside
  else if planes.toList.any fun plane => plane.countOutside ps != 0 then .partly
  else .inside

/-- How a volume lies to the side planes of a view. The volume has to be complete and in
the space of the planes, which is eye space. Any other volume counts as visible, with a
warning: a mistake then costs a needless painting and never a missing one. -/
def Volume.visibility (planes : SidePlanes K) (v : Volume K) : Logged Visibility :=
  if v.flags.empty then return .outside
  else if !v.flags.complete then do
    Logged.note .warn .volume "cull called on an incomplete volume; treating as visible"
    return .inside
  else match v.reference with
    | some node => do
      Logged.note .warn .volume
        ("cull called on a volume still in the local space of " ++ node.text ++
          "; treating as visible")
      return .inside
    | none => return planes.classify v.vertices

end SceneCulling
