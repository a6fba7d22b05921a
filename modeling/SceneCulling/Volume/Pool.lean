import SceneCulling.Volume.Basic
import SceneCulling.Diagnostics.Monitor

/-!
# Scratch volumes

A traversal needs many volumes for a short time. A pool hands them out one after another
and takes all of them back at once. It keeps the storage, so it only ever grows, and a
volume that is handed out again is fresh.
-/

namespace SceneCulling

/-- Storage for volumes, of which the first `live` are handed out. -/
structure VolumePool (K : Type) where
  volumes : Array (Volume K) := #[]
  live : Nat := 0

namespace VolumePool

variable {K : Type} [Scalar K]

/-- A pool with room for the given number of volumes. The room saves growth and shows
nowhere else, so no more than a thousand places are reserved ahead. -/
def withCapacity (capacity : Nat) : VolumePool K :=
  ⟨Array.emptyWithCapacity (min capacity 1000), 0⟩

/-- A pool with the room that the settings ask for. -/
def new (settings : Settings) : VolumePool K := withCapacity settings.poolCapacity

/-- Hands out the given volume in the next slot. -/
def allocateCopy (pool : VolumePool K) (v : Volume K) : Nat × VolumePool K :=
  let volumes :=
    if pool.live < pool.volumes.size then pool.volumes.setIfInBounds pool.live v
    else pool.volumes.push v
  (pool.live, ⟨volumes, pool.live + 1⟩)

/-- Hands out an empty volume in the space of a node. -/
def allocate (pool : VolumePool K) (reference : Option NodeKey) : Nat × VolumePool K :=
  pool.allocateCopy (.new reference)

/-- The volume in a slot that is handed out. -/
def get? (pool : VolumePool K) (slot : Nat) : Option (Volume K) :=
  if slot < pool.live then pool.volumes[slot]? else none

/-- Overwrites the volume in a slot that is handed out. -/
def set (pool : VolumePool K) (slot : Nat) (v : Volume K) : VolumePool K :=
  if slot < pool.live then { pool with volumes := pool.volumes.setIfInBounds slot v } else pool

/-- Takes all volumes back. -/
def release (pool : VolumePool K) : VolumePool K := { pool with live := 0 }

def isEmpty (pool : VolumePool K) : Bool := pool.live == 0

/-- The greatest number of volumes that were handed out at once. -/
def highWater (pool : VolumePool K) : Nat := pool.volumes.size

end VolumePool

end SceneCulling
