/-!
# Stores with versioned keys

A key names a node by a slot and the version of its content. A store issues a key for each value
that it takes. Removing a value frees its slot, and the slot freed last is the first one to be used
again. A slot holds a value while its version is odd; each removal and each new use raises the
version by one. Hence a key is issued at most once, and the key of a removed node never names
another one.
-/

namespace SceneCulling

/-! ## Keys -/

/-- The name of a node. Slots count from one. -/
structure NodeKey where
  slot : Nat
  version : Nat
deriving DecidableEq, Repr

namespace NodeKey

/-- A key that never names a node. -/
def null : NodeKey := ⟨0, 0⟩

/-- The text in which a key is shown. -/
def text (key : NodeKey) : String :=
  if key.slot = 0 then "NodeKey(null)"
  else "NodeKey(" ++ toString key.slot ++ "v" ++ toString key.version ++ ")"

instance : ToString NodeKey := ⟨text⟩

end NodeKey

/-! ## Stores -/

/-- A place in a store. -/
structure Slot (α : Type) where
  version : Nat
  value : Option α

/-- Values under the keys that were issued for them. -/
structure KeyStore (α : Type) where
  slots : Array (Slot α) := #[]
  /-- The free slots as positions in `slots`, the one freed last in front. -/
  free : List Nat := []

namespace KeyStore

variable {α : Type}

def empty : KeyStore α := {}

/-- The position of a key's slot. Slots count from one. -/
def position? (key : NodeKey) : Option Nat :=
  match key.slot with
  | 0 => none
  | position + 1 => some position

/-- The value under a key, if it was issued and not removed since. -/
def get? (store : KeyStore α) (key : NodeKey) : Option α := do
  let slot ← store.slots[← position? key]?
  if slot.version = key.version then slot.value else none

def contains (store : KeyStore α) (key : NodeKey) : Bool := (store.get? key).isSome

/-- The number of values. -/
def count (store : KeyStore α) : Nat := store.slots.countP (·.value.isSome)

/-- Takes a value and issues its key. -/
def insert (store : KeyStore α) (a : α) : NodeKey × KeyStore α :=
  match store.free with
  | position :: free =>
    let version := ((store.slots[position]?).elim 0 (·.version)) + 1
    (⟨position + 1, version⟩, ⟨store.slots.setIfInBounds position ⟨version, some a⟩, free⟩)
  | [] => (⟨store.slots.size + 1, 1⟩, ⟨store.slots.push ⟨1, some a⟩, []⟩)

/-- Changes the value under a key. A key without value changes nothing. -/
def modify (store : KeyStore α) (key : NodeKey) (f : α → α) : KeyStore α :=
  match position? key, store.get? key with
  | some position, some a =>
    { store with slots := store.slots.setIfInBounds position ⟨key.version, some (f a)⟩ }
  | _, _ => store

/-- Removes the value under a key and frees the slot. A key without value changes
nothing. -/
def erase (store : KeyStore α) (key : NodeKey) : KeyStore α :=
  match position? key, store.get? key with
  | some position, some _ =>
    ⟨store.slots.setIfInBounds position ⟨key.version + 1, none⟩, position :: store.free⟩
  | _, _ => store

end KeyStore

end SceneCulling
