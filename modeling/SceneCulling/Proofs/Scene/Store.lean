import Mathlib.Data.List.Nodup
import Mathlib.Data.List.Perm.Subperm
import SceneCulling.KeyStore

/-!
# Stores by their look-up

What a store answers after a value was taken, changed or removed. A new key needs a sound
list of free slots: each is listed once and holds nothing. No operation breaks that, and so
the key of a removed value stays without value, also when its slot is used again. The version
of a slot only grows, and so no key is issued twice.
-/

namespace SceneCulling.KeyStore

variable {α : Type} {store : KeyStore α} {key other : NodeKey} {a : α}

/-- The free slots are listed once each and hold nothing. -/
structure Sound (store : KeyStore α) : Prop where
  nodup : store.free.Nodup
  vacant : ∀ position ∈ store.free, ∃ version, store.slots[position]? = some ⟨version, none⟩

theorem sound_empty : (KeyStore.empty : KeyStore α).Sound :=
  ⟨List.nodup_nil, fun _ h => absurd h List.not_mem_nil⟩

theorem position?_eq_some {position : Nat} :
    position? key = some position ↔ key.slot = position + 1 := by
  obtain ⟨slot, version⟩ := key
  cases slot <;> simp [position?]

/-- A value is found in the slot of its key, under the version of its key. -/
theorem get?_eq_some : store.get? key = some a ↔
    ∃ position, position? key = some position ∧
      store.slots[position]? = some ⟨key.version, some a⟩ := by
  cases hp : position? key with
  | none => simp [get?, hp]
  | some position =>
      cases hs : store.slots[position]? with
      | none => simp [get?, hp, hs]
      | some slot =>
          obtain ⟨version, value⟩ := slot
          by_cases hv : version = key.version <;> simp [get?, hp, hs, hv]

theorem slot_of_get? {position : Nat} (hp : position? key = some position)
    (hk : store.get? key = some a) : store.slots[position]? = some ⟨key.version, some a⟩ := by
  obtain ⟨position', hp', hs⟩ := get?_eq_some.mp hk
  obtain rfl : position = position' := Option.some.inj (hp.symm.trans hp')
  exact hs

theorem exists_slot_of_get? (h : store.get? key = some a) :
    ∃ slot ∈ store.slots, slot.value = some a := by
  obtain ⟨position, -, hs⟩ := get?_eq_some.mp h
  exact ⟨_, Array.mem_of_getElem? hs, rfl⟩

/-- Two keys with values in one slot are the same key. -/
theorem eq_of_slot {b : α} (ha : store.get? key = some a) (hb : store.get? other = some b)
    (hslot : key.slot = other.slot) : key = other := by
  obtain ⟨position, hp, hs⟩ := get?_eq_some.mp ha
  obtain ⟨position', hp', hs'⟩ := get?_eq_some.mp hb
  rw [position?_eq_some] at hp hp'
  obtain rfl : position = position' := by omega
  have hversion : key.version = other.version := by
    rw [hs] at hs'
    simp at hs'
    exact hs'.1
  obtain ⟨slot, version⟩ := key
  obtain ⟨slot', version'⟩ := other
  simp_all

/-- The slot of a value is one of the slots. -/
theorem slot_bounds (h : store.get? key = some a) :
    0 < key.slot ∧ key.slot ≤ store.slots.size := by
  obtain ⟨position, hp, hs⟩ := get?_eq_some.mp h
  rw [position?_eq_some] at hp
  obtain ⟨hlt, -⟩ := Array.getElem?_eq_some_iff.mp hs
  omega

/-- There are no more keys with values than slots. -/
theorem length_le_of_nodup {keys : List NodeKey} (hnodup : keys.Nodup)
    (hlive : ∀ key ∈ keys, ∃ a, store.get? key = some a) : keys.length ≤ store.slots.size := by
  have hslots : (keys.map (·.slot)).Nodup := by
    refine hnodup.map_on fun x hx y hy hxy => ?_
    obtain ⟨a, ha⟩ := hlive x hx
    obtain ⟨b, hb⟩ := hlive y hy
    exact eq_of_slot ha hb hxy
  have hsub : keys.map (·.slot) ⊆ List.range' 1 store.slots.size := by
    intro slot hslot
    obtain ⟨key, hkey, rfl⟩ := List.mem_map.mp hslot
    obtain ⟨a, ha⟩ := hlive key hkey
    obtain ⟨hpos, hle⟩ := slot_bounds ha
    exact List.mem_range'_1.mpr ⟨hpos, by omega⟩
  simpa using (List.subperm_of_subset hslots hsub).length_le

/-! ## Writing a slot -/

/-- A written slot answers for its position, all others answer as before. -/
theorem get?_write (store : KeyStore α) (free : List Nat) {position : Nat} (slot : Slot α)
    (hlt : position < store.slots.size) (key : NodeKey) :
    (⟨store.slots.setIfInBounds position slot, free⟩ : KeyStore α).get? key =
      if key.slot = position + 1 then if slot.version = key.version then slot.value else none
      else store.get? key := by
  cases hp : position? key with
  | none =>
      have hne : key.slot ≠ position + 1 := by
        intro h
        rw [position?_eq_some.mpr h] at hp
        cases hp
      rw [if_neg hne]
      simp [get?, hp]
  | some q =>
      have hq := position?_eq_some.mp hp
      by_cases h : position = q
      · subst h
        rw [if_pos hq]
        simp [get?, hp, hlt]
      · rw [if_neg (by omega)]
        simp [get?, hp, h]

/-- The slot behind the last one answers for a new position. -/
theorem get?_push (store : KeyStore α) (free : List Nat) (slot : Slot α) (key : NodeKey) :
    (⟨store.slots.push slot, free⟩ : KeyStore α).get? key =
      if key.slot = store.slots.size + 1 then
        if slot.version = key.version then slot.value else none
      else store.get? key := by
  cases hp : position? key with
  | none =>
      have hne : key.slot ≠ store.slots.size + 1 := by
        intro h
        rw [position?_eq_some.mpr h] at hp
        cases hp
      rw [if_neg hne]
      simp [get?, hp]
  | some q =>
      have hq := position?_eq_some.mp hp
      by_cases h : q = store.slots.size
      · subst h
        rw [if_pos hq]
        simp [get?, hp]
      · rw [if_neg (by omega)]
        simp [get?, hp, Array.getElem?_push, h]

/-- Apart from a key with a value, no key of its slot has one. -/
theorem get?_eq_none_of_slot (h : store.get? key = some a) (hne : other ≠ key)
    (hslot : other.slot = key.slot) : store.get? other = none := by
  cases ho : store.get? other with
  | none => rfl
  | some b => exact absurd (eq_of_slot ho h hslot) hne

theorem version_ne (hslot : other.slot = key.slot) (hne : other ≠ key) :
    key.version ≠ other.version := by
  obtain ⟨slot, version⟩ := key
  obtain ⟨slot', version'⟩ := other
  intro h
  simp_all

/-! ## The operations -/

theorem get?_modify (store : KeyStore α) (key other : NodeKey) (f : α → α) :
    (store.modify key f).get? other =
      if other = key then (store.get? key).map f else store.get? other := by
  cases hk : store.get? key with
  | none =>
      have hsame : store.modify key f = store := by
        rw [modify]
        split <;> simp_all
      rw [hsame]
      by_cases h : other = key <;> simp [h, hk]
  | some a =>
      obtain ⟨position, hp, hs⟩ := get?_eq_some.mp hk
      obtain ⟨hlt, -⟩ := Array.getElem?_eq_some_iff.mp hs
      have hslot := position?_eq_some.mp hp
      simp only [modify, hp, hk]
      rw [get?_write store store.free _ hlt other]
      by_cases h : other = key
      · subst h
        simp [hslot]
      · by_cases hsame : other.slot = position + 1
        · rw [if_pos hsame, if_neg h, if_neg (version_ne (hsame.trans hslot.symm) h),
            get?_eq_none_of_slot hk h (hsame.trans hslot.symm)]
        · rw [if_neg hsame, if_neg h]

theorem get?_erase (store : KeyStore α) (key other : NodeKey) :
    (store.erase key).get? other = if other = key then none else store.get? other := by
  cases hk : store.get? key with
  | none =>
      have hsame : store.erase key = store := by
        rw [erase]
        split <;> simp_all
      rw [hsame]
      by_cases h : other = key <;> simp [h, hk]
  | some a =>
      obtain ⟨position, hp, hs⟩ := get?_eq_some.mp hk
      obtain ⟨hlt, -⟩ := Array.getElem?_eq_some_iff.mp hs
      have hslot := position?_eq_some.mp hp
      simp only [erase, hp, hk]
      rw [get?_write store _ _ hlt other]
      by_cases h : other = key
      · subst h
        simp [hslot]
      · by_cases hsame : other.slot = position + 1
        · simp [hsame, h, get?_eq_none_of_slot hk h (hsame.trans hslot.symm)]
        · simp [hsame, h]

/-- No key finds a value behind the last slot. -/
theorem get?_beyond (hslot : store.slots.size < key.slot) : store.get? key = none := by
  cases hk : store.get? key with
  | none => rfl
  | some a => exact absurd (slot_bounds hk).2 (by omega)

/-- No key finds a value in a slot that holds none. -/
theorem get?_vacant {position version : Nat}
    (hvacant : store.slots[position]? = some ⟨version, none⟩) (hslot : key.slot = position + 1) :
    store.get? key = none := by
  simp [get?, position?_eq_some.mpr hslot, hvacant]

/-- The issued key finds the value that was taken, all others answer as before. -/
theorem get?_insert (h : store.Sound) (a : α) (key : NodeKey) :
    (store.insert a).2.get? key =
      if key = (store.insert a).1 then some a else store.get? key := by
  cases hfree : store.free with
  | nil =>
      have hinsert : store.insert a =
          (⟨store.slots.size + 1, 1⟩, ⟨store.slots.push ⟨1, some a⟩, []⟩) := by
        simp [insert, hfree]
      rw [hinsert, get?_push]
      by_cases hslot : key.slot = store.slots.size + 1
      · have hnone : store.get? key = none := get?_beyond (by omega)
        rw [if_pos hslot, hnone]
        obtain ⟨slot, version⟩ := key
        simp only at hslot
        simp [hslot, eq_comm]
      · rw [if_neg hslot, if_neg]
        rintro rfl
        exact hslot rfl
  | cons position free =>
      obtain ⟨version, hvacant⟩ := h.vacant position (by simp [hfree])
      obtain ⟨hlt, -⟩ := Array.getElem?_eq_some_iff.mp hvacant
      have hinsert : store.insert a = (⟨position + 1, version + 1⟩,
          ⟨store.slots.setIfInBounds position ⟨version + 1, some a⟩, free⟩) := by
        simp [insert, hfree, hvacant]
      rw [hinsert, get?_write store free _ hlt]
      by_cases hslot : key.slot = position + 1
      · rw [if_pos hslot, get?_vacant hvacant hslot]
        obtain ⟨slot, version'⟩ := key
        simp only at hslot
        simp [hslot, eq_comm]
      · rw [if_neg hslot, if_neg]
        rintro rfl
        exact hslot rfl

/-- The issued key had no value before. -/
theorem get?_issued (h : store.Sound) (a : α) : store.get? (store.insert a).1 = none := by
  cases hfree : store.free with
  | nil => exact get?_beyond (by simp [insert, hfree])
  | cons position free =>
      obtain ⟨version, hvacant⟩ := h.vacant position (by simp [hfree])
      exact get?_vacant hvacant (by simp [insert, hfree])

/-! ## Soundness of the free slots -/

/-- Writing a slot that is not free leaves the free slots as they are. -/
private theorem Sound.write (h : store.Sound) {position : Nat} (slot : Slot α)
    (hnot : position ∉ store.free) :
    (⟨store.slots.setIfInBounds position slot, store.free⟩ : KeyStore α).Sound := by
  refine ⟨h.nodup, fun q hq => ?_⟩
  obtain ⟨version, hvacant⟩ := h.vacant q hq
  have hne : position ≠ q := by
    rintro rfl
    exact hnot hq
  exact ⟨version, by simpa [hne] using hvacant⟩

/-- The slot of a value is not free. -/
theorem Sound.not_mem_free (h : store.Sound) (hk : store.get? key = some a) {position : Nat}
    (hp : position? key = some position) : position ∉ store.free := by
  intro hmem
  obtain ⟨version, hvacant⟩ := h.vacant position hmem
  rw [get?_vacant hvacant (position?_eq_some.mp hp)] at hk
  cases hk

theorem Sound.modify (h : store.Sound) (key : NodeKey) (f : α → α) :
    (store.modify key f).Sound := by
  rw [KeyStore.modify]
  split
  · next position a hp hk => exact h.write _ (h.not_mem_free hk hp)
  · exact h

theorem Sound.erase (h : store.Sound) (key : NodeKey) : (store.erase key).Sound := by
  rw [KeyStore.erase]
  split
  · next position a hp hk =>
      have hnot := h.not_mem_free hk hp
      obtain ⟨hlt, -⟩ := Array.getElem?_eq_some_iff.mp (slot_of_get? hp hk)
      refine ⟨List.nodup_cons.mpr ⟨hnot, h.nodup⟩, fun q hq => ?_⟩
      cases hq with
      | head => exact ⟨key.version + 1, by simp [hlt]⟩
      | tail _ hq => exact (h.write _ hnot).vacant q hq
  · exact h

theorem Sound.insert (h : store.Sound) (a : α) : (store.insert a).2.Sound := by
  cases hfree : store.free with
  | nil =>
      have hrest : (store.insert a).2.free = [] := by simp [KeyStore.insert, hfree]
      exact ⟨by simp [hrest], fun q hq => by simp [hrest] at hq⟩
  | cons position free =>
      have hnodup : (position :: free).Nodup := hfree ▸ h.nodup
      obtain ⟨hnot, hrest⟩ := List.nodup_cons.mp hnodup
      have hfewer : (⟨store.slots, free⟩ : KeyStore α).Sound :=
        ⟨hrest, fun q hq => h.vacant q (by simp [hfree, hq])⟩
      simp only [KeyStore.insert, hfree]
      exact hfewer.write _ hnot

/-! ## The number of values -/

/-- A written slot counts by its new value in place of the old one. -/
theorem count_write (store : KeyStore α) (free : List Nat) {position : Nat} {old : Slot α}
    (hold : store.slots[position]? = some old) (slot : Slot α) :
    (⟨store.slots.setIfInBounds position slot, free⟩ : KeyStore α).count +
        (if old.value.isSome then 1 else 0) =
      store.count + if slot.value.isSome then 1 else 0 := by
  obtain ⟨hlt, rfl⟩ := Array.getElem?_eq_some_iff.mp hold
  have hcounted : (if store.slots[position].value.isSome then 1 else 0) ≤ store.count := by
    simpa [count] using
      Array.boole_getElem_le_countP (p := fun slot : Slot α => slot.value.isSome) hlt
  have hwritten : (⟨store.slots.setIfInBounds position slot, free⟩ : KeyStore α).count =
      (store.count - if store.slots[position].value.isSome then 1 else 0) +
        if slot.value.isSome then 1 else 0 := by
    rw [count, Array.setIfInBounds_def, dif_pos hlt, Array.countP_set]
    rfl
  omega

theorem count_insert (h : store.Sound) (a : α) : (store.insert a).2.count = store.count + 1 := by
  cases hfree : store.free with
  | nil => simp [insert, hfree, count]
  | cons position free =>
      obtain ⟨version, hvacant⟩ := h.vacant position (by simp [hfree])
      simpa [insert, hfree, hvacant] using
        count_write store free hvacant ⟨version + 1, some a⟩

theorem count_modify (store : KeyStore α) (key : NodeKey) (f : α → α) :
    (store.modify key f).count = store.count := by
  rw [modify]
  split
  · next position a hp hk =>
      simpa using count_write store store.free (slot_of_get? hp hk) ⟨key.version, some (f a)⟩
  · rfl

theorem count_erase (hk : store.contains key = true) :
    (store.erase key).count + 1 = store.count := by
  obtain ⟨a, ha⟩ := Option.isSome_iff_exists.mp hk
  obtain ⟨position, hp, hs⟩ := get?_eq_some.mp ha
  simpa [erase, hp, ha] using
    count_write store (position :: store.free) hs ⟨key.version + 1, none⟩

/-! ## Keys are issued once -/

/-- The later store has all slots of the earlier one, none with a lower version. -/
def Precedes (store later : KeyStore α) : Prop :=
  ∀ (position : Nat) (slot : Slot α), store.slots[position]? = some slot →
    ∃ slot' : Slot α, later.slots[position]? = some slot' ∧ slot.version ≤ slot'.version

namespace Precedes

theorem refl (store : KeyStore α) : store.Precedes store :=
  fun _ slot h => ⟨slot, h, Nat.le_refl _⟩

theorem trans {later last : KeyStore α} (h : store.Precedes later)
    (h' : later.Precedes last) : store.Precedes last := by
  intro position slot hslot
  obtain ⟨slot', hslot', hle⟩ := h position slot hslot
  obtain ⟨slot'', hslot'', hle'⟩ := h' position slot' hslot'
  exact ⟨slot'', hslot'', Nat.le_trans hle hle'⟩

private theorem write (store : KeyStore α) (free : List Nat) (position : Nat) (slot : Slot α)
    (hversion : ∀ old, store.slots[position]? = some old → old.version ≤ slot.version) :
    store.Precedes ⟨store.slots.setIfInBounds position slot, free⟩ := by
  intro q old hold
  obtain ⟨hlt, -⟩ := Array.getElem?_eq_some_iff.mp hold
  by_cases hq : position = q
  · subst hq
    exact ⟨slot, by simp [hlt], hversion old hold⟩
  · exact ⟨old, by simpa [hq] using hold, Nat.le_refl _⟩

theorem insert (store : KeyStore α) (a : α) : store.Precedes (store.insert a).2 := by
  rw [KeyStore.insert]
  split
  · refine write store _ _ _ fun old hold => ?_
    simp [hold]
  · intro q old hold
    obtain ⟨hlt, -⟩ := Array.getElem?_eq_some_iff.mp hold
    exact ⟨old, by simpa [Array.getElem?_push, Nat.ne_of_lt hlt] using hold, Nat.le_refl _⟩

theorem modify (store : KeyStore α) (key : NodeKey) (f : α → α) :
    store.Precedes (store.modify key f) := by
  rw [KeyStore.modify]
  split
  · next position a hp hk =>
      refine write store _ _ _ fun old hold => ?_
      obtain rfl := Option.some.inj ((slot_of_get? hp hk).symm.trans hold)
      exact Nat.le_refl _
  · exact refl store

theorem erase (store : KeyStore α) (key : NodeKey) : store.Precedes (store.erase key) := by
  rw [KeyStore.erase]
  split
  · next position a hp hk =>
      refine write store _ _ _ fun old hold => ?_
      obtain rfl := Option.some.inj ((slot_of_get? hp hk).symm.trans hold)
      exact Nat.le_succ _
  · exact refl store

/-- An issued key has a value in no earlier store: its slot or its version is new. -/
theorem contains_issued {later : KeyStore α} (h : store.Precedes later) (a : α) :
    store.contains (later.insert a).1 = false := by
  cases hk : store.get? (later.insert a).1 with
  | none => simp [contains, hk]
  | some b =>
      obtain ⟨position, hp, hs⟩ := get?_eq_some.mp hk
      obtain ⟨slot, hslot, hle⟩ := h position _ hs
      rw [position?_eq_some] at hp
      cases hfree : later.free with
      | nil =>
          obtain ⟨hlt, -⟩ := Array.getElem?_eq_some_iff.mp hslot
          simp only [KeyStore.insert, hfree] at hp
          omega
      | cons position' free =>
          simp only [KeyStore.insert, hfree] at hp hle
          obtain rfl : position' = position := by omega
          simp only [hslot, Option.elim_some] at hle
          omega

end Precedes

end SceneCulling.KeyStore
