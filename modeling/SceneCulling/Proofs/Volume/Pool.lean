import Mathlib.Data.List.Basic
import Mathlib.Data.List.Induction
import Mathlib.Order.Bounds.Basic
import SceneCulling.Diagnostics.Edit
import SceneCulling.Volume.Pool

/-!
# Pools as lists

`VolumePool.contents` reads a pool as an ordinary list: the volumes of the slots that are
handed out, in the order of the slots. Every request has its effect on this list. Volumes of
earlier frames, which stay in the storage beyond the live slots, are not part of it, and no
request brings them back. The storage shows in a single number, the greatest length that the
list has had.
-/

namespace SceneCulling.VolumePool

variable {K : Type} {pool after later : VolumePool K} {count more : Nat}

/-- The volumes that are handed out. -/
def contents (pool : VolumePool K) : List (Volume K) := pool.volumes.toList.take pool.live

/-- Every slot that is handed out holds a volume. -/
def Sound (pool : VolumePool K) : Prop := pool.live ≤ pool.volumes.size

theorem sound_of_live_eq_zero (h : pool.live = 0) : pool.Sound := by
  rw [Sound, h]
  exact Nat.zero_le _

theorem get?_eq (pool : VolumePool K) (slot : Nat) : pool.get? slot = pool.contents[slot]? := by
  rw [get?, contents, List.getElem?_take, Array.getElem?_toList]

theorem Sound.length_contents (h : pool.Sound) : pool.contents.length = pool.live := by
  rw [contents, List.length_take, Array.length_toList]
  exact Nat.min_eq_left h

/-! ## Storage -/

/-- So many slots are handed out in addition, and the storage has grown to hold all of them. -/
structure Takes (pool after : VolumePool K) (count : Nat) : Prop where
  live : after.live = pool.live + count
  size : after.volumes.size = max pool.volumes.size (pool.live + count)

theorem Takes.sound (h : pool.Takes after count) : after.Sound := by
  rw [Sound, h.live, h.size]
  exact Nat.le_max_right _ _

theorem Takes.refl (h : pool.Sound) : pool.Takes pool 0 where
  live := rfl
  size := by rw [Nat.add_zero, Nat.max_eq_left h]

theorem Takes.trans (h : pool.Takes after count) (h' : after.Takes later more) :
    pool.Takes later (count + more) where
  live := by rw [h'.live, h.live, Nat.add_assoc]
  size := by
    rw [h'.size, h.size, h.live]
    omega

/-- Handing out a slot beyond the storage adds one place to it. -/
theorem takes_allocateCopy (h : pool.Sound) (v : Volume K) :
    pool.Takes (pool.allocateCopy v).2 1 where
  live := rfl
  size := by
    rw [Sound] at h
    simp only [allocateCopy]
    by_cases hroom : pool.live < pool.volumes.size
    · simp only [hroom, if_true, Array.size_setIfInBounds]
      omega
    · simp only [hroom, if_false, Array.size_push]
      omega

theorem live_set (pool : VolumePool K) (slot : Nat) (v : Volume K) :
    (pool.set slot v).live = pool.live := by
  by_cases hslot : slot < pool.live <;> simp [set, hslot]

theorem takes_set (h : pool.Sound) (slot : Nat) (v : Volume K) :
    pool.Takes (pool.set slot v) 0 where
  live := live_set pool slot v
  size := by
    have hsize : (pool.set slot v).volumes.size = pool.volumes.size := by
      by_cases hslot : slot < pool.live <;> simp [set, hslot]
    rw [hsize, Nat.add_zero, Nat.max_eq_left h]

theorem takes_allocate [Scalar K] (h : pool.Sound) (reference : Option NodeKey) :
    pool.Takes (pool.allocate reference).2 1 := takes_allocateCopy h _

theorem sound_allocate [Scalar K] (h : pool.Sound) (reference : Option NodeKey) :
    (pool.allocate reference).2.Sound := (takes_allocate h reference).sound

theorem sound_set (h : pool.Sound) (slot : Nat) (v : Volume K) : (pool.set slot v).Sound :=
  (takes_set h slot v).sound

/-! ## Contents -/

/-- The next slot is handed out with the given volume, whatever its place held before. -/
theorem contents_allocateCopy (h : pool.Sound) (v : Volume K) :
    (pool.allocateCopy v).2.contents = pool.contents ++ [v] := by
  rw [Sound] at h
  simp only [contents, allocateCopy]
  by_cases hroom : pool.live < pool.volumes.size
  · simp only [hroom, if_true, Array.toList_setIfInBounds]
    rw [List.take_add_one, List.take_set_of_le (Nat.le_refl _)]
    simp [hroom]
  · have hfull : pool.live = pool.volumes.size := by omega
    simp only [hroom, if_false, Array.toList_push]
    rw [hfull, ← Array.length_toList, List.take_length, List.take_of_length_le (by simp)]

theorem contents_allocate [Scalar K] (h : pool.Sound) (reference : Option NodeKey) :
    (pool.allocate reference).2.contents = pool.contents ++ [.new reference] :=
  contents_allocateCopy h _

/-- A slot that is not handed out cannot be written. -/
theorem contents_set (pool : VolumePool K) (slot : Nat) (v : Volume K) :
    (pool.set slot v).contents = pool.contents.set slot v := by
  by_cases hslot : slot < pool.live
  · simp only [contents, set, hslot, if_true, Array.toList_setIfInBounds, List.take_set]
  · have hbeyond : pool.contents.length ≤ slot := by
      rw [contents, List.length_take]
      omega
    simp only [set, hslot, if_false]
    rw [List.set_eq_of_length_le hbeyond]

theorem contents_release (pool : VolumePool K) : pool.release.contents = [] := List.take_zero

theorem get?_allocate [Scalar K] (h : pool.Sound) (reference : Option NodeKey) (slot : Nat) :
    (pool.allocate reference).2.get? slot =
      if slot = pool.live then some (.new reference) else pool.get? slot := by
  rw [get?_eq, get?_eq, contents_allocate h, ← h.length_contents]
  rcases Nat.lt_trichotomy slot pool.contents.length with hbelow | rfl | habove
  · rw [List.getElem?_append_left hbelow, if_neg (Nat.ne_of_lt hbelow)]
  · rw [List.getElem?_concat_length, if_pos rfl]
  · rw [if_neg (Nat.ne_of_gt habove), List.getElem?_eq_none (Nat.le_of_lt habove)]
    exact List.getElem?_eq_none (by rw [List.length_append]; exact habove)

theorem get?_set (h : pool.Sound) {slot : Nat} (hslot : slot < pool.live) (v : Volume K)
    (other : Nat) :
    (pool.set slot v).get? other = if other = slot then some v else pool.get? other := by
  rw [get?_eq, get?_eq, contents_set, List.getElem?_set, h.length_contents, if_pos hslot]
  simp only [eq_comm]

/-- To write back what a slot holds changes nothing. -/
theorem set_of_get? {slot : Nat} {v : Volume K} (h : pool.get? slot = some v) :
    pool.set slot v = pool := by
  rw [get?] at h
  split at h
  · rename_i hslot
    have hvolumes : pool.volumes.setIfInBounds slot v = pool.volumes := by grind
    rw [set, if_pos hslot, hvolumes]
  · cases h

/-! ## Requests -/

/-- What a program asks of a pool. -/
inductive Request (K : Type) where
  | allocate (reference : Option NodeKey)
  | allocateCopy (v : Volume K)
  /-- Operations on the volume of a slot, in place. Refused ones count with what they leave. -/
  | edit (slot : Nat) (operations : Edit (Volume K) Unit)
  | release

/-- Operations on the volume of a slot. A slot that is not handed out has none to operate on. -/
def edit (pool : VolumePool K) (slot : Nat) (operations : Edit (Volume K) Unit) :
    VolumePool K :=
  match pool.get? slot with
  | some v => pool.set slot (operations.perform v).value.2
  | none => pool

/-- The pool after a request. -/
def serve [Scalar K] (pool : VolumePool K) : Request K → VolumePool K
  | .allocate reference => (pool.allocate reference).2
  | .allocateCopy v => (pool.allocateCopy v).2
  | .edit slot operations => pool.edit slot operations
  | .release => pool.release

/-- A list of volumes after a request, where the volumes are the only storage. -/
def revise [Scalar K] (volumes : List (Volume K)) : Request K → List (Volume K)
  | .allocate reference => volumes ++ [.new reference]
  | .allocateCopy v => volumes ++ [v]
  | .edit slot operations => volumes.modify slot fun v => (operations.perform v).value.2
  | .release => []

/-- Nothing but the slot is changed, and a slot that is not handed out is no slot at all. -/
theorem contents_edit (pool : VolumePool K) (slot : Nat) (operations : Edit (Volume K) Unit) :
    (pool.edit slot operations).contents =
      pool.contents.modify slot fun v => (operations.perform v).value.2 := by
  rw [edit, List.modify_eq_set_getElem?, ← get?_eq]
  cases pool.get? slot with
  | none => rfl
  | some v => exact contents_set pool slot _

theorem takes_edit (h : pool.Sound) (slot : Nat) (operations : Edit (Volume K) Unit) :
    pool.Takes (pool.edit slot operations) 0 := by
  rw [edit]
  cases pool.get? slot with
  | none => exact .refl h
  | some v => exact takes_set h slot _

/-- The storage grows with the contents and with nothing else. -/
theorem Takes.highWater (h : pool.Takes after count) :
    after.highWater = max pool.highWater after.contents.length := by
  rw [h.sound.length_contents, h.live]
  exact h.size

section Requests

variable [Scalar K]

/-- A request has its effect on the contents, and the storage has room for them. -/
theorem serve_spec (h : pool.Sound) (request : Request K) :
    (pool.serve request).Sound ∧
      (pool.serve request).contents = revise pool.contents request ∧
      (pool.serve request).highWater =
        max pool.highWater (pool.serve request).contents.length := by
  cases request with
  | allocate reference =>
      have htakes := takes_allocate h reference
      exact ⟨htakes.sound, contents_allocate h reference, htakes.highWater⟩
  | allocateCopy v =>
      have htakes := takes_allocateCopy h v
      exact ⟨htakes.sound, contents_allocateCopy h v, htakes.highWater⟩
  | edit slot operations =>
      have htakes := takes_edit h slot operations
      exact ⟨htakes.sound, contents_edit pool slot operations, htakes.highWater⟩
  | release =>
      refine ⟨sound_of_live_eq_zero rfl, contents_release pool, ?_⟩
      rw [serve, contents_release]
      exact (Nat.max_eq_left (Nat.zero_le _)).symm

/-- The pool after some requests, where it starts with room for a number of volumes. -/
def served (capacity : Nat) (requests : List (Request K)) : VolumePool K :=
  requests.foldl serve (withCapacity capacity)

/-- The list after some requests, where it starts empty. -/
def revised (requests : List (Request K)) : List (Volume K) := requests.foldl revise []

/-- The lengths of the list so far, the present one included. -/
def pastLengths (requests : List (Request K)) : Set Nat :=
  {n | ∃ earlier, earlier <+: requests ∧ (revised earlier).length = n}

theorem served_concat (capacity : Nat) (requests : List (Request K)) (request : Request K) :
    served capacity (requests ++ [request]) = (served capacity requests).serve request :=
  List.foldl_concat _ _ _ _

theorem revised_concat (requests : List (Request K)) (request : Request K) :
    revised (requests ++ [request]) = revise (revised requests) request :=
  List.foldl_concat _ _ _ _

theorem pastLengths_nil : pastLengths ([] : List (Request K)) = {0} := by
  ext n
  simp [pastLengths, revised, eq_comm]

theorem pastLengths_concat (requests : List (Request K)) (request : Request K) :
    pastLengths (requests ++ [request]) =
      insert (revised (requests ++ [request])).length (pastLengths requests) := by
  ext n
  simp only [pastLengths, Set.mem_ofPred_eq, Set.mem_insert_iff, List.prefix_concat_iff]
  constructor
  · rintro ⟨earlier, rfl | hearlier, hlength⟩
    · exact .inl hlength.symm
    · exact .inr ⟨earlier, hearlier, hlength⟩
  · rintro (hlength | ⟨earlier, hearlier, hlength⟩)
    · exact ⟨_, .inl rfl, hlength.symm⟩
    · exact ⟨earlier, .inr hearlier, hlength⟩

/-- By induction on the requests, the last one first. -/
theorem served_spec (capacity : Nat) (requests : List (Request K)) :
    (served capacity requests).Sound ∧
      (served capacity requests).contents = revised requests ∧
      IsGreatest (pastLengths requests) (served capacity requests).highWater := by
  induction requests using List.reverseRecOn with
  | nil =>
      rw [pastLengths_nil]
      exact ⟨sound_of_live_eq_zero rfl, rfl, isGreatest_singleton⟩
  | append_singleton requests request ih =>
      obtain ⟨hsound, hcontents, hgreatest⟩ := ih
      obtain ⟨hsound', hcontents', hwater⟩ := serve_spec hsound request
      rw [← served_concat] at hsound' hcontents' hwater
      rw [hcontents, ← revised_concat] at hcontents'
      refine ⟨hsound', hcontents', ?_⟩
      rw [pastLengths_concat, hwater, hcontents', max_comm]
      exact hgreatest.insert _

/-- A pool is a list of volumes. It starts empty, and after any requests its slots hold the
volumes of the list at their indices: the list to which an allocation appends a new volume or
a copy, of which an edit changes one volume, and which a release empties. A slot has no volume
beyond the length of the list, and the next one handed out is the first of these. The storage
of earlier frames shows in the greatest length so far and nowhere else. -/
theorem served_eq_list (capacity : Nat) (requests : List (Request K)) :
    let pool := served capacity requests
    let list := revised requests
    (∀ slot, pool.get? slot = list[slot]?) ∧
      (∀ slot, (pool.get? slot).isSome = true ↔ slot < list.length) ∧
      pool.live = list.length ∧ (pool.isEmpty = true ↔ list = []) ∧
      (∀ reference, (pool.allocate reference).1 = list.length) ∧
      (∀ v, (pool.allocateCopy v).1 = list.length) ∧
      IsGreatest (pastLengths requests) pool.highWater := by
  intro pool list
  obtain ⟨hsound, hcontents, hgreatest⟩ := served_spec capacity requests
  have hget : ∀ slot, pool.get? slot = list[slot]? := by
    intro slot
    rw [get?_eq, hcontents]
  have hlive : pool.live = list.length := by
    rw [← hsound.length_contents, hcontents]
  refine ⟨hget, fun slot => ?_, hlive, ?_, fun _ => hlive, fun _ => hlive, hgreatest⟩
  · simp [hget]
  · rw [isEmpty, hlive, beq_iff_eq, List.length_eq_zero_iff]

end Requests

end SceneCulling.VolumePool
