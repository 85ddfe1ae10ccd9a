import Reshard.Placement.Locations
import Reshard.Proofs.Placement.Refinement

/-!
Where keys are. What is recorded of a key is what was told of it last (`current_relocate`), whatever
the capacity of the directory, as long as the directory holds what it was told (`Kept`).
-/

namespace Reshard

namespace Locations

/-- The directory holds the entries of some map. -/
def Kept (l : Locations) : Prop :=
  ∃ m : Std.ExtTreeMap Key PartitionId, l.directory.Represents m

theorem kept_make (placement : Placement) (capacity : Nat) : (make placement capacity).Kept :=
  ⟨∅, Directory.represents_empty capacity⟩

theorem current_of_represents {l : Locations} {m : Std.ExtTreeMap Key PartitionId}
    (h : l.directory.Represents m) (k : Key) : l.current k = (m[k]?).getD (l.home k) := by
  rw [current, h.get_eq]

theorem home_relocate (l : Locations) (k : Key) (p : PartitionId) (a : Key) :
    (l.relocate k p).home a = l.home a := by
  rw [relocate]
  split <;> rfl

theorem placement_relocate (l : Locations) (k : Key) (p : PartitionId) :
    (l.relocate k p).placement = l.placement := by
  rw [relocate]
  split <;> rfl

theorem Kept.relocate {l : Locations} (h : l.Kept) (k : Key) (p : PartitionId) :
    (l.relocate k p).Kept := by
  obtain ⟨m, hm⟩ := h
  rw [Locations.relocate]
  split
  · exact ⟨m.erase k, (hm.remove k).2⟩
  · exact ⟨m.insert k p, hm.set k p⟩

/-- A key that is told to be on `p` is there, and no other key is touched. -/
theorem current_relocate {l : Locations} (h : l.Kept) (k : Key) (p : PartitionId) (a : Key) :
    (l.relocate k p).current a = if a = k then p else l.current a := by
  obtain ⟨m, hm⟩ := h
  by_cases hhome : l.home k = p
  · have hremoved : (l.relocate k p).directory.Represents (m.erase k) := by
      rw [Locations.relocate, if_pos hhome]
      exact (hm.remove k).2
    rw [current_of_represents hremoved, current_of_represents hm, home_relocate,
      Std.ExtTreeMap.getElem?_erase]
    by_cases ha : a = k
    · subst ha
      simp [hhome]
    · simp [ha, Ne.symm ha]
  · have hset : (l.relocate k p).directory.Represents (m.insert k p) := by
      rw [Locations.relocate, if_neg hhome]
      exact hm.set k p
    rw [current_of_represents hset, current_of_represents hm, home_relocate,
      Std.ExtTreeMap.getElem?_insert]
    by_cases ha : a = k
    · simp [ha]
    · simp [ha, Ne.symm ha]

/-! ## Many keys -/

theorem relocateAll_cons (l : Locations) (k : Key) (rest : List Key) (p : PartitionId) :
    l.relocateAll (k :: rest) p = (l.relocate k p).relocateAll rest p := rfl

theorem placement_relocateAll (l : Locations) (ks : List Key) (p : PartitionId) :
    (l.relocateAll ks p).placement = l.placement := by
  induction ks generalizing l with
  | nil => rfl
  | cons k rest ih => rw [relocateAll_cons, ih, placement_relocate]

theorem Kept.relocateAll {l : Locations} (h : l.Kept) (ks : List Key) (p : PartitionId) :
    (l.relocateAll ks p).Kept := by
  induction ks generalizing l with
  | nil => exact h
  | cons k rest ih => exact ih (h.relocate k p)

theorem current_relocateAll {l : Locations} (h : l.Kept) (ks : List Key) (p : PartitionId)
    (a : Key) : (l.relocateAll ks p).current a = if a ∈ ks then p else l.current a := by
  induction ks generalizing l with
  | nil => simp [Locations.relocateAll]
  | cons k rest ih =>
    rw [relocateAll_cons, ih (h.relocate k p), current_relocate h]
    by_cases ha : a = k <;> simp [ha]

end Locations

end Reshard
