import Mathlib.Data.Finset.Card
import Mathlib.Data.List.Induction
import Reshard.Proofs.Placement.Whereabouts

/-!
Keys that live away from home. Whatever it is told of keys, and whatever its capacity, the directory
keeps an entry for each key that lives elsewhere than at home and for no other key (`Sparse`). So
its entries can be counted by looking at where keys are (`deviations_of_told`).
-/

namespace Reshard

namespace Locations

/-- Every key that has an entry lives away from home. -/
def Sparse (l : Locations) : Prop :=
  ∃ m : Std.ExtTreeMap Key PartitionId, l.directory.Represents m ∧
    ∀ (k : Key) (p : PartitionId), m[k]? = some p → p ≠ l.home k

theorem Sparse.kept {l : Locations} (h : l.Sparse) : l.Kept := by
  obtain ⟨m, hm, -⟩ := h
  exact ⟨m, hm⟩

theorem sparse_make (placement : Placement) (capacity : Nat) :
    (make placement capacity).Sparse :=
  ⟨∅, Directory.represents_empty capacity, by simp⟩

/-- A key that comes home loses its entry, and only a key that goes elsewhere gets one. -/
theorem Sparse.relocate {l : Locations} (h : l.Sparse) (k : Key) (p : PartitionId) :
    (l.relocate k p).Sparse := by
  obtain ⟨m, hm, haway⟩ := h
  by_cases hhome : l.home k = p
  · refine ⟨m.erase k, ?_, fun a q hq => ?_⟩
    · rw [Locations.relocate, if_pos hhome]
      exact (hm.remove k).2
    · rw [Std.ExtTreeMap.getElem?_erase] at hq
      rw [home_relocate]
      split at hq
      · cases hq
      · exact haway a q hq
  · refine ⟨m.insert k p, ?_, fun a q hq => ?_⟩
    · rw [Locations.relocate, if_neg hhome]
      exact hm.set k p
    · rw [Std.ExtTreeMap.getElem?_insert] at hq
      rw [home_relocate]
      split at hq
      · next heq =>
        rw [Std.compare_eq_iff_eq] at heq
        cases hq
        subst heq
        exact Ne.symm hhome
      · exact haway a q hq

/-- A key lives away from home if it has an entry. -/
theorem current_ne_home_iff {l : Locations} {m : Std.ExtTreeMap Key PartitionId}
    (hm : l.directory.Represents m)
    (haway : ∀ (k : Key) (p : PartitionId), m[k]? = some p → p ≠ l.home k) (k : Key) :
    l.current k ≠ l.home k ↔ m.contains k = true := by
  rw [current_of_represents hm, Std.ExtTreeMap.contains_eq_isSome_getElem?]
  cases hk : m[k]? with
  | none => simp
  | some p => simpa using haway k p hk

theorem Sparse.isRelocated_iff {l : Locations} (h : l.Sparse) (k : Key) :
    l.isRelocated k = true ↔ l.current k ≠ l.home k := by
  obtain ⟨m, hm, haway⟩ := h
  rw [isRelocated, hm.contains_eq, current_ne_home_iff hm haway]

/-- The entries are the keys that live away from home, and the counters tell how many of them live
on each partition. -/
theorem Sparse.exists_away {l : Locations} (h : l.Sparse) :
    ∃ away : Finset Key, (∀ k, k ∈ away ↔ l.current k ≠ l.home k) ∧
      l.directory.size = away.card ∧
      ∀ p, l.directory.countOn p = (away.filter fun k => l.current k = p).card := by
  obtain ⟨m, hm, haway⟩ := h
  have hcard : ∀ m' : Std.ExtTreeMap Key PartitionId, m'.keys.toFinset.card = m'.size := by
    intro m'
    rw [List.toFinset_card_of_nodup (Collections.nodup_keys m'), Std.ExtTreeMap.length_keys]
  refine ⟨m.keys.toFinset, fun k => ?_, ?_, fun p => ?_⟩
  · rw [current_ne_home_iff hm haway, List.mem_toFinset, Std.ExtTreeMap.mem_keys,
      Std.ExtTreeMap.contains_iff_mem]
  · rw [hcard, hm.size_eq]
  · have hon : m.keys.toFinset.filter (fun k => l.current k = p) =
        (Collections.having m p).keys.toFinset := by
      ext k
      rw [Finset.mem_filter, List.mem_toFinset, List.mem_toFinset, Std.ExtTreeMap.mem_keys,
        Std.ExtTreeMap.mem_keys, ← Std.ExtTreeMap.contains_iff_mem,
        ← Std.ExtTreeMap.contains_iff_mem, Collections.contains_having, current_of_represents hm,
        Std.ExtTreeMap.contains_eq_isSome_getElem?]
      cases m[k]? <;> simp
    rw [hon, hcard]
    exact hm.counts p

/-! ## Many calls -/

/-- The locations after it was told, one after the other, where keys are. -/
def tell (l : Locations) (told : List (Key × PartitionId)) : Locations :=
  told.foldl (fun l e => l.relocate e.1 e.2) l

theorem tell_concat (l : Locations) (told : List (Key × PartitionId)) (k : Key)
    (p : PartitionId) : l.tell (told ++ [(k, p)]) = (l.tell told).relocate k p := by
  rw [tell, List.foldl_append]
  rfl

theorem Sparse.tell {l : Locations} (h : l.Sparse) (told : List (Key × PartitionId)) :
    (l.tell told).Sparse := by
  induction told using List.reverseRecOn with
  | nil => exact h
  | append_singleton told e ih =>
    obtain ⟨k, p⟩ := e
    rw [tell_concat]
    exact ih.relocate k p

theorem home_tell (l : Locations) (told : List (Key × PartitionId)) (k : Key) :
    (l.tell told).home k = l.home k := by
  induction told using List.reverseRecOn with
  | nil => rfl
  | append_singleton told e ih => rw [tell_concat, home_relocate, ih]

/-- The last word on a key counts. -/
theorem current_tell {l : Locations} (h : l.Sparse) (told : List (Key × PartitionId)) (k : Key) :
    (l.tell told).current k = (told.reverse.lookup k).getD (l.current k) := by
  induction told using List.reverseRecOn with
  | nil => rfl
  | append_singleton told e ih =>
    obtain ⟨a, p⟩ := e
    rw [tell_concat, current_relocate (h.tell told).kept, ih, List.reverse_concat,
      List.lookup_cons]
    by_cases hk : k = a
    · simp [hk]
    · rw [if_neg hk, beq_eq_false_iff_ne.mpr hk]

/-- A key is where it was told to be last, or else at home. The directory holds an entry for it if
this is away from home, and counts the keys away from home exactly, on each partition and in all. -/
theorem deviations_of_told (placement : Placement) (capacity : Nat)
    (told : List (Key × PartitionId)) :
    let l := (make placement capacity).tell told
    (∀ k, l.current k = (told.reverse.lookup k).getD (placement.home k)) ∧
    (∀ k, l.isRelocated k = true ↔ l.current k ≠ placement.home k) ∧
    ∃ away : Finset Key, (∀ k, k ∈ away ↔ l.current k ≠ placement.home k) ∧
      l.directory.size = away.card ∧
      ∀ p, l.directory.countOn p = (away.filter fun k => l.current k = p).card := by
  intro l
  have hmake := sparse_make placement capacity
  have hsparse : l.Sparse := hmake.tell told
  have hhome : l.home = placement.home := funext fun k => home_tell _ told k
  refine ⟨fun k => current_tell hmake told k, ?_, ?_⟩
  · rw [← hhome]
    exact hsparse.isRelocated_iff
  · rw [← hhome]
    exact hsparse.exists_away

end Locations

end Reshard
