import Mathlib.Data.List.Nodup
import Mathlib.Data.List.Perm.Subperm
import Std.Data.ExtTreeMap
import Std.Data.ExtTreeSet

/-!
Sets and maps as lists without repetitions, sizes of maps, and how many keys of a map have a given
value.
-/

namespace Reshard

namespace Collections

variable {α β : Type} [Ord α] [Std.TransOrd α] [Std.LawfulEqOrd α]

theorem nodup_toList (s : Std.ExtTreeSet α) : s.toList.Nodup := by
  refine List.Pairwise.imp ?_ s.distinct_toList
  intro a b hab heq
  exact hab (Std.compare_eq_iff_eq.mpr heq)

theorem nodup_keys (m : Std.ExtTreeMap α β) : m.keys.Nodup := by
  refine List.Pairwise.imp ?_ m.distinct_keys
  intro a b hab heq
  exact hab (Std.compare_eq_iff_eq.mpr heq)

/-- A map has one entry for a key. -/
theorem entry_inj {m : Std.ExtTreeMap α β} {d e : α × β} (hd : d ∈ m.toList)
    (he : e ∈ m.toList) (h : d.1 = e.1) : d = e := by
  have hnodup : (m.toList.map (·.1)).Nodup := by
    rw [Std.ExtTreeMap.map_fst_toList_eq_keys]
    exact nodup_keys m
  exact List.inj_on_of_nodup_map hnodup hd he h

/-- A new element of a set comes to those that are in it. -/
theorem toList_insert_perm {s : Std.ExtTreeSet α} {a : α} (h : a ∉ s) :
    (s.insert a).toList.Perm (a :: s.toList) := by
  have hnodup : (a :: s.toList).Nodup :=
    List.nodup_cons.mpr ⟨mt Std.ExtTreeSet.mem_toList.mp h, nodup_toList s⟩
  rw [List.perm_ext_iff_of_nodup (nodup_toList _) hnodup]
  intro b
  simp only [Std.ExtTreeSet.mem_toList, Std.ExtTreeSet.mem_insert, Std.compare_eq_iff_eq,
    List.mem_cons, @eq_comm _ a b]

omit [Std.LawfulEqOrd α] in
theorem contains_of_some {m : Std.ExtTreeMap α β} {k : α} {b : β} (h : m[k]? = some b) :
    m.contains k = true := by
  rw [Std.ExtTreeMap.contains_eq_isSome_getElem?, h]
  rfl

omit [Std.LawfulEqOrd α] in
theorem contains_of_none {m : Std.ExtTreeMap α β} {k : α} (h : m[k]? = none) :
    m.contains k = false := by
  rw [Std.ExtTreeMap.contains_eq_isSome_getElem?, h]
  rfl

/-! ## Sizes -/

/-- A set has no more elements than a list that they are all in. -/
theorem size_le_length {s : Std.ExtTreeSet α} {l : List α} (h : ∀ a ∈ s, a ∈ l) :
    s.size ≤ l.length := by
  rw [← Std.ExtTreeSet.length_toList]
  refine (List.subperm_of_subset (nodup_toList s) ?_).length_le
  intro a ha
  exact h a (Std.ExtTreeSet.mem_toList.mp ha)

omit [Std.LawfulEqOrd α] in
theorem size_insert_add (m : Std.ExtTreeMap α β) (k : α) (b : β) :
    (m.insert k b).size + (if m.contains k then 1 else 0) = m.size + 1 := by
  rw [Std.ExtTreeMap.size_insert]
  split <;> rfl

omit [Std.LawfulEqOrd α] in
theorem size_erase_add (m : Std.ExtTreeMap α β) (k : α) :
    (m.erase k).size + (if m.contains k then 1 else 0) = m.size := by
  rw [Std.ExtTreeMap.size_erase]
  split
  · next h =>
    have hpos : m.size ≠ 0 := by
      intro hzero
      rw [Std.ExtTreeMap.eq_empty_iff_size_eq_zero.mpr hzero] at h
      simp at h
    omega
  · rfl

/-! ## Keys of one value -/

/-- The entries of a map whose value is `b`. -/
def having [DecidableEq β] (m : Std.ExtTreeMap α β) (b : β) : Std.ExtTreeMap α β :=
  m.filter fun _ c => c = b

theorem getElem?_having [DecidableEq β] (m : Std.ExtTreeMap α β) (b : β) (k : α) :
    (having m b)[k]? = (m[k]?).filter (· = b) :=
  Std.ExtTreeMap.getElem?_filter'

theorem having_empty [DecidableEq β] (b : β) : having (∅ : Std.ExtTreeMap α β) b = ∅ := by
  apply Std.ExtTreeMap.ext_getElem?
  intro k
  simp [getElem?_having]

theorem contains_having [DecidableEq β] (m : Std.ExtTreeMap α β) (b : β) (k : α) :
    (having m b).contains k = decide (m[k]? = some b) := by
  rw [Std.ExtTreeMap.contains_eq_isSome_getElem?, getElem?_having]
  cases m[k]? with
  | none => rfl
  | some c => by_cases h : c = b <;> simp [Option.filter, h]

theorem having_erase [DecidableEq β] (m : Std.ExtTreeMap α β) (k : α) (b : β) :
    having (m.erase k) b = (having m b).erase k := by
  apply Std.ExtTreeMap.ext_getElem?
  intro a
  simp only [getElem?_having, Std.ExtTreeMap.getElem?_erase]
  split <;> simp

theorem having_insert [DecidableEq β] (m : Std.ExtTreeMap α β) (k : α) (c b : β) :
    having (m.insert k c) b =
      if c = b then (having m b).insert k c else (having m b).erase k := by
  apply Std.ExtTreeMap.ext_getElem?
  intro a
  by_cases hb : c = b <;>
    simp only [hb, if_true, if_false, getElem?_having, Std.ExtTreeMap.getElem?_insert,
      Std.ExtTreeMap.getElem?_erase] <;>
    split <;> simp [Option.filter, hb]

/-- An entry that is dropped no longer counts. -/
theorem size_having_erase [DecidableEq β] (m : Std.ExtTreeMap α β) (k : α) (b : β) :
    (having (m.erase k) b).size + (if m[k]? = some b then 1 else 0) = (having m b).size := by
  rw [having_erase, ← size_erase_add (having m b) k, contains_having]
  simp

/-- An entry that is set counts for its new value, and no longer for its old one. -/
theorem size_having_insert [DecidableEq β] (m : Std.ExtTreeMap α β) (k : α) (c b : β) :
    (having (m.insert k c) b).size + (if m[k]? = some b then 1 else 0) =
      (having m b).size + (if c = b then 1 else 0) := by
  rw [having_insert]
  split
  · rw [← size_insert_add (having m b) k c, contains_having]
    simp
  · rw [← size_erase_add (having m b) k, contains_having]
    simp

end Collections

end Reshard
