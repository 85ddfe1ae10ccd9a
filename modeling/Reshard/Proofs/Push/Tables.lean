import Mathlib.Data.List.Nodup
import Reshard.Proofs.Collections
import Reshard.Push.Tables

/-!
Tables are known by the keys that they contain, each of them once in the list of all keys. What is
dropped from the tables and what is kept make up this list (`perm_keys_erase`).
-/

namespace Reshard

namespace Tables

variable {t : Tables} {k a : Key} {name : String}

/-! ## Which keys are contained -/

theorem idsOf_insert (t : Tables) (k : Key) (name : String) :
    (t.insert k).idsOf name =
      if k.table = name then (t.idsOf name).insert k.id else t.idsOf name := by
  simp only [idsOf, insert, Std.ExtTreeMap.getElem?_alter, Std.compare_eq_iff_eq]
  split
  · next h =>
    subst h
    rfl
  · rfl

theorem idsOf_erase (t : Tables) (k : Key) (name : String) :
    (t.erase k).idsOf name =
      if k.table = name then (t.idsOf name).erase k.id else t.idsOf name := by
  simp only [idsOf, erase, Std.ExtTreeMap.getElem?_alter, Std.compare_eq_iff_eq]
  split
  · next h =>
    subst h
    cases t.ids[k.table]? with
    | none => simp
    | some kept =>
      by_cases hempty : (kept.erase k.id).isEmpty = true
      · simp [Option.filter, Std.ExtTreeSet.isEmpty_iff.mp hempty]
      · simp [Option.filter, hempty]
  · rfl

theorem eq_iff_of_table (h : k.table = a.table) : a = k ↔ k.id = a.id := by
  cases a
  cases k
  simp only at h
  simp [h, eq_comm]

theorem contains_empty (k : Key) : (∅ : Tables).contains k = false := by
  have hids : (∅ : Tables).idsOf k.table = ∅ := by
    show ((∅ : Std.ExtTreeMap String (Std.ExtTreeSet Nat))[k.table]?).getD ∅ = ∅
    simp
  rw [contains, hids]
  simp

theorem contains_insert : (t.insert k).contains a = true ↔ a = k ∨ t.contains a = true := by
  rw [contains, contains, idsOf_insert]
  split
  · next h =>
    simp [eq_iff_of_table h]
  · next h =>
    have hne : a ≠ k := fun heq => h (heq ▸ rfl)
    simp [hne]

theorem contains_erase : (t.erase k).contains a = true ↔ a ≠ k ∧ t.contains a = true := by
  rw [contains, contains, idsOf_erase]
  split
  · next h =>
    simp [eq_iff_of_table h]
  · next h =>
    have hne : a ≠ k := fun heq => h (heq ▸ rfl)
    simp [hne]

theorem contains_insertMany {ks : List Key} :
    (t.insertMany ks).contains a = true ↔ a ∈ ks ∨ t.contains a = true := by
  induction ks generalizing t with
  | nil => simp [insertMany]
  | cons k rest ih =>
    change ((t.insert k).insertMany rest).contains a = true ↔ _
    rw [ih, contains_insert, List.mem_cons]
    tauto

theorem contains_eraseMany {ks : List Key} :
    (t.eraseMany ks).contains a = true ↔ a ∉ ks ∧ t.contains a = true := by
  induction ks generalizing t with
  | nil => simp [eraseMany]
  | cons k rest ih =>
    change ((t.erase k).eraseMany rest).contains a = true ↔ _
    rw [ih, contains_erase, List.mem_cons]
    tauto

/-! ## The list of all keys -/

/-- The keys of all tables, in their order. -/
def keys (t : Tables) : List Key :=
  t.ids.toList.flatMap fun table => table.2.toList.map fun id => ⟨table.1, id⟩

theorem mem_keys : k ∈ t.keys ↔ t.contains k = true := by
  simp only [keys, List.mem_flatMap, List.mem_map, Prod.exists,
    Std.ExtTreeMap.mem_toList_iff_getElem?_eq_some, Std.ExtTreeSet.mem_toList, contains, idsOf]
  constructor
  · rintro ⟨name, ids, hids, id, hid, rfl⟩
    simpa [hids] using hid
  · intro h
    cases hids : t.ids[k.table]? with
    | none => simp [hids] at h
    | some ids => exact ⟨k.table, ids, hids, k.id, by simpa [hids] using h, rfl⟩

theorem nodup_keys (t : Tables) : t.keys.Nodup := by
  rw [keys, List.nodup_flatMap]
  constructor
  · rintro ⟨name, ids⟩ -
    exact (Collections.nodup_toList ids).map fun _ _ heq => congrArg Key.id heq
  · have hnames : (t.ids.toList.map (·.1)).Nodup := by
      rw [Std.ExtTreeMap.map_fst_toList_eq_keys]
      exact Collections.nodup_keys t.ids
    refine (List.pairwise_map.mp hnames).imp ?_
    intro x y hne k hx hy
    obtain ⟨i, -, rfl⟩ := List.mem_map.mp hx
    obtain ⟨j, -, heq⟩ := List.mem_map.mp hy
    exact hne (congrArg Key.table heq).symm

theorem size_eq_length (t : Tables) : t.size = t.keys.length := by
  have hfold : ∀ (l : List (String × Std.ExtTreeSet Nat)) (n : Nat),
      l.foldl (fun n table => n + table.2.size) n =
        n + (l.flatMap fun table =>
          table.2.toList.map fun id => (⟨table.1, id⟩ : Key)).length := by
    intro l
    induction l with
    | nil => simp
    | cons table rest ih =>
      intro n
      rw [List.foldl_cons, ih, List.flatMap_cons, List.length_append, List.length_map,
        Std.ExtTreeSet.length_toList, Nat.add_assoc]
  rw [size, hfold, Nat.zero_add, keys]

/-- What is dropped and what is kept are the keys that there were. -/
theorem perm_keys_erase (h : t.contains k = true) : (k :: (t.erase k).keys).Perm t.keys := by
  have hnot : k ∉ (t.erase k).keys := by
    rw [mem_keys, contains_erase]
    exact fun hmem => hmem.1 rfl
  rw [List.perm_ext_iff_of_nodup (List.nodup_cons.mpr ⟨hnot, nodup_keys _⟩) (nodup_keys t)]
  intro a
  rw [List.mem_cons, mem_keys, mem_keys, contains_erase]
  rcases eq_or_ne a k with rfl | hne
  · simp [h]
  · simp [hne]

/-! ## Single tables -/

theorem hasTable_iff :
    t.hasTable name = true ↔ ∃ k, t.contains k = true ∧ k.table = name := by
  rw [hasTable, Std.ExtTreeMap.contains_eq_isSome_getElem?]
  constructor
  · intro h
    obtain ⟨ids, hids⟩ := Option.isSome_iff_exists.mp h
    obtain ⟨id, hid⟩ : ∃ id, id ∈ ids := by
      by_contra hnone
      apply t.nonempty name ids hids
      exact Std.ExtTreeSet.ext_mem fun id => by simp [not_exists.mp hnone id]
    exact ⟨⟨name, id⟩, by simpa [contains, idsOf, hids] using hid, rfl⟩
  · rintro ⟨k, hk, rfl⟩
    cases hids : t.ids[k.table]? with
    | none => simp [contains, idsOf, hids] at hk
    | some ids => rfl

theorem contains_of_first? (h : t.first? name = some k) :
    t.contains k = true ∧ k.table = name := by
  obtain ⟨id, hmin, rfl⟩ := Option.map_eq_some_iff.mp h
  exact ⟨Std.ExtTreeSet.contains_min? hmin, rfl⟩

theorem exists_first? (h : t.hasTable name = true) : ∃ k, t.first? name = some k := by
  obtain ⟨k, hk, rfl⟩ := hasTable_iff.mp h
  cases hmin : (t.idsOf k.table).min? with
  | none =>
    rw [Std.ExtTreeSet.min?_eq_none_iff] at hmin
    rw [contains, hmin] at hk
    simp at hk
  | some id => exact ⟨⟨k.table, id⟩, by rw [first?, hmin, Option.map_some]⟩

theorem mem_names : name ∈ t.names ↔ t.hasTable name = true := by
  rw [names, Std.ExtTreeMap.mem_keys, hasTable, Std.ExtTreeMap.contains_iff_mem]

theorem mem_namesBySize : name ∈ t.namesBySize ↔ t.hasTable name = true := by
  rw [namesBySize, ((List.mergeSort_perm _ _).map _).mem_iff,
    Std.ExtTreeMap.map_fst_toList_eq_keys]
  exact mem_names

end Tables

end Reshard
