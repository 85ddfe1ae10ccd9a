import Reshard.Proofs.Push.Batch

/-!
Which keys a batch takes, and how many. Both ways to drain the tables take the keys of the pool in a
fixed order (`Selection.order`), and the batch is the shortest initial part of the ordered pool that
uses up the budget (`Pool.takeBatch_cuts`).
-/

namespace Reshard

open Outcome

/-! ## The order of the keys -/

namespace Tables

/-- How many keys of the same table come before a key. -/
def rank (t : Tables) (k : Key) : Nat :=
  (t.keys.filter fun a => a.table = k.table && a.id < k.id).length

/-- How many keys a table has. -/
def count (t : Tables) (name : String) : Nat := (t.keys.filter (·.table = name)).length

end Tables

/-- The order in which keys are taken out of tables. In sweeps, the keys of a lower rank come first,
and those of one rank go in the order of their tables. Else those of larger tables come first, and
those of equal tables go in the order of the keys, which starts with the table. -/
def Selection.order (s : Selection) (t : Tables) : Key → Key → Ordering :=
  match s with
  | .roundRobin => compareLex (compareOn t.rank) (compareOn Key.table)
  | .largestTableFirst =>
    compareLex (fun a b => compareOn (fun k => t.count k.table) b a) compare

/-- All keys of the tables in the order in which they are taken. -/
def Selection.ordered (s : Selection) (t : Tables) : List Key :=
  t.keys.mergeSort fun a b => (s.order t a b).isLE

/-- A list of keys begins with the batch, which ends as soon as the budget is used up, or when there
is no key left. -/
structure BatchRule.Cuts (r : BatchRule) (size : String → Nat) (ks batch : List Key) : Prop where
  initial : batch <+: ks
  shortest : ∀ part, part <+: batch → part ≠ batch → r.costOf size part < r.limit
  ended : r.limit ≤ r.costOf size batch ∨ batch = ks

namespace Tables

variable {t : Tables} {a b k : Key} {name : String}

theorem mem_filter_keys : a ∈ t.keys.filter (·.table = name) ↔
    t.contains a = true ∧ a.table = name := by
  rw [List.mem_filter, mem_keys, decide_eq_true_eq]

theorem rank_lt_rank (ha : t.contains a = true) (htable : a.table = b.table) (hid : a.id < b.id) :
    t.rank a < t.rank b := by
  have hnot : a ∉ t.keys.filter fun c => c.table = a.table && c.id < a.id := by simp
  have hsub : a :: (t.keys.filter fun c => c.table = a.table && c.id < a.id) ⊆
      t.keys.filter fun c => c.table = b.table && c.id < b.id := by
    intro c hc
    rcases List.mem_cons.mp hc with rfl | hc
    · simp [mem_keys, ha, htable, hid]
    · rw [List.mem_filter, Bool.and_eq_true, decide_eq_true_eq, decide_eq_true_eq] at hc ⊢
      exact ⟨hc.1, hc.2.1.trans htable, Nat.lt_trans hc.2.2 hid⟩
  have hnodup := List.nodup_cons.mpr ⟨hnot, (nodup_keys t).filter _⟩
  exact (List.subperm_of_subset hnodup hsub).length_le

/-- A key is known by its table and its rank. -/
theorem eq_of_rank (ha : t.contains a = true) (hb : t.contains b = true)
    (htable : a.table = b.table) (hrank : t.rank a = t.rank b) : a = b := by
  rw [eq_comm, eq_iff_of_table htable]
  rcases Nat.lt_trichotomy a.id b.id with hlt | heq | hgt
  · exact absurd hrank (Nat.ne_of_lt (rank_lt_rank ha htable hlt))
  · exact heq
  · exact absurd hrank (Nat.ne_of_gt (rank_lt_rank hb htable.symm hgt))

/-- There are no more keys of one table than ranks. -/
theorem length_le_of_rank_lt (t : Tables) (name : String) {ks : List Key} {n : Nat}
    (hnodup : ks.Nodup)
    (hks : ∀ a ∈ ks, t.contains a = true ∧ a.table = name ∧ t.rank a < n) :
    ks.length ≤ n := by
  have hranks : (ks.map t.rank).Nodup := by
    refine List.Nodup.map_on (fun a ha b hb heq => ?_) hnodup
    obtain ⟨hta, rfl, -⟩ := hks a ha
    obtain ⟨htb, htable, -⟩ := hks b hb
    exact eq_of_rank hta htb htable.symm heq
  have hsub : ks.map t.rank ⊆ List.range n := by
    intro x hx
    obtain ⟨a, ha, rfl⟩ := List.mem_map.mp hx
    exact List.mem_range.mpr (hks a ha).2.2
  have hlength := (List.subperm_of_subset hranks hsub).length_le
  rwa [List.length_map, List.length_range] at hlength

/-- The rank is no more than the number of keys that come before. -/
theorem rank_le_length {ks : List Key}
    (hks : ∀ a, t.contains a = true → a.table = k.table → a.id < k.id → a ∈ ks) :
    t.rank k ≤ ks.length := by
  refine (List.subperm_of_subset ((nodup_keys t).filter _) ?_).length_le
  intro a ha
  rw [List.mem_filter, mem_keys, Bool.and_eq_true, decide_eq_true_eq, decide_eq_true_eq] at ha
  exact hks a ha.1 ha.2.1 ha.2.2

theorem le_of_first? (h : t.first? name = some k) (hb : t.contains b = true)
    (htable : b.table = name) : k.id ≤ b.id := by
  obtain ⟨id, hmin, rfl⟩ := Option.map_eq_some_iff.mp h
  subst htable
  have hle : (compare id b.id).isLE = true :=
    Std.ExtTreeSet.min?_le_of_contains hb (by simp [hmin])
  exact Nat.isLE_compare.mp hle

/-! ## Tables by size -/

theorem count_eq_size {ids : Std.ExtTreeSet Nat} (h : t.ids[name]? = some ids) :
    t.count name = ids.size := by
  have hperm : (t.keys.filter (·.table = name)).Perm
      (ids.toList.map fun id => (⟨name, id⟩ : Key)) := by
    rw [List.perm_ext_iff_of_nodup ((nodup_keys t).filter _)
      ((Collections.nodup_toList ids).map fun _ _ heq => congrArg Key.id heq)]
    intro a
    rw [mem_filter_keys, List.mem_map]
    constructor
    · rintro ⟨ha, rfl⟩
      refine ⟨a.id, ?_, rfl⟩
      simpa [contains, idsOf, h] using ha
    · rintro ⟨id, hid, rfl⟩
      refine ⟨?_, rfl⟩
      simpa [contains, idsOf, h] using hid
  rw [count, hperm.length_eq, List.length_map, Std.ExtTreeSet.length_toList]

/-- A table that is drained earlier than another one. -/
def Ahead (t : Tables) (name other : String) : Prop :=
  t.count other < t.count name ∨ (t.count name = t.count other ∧ compare name other = .lt)

end Tables

/-- Sorting leaves what is equal by the order as it stands. -/
theorem filter_mergeSort {α : Type} {le : α → α → Bool}
    (htrans : ∀ x y z, le x y = true → le y z = true → le x z = true)
    (htotal : ∀ x y, (le x y || le y x) = true) (l : List α) (keep : α → Bool)
    (hequal : ∀ x y, keep x = true → keep y = true → le x y = true) :
    (l.mergeSort le).filter keep = l.filter keep := by
  have hpairs : (l.filter keep).Pairwise fun x y => le x y = true := by
    rw [List.pairwise_iff_forall_sublist]
    intro x y hsub
    have hmem := hsub.subset
    exact hequal x y (List.mem_filter.mp (hmem (by simp))).2 (List.mem_filter.mp (hmem (by simp))).2
  have hsub := (List.sublist_mergeSort htrans htotal hpairs List.filter_sublist).filter keep
  rw [List.filter_filter] at hsub
  simp only [Bool.and_self] at hsub
  exact (hsub.eq_of_length (((List.mergeSort_perm l le).filter keep).length_eq.symm)).symm

namespace Tables

variable {t : Tables}

theorem pairwise_names (t : Tables) : t.names.Pairwise fun name other => compare name other = .lt :=
  Std.ExtTreeMap.ordered_keys

theorem pairwise_namesBySize (t : Tables) : t.namesBySize.Pairwise t.Ahead := by
  have htrans : ∀ x y z : String × Std.ExtTreeSet Nat,
      decide (y.2.size ≤ x.2.size) = true → decide (z.2.size ≤ y.2.size) = true →
        decide (z.2.size ≤ x.2.size) = true := by
    simp only [decide_eq_true_eq]
    exact fun x y z hxy hyz => Nat.le_trans hyz hxy
  have htotal : ∀ x y : String × Std.ExtTreeSet Nat,
      (decide (y.2.size ≤ x.2.size) || decide (x.2.size ≤ y.2.size)) = true := by
    simp [Nat.le_total]
  have hcount : ∀ x ∈ t.ids.toList, t.count x.1 = x.2.size := fun x hx =>
    count_eq_size (Std.ExtTreeMap.mem_toList_iff_getElem?_eq_some.mp hx)
  rw [namesBySize, List.pairwise_map, List.pairwise_iff_forall_sublist]
  intro x y hsub
  have hx := hcount x ((List.mergeSort_perm _ _).subset (hsub.subset (by simp)))
  have hy := hcount y ((List.mergeSort_perm _ _).subset (hsub.subset (by simp)))
  have hle : y.2.size ≤ x.2.size := by
    have hpair := List.pairwise_iff_forall_sublist.mp
      (List.pairwise_mergeSort htrans htotal t.ids.toList) hsub
    exact of_decide_eq_true hpair
  rw [Ahead, hx, hy]
  rcases Nat.lt_or_eq_of_le hle with hlt | heq
  · exact .inl hlt
  · refine .inr ⟨heq.symm, ?_⟩
    -- Tables of one size stand as they do in the order of their names.
    have hstable := filter_mergeSort htrans htotal t.ids.toList (fun z => z.2.size = x.2.size)
      (by simp only [decide_eq_true_eq]; omega)
    have hsub' := hsub.filter fun z => z.2.size = x.2.size
    rw [hstable] at hsub'
    have hsub'' : [x, y].Sublist t.ids.toList := by
      refine List.Sublist.trans ?_ (hsub'.trans List.filter_sublist)
      simp [heq]
    exact List.pairwise_iff_forall_sublist.mp Std.ExtTreeMap.ordered_keys_toList hsub''

end Tables

namespace Selection

variable {s : Selection} {t : Tables} {a b : Key}

instance (s : Selection) (t : Tables) : Std.TransCmp (s.order t) := by
  cases s with
  | roundRobin => exact inferInstanceAs (Std.TransCmp (compareLex _ _))
  | largestTableFirst =>
    have hcount : Std.TransCmp fun a b : Key => compareOn (fun k => t.count k.table) b a :=
      .opposite
    exact inferInstanceAs (Std.TransCmp (compareLex _ _))

theorem order_roundRobin : order .roundRobin t a b = .lt ↔
    t.rank a < t.rank b ∨ (t.rank a = t.rank b ∧ compare a.table b.table = .lt) := by
  simp [order, compareLex, compareOn, Ordering.then_eq_lt, Nat.compare_eq_lt]

theorem order_largestTableFirst : order .largestTableFirst t a b = .lt ↔
    t.Ahead a.table b.table ∨ (a.table = b.table ∧ a.id < b.id) := by
  simp only [order, compareLex, compareOn, Ordering.then_eq_lt, Nat.compare_eq_lt,
    Nat.compare_eq_eq, Key.compare_eq, Tables.Ahead]
  constructor
  · rintro (hlt | ⟨heq, hlt | ⟨htable, hid⟩⟩)
    · exact .inl (.inl hlt)
    · exact .inl (.inr ⟨heq.symm, hlt⟩)
    · exact .inr ⟨Std.compare_eq_iff_eq.mp htable, hid⟩
  · rintro ((hlt | ⟨heq, hlt⟩) | ⟨htable, hid⟩)
    · exact .inl hlt
    · exact .inr ⟨heq.symm, .inl hlt⟩
    · exact .inr ⟨by rw [htable], .inr ⟨Std.compare_eq_iff_eq.mpr htable, hid⟩⟩

/-- No two keys have the same place. -/
theorem eq_of_order (ha : t.contains a = true) (hb : t.contains b = true)
    (h : s.order t a b = .eq) : a = b := by
  cases s with
  | roundRobin =>
    simp only [order, compareLex, compareOn, Ordering.then_eq_eq, Nat.compare_eq_eq] at h
    exact Tables.eq_of_rank ha hb (Std.compare_eq_iff_eq.mp h.2) h.1
  | largestTableFirst =>
    simp only [order, compareLex, Ordering.then_eq_eq] at h
    exact Std.compare_eq_iff_eq.mp h.2

theorem pairwise_mergeSort_order (s : Selection) (t : Tables) (ks : List Key) :
    (ks.mergeSort fun a b => (s.order t a b).isLE).Pairwise fun a b =>
      (s.order t a b).isLE = true := by
  refine List.pairwise_mergeSort (fun _ _ _ => Std.TransCmp.isLE_trans) (fun a b => ?_) ks
  have hswap : s.order t b a = (s.order t a b).swap := Std.OrientedCmp.eq_swap
  rw [hswap]
  cases s.order t a b <;> rfl

/-- Keys that are in order and come before all others are what the ordered keys begin with. -/
theorem initial_ordered {taken left : List Key} (hperm : (taken ++ left).Perm t.keys)
    (htaken : taken.Pairwise fun a b => s.order t a b = .lt)
    (hleft : ∀ a ∈ taken, ∀ b ∈ left, s.order t a b = .lt) : taken <+: s.ordered t := by
  have hsorted := List.mergeSort_perm left fun a b => (s.order t a b).isLE
  refine ⟨left.mergeSort fun a b => (s.order t a b).isLE, ?_⟩
  refine List.Perm.eq_of_pairwise ?_ ?_ (s.pairwise_mergeSort_order t t.keys) ?_
  · intro a b ha hb hab hba
    have ha' := Tables.mem_keys.mp (((hsorted.append_left taken).trans hperm).subset ha)
    have hb' := Tables.mem_keys.mp ((List.mergeSort_perm _ _).subset hb)
    exact eq_of_order ha' hb' (Std.OrientedCmp.isLE_antisymm hab hba)
  · have hle : ∀ {a b : Key}, s.order t a b = .lt → (s.order t a b).isLE = true := by
      intro a b h
      rw [h]
      rfl
    exact List.pairwise_append.mpr ⟨htaken.imp hle, s.pairwise_mergeSort_order t left,
      fun a ha b hb => hle (hleft a ha b (hsorted.subset hb))⟩
  · exact ((hsorted.append_left taken).trans hperm).trans (List.mergeSort_perm _ _).symm

end Selection

end Reshard
