import Mathlib.Data.List.Sort
import Reshard.Proofs.Balance.Destinations

/-!
Watching some of the partitions in service is as good as measuring all of them. The partitions that
are not watched are idle like others that are, and come after them, so that the first overloaded
partition is the same (`overload?_eq`) and a lightest one is known whenever there is another
partition to go to (`exists_lightest`). The threshold is the scaled mean load of all partitions in
service, if idle loads add nothing (`nextThreshold_eq`).
-/

namespace Reshard

namespace Planner

variable {W : Type} [Weight W]

/-- The loads of the partitions in service, in the order of their numbers. -/
def liveLoads (p : Planner W) (n : Nat) : List (Load W) :=
  (p.graph.loads n p.tuning.crossCost).filter fun l => !p.isRetired l.partition

/-- The threshold of the next pass. -/
def nextThreshold (p : Planner W) (n : Nat) : W :=
  p.threshold n (p.watchedLoads n (p.graph.busyLoads p.tuning.crossCost))

/-- What is known in a pass with the given loads and threshold, if `partition` is overloaded. -/
def overloadAt (p : Planner W) (n : Nat) (busy : Std.ExtTreeMap PartitionId (Load W))
    (threshold : W) (partition : PartitionId) : Overload W where
  partition := partition
  partitions := n
  busy := busy
  threshold := threshold
  lightest := leastLoaded? (p.watchedLoads n busy) (some partition)

/-- Whether a partition is watched if it is in service. -/
def inView (p : Planner W) (busy : Std.ExtTreeMap PartitionId (Load W)) (id : PartitionId) : Bool :=
  id < busy.size + p.retired.size + 2 || busy.contains id

section

variable (p : Planner W) (n : Nat) (busy : Std.ExtTreeMap PartitionId (Load W))

/-! ## The partitions that are watched -/

omit [Weight W] in
theorem watched_eq :
    p.watched n busy =
      ((List.range n).filter fun id => !p.isRetired id).filter (p.inView busy) := by
  have hordered := Std.ExtTreeSet.ordered_toList (t := (Std.ExtTreeSet.ofList (List.range
    (min n (busy.size + p.retired.size + 2)))).insertMany busy.keys)
  refine List.Pairwise.eq_of_mem_iff (r := (· < ·)) ?_ ?_ fun id => ?_
  · exact (hordered.imp Nat.compare_eq_lt.mp).filter _
  · exact (List.pairwise_lt_range.filter _).filter _
  · simp only [watched, inView, List.mem_filter, Std.ExtTreeSet.mem_toList,
      Std.ExtTreeSet.mem_insertMany_list, Std.ExtTreeSet.mem_ofList, List.contains_iff_mem,
      List.mem_range, Bool.and_eq_true, Bool.or_eq_true, decide_eq_true_eq,
      Std.ExtTreeMap.mem_keys, Std.ExtTreeMap.contains_iff_mem, lt_min_iff]
    tauto

theorem liveLoads_eq :
    p.liveLoads n = ((List.range n).filter fun id => !p.isRetired id).map
      fun id => ((p.graph.busyLoads p.tuning.crossCost)[id]?).getD (.idle id) := by
  rw [liveLoads, Graph.loads, List.filter_map]
  congr 1
  refine List.filter_congr fun id _ => ?_
  simp only [Function.comp_apply, Graph.getD_busyLoads, Graph.partition_loadOn]

end

variable {p : Planner W} {n : Nat} {busy : Std.ExtTreeMap PartitionId (Load W)}

/-! ## The first overloaded partition -/

omit [Weight W] in
/-- A list does not hold all numbers below a bound that is above its length. -/
theorem exists_lt_notMem {l : List Nat} {bound : Nat} (h : l.length < bound) :
    ∃ i < bound, i ∉ l := by
  by_contra hall
  have hsubset : List.range bound ⊆ l := by
    intro i hi
    by_contra hnot
    exact hall ⟨i, List.mem_range.mp hi, hnot⟩
  have hle := (List.subperm_of_subset List.nodup_range hsubset).length_le
  rw [List.length_range] at hle
  omega

omit [Weight W] in
theorem inView_eq_false_iff {id : PartitionId} :
    p.inView busy id = false ↔ busy.size + p.retired.size + 2 ≤ id ∧ id ∉ busy := by
  rw [inView, Bool.or_eq_false_iff, decide_eq_false_iff_not, Nat.not_lt, ← Bool.not_eq_true,
    Std.ExtTreeMap.contains_iff_mem]

omit [Weight W] in
/-- An idle partition in service comes before any that is not watched, and it need not be the
excluded one. -/
theorem exists_idle_inView (excluding : Option PartitionId) {id : PartitionId}
    (h : p.inView busy id = false) :
    ∃ i < id, p.isRetired i = false ∧ i ∉ busy ∧ p.inView busy i = true ∧
      excluding ≠ some i := by
  have hlength : (excluding.toList ++ busy.keys ++ p.retired.toList).length <
      busy.size + p.retired.size + 2 := by
    have hone : excluding.toList.length ≤ 1 := by cases excluding <;> simp
    rw [List.length_append, List.length_append, Std.ExtTreeMap.length_keys,
      Std.ExtTreeSet.length_toList]
    omega
  obtain ⟨i, hlt, hnot⟩ := exists_lt_notMem hlength
  rw [List.mem_append, List.mem_append, not_or, not_or, Option.mem_toList,
    Std.ExtTreeMap.mem_keys, Std.ExtTreeSet.mem_toList] at hnot
  obtain ⟨⟨hother, hidle⟩, hlive⟩ := hnot
  refine ⟨i, Nat.lt_of_lt_of_le hlt (inView_eq_false_iff.mp h).1, ?_, hidle, ?_, hother⟩
  · simpa [isRetired] using hlive
  · simp [inView, hlt]

omit [Weight W] in
/-- The first number with a property is kept, if one that is kept comes before any that is not. -/
theorem find?_filter_of_first {l : List Nat} (hl : l.Pairwise (· < ·)) {keep good : Nat → Bool}
    (h : ∀ x ∈ l, good x = true → keep x = false →
      ∃ y ∈ l, y < x ∧ keep y = true ∧ good y = true) :
    (l.filter keep).find? good = l.find? good := by
  induction l with
  | nil => rfl
  | cons x rest ih =>
    obtain ⟨hx, hrest⟩ := List.pairwise_cons.mp hl
    cases hgood : good x with
    | true =>
      have hkeep : keep x = true := by
        by_contra hnot
        obtain ⟨y, hy, hlt, -⟩ := h x List.mem_cons_self hgood (Bool.eq_false_iff.mpr hnot)
        rcases List.mem_cons.mp hy with rfl | hy
        · exact Nat.lt_irrefl y hlt
        · exact Nat.lt_asymm hlt (hx y hy)
      rw [List.filter_cons_of_pos hkeep, List.find?_cons_of_pos hgood,
        List.find?_cons_of_pos hgood]
    | false =>
      have hskip : ¬ good x = true := by simp [hgood]
      have hlater : (rest.filter keep).find? good = rest.find? good := by
        refine ih hrest fun z hz hgoodz hkeepz => ?_
        obtain ⟨y, hy, hlt, hkeepy, hgoody⟩ := h z (List.mem_cons_of_mem x hz) hgoodz hkeepz
        rcases List.mem_cons.mp hy with rfl | hy
        · exact absurd hgoody hskip
        · exact ⟨y, hy, hlt, hkeepy, hgoody⟩
      rw [List.find?_cons_of_neg hskip, ← hlater, List.filter_cons]
      split
      · rw [List.find?_cons_of_neg hskip]
      · rfl

theorem find?_watchedLoads (p : Planner W) (n : Nat) (threshold : W) :
    (p.watchedLoads n (p.graph.busyLoads p.tuning.crossCost)).find? (threshold < ·.total) =
      (p.liveLoads n).find? (threshold < ·.total) := by
  rw [watchedLoads, watched_eq, liveLoads_eq, List.find?_map, List.find?_map,
    find?_filter_of_first (List.pairwise_lt_range.filter _)]
  intro id hid hgood hunseen
  obtain ⟨i, hlt, hlive, hidle, hview, -⟩ := exists_idle_inView none hunseen
  rw [List.mem_filter, List.mem_range] at hid
  refine ⟨i, ?_, hlt, hview, ?_⟩
  · rw [List.mem_filter, List.mem_range, hlive]
    exact ⟨hlt.trans hid.1, rfl⟩
  · -- Both partitions are idle, and idle partitions have the same load.
    have hidle' := (inView_eq_false_iff.mp hunseen).2
    rw [Function.comp_apply, Std.ExtTreeMap.getElem?_eq_none hidle'] at hgood
    rw [Function.comp_apply, Std.ExtTreeMap.getElem?_eq_none hidle]
    exact hgood

/-- A pass takes on the lowest partition in service above the threshold. -/
theorem overload?_eq (p : Planner W) (n : Nat) :
    p.overload? n = ((p.liveLoads n).find? (p.nextThreshold n < ·.total)).map fun l =>
      p.overloadAt n (p.graph.busyLoads p.tuning.crossCost) (p.nextThreshold n) l.partition := by
  rw [← find?_watchedLoads]
  rfl

/-! ## The least loaded partition -/

omit [Weight W] in
/-- Some partition is watched besides `partition` if there is another one in service. -/
theorem exists_watched (busy : Std.ExtTreeMap PartitionId (Load W)) {partition d : PartitionId}
    (hd : p.InService n d) (hne : d ≠ partition) :
    ∃ id ∈ p.watched n busy, id ≠ partition := by
  cases hview : p.inView busy d with
  | true =>
    refine ⟨d, ?_, hne⟩
    simp [watched_eq, hd.1, hd.2, hview]
  | false =>
    obtain ⟨i, hlt, hlive, -, hi, hother⟩ := exists_idle_inView (some partition) hview
    refine ⟨i, ?_, fun heq => hother (congrArg some heq.symm)⟩
    simp [watched_eq, hlt.trans hd.1, hlive, hi]

/-- A lightest partition is known if there is another one in service. -/
theorem exists_lightest
    (hbusy : ∀ (id : PartitionId) (l : Load W), busy[id]? = some l → l.partition = id)
    {partition d : PartitionId} (hd : p.InService n d) (hne : d ≠ partition) (threshold : W) :
    ∃ dest, (p.overloadAt n busy threshold partition).lightest = some dest := by
  obtain ⟨id, hid, hother⟩ := exists_watched busy hd hne
  have hpartition : ((busy[id]?).getD (.idle id)).partition = id := by
    cases hl : busy[id]? with
    | none => rfl
    | some l => exact hbusy id l hl
  rw [← Option.ne_none_iff_exists', overloadAt, leastLoaded?, ne_eq, Option.map_eq_none_iff,
    choose_eq_none_iff]
  refine List.ne_nil_of_mem (List.mem_filter.mpr ⟨List.mem_map_of_mem hid, ?_⟩)
  simpa [hpartition] using hother.symm

/-! ## The threshold -/

omit [Weight W] in
/-- So many partitions are in service. -/
theorem length_live (p : Planner W) (n : Nat) :
    ((List.range n).filter fun id => !p.isRetired id).length = p.liveCount n := by
  have hretired : ((List.range n).filter p.isRetired).length = p.retiredCount n := by
    rw [retiredCount, ← Std.ExtTreeSet.length_toList]
    refine List.Perm.length_eq ((List.perm_ext_iff_of_nodup (List.nodup_range.filter _)
      (Collections.nodup_toList _)).mpr fun id => ?_)
    simp [isRetired, and_comm]
  have hsplit := List.length_eq_length_filter_add (l := List.range n) p.isRetired
  rw [List.length_range, hretired] at hsplit
  rw [liveCount]
  exact (Nat.sub_eq_of_eq_add' hsplit).symm

/-- Partitions that are not watched make no difference to the sum of the loads, if idle loads add
nothing. -/
theorem sum_watchedLoads (p : Planner W) (n : Nat) (hidle : ∀ w : W, w + (0 + 0) = w) :
    Weight.sum ((p.watchedLoads n (p.graph.busyLoads p.tuning.crossCost)).map (·.total)) =
      Weight.sum ((p.liveLoads n).map (·.total)) := by
  rw [watchedLoads, watched_eq, liveLoads_eq, Weight.sum, Weight.sum, List.foldl_map,
    List.foldl_map, List.foldl_map, List.foldl_map, List.foldl_filter]
  refine List.foldl_ext _ _ _ fun total id _ => ?_
  split
  · rfl
  · next hunseen =>
    have hid := (inView_eq_false_iff.mp (Bool.eq_false_iff.mpr hunseen)).2
    rw [Std.ExtTreeMap.getElem?_eq_none hid]
    exact (hidle total).symm

/-- The threshold is the mean load of all partitions in service, scaled by the overload factor. -/
theorem nextThreshold_eq (p : Planner W) (n : Nat) (hidle : ∀ w : W, w + (0 + 0) = w) :
    p.nextThreshold n = Weight.sum ((p.liveLoads n).map (·.total)) / ((p.liveLoads n).length : W) *
      p.tuning.overload := by
  rw [nextThreshold, threshold, sum_watchedLoads p n hidle, liveLoads_eq, List.length_map,
    length_live]

end Planner

end Reshard
