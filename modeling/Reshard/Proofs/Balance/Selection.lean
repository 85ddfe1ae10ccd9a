import Reshard.Proofs.Access.Selection
import Reshard.Proofs.Balance.Watched
import Reshard.Proofs.Floats

/-!
What the planner selects. The least loaded partition of a list is the one that no other precedes,
by the load and then by the number (`picks_leastLoaded?`). The planner looks at those only that it
watches, but what it finds is the least loaded of all in service (`picks_lightest`). With what is
selected from graphs and clumps this says of every scan that it finds the best of its candidates
(`selects_best`), whether weights are exact or rounded.
-/

namespace Reshard

open Weight

/-! ## Loads in a list -/

section

variable {W : Type} [Weight W] {loads : List (Load W)}

/-- The load of a partition, as the list has it. -/
def Load.totalIn (loads : List (Load W)) (q : PartitionId) : W :=
  ((loads.find? (·.partition = q)).map Load.total).getD 0

omit [Weight W] in
/-- A partition is in the list once. -/
theorem Load.eq_of_partition (h : loads.Pairwise (·.partition < ·.partition)) {l l' : Load W}
    (hl : l ∈ loads) (hl' : l' ∈ loads) (heq : l.partition = l'.partition) : l = l' :=
  List.inj_on_of_nodup_map (List.pairwise_map.mpr (h.imp Nat.ne_of_lt)) hl hl' heq

theorem Load.totalIn_of_mem (h : loads.Pairwise (·.partition < ·.partition)) {l : Load W}
    (hl : l ∈ loads) : Load.totalIn loads l.partition = l.total := by
  have hfound : (loads.find? (·.partition = l.partition)).isSome = true :=
    List.find?_isSome.mpr ⟨l, hl, decide_eq_true rfl⟩
  obtain ⟨l', hl'⟩ := Option.isSome_iff_exists.mp hfound
  have hpartition : l'.partition = l.partition := by simpa using List.find?_some hl'
  rw [Load.totalIn, hl', Load.eq_of_partition h (List.mem_of_find?_eq_some hl') hl hpartition]
  rfl

variable [Weight.Ordered W]

/-- The least loaded partition is the one, of those in the list that are not excluded, that no other
precedes. -/
theorem picks_leastLoaded? (h : loads.Pairwise (·.partition < ·.partition))
    (total : PartitionId → W) (htotal : ∀ l ∈ loads, total l.partition = l.total)
    (hnumber : ∀ l ∈ loads, IsNumber l.total) (excluding : Option PartitionId) :
    Picks (fun q => (∃ l ∈ loads, l.partition = q) ∧ excluding ≠ some q)
      (fun a b => Precedes (· < ·) (total a, a) (total b, b)) (leastLoaded? loads excluding) := by
  rw [leastLoaded?]
  refine Picks.map (picks_choose ranking_lt (fun l : Load W => (l.total, l.partition)) ?number ?name
    ?beats) ?inj ?candidate ?better
  case number => exact fun l hl => hnumber l (List.mem_of_mem_filter hl)
  case inj =>
    exact fun l hl l' hl' =>
      Load.eq_of_partition h (List.mem_of_mem_filter hl) (List.mem_of_mem_filter hl')
  case name =>
    exact fun l hl l' hl' =>
      mt (Load.eq_of_partition h (List.mem_of_mem_filter hl) (List.mem_of_mem_filter hl'))
  case beats =>
    -- The number of a later partition is never lower, so that an equal load does not win.
    refine (h.imp fun {best new} hlt => ?_).filter _
    rw [precedes_iff_of_not_lt (Nat.lt_asymm hlt), decide_eq_true_eq]
  case candidate =>
    intro q
    constructor
    · rintro ⟨⟨l, hl, rfl⟩, hother⟩
      exact ⟨l, List.mem_filter.mpr ⟨hl, decide_eq_true hother⟩, rfl⟩
    · rintro ⟨l, hl, rfl⟩
      obtain ⟨hl, hother⟩ := List.mem_filter.mp hl
      exact ⟨⟨l, hl, rfl⟩, of_decide_eq_true hother⟩
  case better =>
    intro l hl l' hl'
    rw [htotal l (List.mem_of_mem_filter hl), htotal l' (List.mem_of_mem_filter hl')]

end

/-! ## Loads that are watched -/

namespace Planner

section

variable {W : Type} [Weight W] (p : Planner W) (n : Nat)

/-- What partitions are compared by: the load, and the number. -/
def burden (q : PartitionId) : W × PartitionId :=
  ((p.graph.loadOn p.tuning.crossCost q).total, q)

theorem watchedLoads_eq : p.watchedLoads n (p.graph.busyLoads p.tuning.crossCost) =
    (p.watched n (p.graph.busyLoads p.tuning.crossCost)).map
      (p.graph.loadOn p.tuning.crossCost) :=
  List.map_congr_left fun q _ => Graph.getD_busyLoads p.graph p.tuning.crossCost q

theorem watchedLoads_ordered :
    (p.watchedLoads n (p.graph.busyLoads p.tuning.crossCost)).Pairwise
      (·.partition < ·.partition) := by
  rw [watchedLoads_eq, watched_eq, List.pairwise_map]
  simp only [Graph.partition_loadOn]
  exact (List.pairwise_lt_range.filter _).filter _

variable {p n}

theorem exists_watchedLoad_iff {q : PartitionId} :
    (∃ l ∈ p.watchedLoads n (p.graph.busyLoads p.tuning.crossCost), l.partition = q) ↔
      p.InService n q ∧ p.inView (p.graph.busyLoads p.tuning.crossCost) q = true := by
  simp [watchedLoads_eq, watched_eq, Graph.partition_loadOn, InService, and_right_comm, and_assoc]

/-- Partitions without vertices have the same load. -/
theorem total_of_idle {q : PartitionId} (h : q ∉ p.graph.busyLoads p.tuning.crossCost) :
    (p.graph.loadOn p.tuning.crossCost q).total = 0 + 0 := by
  rw [← Graph.getD_busyLoads, Std.ExtTreeMap.getElem?_eq_none h]
  rfl

variable [Weight.Ordered W]

/-- The least loaded of the watched partitions is the one, of all in service that are not excluded,
that no other precedes. -/
theorem picks_lightest (hnumber : ∀ q, p.InService n q → IsNumber (p.burden q).1)
    (excluding : Option PartitionId) :
    Picks (fun q => p.InService n q ∧ excluding ≠ some q)
      (fun a b => Precedes (· < ·) (p.burden a) (p.burden b))
      (leastLoaded? (p.watchedLoads n (p.graph.busyLoads p.tuning.crossCost)) excluding) := by
  have hload : ∀ l ∈ p.watchedLoads n (p.graph.busyLoads p.tuning.crossCost),
      (p.burden l.partition).1 = l.total := by
    intro l hl
    rw [watchedLoads_eq] at hl
    obtain ⟨q, -, rfl⟩ := List.mem_map.mp hl
    rw [burden, Graph.partition_loadOn]
  have hwatched := picks_leastLoaded? (p.watchedLoads_ordered n) (fun q => (p.burden q).1)
    hload (fun l hl => hload l hl ▸ hnumber _ (inService_of_watchedLoads hl)) excluding
  refine hwatched.enlarge ?_ ?_ ?_ ?_
  · exact fun q hq => ⟨(exists_watchedLoad_iff.mp hq.1).1, hq.2⟩
  · exact fun a b ha hb => ranking_lt.precedes_asymm (hnumber a ha.1) (hnumber b hb.1)
  · exact fun a b c ha hb hc =>
      ranking_lt.precedes_trans (hnumber a ha.1) (hnumber b hb.1) (hnumber c hc.1)
  · -- A partition that is not watched is idle, and comes after one that is watched and idle, too.
    rintro q ⟨hlive, hother⟩ hnot
    have hunseen : p.inView (p.graph.busyLoads p.tuning.crossCost) q = false := by
      rw [← Bool.not_eq_true]
      exact fun hview => hnot ⟨exists_watchedLoad_iff.mpr ⟨hlive, hview⟩, hother⟩
    obtain ⟨i, hlt, hi, hidle, hview, hother'⟩ := exists_idle_inView excluding hunseen
    have hservice : p.InService n i := ⟨hlt.trans hlive.1, hi⟩
    refine ⟨i, ⟨exists_watchedLoad_iff.mpr ⟨hservice, hview⟩, hother'⟩,
      .inr ⟨?_, hlt⟩⟩
    have hsame : (p.burden i).1 = (p.burden q).1 := by
      rw [burden, burden, total_of_idle hidle, total_of_idle (inView_eq_false_iff.mp hunseen).2]
    rw [← hsame]
    exact hnumber i hservice

end

/-! ## All selections -/

/-- Whatever is selected is the best of its candidates, and nothing is selected if and only if
there are none. Of the vertices on a partition it is the one of most weight, and of a clump's
frontier the one that most weight connects with the clump; of equals, the one of the lowest key. Of
the partitions below `n` that edges of positive weight lead to from a clump it is the one with most
of it, and of those in a list of loads, or in service, the one of the least load; of equals, the
lowest. Loads have to be numbers, as counts always are. -/
theorem selects_best {W : Type} [Weight W] [Weight.Ordered W] :
    (∀ g : Graph W, g.Reachable → ∀ p : PartitionId,
      Picks (fun id => g.partitionOf? id = some p)
        (fun a b => Precedes (· > ·) (g.heat a) (g.heat b)) (g.hottest? p)) ∧
    (∀ (g : Graph W) (c : Clump W), Clump.Reachable g c →
      Picks (· ∈ c.frontier) (fun a b => Precedes (· > ·) (c.closeness g a) (c.closeness g b))
        (c.hottestNeighbour? g) ∧
      ∀ (n : Nat) (excluded : List PartitionId),
        Picks (fun q => q < n ∧ q ∉ excluded ∧ 0 < (c.attraction g q).1)
          (fun a b => Precedes (· > ·) (c.attraction g a) (c.attraction g b))
          (c.mostCoAccessed? g n excluded)) ∧
    (∀ (loads : List (Load W)) (excluding : Option PartitionId),
      loads.Pairwise (·.partition < ·.partition) → (∀ l ∈ loads, IsNumber l.total) →
      Picks (fun q => (∃ l ∈ loads, l.partition = q) ∧ excluding ≠ some q)
        (fun a b => Precedes (· < ·) (Load.totalIn loads a, a) (Load.totalIn loads b, b))
        (leastLoaded? loads excluding)) ∧
    (∀ (p : Planner W) (n : Nat) (excluding : Option PartitionId),
      (∀ q, p.InService n q → IsNumber (p.burden q).1) →
      Picks (fun q => p.InService n q ∧ excluding ≠ some q)
        (fun a b => Precedes (· < ·) (p.burden a) (p.burden b))
        (leastLoaded? (p.watchedLoads n (p.graph.busyLoads p.tuning.crossCost)) excluding)) := by
  refine ⟨fun g hg => Graph.picks_hottest? hg, fun g c hc => ⟨?_, ?_⟩, ?_, ?_⟩
  · exact Clump.picks_hottestNeighbour? hc
  · exact Clump.picks_mostCoAccessed? hc.graph c
  · exact fun loads excluding h hnumber =>
      picks_leastLoaded? h _ (fun l hl => Load.totalIn_of_mem h hl) hnumber excluding
  · exact fun p n excluding hnumber => picks_lightest hnumber excluding

/-- Four records. Of the two on partition 0 the first is accessed together with the others, which
are alone on their partitions. Of equal vertices the later ones have the lower keys. -/
def tied : Graph Float :=
  .run [.access ⟨"t", 9⟩ 0, .access ⟨"t", 4⟩ 0, .access ⟨"t", 8⟩ 1,
    .access ⟨"t", 6⟩ 2, .coAccess [⟨"t", 9⟩, ⟨"t", 8⟩, ⟨"t", 6⟩]]

/-- Partition 3 is retired, and all after it are idle. -/
def tiedPlanner : Planner Float where
  tuning :=
    { crossCost := 1.0, overload := 1.3, lookAhead := 5, clumpMaxSize := 10, maxClumps := 1 }
  graph := tied
  retired := {3}

/-- In floating-point arithmetic all of these are ties, and the lowest key or partition wins. -/
theorem selects_best_tied : ∃ c, Clump.seed tied 0 1 = .ok c ∧
    Picks (fun id => tied.partitionOf? id = some 0)
      (fun a b => Precedes (· > ·) (tied.heat a) (tied.heat b)) (some 1) ∧
    Picks (· ∈ c.frontier)
      (fun a b => Precedes (· > ·) (c.closeness tied a) (c.closeness tied b)) (some 3) ∧
    Picks (fun q => q < 3 ∧ q ∉ [] ∧ 0 < (c.attraction tied q).1)
      (fun a b => Precedes (· > ·) (c.attraction tied a) (c.attraction tied b)) (some 1) ∧
    Picks (fun q => (∃ l ∈ tied.loads 3 1.0, l.partition = q) ∧ some 0 ≠ some q)
      (fun a b => Precedes (· < ·) (Load.totalIn (tied.loads 3 1.0) a, a)
        (Load.totalIn (tied.loads 3 1.0) b, b)) (some 1) ∧
    Picks (fun q => tiedPlanner.InService 100 q ∧ none ≠ some q)
      (fun a b => Precedes (· < ·) (tiedPlanner.burden a) (tiedPlanner.burden b)) (some 4) := by
  obtain ⟨hvertex, hclump, hlist, hplanner⟩ := selects_best (W := Float)
  have hseed : (Clump.seed tied 0 1).toOption.map (fun c =>
      (c.hottestNeighbour? tied, c.mostCoAccessed? tied 3 [])) = some (some 3, some 1) := by
    decide +kernel
  obtain ⟨c, hc, hselected⟩ := Option.map_eq_some_iff.mp hseed
  obtain ⟨hneighbour, hpartition⟩ := Prod.mk.inj hselected
  have hgraph : tied.Reachable := Graph.reachable_run _
  have hreach : Clump.Reachable tied c := .seed hgraph (Outcome.eq_ok_of_toOption hc)
  have hhottest : tied.hottest? 0 = some 1 := by decide +kernel
  have hleast : leastLoaded? (tied.loads 3 1.0) (some 0) = some 1 := by decide +kernel
  have hlightest : leastLoaded? (tiedPlanner.watchedLoads 100
      (tiedPlanner.graph.busyLoads tiedPlanner.tuning.crossCost)) none = some 4 := by decide +kernel
  have hordered : (tied.loads 3 1.0).Pairwise (·.partition < ·.partition) := by decide +kernel
  have hloads : ∀ l ∈ tied.loads 3 1.0, (l.total == l.total) = true := by decide +kernel
  have hburdens : ∀ q < 100, ((tiedPlanner.burden q).1 == (tiedPlanner.burden q).1) = true := by
    decide +kernel
  refine ⟨c, Outcome.eq_ok_of_toOption hc, ?_, ?_, ?_, ?_, ?_⟩
  · exact hhottest ▸ hvertex tied hgraph 0
  · exact hneighbour ▸ (hclump tied c hreach).1
  · exact hpartition ▸ (hclump tied c hreach).2 3 []
  · exact hleast ▸ hlist (tied.loads 3 1.0) (some 0) hordered hloads
  · exact hlightest ▸ hplanner tiedPlanner 100 none fun q hq => hburdens q hq.1

end Planner

end Reshard
