import Reshard.Proofs.Access.ClumpRenaming
import Reshard.Proofs.Access.Nonneg
import Reshard.Proofs.Selection

/-!
What is selected from a graph and a clump: the hottest vertex of a partition (`picks_hottest?`), the
hottest neighbour of a clump (`picks_hottestNeighbour?`), and the partition that most weight of
edges leads to from a clump (`picks_mostCoAccessed?`). Each is the best of its candidates, in
whatever order they are looked at, and ties go to the lowest key or partition.
-/

namespace Reshard

open Weight

/-! ## Vertices -/

namespace Graph

variable {W : Type} [Weight W] [Weight.Ordered W] {g : Graph W}

/-- The hottest vertex on a partition is the one there that no other is hotter than. -/
theorem picks_hottest? (hg : g.Reachable) (p : PartitionId) :
    Picks (fun id => g.partitionOf? id = some p)
      (fun a b => Precedes (· > ·) (g.heat a) (g.heat b)) (g.hottest? p) := by
  have hlt : ∀ id ∈ g.residents p, id < g.size :=
    fun id hid => lt_size_of_partition (mem_residents_iff.mp hid)
  have hpicks : Picks (· ∈ g.residents p) (fun a b => Precedes (· > ·) (g.heat a) (g.heat b))
      (g.hottest? p) := by
    refine picks_choose ranking_gt g.heat ?number ?name ?beats
    case number =>
      intro id hid
      obtain ⟨v, hv⟩ := exists_vertex (hlt id hid)
      rw [heat_of_vertex hv]
      exact isNumber_of_nonneg (nonneg_of_reachable hg id v hv).weight
    case name => exact fun a ha b hb => (sound_of_reachable hg).nameOf_ne (hlt a ha) (hlt b hb)
    case beats =>
      exact List.pairwise_of_forall_mem_list fun a ha b hb => hotter_iff (hlt b hb) (hlt a ha)
  simpa only [mem_residents_iff] using hpicks

end Graph

/-! ## Neighbours -/

namespace Clump

variable {W : Type} [Weight W] {g : Graph W} {c : Clump W}

/-- What vertices of the frontier are compared by: the weight of what connects them with the clump,
and the key. -/
def closeness (c : Clump W) (g : Graph W) (id : VertexId) : W × Key :=
  ((c.frontier[id]?).getD 0, g.nameOf id)

theorem closeness_of_entry {e : VertexId × W} (he : e ∈ c.frontier.toList) :
    c.closeness g e.1 = (e.2, g.nameOf e.1) := by
  rw [closeness, Std.ExtTreeMap.mem_toList_iff_getElem?_eq_some.mp he]
  rfl

/-- The hottest neighbour of a clump is the one that no other is hotter than. -/
theorem picks_hottestNeighbour? [Weight.Ordered W] (hc : Reachable g c) :
    Picks (· ∈ c.frontier) (fun a b => Precedes (· > ·) (c.closeness g a) (c.closeness g b))
      (c.hottestNeighbour? g) := by
  have hsound := Graph.sound_of_reachable hc.graph
  have hlt : ∀ e ∈ c.frontier.toList, e.1 < g.size :=
    fun e he => hc.within _ (mem_frontier_of_entry he)
  have hnumber : ∀ e ∈ c.frontier.toList, IsNumber e.2 := fun e he =>
    isNumber_of_nonneg (hc.nonneg _ _ (Std.ExtTreeMap.mem_toList_iff_getElem?_eq_some.mp he))
  have hname : ∀ d ∈ c.frontier.toList, ∀ e ∈ c.frontier.toList, d ≠ e →
      g.nameOf d.1 ≠ g.nameOf e.1 := fun d hd e he hne =>
    hsound.nameOf_ne (hlt d hd) (hlt e he) (mt (Collections.entry_inj hd he) hne)
  rw [hottestNeighbour?_eq_choose]
  refine Picks.map (picks_choose ranking_gt (fun e => (e.2, g.nameOf e.1)) hnumber hname ?beats)
    ?inj ?candidate ?better
  case beats =>
    refine Std.ExtTreeMap.distinct_keys_toList.imp_of_mem fun {best new} hbest hnew hne => ?_
    refine nearer_iff hsound (hlt new hnew) (hlt best hbest) (hnumber new hnew) (hnumber best hbest)
      fun heq => hne (Std.compare_eq_iff_eq.mpr heq.symm)
  case inj => exact fun d hd e he => Collections.entry_inj hd he
  case candidate =>
    intro a
    rw [← Std.ExtTreeMap.mem_keys, ← Std.ExtTreeMap.map_fst_toList_eq_keys, List.mem_map]
  case better =>
    intro d hd e he
    rw [closeness_of_entry hd, closeness_of_entry he]

end Clump

/-! ## Partitions next to a clump -/

section

variable {W : Type} [Weight W]

/-- The weights of the ties that lead outside to a partition. -/
def Tie.weightsTo (q : PartitionId) (ties : List (Tie W)) : List W :=
  (ties.filter fun t => !t.inside && t.target = q).map (·.weight)

/-- The weights of the edges from members to vertices outside on a partition, in the order of the
members and of their neighbours. -/
def Clump.boundary (c : Clump W) (g : Graph W) (q : PartitionId) : List W :=
  c.members.toList.flatMap fun a =>
    ((g.edgesOf a).toList.filter fun e =>
      e.1 ∉ c.members ∧ g.partitionOf? e.1 = some q).map (·.2)

/-- What partitions are compared by: the summed weight of the edges that lead there from the clump,
and the number. -/
def Clump.attraction (c : Clump W) (g : Graph W) (q : PartitionId) : W × PartitionId :=
  (Weight.sum (c.boundary g q), q)

omit [Weight W] in
theorem Tie.weightsTo_cons (q : PartitionId) (t : Tie W) (rest : List (Tie W)) :
    weightsTo q (t :: rest) =
      if t.inside = false ∧ t.target = q then t.weight :: weightsTo q rest
      else weightsTo q rest := by
  rw [weightsTo, List.filter_cons]
  split <;> simp_all [weightsTo]

/-- One tie is counted among the co-accesses. -/
def Tie.count (sums : Std.ExtTreeMap PartitionId W) (t : Tie W) : Std.ExtTreeMap PartitionId W :=
  if t.inside then sums else sums.alter t.target fun old => some (old.getD 0 + t.weight)

theorem Tie.getD_foldl_count (q : PartitionId) (ties : List (Tie W))
    (sums : Std.ExtTreeMap PartitionId W) :
    ((ties.foldl count sums)[q]?).getD (0 : W) =
      (weightsTo q ties).foldl (· + ·) ((sums[q]?).getD 0) := by
  induction ties generalizing sums with
  | nil => rfl
  | cons t rest ih =>
    rw [List.foldl_cons, ih, weightsTo_cons, count]
    by_cases hinside : t.inside = true <;> by_cases htarget : t.target = q <;>
      simp [hinside, htarget, Std.ExtTreeMap.getElem?_alter]

theorem Profile.getD_coAccess (f : Profile W) (q : PartitionId) :
    (f.coAccess[q]?).getD (0 : W) = Weight.sum (Tie.weightsTo q f.ties) :=
  Tie.getD_foldl_count q f.ties ∅

namespace Clump

variable {c : Clump W} {g : Graph W} {q : PartitionId}

omit [Weight W] in
theorem weightsTo_tiesOf (v : Vertex W) (rest : List (Tie W)) :
    Tie.weightsTo q (c.tiesOf g v rest) =
      (v.edges.toList.filter fun e =>
        e.1 ∉ c.members ∧ g.partitionOf? e.1 = some q).map (·.2) ++
        Tie.weightsTo q rest := by
  rw [tiesOf, Std.ExtTreeMap.foldr_eq_foldr_toList]
  induction v.edges.toList with
  | nil => rfl
  | cons e others ih =>
    rw [List.foldr_cons]
    cases hp : g.partitionOf? e.1 with
    | none => simpa [hp] using ih
    | some target =>
      dsimp only
      rw [Tie.weightsTo_cons, ih]
      by_cases hin : e.1 ∈ c.members <;> by_cases ht : target = q <;> simp [hp, hin, ht]

omit [Weight W] in
theorem weightsTo_profile : Tie.weightsTo q (c.profile g).ties = c.boundary g q := by
  rw [profile, boundary]
  dsimp only
  induction c.members.toList with
  | nil => rfl
  | cons a rest ih =>
    rw [List.flatMap_cons, ← ih]
    cases hv : g.vertex? a with
    | none => simp [hv, Graph.edgesOf]
    | some v => simp [hv, weightsTo_tiesOf, Graph.edgesOf_of_vertex hv]

theorem getD_coAccess_profile (c : Clump W) (g : Graph W) (q : PartitionId) :
    ((c.profile g).coAccess[q]?).getD (0 : W) = (c.attraction g q).1 := by
  rw [Profile.getD_coAccess, weightsTo_profile]
  rfl

theorem attraction_of_entry {e : PartitionId × W} (he : e ∈ (c.profile g).coAccess.toList) :
    c.attraction g e.1 = (e.2, e.1) := by
  have hweight := getD_coAccess_profile c g e.1
  rw [Std.ExtTreeMap.mem_toList_iff_getElem?_eq_some.mp he] at hweight
  exact Prod.ext hweight.symm rfl

variable [Weight.Ordered W]

theorem attraction_nonneg (hg : g.Reachable) (c : Clump W) (q : PartitionId) :
    0 ≤ (c.attraction g q).1 := by
  refine sum_nonneg fun w hw => ?_
  obtain ⟨a, -, hw⟩ := List.mem_flatMap.mp hw
  obtain ⟨e, he, rfl⟩ := List.mem_map.mp hw
  have hentry := Std.ExtTreeMap.mem_toList_iff_getElem?_eq_some.mp (List.mem_of_mem_filter he)
  cases hv : g.vertex? a with
  | none =>
    rw [Graph.edgesOf, hv] at hentry
    simp at hentry
  | some v =>
    rw [Graph.edgesOf_of_vertex hv] at hentry
    exact (Graph.nonneg_of_reachable hg a v hv).edges e.1 e.2 hentry

/-- The partitions that the scan looks at. -/
theorem exists_entry_iff (hg : g.Reachable) {n : Nat} {excluded : List PartitionId} :
    (∃ e ∈ (c.profile g).coAccess.toList.filter fun e =>
      e.1 < n && !(e.2 ≤ 0) && !excluded.contains e.1, e.1 = q) ↔
      q < n ∧ q ∉ excluded ∧ 0 < (c.attraction g q).1 := by
  have hpositive : 0 < (c.attraction g q).1 ↔ ¬ (c.attraction g q).1 ≤ 0 :=
    Ordered.lt_iff isNumber_zero (isNumber_of_nonneg (attraction_nonneg hg c q))
  rw [hpositive]
  constructor
  · rintro ⟨e, he, rfl⟩
    obtain ⟨hentry, hkept⟩ := List.mem_filter.mp he
    rw [attraction_of_entry hentry]
    simpa [and_right_comm, and_assoc] using hkept
  · rintro ⟨hlt, hnot, hpos⟩
    have hweight := getD_coAccess_profile c g q
    cases hw : (c.profile g).coAccess[q]? with
    | none =>
      rw [hw, Option.getD_none] at hweight
      rw [← hweight] at hpos
      exact absurd zero_le_zero hpos
    | some w =>
      rw [hw, Option.getD_some] at hweight
      refine ⟨(q, w), List.mem_filter.mpr ⟨?_, ?_⟩, rfl⟩
      · exact Std.ExtTreeMap.mem_toList_iff_getElem?_eq_some.mpr hw
      · simp [hlt, hnot, hweight, hpos]

/-- The partition that a clump is most co-accessed with is the one, of those below `n` that are not
excluded and that edges of positive weight lead to, that no other precedes. -/
theorem picks_mostCoAccessed? (hg : g.Reachable) (c : Clump W) (n : Nat)
    (excluded : List PartitionId) :
    Picks (fun q => q < n ∧ q ∉ excluded ∧ 0 < (c.attraction g q).1)
      (fun p q => Precedes (· > ·) (c.attraction g p) (c.attraction g q))
      (c.mostCoAccessed? g n excluded) := by
  rw [mostCoAccessed?, Profile.mostCoAccessed?]
  refine Picks.map (picks_choose ranking_gt (fun e => c.attraction g e.1) ?number ?name ?beats)
    ?inj (fun q => (exists_entry_iff hg).symm) fun _ _ _ _ => Iff.rfl
  case number => exact fun e _ => isNumber_of_nonneg (attraction_nonneg hg c e.1)
  case inj =>
    exact fun d hd e he =>
      Collections.entry_inj (List.mem_of_mem_filter hd) (List.mem_of_mem_filter he)
  case name =>
    exact fun d hd e he =>
      mt (Collections.entry_inj (List.mem_of_mem_filter hd) (List.mem_of_mem_filter he))
  case beats =>
    refine (Std.ExtTreeMap.ordered_keys_toList.imp_of_mem ?_).filter _
    intro best new hbest hnew hlt
    have hbehind : ¬ new.1 < best.1 := Nat.lt_asymm (Nat.compare_eq_lt.mp hlt)
    rw [attraction_of_entry hbest, attraction_of_entry hnew, precedes_iff_of_not_lt hbehind,
      decide_eq_true_eq]

end Clump

end

end Reshard
