import Reshard.Proofs.Access.Expansion
import Reshard.Proofs.Access.Loads
import Reshard.Proofs.Balance.Emission
import Reshard.Proofs.Balance.Growth
import Reshard.Proofs.Choice

/-!
Where plans send records. However the destination of a clump is chosen, and however often it changes
while the clump grows, it is a partition in service (`inService_of_nextClump`), so that every move
of a plan takes records that the planner has seen from elsewhere to a partition in service
(`wellFormed_of_plan`). No law of weights is used: comparisons of loads may come out in any way.
-/

namespace Reshard

open Outcome

variable {W : Type}

/-! ## The destination of a clump -/

namespace Planner

/-- A partition below `n` that was not retired. -/
def InService (p : Planner W) (n : Nat) (partition : PartitionId) : Prop :=
  partition < n ∧ p.isRetired partition = false

variable [Weight W] {p : Planner W} {o : Overload W} {n : Nat}

theorem isSome_liveLoad?_iff {dest : PartitionId} :
    (p.liveLoad? o dest).isSome = true ↔ p.InService o.partitions dest := by
  rw [liveLoad?, InService]
  split <;> simp_all

theorem inService_of_feasible {gain : PartitionId → W} {dest : PartitionId}
    (h : p.feasible o gain dest = true) : p.InService o.partitions dest := by
  rw [← isSome_liveLoad?_iff]
  rw [feasible] at h
  split at h
  · nomatch h
  · next hload =>
    rw [hload]
    rfl

/-- The partitions whose loads are watched are in service. -/
theorem inService_of_watchedLoads {cost : W} {l : Load W}
    (h : l ∈ p.watchedLoads n (p.graph.busyLoads cost)) : p.InService n l.partition := by
  obtain ⟨id, hid, rfl⟩ := List.mem_map.mp h
  rw [Graph.getD_busyLoads, Graph.partition_loadOn]
  have hkept := (List.mem_filter.mp hid).2
  rw [Bool.and_eq_true, decide_eq_true_eq, Bool.not_eq_true'] at hkept
  exact hkept

theorem mem_of_leastLoaded? {loads : List (Load W)} {excluding : Option PartitionId}
    {dest : PartitionId} (h : leastLoaded? loads excluding = some dest) :
    ∃ l ∈ loads, l.partition = dest := by
  obtain ⟨l, hl, hdest⟩ := Option.map_eq_some_iff.mp h
  exact ⟨l, List.mem_of_mem_filter (mem_of_choose hl), hdest⟩

/-- What a pass starts from: the partitions that are planned over, and a least loaded one in
service. -/
theorem inService_of_overload? (h : p.overload? n = some o) :
    o.partitions = n ∧ ∀ dest, o.lightest = some dest → p.InService n dest := by
  obtain ⟨l, -, rfl⟩ := Option.map_eq_some_iff.mp h
  refine ⟨rfl, fun dest hdest => ?_⟩
  obtain ⟨l', hl', rfl⟩ := mem_of_leastLoaded? hdest
  exact inService_of_watchedLoads hl'

theorem inService_of_initialDest? (hlight : ∀ dest, o.lightest = some dest →
      p.InService o.partitions dest) {id : VertexId} {dest : PartitionId}
    (h : p.initialDest? o id = some dest) : p.InService o.partitions dest := by
  rw [initialDest?] at h
  split at h
  · next hchoose =>
    cases h
    have hkept := (List.mem_filter.mp (mem_of_choose hchoose)).2
    rw [Bool.and_eq_true] at hkept
    exact isSome_liveLoad?_iff.mp hkept.2
  · exact hlight dest h

/-- A clump is settled on another destination only if this can take it. -/
theorem inService_settle {c : Clump W} (hc : p.InService o.partitions c.dest) :
    p.InService o.partitions (p.settle o c).clump.dest := by
  rw [settle]
  cases hdest : p.feasibleDest? o (c.profile p.graph) c.dest with
  | none => exact hc
  | some dest => exact inService_of_feasible (feasible_of_feasibleDest? hdest)

theorem inService_growOnce (c : Clump W) (b : Growth W) (hc : p.InService o.partitions c.dest)
    (h : p.growOnce o c = .ok (some b)) : p.InService o.partitions b.clump.dest := by
  obtain ⟨id, next, -, hnext, rfl⟩ := growOnce_eq_some h
  apply inService_settle
  rw [Clump.dest_expand hnext]
  exact hc

/-- The next clump goes to a partition in service. -/
theorem inService_of_nextClump {c : Clump W} (h : p.nextClump n = .ok (some c)) :
    p.InService n c.dest := by
  obtain ⟨o, ho, hc⟩ := overloadClump_of_nextClump h
  obtain ⟨rfl, hlight⟩ := inService_of_overload? ho
  obtain ⟨id, dest, first, -, hdest, hfirst, hgrow⟩ := overloadClump_eq_some hc
  have hseed : p.InService o.partitions (p.sprout o first).clump.dest := by
    rw [sprout, Clump.dest_seed hfirst]
    exact inService_of_initialDest? hlight hdest
  refine of_grow inService_growOnce _ hseed (fun b hb => ?_) hgrow
  exact absurd hb.symm (Option.some_ne_none b)

/-! ## The moves of all passes -/

/-- A move of observed records to a partition in service. -/
structure Serves (p : Planner W) (n : Nat) (m : Move) : Prop where
  isList : m.IsList
  nonempty : ∃ k, m.covers k = true
  dest : p.InService n m.dest
  dest_ne : m.dest ≠ m.source
  observed : ∀ k, m.covers k = true → ∃ id v, p.graph.vertex? id = some v ∧ v.key = k

omit [Weight W] in
/-- A record is observed if its key has a number. -/
theorem exists_vertex_of_idOf? {g : Graph W} (hg : g.Sound) {k : Key} {id : VertexId}
    (h : g.idOf? k = some id) : ∃ id v, g.vertex? id = some v ∧ v.key = k := by
  obtain ⟨v, hv, hkey⟩ := Option.map_eq_some_iff.mp (hg.key_of_idOf h)
  exact ⟨id, v, hv, hkey⟩

omit [Weight W] in
theorem serves_rawMoves {c : Clump W} (hg : p.graph.Sound) (hdest : p.InService n c.dest) :
    ∀ m ∈ c.rawMoves p.graph, p.Serves n m := by
  intro m hm
  obtain ⟨s, hs, rfl⟩ := List.mem_map.mp hm
  obtain ⟨k, hk⟩ := Clump.exists_carried hs
  obtain ⟨-, -, -, -, hne⟩ := (Clump.mem_carried hg).mp hk
  refine ⟨rfl, ⟨k, Move.covers_ofKeys.mpr hk⟩, hdest, hne.symm, ?_⟩
  intro k' hk'
  obtain ⟨id, -, hid, -⟩ := (Clump.mem_carried hg).mp (Move.covers_ofKeys.mp hk')
  exact exists_vertex_of_idOf? hg hid

omit [Weight W] in
/-- Moving a clump changes no key and retires nothing. -/
theorem Serves.of_apply (hg : p.graph.Sound) {c : Clump W} {m : Move}
    (h : (p.apply c).Serves n m) : p.Serves n m where
  isList := h.isList
  nonempty := h.nonempty
  dest := h.dest
  dest_ne := h.dest_ne
  observed := by
    intro k hk
    obtain ⟨id, v, hv, rfl⟩ := h.observed k hk
    have hkey : (p.apply c).graph.keyOf? id = some v.key := by rw [Graph.keyOf?, hv]; rfl
    have hid := (hg.reassign c.members.toList c.dest).idOf_of_key hkey
    rw [Graph.idOf?_reassign] at hid
    exact exists_vertex_of_idOf? hg hid

theorem serves_emitted {clumps : Nat} {q : Planner W} {ms : List Move} (hg : p.graph.Sound)
    (h : p.emitted n clumps = .ok (ms, q)) : ∀ m ∈ ms, p.Serves n m := by
  induction clumps generalizing p ms with
  | zero =>
    cases h
    exact List.forall_mem_nil _
  | succ clumps ih =>
    rcases emitted_succ h with ⟨-, rfl, rfl⟩ | ⟨c, later, hc, hlater, rfl⟩
    · exact List.forall_mem_nil _
    · rw [c.moves_plan]
      refine List.forall_mem_append.mpr ⟨serves_rawMoves hg (inService_of_nextClump hc), ?_⟩
      intro m hm
      exact (ih (hg.reassign _ _) hlater m hm).of_apply hg

/-! ## Plans -/

omit [Weight W] in
/-- A move that is merged from moves to partitions in service is such a move. -/
theorem serves_ofMoves {ms : List Move} (h : ∀ m ∈ ms, p.Serves n m) :
    ∀ m ∈ (Plan.ofMoves ms).moves, p.Serves n m := by
  obtain ⟨hlist, hroutes⟩ :=
    Plan.routes_ofMoves (fun m hm => (h m hm).isList) (fun m hm => (h m hm).nonempty)
  have hnodup := Plan.nodup_firstUses ms
  rw [← hroutes] at hnodup
  intro m hm
  have huse : m.route ∈ firstUses ms := hroutes ▸ List.mem_map_of_mem hm
  obtain ⟨first, hfirst, hroute⟩ := List.mem_map.mp (List.mem_eraseDups.mp huse)
  obtain ⟨hsource, hdest⟩ := Prod.mk.inj hroute
  have hserves := h first hfirst
  refine ⟨hlist m hm, ?_, hdest ▸ hserves.dest, hdest ▸ hsource ▸ hserves.dest_ne, ?_⟩
  · obtain ⟨k, hk⟩ := hserves.nonempty
    obtain ⟨m', hm', hk', hroute'⟩ := Plan.exists_merged hfirst hk
    have heq : m' = m := List.inj_on_of_nodup_map hnodup hm' hm (hroute'.trans hroute)
    exact ⟨k, heq ▸ hk'⟩
  · intro k hk
    have hmem : m.route ∈ routesOf k ms :=
      (Plan.mem_routesOf_ofMoves k ms _).mp (mem_routesOf.mpr ⟨m, hm, hk, rfl⟩)
    obtain ⟨m', hm', hk', -⟩ := mem_routesOf.mp hmem
    exact (h m' hm').observed k hk'

/-- A plan moves something, uses no route twice, and each of its moves takes observed records, at
least one, from elsewhere to a partition in service. -/
theorem wellFormed_of_plan {q : Planner W} (hp : p.Reachable) {plan : Plan}
    (h : p.plan n = .ok (some plan, q)) :
    plan.moves ≠ [] ∧ (plan.moves.map Move.route).Nodup ∧
    ∀ m ∈ plan.moves, p.Serves n m := by
  obtain ⟨ms, hms, rfl⟩ := plan_eq_some h
  have hserves := serves_emitted (sound_graph_of_reachable hp) hms
  obtain ⟨-, hroutes⟩ := Plan.routes_ofMoves (fun m hm => (hserves m hm).isList)
    (fun m hm => (hserves m hm).nonempty)
  refine ⟨moves_ne_nil_of_plan h, ?_, serves_ofMoves hserves⟩
  rw [hroutes]
  exact Plan.nodup_firstUses ms

/-- The planner for the pair, once the partition of the first record is retired. -/
def draining : Except Failure (Planner ℚ) := (paired 1).map (·.retire 0)

theorem reachable_draining {p : Planner ℚ} (h : draining = .ok p) : p.Reachable := by
  obtain ⟨p', hp', rfl⟩ := map_eq_ok.mp h
  exact .retire 0 (reachable_paired hp')

/-- The second record shares all its accesses with the first, but is not sent to where that is. Both
go to the partition that is left, each with a move of its own. -/
theorem wellFormed_of_plan_draining : ∃ p plan q, draining = .ok p ∧
    p.plan 3 = .ok (some plan, q) ∧ plan.moves.map Move.route = [(0, 2), (1, 2)] ∧
    plan.moves ≠ [] ∧ (plan.moves.map Move.route).Nodup ∧
    ∀ m ∈ plan.moves, p.Serves 3 m := by
  obtain ⟨p, plan, q, hp, hplan, hcheck⟩ :=
    exists_plan draining 3 (fun _ plan _ => plan.moves.map Move.route = [(0, 2), (1, 2)])
      (by decide +kernel)
  exact ⟨p, plan, q, hp, hplan, of_decide_eq_true hcheck,
    wellFormed_of_plan (reachable_draining hp) hplan⟩

end Planner

end Reshard
