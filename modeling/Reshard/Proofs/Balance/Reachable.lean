import Reshard.Balance.Planner
import Reshard.Proofs.Access.Sound

/-!
The planners that observation and retirement build. Their graphs are sound
(`sound_graph_of_reachable`).
-/

namespace Reshard

variable {W : Type} [Weight W]

theorem Graph.reachable_accesses {g : Graph W} (hg : g.Reachable) (place : Key → PartitionId)
    (ks : List Key) : (ks.foldl (fun g k => (g.access k (place k)).1) g).Reachable := by
  induction ks generalizing g with
  | nil => exact hg
  | cons k rest ih => exact ih (.access k (place k) hg)

namespace Planner

/-- The planners that start without observations, and from then on observe transactions, retire
partitions and discard what they observed. -/
inductive Reachable : Planner W → Prop
  | make (tuning : Tuning W) : Reachable (make tuning)
  | monitor {p q : Planner W} (l : Locations) (ks : List Key) :
      Reachable p → p.monitor l ks = .ok q → Reachable q
  | retire {p : Planner W} (partition : PartitionId) :
      Reachable p → Reachable (p.retire partition)
  | reset {p : Planner W} : Reachable p → Reachable p.reset

/-- Feeds transactions to the graph, one after the other. -/
def monitorAll (p : Planner W) (l : Locations) (ts : List (List Key)) :
    Except Failure (Planner W) :=
  ts.foldlM (fun p t => p.monitor l t) p

theorem graph_monitor {p q : Planner W} {l : Locations} {ks : List Key}
    (hp : p.graph.Reachable) (h : p.monitor l ks = .ok q) : q.graph.Reachable := by
  obtain ⟨accessed, -, h⟩ := Outcome.bind_eq_ok.mp h
  obtain ⟨graph, hgraph, h⟩ := Outcome.bind_eq_ok.mp h
  cases h
  exact .coAccess _ (Graph.reachable_accesses hp l.current accessed.toList) hgraph

theorem graph_of_reachable {p : Planner W} (h : p.Reachable) : p.graph.Reachable := by
  induction h with
  | make tuning => exact .empty
  | monitor l ks _ hm ih => exact graph_monitor ih hm
  | retire partition _ ih => exact ih
  | reset _ _ => exact .empty

theorem Reachable.monitorAll {p q : Planner W} {l : Locations} {ts : List (List Key)}
    (hp : p.Reachable) (h : p.monitorAll l ts = .ok q) : q.Reachable :=
  Outcome.of_foldlM (fun t _ _ _ hb hnext => hb.monitor l t hnext) hp h

theorem sound_graph_of_reachable {p : Planner W} (h : p.Reachable) : p.graph.Sound :=
  Graph.sound_of_reachable (graph_of_reachable h)

end Planner

end Reshard
