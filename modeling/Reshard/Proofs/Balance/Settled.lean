import Reshard.Proofs.Balance.Passes

/-!
When planning comes to rest. Passes that end before the bound leave a graph in which nothing more
can be done for the lowest overloaded partition (`nextClump_foldl_move`), and planning over the same
graph again finds the same (`plan_settles`). Only the graph that is left decides on this, by its
loads and the threshold that they make.
-/

namespace Reshard

namespace Planner

variable {W : Type} [Weight W] {p : Planner W} {n bound : Nat}

/-- No partition in service is above the threshold that their loads make (`nextThreshold_eq`), or no
clump can be moved off the lowest one that is. -/
def Settled (p : Planner W) (n : Nat) : Prop :=
  (∀ l ∈ p.liveLoads n, ¬ p.nextThreshold n < l.total) ∨
  ∃ l, (p.liveLoads n).find? (p.nextThreshold n < ·.total) = some l ∧
    p.overloadClump (p.overloadAt n (p.graph.busyLoads p.tuning.crossCost) (p.nextThreshold n)
      l.partition) = .ok none

theorem settled_of_nextClump (hg : p.graph.Sound) (h : p.nextClump n = .ok none) :
    p.Settled n := by
  have hoverload := p.overload?_eq n
  rw [Settled]
  cases hfind : (p.liveLoads n).find? (p.nextThreshold n < ·.total) with
  | none =>
    left
    intro l hl hlt
    exact List.find?_eq_none.mp hfind l hl (decide_eq_true hlt)
  | some l =>
    right
    rw [hfind, Option.map_some] at hoverload
    refine ⟨l, rfl, ?_⟩
    rw [← nextClump_of_overload? hg hoverload, h]

/-- Fewer clumps than allowed are all that there are. -/
theorem nextClump_foldl_move {s : Planning W} {cs : List (Clump W)}
    (h : s.planner.clumps n bound = .ok cs) (hlt : cs.length < bound) :
    (cs.foldl Planning.move s).planner.nextClump n = .ok none := by
  induction bound generalizing s cs with
  | zero => nomatch hlt
  | succ bound ih =>
    rcases clumps_succ h with ⟨hnone, rfl⟩ | ⟨c, rest, -, hrest, rfl⟩
    · exact hnone
    · exact ih (s := s.move c) hrest (Nat.lt_of_succ_lt_succ hlt)

theorem clumps_of_nextClump (h : p.nextClump n = .ok none) (bound : Nat) :
    p.clumps n bound = .ok [] := by
  cases bound with
  | zero => rfl
  | succ bound => exact clumps_succ_of_none h

/-- Without a clump to move, there is no plan. -/
theorem plan_of_nextClump (h : p.nextClump n = .ok none) : p.plan n = .ok (none, p) :=
  plan_of_clumps (clumps_of_nextClump h _)

/-- Planning that moves fewer clumps than allowed leaves a graph that it would leave as it is. -/
theorem plan_settles (hp : p.Reachable) (n : Nat) :
    ∃ cs plan? q, p.clumps n (max p.tuning.maxClumps 1) = .ok cs ∧
      p.plan n = .ok (plan?, q) ∧ (cs.foldl Planning.move (.start p)).result = (plan?, q) ∧
      (cs.length < p.tuning.maxClumps → q.Settled n ∧ q.plan n = .ok (none, q)) := by
  have hg := sound_graph_of_reachable hp
  obtain ⟨cs, hcs, -⟩ := exists_clumps hg n (max p.tuning.maxClumps 1)
  have hplan := plan_of_clumps hcs
  have hresult := Planning.result_eq (cs.foldl Planning.move (.start p))
  rw [hresult] at hplan
  refine ⟨cs, _, _, hcs, hplan, hresult, fun hlt => ?_⟩
  have hnext : (cs.foldl Planning.move (.start p)).planner.nextClump n = .ok none :=
    nextClump_foldl_move (s := .start p) hcs (Nat.lt_of_lt_of_le hlt (Nat.le_max_left _ _))
  have hsound := sound_foldl_move (s := .start p) hg cs
  exact ⟨settled_of_nextClump hsound hnext, plan_of_nextClump hnext⟩

/-- Three records on partition 0, with nothing to keep them together. -/
def heaped : Except Failure (Planner ℚ) :=
  let tuning : Tuning ℚ :=
    { crossCost := 1, overload := 13 / 10, lookAhead := 5, clumpMaxSize := 20, maxClumps := 5000 }
  (make tuning).monitorAll (.make { home := fun _ => 0 } 16)
    [[⟨"t", 1⟩], [⟨"t", 2⟩], [⟨"t", 3⟩]]

/-- Two of them are taken away, one after the other, and each partition has one. -/
theorem plan_settles_heaped : ∃ p cs plan q, heaped = .ok p ∧ cs.length = 2 ∧
    p.clumps 3 (max p.tuning.maxClumps 1) = .ok cs ∧ p.plan 3 = .ok (some plan, q) ∧
    (cs.foldl Planning.move (.start p)).result = (some plan, q) ∧
    cs.length < p.tuning.maxClumps ∧ q.Settled 3 ∧ q.plan 3 = .ok (none, q) := by
  obtain ⟨p, plan, q, hp, hplan, hcheck⟩ := exists_plan heaped 3
    (fun p _ _ => ((p.clumps 3 (max p.tuning.maxClumps 1)).toOption.map List.length,
      p.tuning.maxClumps) = (some 2, 5000)) (by decide +kernel)
  obtain ⟨hlength, hbound⟩ := Prod.mk.inj (of_decide_eq_true hcheck)
  have hreachable : p.Reachable := (Reachable.make _).monitorAll hp
  obtain ⟨cs, plan?, q', hcs, hplan', hresult, hsettles⟩ := plan_settles hreachable 3
  obtain ⟨rfl, rfl⟩ := Prod.mk.inj (Except.ok.inj (hplan.symm.trans hplan'))
  rw [hcs] at hlength
  have hlength : cs.length = 2 := Option.some.inj hlength
  have hlt : cs.length < p.tuning.maxClumps := by
    rw [hlength, hbound]
    decide
  exact ⟨p, cs, plan, q, hp, hlength, hcs, hplan, hresult, hlt, hsettles hlt⟩

end Planner

end Reshard
