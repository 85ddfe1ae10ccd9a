import Reshard.Proofs.Access.ClumpRenaming
import Reshard.Proofs.Balance.Emission
import Reshard.Proofs.Balance.Growth

/-!
Planners whose vertices are numbered in another way (`Planner.Renames`). In every pass they find the
same partition overloaded, grow the same clump for it and move it to the same destination, so that
they make the same plan (`Renames.plan`).
-/

namespace Reshard

open Outcome

namespace Planner

/-- The vertex `a` of the first planner is the vertex `σ a` of the second one. -/
structure Renames (σ : Equiv.Perm VertexId) (p q : Planner ℚ) : Prop where
  tuning : q.tuning = p.tuning
  retired : q.retired = p.retired
  graph : p.graph.Renames σ q.graph
  sound : p.graph.Sound
  sound' : q.graph.Sound

variable {σ : Equiv.Perm VertexId} {p q : Planner ℚ}

/-! ## What a pass knows from the loads -/

theorem Renames.overload?_eq (hp : Renames σ p q) (n : Nat) : q.overload? n = p.overload? n := by
  have hbusy := hp.graph.busyLoads_eq hp.sound hp.sound' p.tuning.crossCost
  obtain ⟨tuning, g, retired⟩ := p
  obtain ⟨tuning', h, retired'⟩ := q
  obtain ⟨rfl, rfl, -, -, -⟩ := hp
  rw [overload?, overload?, hbusy]
  rfl

theorem Renames.liveLoad?_eq (hp : Renames σ p q) (o : Overload ℚ) (dest : PartitionId) :
    q.liveLoad? o dest = p.liveLoad? o dest := by
  rw [liveLoad?, liveLoad?, isRetired, isRetired, hp.retired]

theorem Renames.feasible_eq (hp : Renames σ p q) (o : Overload ℚ) (gain : PartitionId → ℚ)
    (dest : PartitionId) : q.feasible o gain dest = p.feasible o gain dest := by
  rw [feasible, feasible, hp.liveLoad?_eq]

/-! ## The destination of a clump -/

/-- The neighbours of a vertex are on the same partitions. -/
theorem Renames.reached_eq (hp : Renames σ p q) (id : VertexId) :
    q.reached (σ id) = p.reached id := by
  have hedges : ∀ b, (q.graph.edgesOf (σ id))[σ b]? = (p.graph.edgesOf id)[b]? :=
    hp.graph.edge id
  have hkeys : (q.graph.edgesOf (σ id)).keys.Perm ((p.graph.edgesOf id).keys.map σ) := by
    have hentries := (Collections.perm_toList σ hedges).map (·.1)
    rw [List.map_map] at hentries
    rw [← Std.ExtTreeMap.map_fst_toList_eq_keys, ← Std.ExtTreeMap.map_fst_toList_eq_keys,
      List.map_map]
    exact hentries
  have hdests : ((q.graph.edgesOf (σ id)).keys.filterMap q.graph.partitionOf?).Perm
      ((p.graph.edgesOf id).keys.filterMap p.graph.partitionOf?) := by
    refine (hkeys.filterMap _).trans ?_
    rw [List.filterMap_map]
    simp only [Function.comp_def, hp.graph.partitionOf?_eq, List.Perm.refl]
  refine hdests.foldl_eq' (fun dest _ dest' _ counts => ?_) ∅
  exact Collections.alter_comm counts dest dest' fun _ => rfl

theorem Renames.initialDest?_eq (hp : Renames σ p q) (o : Overload ℚ) (seed : VertexId) :
    q.initialDest? o (σ seed) = p.initialDest? o seed := by
  rw [initialDest?, initialDest?, hp.reached_eq]
  simp only [hp.liveLoad?_eq]

theorem Renames.gainOf_eq (hp : Renames σ p q) {f f' : Profile ℚ} (hf : Clump.SameProfile f f') :
    q.gainOf f' = p.gainOf f := by
  rw [gainOf, gainOf, hp.tuning, hf.gain_eq]

theorem Renames.feasibleDest?_eq (hp : Renames σ p q) (o : Overload ℚ) {f f' : Profile ℚ}
    (hf : Clump.SameProfile f f') (current : PartitionId) :
    q.feasibleDest? o f' current = p.feasibleDest? o f current := by
  have hgain := hp.gainOf_eq hf
  have hco : q.coAccessedDest? o f' current = p.coAccessedDest? o f current := by
    rw [coAccessedDest?, coAccessedDest?, Profile.mostCoAccessed?, Profile.mostCoAccessed?,
      hf.coAccess_eq, hgain, hp.retired]
    simp only [hp.feasible_eq]
  have hlight : q.lightestDest? o f' current = p.lightestDest? o f current := by
    rw [lightestDest?, lightestDest?, hgain]
    simp only [hp.feasible_eq]
  rw [feasibleDest?, feasibleDest?, hgain, hp.feasible_eq, hco, hlight]

/-! ## The growth of a clump -/

/-- A clump on its way and its counterpart, whose destinations can both take it, or both not. -/
structure Growth.Renames (σ : Equiv.Perm VertexId) (g : Graph ℚ) (a b : Growth ℚ) : Prop where
  clump : a.clump.Renames σ b.clump
  within : a.clump.Within g
  fits : b.fits = a.fits

theorem Renames.sprout (hp : Renames σ p q) (o : Overload ℚ) {c c' : Clump ℚ}
    (hc : c.Renames σ c') (hw : c.Within p.graph) :
    Growth.Renames σ p.graph (p.sprout o c) (q.sprout o c') := by
  refine ⟨hc, hw, ?_⟩
  rw [Planner.sprout, Planner.sprout]
  dsimp only
  rw [hp.gainOf_eq (hc.sameProfile hp.graph), hc.dest, hp.feasible_eq]

theorem Renames.settle (hp : Renames σ p q) (o : Overload ℚ) {c c' : Clump ℚ}
    (hc : c.Renames σ c') (hw : c.Within p.graph) :
    Growth.Renames σ p.graph (p.settle o c) (q.settle o c') := by
  have hdest := hp.feasibleDest?_eq o (hc.sameProfile hp.graph) c.dest
  rw [Planner.settle, Planner.settle, hc.dest, hdest]
  cases p.feasibleDest? o (c.profile p.graph) c.dest with
  | none => exact ⟨hc, hw, rfl⟩
  | some dest => exact ⟨hc.withDest dest, hw, rfl⟩

/-- Clumps that grow once do so alike, or neither has a neighbour left. -/
theorem Renames.growOnce (hp : Renames σ p q) (o : Overload ℚ) {c c' : Clump ℚ}
    (hc : c.Renames σ c') (hw : c.Within p.graph) :
    Related (Option.Rel (Growth.Renames σ p.graph)) (p.growOnce o c) (q.growOnce o c') := by
  have hhottest := hc.hottestNeighbour?_eq hw hp.graph hp.sound
  rw [Planner.growOnce, Planner.growOnce, hhottest]
  cases hid : c.hottestNeighbour? p.graph with
  | none => exact .ok .none
  | some id =>
    have hfrontier := Clump.mem_frontier_of_hottest hid
    refine (hc.expand hw hp.graph hp.sound hfrontier).bind ?_
    rintro d d' ⟨hd, hwd⟩
    exact .ok (.some (hp.settle o hd hwd))

theorem Growth.Renames.newBest {g : Graph ℚ} {a b : Growth ℚ} (hab : a.Renames σ g b)
    {best best' : Option (Clump ℚ)} (hbest : Option.Rel (Clump.Renames σ) best best') :
    Option.Rel (Clump.Renames σ) (a.newBest best) (b.newBest best') := by
  rw [Growth.newBest, Growth.newBest, hab.fits]
  split
  · exact .some hab.clump
  · exact hbest

theorem renames_getD {best best' : Option (Clump ℚ)}
    (hbest : Option.Rel (Clump.Renames σ) best best') {c c' : Clump ℚ} (hc : c.Renames σ c') :
    (best.getD c).Renames σ (best'.getD c') := by
  cases hbest with
  | none => exact hc
  | some hbest => exact hbest

/-- Clumps that grow until they are done end alike. -/
theorem Renames.grow (hp : Renames σ p q) (o : Overload ℚ) (expansions : Nat) {a b : Growth ℚ}
    (hab : a.Renames σ p.graph b) {best best' : Option (Clump ℚ)}
    (hbest : Option.Rel (Clump.Renames σ) best best') (patience : Nat) :
    Related (Option.Rel (Clump.Renames σ)) (p.grow o expansions a best patience)
      (q.grow o expansions b best' patience) := by
  have hnew := hab.newBest hbest
  have hpatience : q.newPatience b best' patience = p.newPatience a best patience := by
    have hsome : best'.isSome = best.isSome := by cases hbest <;> rfl
    rw [newPatience, newPatience, hab.fits, hp.tuning, hsome]
  rw [grow_eq, grow_eq, hpatience, hab.clump.size_eq, hp.tuning]
  split
  · exact .ok (.some (renames_getD hnew hab.clump))
  split
  · exact .ok hnew
  cases expansions with
  | zero => exact .ok hnew
  | succ expansions =>
    refine (hp.growOnce o hab.clump hab.within).bind ?_
    intro grown grown' hgrown
    cases hgrown with
    | none => exact .ok hnew
    -- Both go on with one expansion less, the same patience and best clumps that are alike.
    | some hgrown => exact Renames.grow hp o expansions hgrown hnew _

/-- The clumps for the same overloaded partition. -/
theorem Renames.overloadClump (hp : Renames σ p q) (o : Overload ℚ) :
    Related (Option.Rel (Clump.Renames σ)) (p.overloadClump o) (q.overloadClump o) := by
  rw [Planner.overloadClump, Planner.overloadClump, hp.graph.hottest?_eq hp.sound]
  cases hseed : p.graph.hottest? o.partition with
  | none => exact .ok .none
  | some seed =>
    have hlt : seed < p.graph.size :=
      Graph.lt_size_of_partition (Graph.partition_of_hottest hseed)
    rw [Option.map_some]
    dsimp only
    rw [hp.initialDest?_eq]
    cases p.initialDest? o seed with
    | none => exact .ok .none
    | some dest =>
      refine (Clump.seed_renames hp.graph hp.sound hlt dest).bind ?_
      rintro c c' ⟨hc, hw⟩
      rw [hp.tuning]
      exact hp.grow o _ (hp.sprout o hc hw) .none _

/-- The next clumps to move. -/
theorem Renames.nextClump (hp : Renames σ p q) (n : Nat) :
    Related (Option.Rel (Clump.Renames σ)) (p.nextClump n) (q.nextClump n) := by
  rw [Planner.nextClump, Planner.nextClump, hp.overload?_eq]
  cases p.overload? n with
  | none => exact .ok .none
  | some o =>
    refine (hp.overloadClump o).bind ?_
    intro clump clump' hclump
    cases hclump with
    | none => exact .ok .none
    | some hc =>
      refine .ok ?_
      rw [hc.needsMove_eq hp.graph]
      split
      · exact .some hc
      · exact .none

/-! ## All passes -/

theorem Renames.apply (hp : Renames σ p q) {c c' : Clump ℚ} (hc : c.Renames σ c') :
    Renames σ (p.apply c) (q.apply c') where
  tuning := hp.tuning
  retired := hp.retired
  graph := by
    rw [Planner.apply, Planner.apply, hc.dest]
    refine hp.graph.reassign (fun a => ?_) c.dest
    rw [Std.ExtTreeSet.mem_toList, Std.ExtTreeSet.mem_toList, hc.members]
  sound := hp.sound.reassign _ _
  sound' := hp.sound'.reassign _ _

/-- The passes emit the same moves and leave the planners alike. -/
theorem Renames.emitted (hp : Renames σ p q) (n clumps : Nat) :
    Related (fun e e' => e'.1 = e.1 ∧ Renames σ e.2 e'.2) (p.emitted n clumps)
      (q.emitted n clumps) := by
  induction clumps generalizing p q with
  | zero => exact .ok ⟨rfl, hp⟩
  | succ clumps ih =>
    refine (hp.nextClump n).bind ?_
    intro clump clump' hclump
    cases hclump with
    | none => exact .ok ⟨rfl, hp⟩
    | some hc =>
      refine (ih (hp.apply hc)).bind ?_
      rintro later later' ⟨hmoves, hlater⟩
      refine .ok ⟨?_, hlater⟩
      rw [hc.plan_eq hp.graph, hmoves]

/-- The plans are the same, and leave the planners alike. -/
theorem Renames.plan (hp : Renames σ p q) (n : Nat) :
    Related (fun r r' => r'.1 = r.1 ∧ Renames σ r.2 r'.2) (p.plan n) (q.plan n) := by
  rw [plan_eq_emitted, plan_eq_emitted, hp.tuning]
  refine (hp.emitted n _).map ?_
  rintro e e' ⟨hmoves, he⟩
  refine ⟨?_, he⟩
  rw [Planning.result, Planning.result, hmoves]

end Planner

end Reshard
