import Mathlib.Logic.Basic
import Reshard.Balance.Planning
import Reshard.Proofs.Outcome

/-!
The growth of a clump and the pass around it, taken apart: what is looked at before each expansion
(`grow_eq`), what holds of the clump that comes out if every expansion keeps it (`of_grow`), and
what a pass has done that moves a clump.
-/

namespace Reshard

open Outcome

namespace Planner

variable {W : Type} [Weight W]

/-! ## One clump -/

/-- The last feasible clump, once `a` has been looked at. -/
def Growth.newBest (a : Growth W) (best : Option (Clump W)) : Option (Clump W) :=
  if a.fits then some a.clump else best

/-- The patience that is left, once `a` has been looked at. -/
def newPatience (p : Planner W) (a : Growth W) (best : Option (Clump W)) (patience : Nat) : Nat :=
  if a.fits then p.tuning.lookAhead else if best.isSome then patience - 1 else patience

theorem grow_eq (p : Planner W) (o : Overload W) (expansions : Nat) (a : Growth W)
    (best : Option (Clump W)) (patience : Nat) :
    p.grow o expansions a best patience =
      if p.tuning.clumpMaxSize < a.clump.size then
        .ok (some ((a.newBest best).getD a.clump))
      else if p.newPatience a best patience = 0 then
        .ok (a.newBest best)
      else
        match expansions with
        | 0 => .ok (a.newBest best)
        | expansions + 1 => (do
          match ← p.growOnce o a.clump with
          | none => return a.newBest best
          | some grown =>
            p.grow o expansions grown (a.newBest best) (p.newPatience a best patience)) := by
  cases expansions with
  | zero => rfl
  | succ expansions =>
    rw [Planner.grow]
    refine if_congr Iff.rfl rfl (if_congr Iff.rfl rfl ?_)
    refine congrArg (p.growOnce o a.clump >>= ·) ?_
    funext grown
    cases grown <;> rfl

variable {p : Planner W} {o : Overload W}

/-- A destination that is chosen is feasible, whichever rule it is chosen by. -/
theorem feasible_of_feasibleDest? {f : Profile W} {current dest : PartitionId}
    (h : p.feasibleDest? o f current = some dest) : p.feasible o (p.gainOf f) dest = true := by
  rw [feasibleDest?] at h
  split at h
  · next hcurrent =>
    cases h
    exact hcurrent
  · split at h
    · next hco =>
      cases h
      have hkept := (Option.filter_eq_some_iff.mp hco).2
      rw [Bool.and_eq_true] at hkept
      exact hkept.2
    · have hkept := (Option.filter_eq_some_iff.mp h).2
      rw [Bool.and_eq_true] at hkept
      exact hkept.2

theorem not_feasible_of_feasibleDest? {f : Profile W} {current : PartitionId}
    (h : p.feasibleDest? o f current = none) : p.feasible o (p.gainOf f) current = false := by
  rw [feasibleDest?] at h
  split at h
  · nomatch h
  · next hcurrent => exact Bool.eq_false_iff.mpr hcurrent

/-- Whether the destination of the clump can take it. -/
def fits (p : Planner W) (o : Overload W) (c : Clump W) : Bool :=
  p.feasible o (p.gainOf (c.profile p.graph)) c.dest

/-- Settling tells rightly whether the clump fits where it is settled. -/
theorem settle_fits (p : Planner W) (o : Overload W) (c : Clump W) :
    (p.settle o c).fits = p.fits o (p.settle o c).clump := by
  rw [settle]
  cases hdest : p.feasibleDest? o (c.profile p.graph) c.dest with
  | some dest => exact (feasible_of_feasibleDest? hdest).symm
  | none => exact (not_feasible_of_feasibleDest? hdest).symm

/-- Settling changes nothing but the destination. -/
theorem clump_settle (p : Planner W) (o : Overload W) (c : Clump W) :
    ∃ dest, (p.settle o c).clump = { c with dest } := by
  rw [settle]
  split
  · next dest _ => exact ⟨dest, rfl⟩
  · exact ⟨c.dest, rfl⟩

theorem growOnce_eq_some {c : Clump W} {b : Growth W} (h : p.growOnce o c = .ok (some b)) :
    ∃ id next, c.hottestNeighbour? p.graph = some id ∧ c.expand p.graph id = .ok next ∧
      b = p.settle o next := by
  rw [growOnce] at h
  cases hid : c.hottestNeighbour? p.graph with
  | none =>
    rw [hid] at h
    cases h
  | some id =>
    rw [hid] at h
    obtain ⟨next, hnext, h⟩ := bind_eq_ok.mp h
    cases h
    exact ⟨id, next, rfl, hnext, rfl⟩

omit [Weight W] in
theorem Growth.of_newBest {P : Clump W → Prop} {a : Growth W} {best : Option (Clump W)}
    (ha : P a.clump) (hbest : ∀ b, best = some b → P b) {b : Clump W}
    (h : a.newBest best = some b) : P b := by
  rw [newBest] at h
  split at h
  · cases h
    exact ha
  · exact hbest b h

/-- What every expansion keeps, and the clumps at hand have, is true of the clump that a growth
ends with. -/
theorem of_grow {P : Clump W → Prop}
    (hstep : ∀ c b, P c → p.growOnce o c = .ok (some b) → P b.clump) (expansions : Nat)
    {a : Growth W} {best : Option (Clump W)} {patience : Nat} {c : Clump W} (ha : P a.clump)
    (hbest : ∀ b, best = some b → P b)
    (h : p.grow o expansions a best patience = .ok (some c)) : P c := by
  have hnew : ∀ b, a.newBest best = some b → P b := fun b => a.of_newBest ha hbest
  rw [grow_eq] at h
  split at h
  · cases h
    cases hb : a.newBest best with
    | none => exact ha
    | some b => exact hnew b hb
  split at h
  · exact hnew c (Except.ok.inj h)
  cases expansions with
  | zero => exact hnew c (Except.ok.inj h)
  | succ expansions =>
    obtain ⟨grown, hgrown, h⟩ := bind_eq_ok.mp h
    cases grown with
    | none => exact hnew c (Except.ok.inj h)
    | some b => exact of_grow hstep expansions (hstep _ _ ha hgrown) hnew h

theorem overloadClump_eq_some {c : Clump W} (h : p.overloadClump o = .ok (some c)) :
    ∃ id dest first, p.graph.hottest? o.partition = some id ∧
      p.initialDest? o id = some dest ∧
      Clump.seed p.graph id dest = .ok first ∧
      p.grow o p.tuning.clumpMaxSize (p.sprout o first) none p.tuning.lookAhead =
        .ok (some c) := by
  rw [overloadClump] at h
  cases hid : p.graph.hottest? o.partition with
  | none =>
    rw [hid] at h
    cases h
  | some id =>
    rw [hid] at h
    cases hdest : p.initialDest? o id with
    | none =>
      simp only [hdest] at h
      cases h
    | some dest =>
      simp only [hdest] at h
      obtain ⟨first, hfirst, h⟩ := bind_eq_ok.mp h
      exact ⟨id, dest, first, rfl, hdest, hfirst, h⟩

/-! ## One pass -/

theorem nextClump_eq_some {n : Nat} {c : Clump W} (h : p.nextClump n = .ok (some c)) :
    ∃ o, p.overload? n = some o ∧ p.overloadClump o = .ok (some c) ∧
      c.needsMove p.graph = true := by
  rw [nextClump] at h
  cases ho : p.overload? n with
  | none =>
    rw [ho] at h
    cases h
  | some o =>
    rw [ho] at h
    obtain ⟨clump?, hc, h⟩ := bind_eq_ok.mp h
    cases clump? with
    | none => cases h
    | some c' =>
      dsimp only at h
      split at h
      · next hmove =>
        cases h
        exact ⟨o, rfl, hc, hmove⟩
      · cases h

theorem overloadClump_of_nextClump {n : Nat} {c : Clump W} (h : p.nextClump n = .ok (some c)) :
    ∃ o, p.overload? n = some o ∧ p.overloadClump o = .ok (some c) := by
  obtain ⟨o, ho, hc, -⟩ := nextClump_eq_some h
  exact ⟨o, ho, hc⟩

end Planner

namespace Planning

variable {W : Type} [Weight W]

/-- Adds a clump to the plan, and moves it. -/
def move (s : Planning W) (c : Clump W) : Planning W :=
  ⟨s.plan.merge (c.plan s.planner.graph), s.planner.apply c⟩

omit [Weight W] in
/-- What is answered beside the plan is the planner that the passes leave. -/
theorem result_eq (s : Planning W) : s.result = (s.result.1, s.planner) := rfl

/-- A pass emits the next clump of the planner, and moves it. -/
theorem pass_eq (n : Nat) (s : Planning W) :
    pass n s = (s.planner.nextClump n).map (·.map s.move) := by
  rw [pass]
  cases s.planner.nextClump n with
  | error e => rfl
  | ok clump? => cases clump? <;> rfl

section

variable {n bound : Nat} {s : Planning W}

theorem passes_succ_of_error {e : Failure} (h : s.planner.nextClump n = .error e) :
    passes n (bound + 1) s = .error e := by
  have hpass := pass_eq n s
  rw [h] at hpass
  exact Repetition.repeated_succ_of_error hpass

theorem passes_succ_of_none (h : s.planner.nextClump n = .ok none) :
    passes n (bound + 1) s = .ok s := by
  have hpass := pass_eq n s
  rw [h] at hpass
  exact Repetition.repeated_succ_of_none hpass

theorem passes_succ_of_some {c : Clump W} (h : s.planner.nextClump n = .ok (some c)) :
    passes n (bound + 1) s = passes n bound (s.move c) := by
  have hpass := pass_eq n s
  rw [h] at hpass
  exact Repetition.repeated_succ_of_some hpass

end

end Planning

namespace Planner

theorem nextClump_of_pass {W : Type} [Weight W] {n : Nat} {s t : Planning W}
    (h : Planning.pass n s = .ok (some t)) :
    ∃ c, s.planner.nextClump n = .ok (some c) ∧ t.planner = s.planner.apply c := by
  rw [Planning.pass_eq] at h
  obtain ⟨clump?, hc, h⟩ := map_eq_ok.mp h
  obtain ⟨c, rfl, rfl⟩ := Option.map_eq_some_iff.mp h
  exact ⟨c, hc, rfl⟩

end Planner

end Reshard
