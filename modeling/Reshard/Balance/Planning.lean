import Reshard.Access.Places
import Reshard.Balance.Planner
import Reshard.Repetition

/-!
Planning in passes. A pass adds one clump to the plan and puts the members of the clump on their
destination, where the next pass finds them. Clumps may go back and forth between partitions,
so passes are repeated with whole rounds left out; `plan_eq_passes` says that the plan is the
same as without this.
-/

namespace Reshard

/-- A plan in the making. -/
structure Planning (W : Type) where
  plan : Plan
  planner : Planner W

variable {W : Type} [Weight W]

namespace Planning

def start (p : Planner W) : Planning W := ⟨∅, p⟩

/-- Adds the next clump to the plan, and moves it. -/
def pass (n : Nat) (s : Planning W) : Except Failure (Option (Planning W)) := do
  match ← s.planner.nextClump n with
  | none => return none
  | some c => return some ⟨s.plan.merge (c.plan s.planner.graph), s.planner.apply c⟩

/-- Whether two states of planning have the same plan, and their vertices the same places. -/
def same (a b : Planning W) : Bool :=
  a.planner.graph.samePlaces b.planner.graph && a.plan = b.plan

/-- Up to so many passes. -/
def passes (n : Nat) (clumps : Nat) (s : Planning W) : Except Failure (Planning W) :=
  Repetition.repeated (pass n) clumps s

/-- The plan, if it moves anything, and where it leaves the vertices. -/
def result (s : Planning W) : Option Plan × Planner W :=
  (if s.plan.isEmpty then none else some s.plan, s.planner)

/-! Passes change nothing but the plan and the places of the vertices. -/

/-- What passes leave alone. -/
def SameBase (a b : Planning W) : Prop :=
  a.planner.tuning = b.planner.tuning ∧ a.planner.retired = b.planner.retired ∧
    a.planner.graph.index = b.planner.graph.index ∧
    a.planner.graph.records = b.planner.graph.records

theorem sameBase_of_pass {n : Nat} {a b : Planning W} (h : pass n a = .ok (some b)) :
    SameBase a b := by
  rw [pass] at h
  match hc : a.planner.nextClump n with
  | .error e =>
    rw [hc] at h
    nomatch h
  | .ok none =>
    rw [hc] at h
    nomatch h
  | .ok (some c) =>
    rw [hc] at h
    cases h
    exact ⟨rfl, rfl, (Graph.index_reassign _ _ _).symm, (Graph.records_reassign _ _ _).symm⟩

theorem sameBase_of_passes {n clumps : Nat} {a b : Planning W}
    (h : passes n clumps a = .ok b) : SameBase a b := by
  induction clumps generalizing a with
  | zero =>
    cases h
    exact ⟨rfl, rfl, rfl, rfl⟩
  | succ clumps ih =>
    rw [passes] at h
    match hp : pass n a with
    | .error e =>
      rw [Repetition.repeated_succ_of_error hp] at h
      nomatch h
    | .ok none =>
      rw [Repetition.repeated_succ_of_none hp] at h
      cases h
      exact ⟨rfl, rfl, rfl, rfl⟩
    | .ok (some next) =>
      rw [Repetition.repeated_succ_of_some hp] at h
      obtain ⟨ht, hr, hi, hg⟩ := sameBase_of_pass hp
      obtain ⟨ht', hr', hi', hg'⟩ := ih h
      exact ⟨ht.trans ht', hr.trans hr', hi.trans hi', hg.trans hg'⟩

omit [Weight W] in
theorem eq_of_same {a b : Planning W} (hb : SameBase a b) (hs : same a b = true) : a = b := by
  obtain ⟨ht, hr, hi, hg⟩ := hb
  rw [same, Bool.and_eq_true, decide_eq_true_iff] at hs
  have hgraph := Graph.eq_of_samePlaces hi hg hs.1
  obtain ⟨plan, tuning, graph, retired⟩ := a
  obtain ⟨plan', tuning', graph', retired'⟩ := b
  simp_all

end Planning

/-- Plans over the live partitions below `n` until none is overloaded. The vertices are left
where the plan puts them. -/
def Planner.plan (p : Planner W) (n : Nat) : Except Failure (Option Plan × Planner W) := do
  let clumps := max p.tuning.maxClumps 1
  let start := Planning.start p
  let s ← Repetition.shortened (Planning.pass n) Planning.same clumps (.first start) start
  return s.result

/-- The plan, if a table of loads can be addressed. Passes begin with such a table, so that without
it nothing is planned. -/
def Planner.planInMemory (p : Planner W) (n : Nat) :
    Except Overflow (Except Failure (Option Plan × Planner W)) := do
  Load.room n
  return p.plan n

theorem Planner.plan_eq_passes (p : Planner W) (n : Nat) :
    p.plan n = (Planning.passes n (max p.tuning.maxClumps 1) (.start p)).map (·.result) := by
  have hsame : ∀ (m : Nat) (a b : Planning W),
      Repetition.repeated (Planning.pass n) m a = .ok b → a.same b = true → a = b :=
    fun _ _ _ hp hs => Planning.eq_of_same (Planning.sameBase_of_passes hp) hs
  rw [Planner.plan]
  rw [Repetition.shortened_eq_repeated hsame]
  · rfl
  · rfl

end Reshard
