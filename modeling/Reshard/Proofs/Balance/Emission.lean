import Reshard.Proofs.Access.ClumpMoves
import Reshard.Proofs.Balance.Growth
import Reshard.Proofs.Balance.Reachable
import Reshard.Proofs.Exact
import Reshard.Proofs.Outcome

/-!
Plans as they are made, clump by clump, and as they are carried out. The moves that the passes
emit can be carried out in the order of their emission and take every record to the place that the
passes assume (`executes_emitted`). The plan merges these moves by route (`plan_eq_emitted`), and
can be carried out only if the routes of each record still fit together.
-/

namespace Reshard

namespace Planner

variable {W : Type} [Weight W]

/-! ## The moves of all passes -/

/-- The moves that up to so many passes emit, clump by clump, and the planner that they leave. -/
def emitted (n : Nat) : Nat → Planner W → Except Failure (List Move × Planner W)
  | 0, p => .ok ([], p)
  | clumps + 1, p => do
    match ← p.nextClump n with
    | none => return ([], p)
    | some c =>
      let later ← emitted n clumps (p.apply c)
      return ((c.plan p.graph).moves ++ later.1, later.2)

theorem emitted_succ_of_error {n clumps : Nat} {p : Planner W} {e : Failure}
    (h : p.nextClump n = .error e) : p.emitted n (clumps + 1) = .error e := by
  rw [emitted, h]
  rfl

theorem emitted_succ_of_none {n clumps : Nat} {p : Planner W} (h : p.nextClump n = .ok none) :
    p.emitted n (clumps + 1) = .ok ([], p) := by
  rw [emitted, h]
  rfl

theorem emitted_succ_of_some {n clumps : Nat} {p : Planner W} {c : Clump W}
    (h : p.nextClump n = .ok (some c)) :
    p.emitted n (clumps + 1) = ((p.apply c).emitted n clumps).map fun later =>
      ((c.plan p.graph).moves ++ later.1, later.2) := by
  rw [emitted, h]
  rfl

/-- A pass emits the moves of a clump, or is the last. -/
theorem emitted_succ {n clumps : Nat} {p q : Planner W} {ms : List Move}
    (h : p.emitted n (clumps + 1) = .ok (ms, q)) :
    (p.nextClump n = .ok none ∧ ms = [] ∧ q = p) ∨
    ∃ c later, p.nextClump n = .ok (some c) ∧ (p.apply c).emitted n clumps = .ok (later, q) ∧
      ms = (c.plan p.graph).moves ++ later := by
  obtain ⟨clump?, hnext, -⟩ := Outcome.bind_eq_ok.mp h
  cases clump? with
  | none =>
    rw [emitted_succ_of_none hnext] at h
    cases h
    exact .inl ⟨hnext, rfl, rfl⟩
  | some c =>
    rw [emitted_succ_of_some hnext] at h
    obtain ⟨later, hlater, hms⟩ := Outcome.map_eq_ok.mp h
    cases hms
    exact .inr ⟨c, later.1, hnext, hlater, rfl⟩

/-- The passes merge what they emit into the plan, move by move. -/
theorem passes_eq_emitted (n clumps : Nat) (plan : Plan) (p : Planner W) :
    Planning.passes n clumps ⟨plan, p⟩ =
      (p.emitted n clumps).map fun e => ⟨e.1.foldl Plan.add plan, e.2⟩ := by
  induction clumps generalizing plan p with
  | zero => rfl
  | succ clumps ih =>
    match hc : p.nextClump n with
    | .error e =>
      rw [Planning.passes_succ_of_error (s := ⟨plan, p⟩) hc, emitted_succ_of_error hc]
      rfl
    | .ok none =>
      rw [Planning.passes_succ_of_none (s := ⟨plan, p⟩) hc, emitted_succ_of_none hc]
      rfl
    | .ok (some c) =>
      rw [Planning.passes_succ_of_some (s := ⟨plan, p⟩) hc, Planning.move, ih,
        emitted_succ_of_some hc]
      cases (p.apply c).emitted n clumps with
      | error e => rfl
      | ok later => simp [Except.map, Plan.merge]

/-- The moves that the passes emit can be carried out in their order, and lead to where the passes
leave the vertices. -/
theorem executes_emitted {n clumps : Nat} {p q : Planner W} {ms : List Move}
    (hp : p.graph.Sound) (h : p.emitted n clumps = .ok (ms, q)) :
    Executes ms p.graph.placeOf? q.graph.placeOf? := by
  induction clumps generalizing p ms with
  | zero =>
    cases h
    rfl
  | succ clumps ih =>
    rcases emitted_succ h with ⟨-, rfl, rfl⟩ | ⟨c, later, -, hlater, rfl⟩
    · rfl
    · exact executes_append (c.executes_plan hp) (ih (hp.reassign _ _) hlater)

theorem isList_emitted {n clumps : Nat} {p q : Planner W} {ms : List Move}
    (h : p.emitted n clumps = .ok (ms, q)) :
    (∀ m ∈ ms, m.IsList) ∧ ∀ m ∈ ms, ∃ k, m.covers k = true := by
  induction clumps generalizing p ms with
  | zero =>
    cases h
    exact ⟨List.forall_mem_nil _, List.forall_mem_nil _⟩
  | succ clumps ih =>
    rcases emitted_succ h with ⟨-, rfl, rfl⟩ | ⟨c, later, -, hlater, rfl⟩
    · exact ⟨List.forall_mem_nil _, List.forall_mem_nil _⟩
    · obtain ⟨hlist, hfull⟩ := ih hlater
      rw [c.moves_plan]
      constructor
      · exact List.forall_mem_append.mpr ⟨Clump.isList_rawMoves, hlist⟩
      · exact List.forall_mem_append.mpr ⟨Clump.covers_rawMoves, hfull⟩

/-- The plan merges what its passes emit. -/
theorem plan_eq_emitted (p : Planner W) (n : Nat) :
    p.plan n = (p.emitted n (max p.tuning.maxClumps 1)).map fun e =>
      (Planning.result ⟨Plan.ofMoves e.1, e.2⟩) := by
  rw [plan_eq_passes, Planning.start, passes_eq_emitted]
  cases p.emitted n (max p.tuning.maxClumps 1) <;> rfl

theorem plan_eq_some {p q : Planner W} {n : Nat} {plan : Plan}
    (h : p.plan n = .ok (some plan, q)) :
    ∃ ms, p.emitted n (max p.tuning.maxClumps 1) = .ok (ms, q) ∧ plan = Plan.ofMoves ms := by
  rw [plan_eq_emitted] at h
  obtain ⟨e, he, hresult⟩ := Outcome.map_eq_ok.mp h
  simp only [Planning.result, Prod.mk.injEq] at hresult
  obtain ⟨hplan, rfl⟩ := hresult
  split at hplan
  · nomatch hplan
  · exact ⟨e.1, he, (Option.some.inj hplan).symm⟩

/-- A plan of nothing is not answered. -/
theorem moves_ne_nil_of_plan {p q : Planner W} {n : Nat} {plan : Plan}
    (h : p.plan n = .ok (some plan, q)) : plan.moves ≠ [] := by
  rw [plan_eq_passes] at h
  obtain ⟨s, -, hresult⟩ := Outcome.map_eq_ok.mp h
  have hplan := congrArg Prod.fst hresult
  simp only [Planning.result] at hplan
  split at hplan
  · nomatch hplan
  · next hfull =>
    cases hplan
    exact fun hnil => hfull (List.isEmpty_iff.mpr hnil)

/-! ## Carrying out a plan -/

/-- A plan can be carried out, and leads to where planning leaves the vertices, exactly if the
routes along which the passes move a record still lead there when each of them is used only once,
and as early as any record uses it. -/
theorem plan_executes_iff {p q : Planner W} (hp : p.Reachable) {n : Nat} {plan : Plan}
    (h : p.plan n = .ok (some plan, q)) :
    ∃ ms, p.emitted n (max p.tuning.maxClumps 1) = .ok (ms, q) ∧ plan = Plan.ofMoves ms ∧
      Executes ms p.graph.placeOf? q.graph.placeOf? ∧
      (Executes plan.moves p.graph.placeOf? q.graph.placeOf? ↔
        ∀ k, Leads ((firstUses ms).filter (· ∈ routesOf k ms))
          (p.graph.placeOf? k) (q.graph.placeOf? k)) := by
  obtain ⟨ms, hms, rfl⟩ := plan_eq_some h
  obtain ⟨hlist, hfull⟩ := isList_emitted hms
  refine ⟨ms, hms, rfl, executes_emitted (sound_graph_of_reachable hp) hms, ?_⟩
  rw [executes_iff]
  simp only [Plan.routesOf_ofMoves hlist hfull]

/-- Two records on the partitions 0 and 1 that are accessed together, under a planner that takes
any partition above the mean load for overloaded. -/
def paired (maxClumps : Nat) : Except Failure (Planner ℚ) :=
  let tuning : Tuning ℚ :=
    { crossCost := 1, overload := 1, lookAhead := 5, clumpMaxSize := 1, maxClumps }
  (make tuning).monitor (.make { home := fun k => k.id % 3 } 16) [⟨"t", 0⟩, ⟨"t", 4⟩]

theorem reachable_paired {maxClumps : Nat} {p : Planner ℚ} (h : paired maxClumps = .ok p) :
    p.Reachable :=
  .monitor _ _ (.make _) h

/-- What is checked of the plan of a planner is true of it. -/
theorem exists_plan (made : Except Failure (Planner ℚ)) (n : Nat)
    (check : Planner ℚ → Plan → Planner ℚ → Bool)
    (h : (made.toOption.bind fun p => (p.plan n).toOption.bind fun r =>
      r.1.map fun plan => check p plan r.2) = some true) :
    ∃ p plan q, made = .ok p ∧ p.plan n = .ok (some plan, q) ∧ check p plan q = true := by
  cases made with
  | error e => nomatch h
  | ok p =>
    cases hr : p.plan n with
    | error e =>
      simp only [Except.toOption, Option.bind_some, hr, Option.bind_none] at h
      nomatch h
    | ok r =>
      obtain ⟨plan?, q⟩ := r
      simp only [Except.toOption, Option.bind_some, hr] at h
      obtain ⟨plan, rfl, hcheck⟩ := Option.map_eq_some_iff.mp h
      exact ⟨p, plan, q, rfl, hr, hcheck⟩

/-- With one clump allowed, the first record joins the second. -/
theorem plan_executes_iff_paired : ∃ p plan q, paired 1 = .ok p ∧
    p.plan 3 = .ok (some plan, q) ∧
    ∃ ms, p.emitted 3 (max p.tuning.maxClumps 1) = .ok (ms, q) ∧ plan = Plan.ofMoves ms ∧
      Executes ms p.graph.placeOf? q.graph.placeOf? ∧
      (Executes plan.moves p.graph.placeOf? q.graph.placeOf? ↔
        ∀ k, Leads ((firstUses ms).filter (· ∈ routesOf k ms))
          (p.graph.placeOf? k) (q.graph.placeOf? k)) := by
  obtain ⟨p, plan, q, hp, hplan, -⟩ :=
    exists_plan (paired 1) 3 (fun _ _ _ => true) (by decide +kernel)
  exact ⟨p, plan, q, hp, hplan, plan_executes_iff (reachable_paired hp) hplan⟩

/-- With three clumps allowed, both records then go to partition 0 and back. The plan merges the
way back into its first move: this takes the second record from partition 0 before it is there,
and both records end on partition 0, while planning leaves them on partition 1. -/
theorem not_executes_paired : ∃ p plan q, paired 3 = .ok p ∧ p.Reachable ∧
    p.plan 3 = .ok (some plan, q) ∧
    ¬ Executes plan.moves p.graph.placeOf? q.graph.placeOf? := by
  obtain ⟨p, plan, q, hp, hplan, hcheck⟩ :=
    exists_plan (paired 3) 3 (fun p plan q => !decide (Leads (routesOf ⟨"t", 4⟩ plan.moves)
      (p.graph.placeOf? ⟨"t", 4⟩) (q.graph.placeOf? ⟨"t", 4⟩))) (by decide +kernel)
  refine ⟨p, plan, q, hp, reachable_paired hp, hplan, ?_⟩
  rw [executes_iff]
  intro hall
  simp only [Bool.not_eq_true', decide_eq_false_iff_not] at hcheck
  exact hcheck (hall ⟨"t", 4⟩)

end Planner

end Reshard
