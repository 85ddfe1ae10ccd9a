import Reshard.Proofs.Exact
import Reshard.Proofs.Migration.Runs
import Reshard.Proofs.Outcome

/-!
Phase, flags and moves of a coordinator. `Consistent` says how they hang together between two calls
and `Resting` what holds inside an operation, after one move or window has ended and before the
next begins. Every operation ends consistent (`Consistent.call`), whether it succeeds or fails, so
that every reached state is (`consistent_of_reached`).
-/

namespace Reshard

namespace Coordinator

variable {W : Type} {setup : Setup W} {c : Coordinator W}

structure Consistent (setup : Setup W) (c : Coordinator W) : Prop where
  setup_eq : c.setup = setup
  not_planning : c.phase ≠ .planning
  monitoring_iff : c.flags.monitoring = true ↔ c.phase = .monitoring
  migrating_iff : c.flags.migrating = true ↔ c.phase = .migrating
  active_iff : c.active.isSome = true ↔ c.phase = .migrating
  queued : c.queued ≠ [] → c.phase = .migrating
  operating_iff : c.flags.operating = true ↔ c.phase = .monitoring ∨ c.phase = .migrating
  analyzing : c.flags.analyzing = true →
    ∃ m, c.active = some m ∧ m.source = setup.localPartition
  migrated : c.flags.migrated = true → c.active = none
  completed : c.phase = .completed → setup.scaling = .disabled
  finished : c.phase = .finished → setup.scaling ≠ .disabled

/-- No move is in flight and no window is open, whatever the phase still says. -/
structure Resting (setup : Setup W) (c : Coordinator W) : Prop where
  setup_eq : c.setup = setup
  monitoring : c.flags.monitoring = false
  migrating : c.flags.migrating = false
  analyzing : c.flags.analyzing = false
  active : c.active = none

/-! ## Steps shared by the operations -/

theorem consistent_make (setup : Setup W) (placement : Placement)
    (plans : Option ScalingPlans) : (make setup placement plans).Consistent setup := by
  constructor <;> simp [make]

theorem Resting.finish (h : c.Resting setup) : c.finish.Resting setup := { h with }

theorem Resting.consistent_finish (h : c.Resting setup) (hq : c.queued = []) :
    c.finish.Consistent setup := by
  obtain ⟨rfl, hmonitoring, hmigrating, hanalyzing, hactive⟩ := h
  cases hs : c.setup.scaling <;> constructor <;>
    simp [Coordinator.finish, Scaling.isOn, hs, hmonitoring, hmigrating, hanalyzing, hactive, hq]

theorem Resting.consistent_startMonitoring (h : c.Resting setup) (hq : c.queued = []) (now : Nat) :
    (c.startMonitoring now).Consistent setup := by
  obtain ⟨rfl, hmonitoring, hmigrating, hanalyzing, hactive⟩ := h
  constructor <;> simp [Coordinator.startMonitoring, hmigrating, hanalyzing, hactive, hq]

/-- A move that is sent is in flight, and one that is refused ends the round. -/
theorem Resting.consistent_dispatch (h : c.Resting setup) (hop : c.flags.operating = true)
    (submit : Executor) (m : Move) : (c.dispatch submit m).next.Consistent setup := by
  obtain ⟨rfl, hmonitoring, hmigrating, hanalyzing, hactive⟩ := h
  unfold dispatch
  split
  · constructor <;> simp [done, forgetKeys, hmonitoring, hop]
  · apply Resting.consistent_finish
    · exact ⟨rfl, hmonitoring, rfl, rfl, rfl⟩
    · rfl

theorem Resting.consistent_wrapUp (h : c.Resting setup) (hq : c.queued = []) (now : Nat) :
    (c.wrapUp now).Consistent setup := by
  unfold wrapUp
  split
  · exact h.consistent_finish hq
  · split
    · exact Resting.consistent_finish { h with } hq
    · split
      · have hdrained : ({ c with consolidated := true } : Coordinator W).Resting setup :=
          { h with }
        exact hdrained.finish.consistent_startMonitoring hq now
      · exact h.consistent_finish hq

theorem Resting.consistent_proceed (h : c.Resting setup) (hop : c.flags.operating = true)
    (submit : Executor) (now : Nat) : (c.proceed submit now).next.Consistent setup := by
  unfold proceed
  split
  · next m rest hq =>
    have hleft : ({ c with queued := rest } : Coordinator W).Resting setup := { h with }
    exact hleft.consistent_dispatch hop submit m
  · next hq => exact h.consistent_wrapUp hq now

theorem consistent_halt (h : c.setup = setup) : c.halt.Consistent setup := by
  constructor <;> simp [halt, h]

theorem Consistent.failOrHalt {α : Type} (h : c.Consistent setup) (e : Failure) :
    (c.failOrHalt e : Turn W α).next.Consistent setup := by
  unfold Coordinator.failOrHalt
  split
  · exact consistent_halt h.setup_eq
  · exact h

theorem Consistent.guarded {α : Type} (h : c.Consistent setup) {turn : Turn W α}
    (hturn : turn.next.Consistent setup) : (c.guarded turn).next.Consistent setup := by
  unfold Coordinator.guarded
  split
  · exact h
  · exact hturn

/-! ## Launches and observations -/

/-- Outside the migrating phase no move is in flight, and none is left. -/
theorem Consistent.of_not_migrating (h : c.Consistent setup) (hphase : c.phase ≠ .migrating) :
    c.flags.migrating = false ∧ c.flags.analyzing = false ∧
    c.active = none ∧ c.queued = [] := by
  have hactive : c.active = none := by
    rw [← Option.not_isSome_iff_eq_none, h.active_iff]
    exact hphase
  refine ⟨?_, ?_, hactive, ?_⟩
  · rw [← Bool.not_eq_true, h.migrating_iff]
    exact hphase
  · rw [← Bool.not_eq_true]
    intro hanalyzing
    obtain ⟨m, hm, -⟩ := h.analyzing hanalyzing
    rw [hactive] at hm
    nomatch hm
  · cases hq : c.queued with
    | nil => rfl
    | cons m rest => exact absurd (h.queued (by simp [hq])) hphase

/-- Without a round there is no window and no move. -/
theorem Consistent.resting_of_not_operating (h : c.Consistent setup)
    (hop : ¬ c.flags.operating = true) : c.Resting setup ∧ c.queued = [] := by
  rw [h.operating_iff, not_or] at hop
  obtain ⟨hmigrating, hanalyzing, hactive, hq⟩ := h.of_not_migrating hop.2
  have hmonitoring : c.flags.monitoring = false := by
    rw [← Bool.not_eq_true, h.monitoring_iff]
    exact hop.1
  exact ⟨⟨h.setup_eq, hmonitoring, hmigrating, hanalyzing, hactive⟩, hq⟩

theorem Consistent.launch (h : c.Consistent setup) (now : Nat) :
    (c.launch now).next.Consistent setup := by
  apply h.guarded
  split
  · exact h
  · next hop =>
    obtain ⟨hresting, hq⟩ := h.resting_of_not_operating hop
    exact hresting.consistent_startMonitoring hq now

section

variable [Weight W]

theorem Consistent.stopMonitoring (h : c.Consistent setup) (hphase : c.phase = .monitoring)
    {submit : Executor} {now : Nat} {turn : Turn W Unit}
    (hturn : c.stopMonitoring submit now = .ok turn) : turn.next.Consistent setup := by
  have hop : c.flags.operating = true := h.operating_iff.mpr (.inl hphase)
  obtain ⟨hmigrating, hanalyzing, hactive, hq⟩ := h.of_not_migrating (by simp [hphase])
  have hstopped : c.stopped.Resting setup := ⟨h.setup_eq, rfl, hmigrating, hanalyzing, hactive⟩
  rcases stopMonitoring_cases hturn with ⟨e, -, rfl⟩ | ⟨moves, planner, -, rfl⟩
  · exact hstopped.consistent_finish hq
  · have hloaded : (c.stopped.loaded moves planner).Resting setup := { hstopped with }
    exact hloaded.consistent_proceed hop submit now

theorem Consistent.observe (h : c.Consistent setup) {submit : Executor} {ks : List Key}
    {now : Nat} {turn : Turn W Unit} (hturn : c.observe submit ks now = .ok turn) :
    turn.next.Consistent setup := by
  rcases observe_cases hturn with ⟨-, rfl⟩ | ⟨-, -, rfl⟩ | ⟨e, -, -, rfl⟩ |
    ⟨planner, hphase, -, hseen⟩
  · exact h
  · exact h
  · exact h.failOrHalt e
  · have hnoted : ({ c with planner } : Coordinator W).Consistent setup := { h with }
    rcases hseen with rfl | hstop
    · exact hnoted
    · exact hnoted.stopMonitoring hphase hstop

end

/-! ## The move in flight -/

theorem Consistent.commit (h : c.Consistent setup) (submit : Executor) (now : Nat) :
    (c.commit submit now).next.Consistent setup := by
  by_cases haborted : c.phase = .aborted
  · rw [Coordinator.commit, guarded_of_aborted haborted]
    exact h
  · cases hm : c.active with
    | none =>
      rw [commit_of_none haborted hm]
      exact h
    | some m =>
      have hphase : c.phase = .migrating := h.active_iff.mp (by simp [hm])
      have hop : c.committed.flags.operating = true := h.operating_iff.mpr (.inr hphase)
      have hmonitoring : c.flags.monitoring = false := by
        rw [← Bool.not_eq_true, h.monitoring_iff, hphase]
        simp
      have hresting : c.committed.Resting setup := ⟨h.setup_eq, hmonitoring, rfl, rfl, rfl⟩
      rw [commit_of_active haborted hm]
      exact hresting.consistent_proceed hop submit now

/-- What is known of keys does not matter, and the analysis can only end. -/
theorem Consistent.of_notes [Weight W] (h : c.Consistent setup) {op : Call} {turn : Turn W Answer}
    (hnotes : c.Notes op turn) : turn.next.Consistent setup := by
  cases hnotes with
  | noted _ _ _ _ _ _ _ _ hanalyzing =>
    exact { h with analyzing := fun hon => h.analyzing (hanalyzing hon) }
  | halted => exact consistent_halt h.setup_eq

/-! ## Runs -/

section

variable [Weight W]

theorem Consistent.call (h : c.Consistent setup) {submit : Executor} {op : Call}
    (hop : op.isRegular = true) {turn : Turn W Answer} (hcall : c.call submit op = .ok turn) :
    turn.next.Consistent setup := by
  cases op with
  | startMonitoring now => cases hop
  | launch now =>
    cases hcall
    exact h.launch now
  | observe ks now =>
    obtain ⟨seen, hobserve, hanswer⟩ := Outcome.bind_eq_ok.mp hcall
    cases hanswer
    exact h.observe hobserve
  | commit now =>
    cases hcall
    exact h.commit submit now
  | _ => exact h.of_notes (notes_of_call rfl hcall)

theorem consistent_of_reached {placement : Placement} {plans : Option ScalingPlans}
    (h : Reached setup placement plans c) : c.Consistent setup := by
  induction h with
  | start => exact consistent_make setup placement plans
  | call submit op _ hop hcall ih => exact ih.call hop hcall

/-- Phase, flags and moves agree in every state that is reached. A launch does nothing while a round
is running, and once the coordinator is aborted all calls fail and do nothing. -/
theorem agrees_of_reached {placement : Placement} {plans : Option ScalingPlans}
    (h : Reached setup placement plans c) :
    c.Consistent setup ∧
    (c.phase = .monitoring ∨ c.phase = .migrating →
      ∀ now : Nat, c.launch now = ⟨.ok (), [], c⟩) ∧
    (c.phase = .aborted → ∀ (submit : Executor) (op : Call), op.isRegular = true →
      c.call submit op = .ok ⟨.error .aborted, [], c⟩) := by
  have hc := consistent_of_reached h
  refine ⟨hc, ?_, ?_⟩
  · intro hphase now
    have hrunning : c.phase ≠ .aborted := by
      rcases hphase with hphase | hphase <;> simp [hphase]
    rw [Coordinator.launch, guarded_of_running hrunning, if_pos (hc.operating_iff.mpr hphase)]
    rfl
  · intro haborted submit op hop
    exact call_of_aborted haborted submit hop

end

/-- Two partitions, of which the second joins with moves that are planned ahead. -/
def joining : Setup ℚ where
  localPartition := 0
  partitions := 2
  window := 1000
  scaling := .scaleOut
  predefined := true
  capacity := 16
  tuning := { crossCost := 1, overload := 1, lookAhead := 5, clumpMaxSize := 20, maxClumps := 5 }
  batches := .default
  reportDir := none

def joiningPlacement : Placement where
  home := fun _ => 0

def joiningPlans : ScalingPlans where
  scaleOut := fun n => .ok [.ofRange 0 (n - 1) ⟨0, 10⟩]
  consolidate := fun _ _ => .ok []

/-- The coordinator is launched, and observes a transaction without keys. -/
def joiningRun : Except Overflow (Turn ℚ Answer) :=
  let c := make joining joiningPlacement (some joiningPlans)
  (c.launch 0).next.call (fun _ => .ok ()) (.observe [] 5)

theorem reached_joiningRun {turn : Turn ℚ Answer} (h : joiningRun = .ok turn) :
    Reached joining joiningPlacement (some joiningPlans) turn.next := by
  have hstart : Reached joining joiningPlacement (some joiningPlans) _ := .start
  have hlaunched := hstart.call (fun _ => .ok ()) (.launch 0) rfl rfl
  exact hlaunched.call _ (.observe [] 5) rfl h

/-- The moves planned ahead do not wait for the end of the window. -/
theorem agrees_of_reached_joining : ∃ turn, joiningRun = .ok turn ∧
    turn.next.phase = .migrating ∧
    turn.next.Consistent joining ∧
    (turn.next.phase = .monitoring ∨ turn.next.phase = .migrating →
      ∀ now : Nat, turn.next.launch now = ⟨.ok (), [], turn.next⟩) ∧
    (turn.next.phase = .aborted → ∀ (submit : Executor) (op : Call), op.isRegular = true →
      turn.next.call submit op = .ok ⟨.error .aborted, [], turn.next⟩) := by
  have hphase : joiningRun.toOption.map (·.next.phase) = some .migrating := by decide +kernel
  cases h : joiningRun with
  | error e =>
    rw [h] at hphase
    nomatch hphase
  | ok turn =>
    rw [h] at hphase
    exact ⟨turn, rfl, Option.some.inj hphase, agrees_of_reached (reached_joiningRun h)⟩

end Coordinator

end Reshard
