import Reshard.Proofs.Migration.Retirement
import Reshard.Proofs.Migration.Tags
import Reshard.Proofs.Migration.Windows

/-!
What a failing operation leaves behind. It changed nothing; or it met a violation and gave up the
round and all later ones; or moves could not be planned or handed over, which ends the round and
allows the next launch (`fails_cleanly`).
-/

namespace Reshard

/-! ## Observations fail for replicated keys only -/

namespace Planner

variable {W : Type} [Weight W]

/-- A transaction is not taken in only if it names a fully replicated key. -/
theorem violation_of_monitor {p : Planner W} (hp : p.graph.Sound) {l : Locations} {ks : List Key}
    {e : Failure} (h : p.monitor l ks = .error e) :
    ∃ k ∈ ks, l.placement.replicated k = true ∧ e = .violation (.fullyReplicatedKey k) := by
  by_cases hreplicated : ∃ k ∈ ks, l.placement.replicated k = true
  · obtain ⟨k, hk, hrep, herror⟩ := representatives_of_replicated hreplicated
    rw [monitor, herror] at h
    cases h
    exact ⟨k, hk, hrep, rfl⟩
  · have hregular : ∀ k ∈ ks, l.placement.replicated k = false := by simpa using hreplicated
    obtain ⟨g, hok, -, -⟩ := picture_monitor hp hregular
    rw [hok] at h
    cases h

end Planner

namespace Coordinator

section

variable {W : Type} [Weight W] {setup : Setup W} {placement : Placement}
  {plans : Option ScalingPlans} {es : List (Entry W)} {c : Coordinator W}

/-- While a window is open, the graph is one that observations build. -/
theorem watches_of_run (h : Run (make setup placement plans) es c)
    (hregular : ∀ e ∈ es, e.op.isRegular = true) (hphase : c.phase = .monitoring) :
    c.planner.graph.Reachable := by
  induction h with
  | nil => nomatch hphase
  | push pool _ ih => exact ih hregular hphase
  | @call es c turn submit op hrun hcall ih =>
    obtain ⟨hbefore, hop⟩ := List.forall_mem_append.mp hregular
    cases within_of_call (hop _ (List.mem_singleton_self _)) hcall hphase with
    | opened hopened =>
      rw [hopened.graph_eq]
      exact .empty
    | kept hopen _ _ hplanner =>
      rw [hplanner]
      exact ih hbefore hopen
    | noted ks hopen _ _ hm => exact Planner.graph_monitor (ih hbefore hopen) hm
    | missed ks e hopen _ herror hnot =>
      have hsound := Graph.sound_of_reachable (ih hbefore hopen)
      obtain ⟨k, -, -, he⟩ := Planner.violation_of_monitor hsound herror
      exact absurd he (hnot _)

end

/-! ## The states that are left -/

section

variable {W : Type}

/-- No round is running. -/
structure Idle (c : Coordinator W) : Prop where
  active : c.active = none
  queued : c.queued = []
  monitoring : c.flags.monitoring = false
  analyzing : c.flags.analyzing = false
  migrating : c.flags.migrating = false
  operating : c.flags.operating = false

/-- A violation was met. -/
structure Halted (c : Coordinator W) (turn : Turn W Answer) : Prop where
  violation : ∃ cause, turn.answer = .error (.violation cause)
  phase : turn.next.phase = .aborted
  idle : turn.next.Idle
  graph : turn.next.planner.graph = c.planner.graph
  locations : turn.next.locations = c.locations

/-- The round is over, and the next launch starts another one. -/
structure Ended (c next : Coordinator W) : Prop where
  phase : (next.phase = .completed ∧ next.setup.scaling = .disabled) ∨
    (next.phase = .finished ∧ next.setup.scaling ≠ .disabled)
  idle : next.Idle
  locations : next.locations = c.locations
  launches : ∀ now, next.launch now = ⟨.ok (), [], next.startMonitoring now⟩

/-- A request is refused by the execution layer. -/
def Refuses (submit : Executor) {α : Type} (turn : Turn W α) : Prop :=
  ∃ request reason, submit request = .error reason ∧ turn.submissions = [(request, false)] ∧
    turn.answer = .error (.refused reason)

end

section

variable {W : Type} [Weight W]

/-- The window is over, but the moves of the round cannot be chosen. -/
def PlanningFails (c : Coordinator W) (op : Call) (turn : Turn W Answer) : Prop :=
  ∃ ks now planner e, op = .observe ks now ∧ c.phase = .monitoring ∧
    c.planner.monitor c.locations ks = .ok planner ∧
    (Coordinator.stopped { c with planner }).roundMoves = .ok (.error e) ∧ turn.answer = .error e

/-- What a failing call comes to. -/
inductive Aftermath
  | unchanged
  | halted
  | ended

def Leaves (c : Coordinator W) (submit : Executor) (op : Call) (turn : Turn W Answer) :
    Aftermath → Prop
  | .unchanged => turn.next = c
  | .halted => c.Halted turn
  | .ended => (c.PlanningFails op turn ∨ Refuses submit turn) ∧ c.Ended turn.next

end

/-! ## Rounds that end -/

section

variable {W : Type} {setup : Setup W} {c : Coordinator W}

theorem Resting.ended_finish {d : Coordinator W} (h : d.Resting setup) (hq : d.queued = [])
    (hlocations : d.locations = c.locations) : c.Ended d.finish := by
  refine ⟨?_, ⟨h.active, hq, h.monitoring, h.analyzing, h.migrating, rfl⟩, hlocations,
    fun now => ?_⟩
  · cases hs : d.setup.scaling <;> simp [Coordinator.finish, hs, Scaling.isOn]
  · rw [launch, guarded_of_running d.phase_finish]
    rfl

/-- A move that is refused ends the round. -/
theorem Resting.refuses_dispatch (h : c.Resting setup) {submit : Executor} {m : Move} {e : Failure}
    (hfail : (c.dispatch submit m).answer = .error e) :
    Refuses submit (c.dispatch submit m) ∧ c.Ended (c.dispatch submit m).next := by
  revert hfail
  unfold dispatch
  split
  · intro hfail
    nomatch hfail
  · next reason hrefused =>
    intro _
    refine ⟨⟨m.request, reason, hrefused, rfl, rfl⟩, ?_⟩
    exact Resting.ended_finish ⟨h.setup_eq, h.monitoring, rfl, rfl, rfl⟩ rfl rfl

/-- What goes on with moves fails only if the first one is refused. -/
theorem Resting.refuses_proceed (h : c.Resting setup) {submit : Executor} {now : Nat} {e : Failure}
    (hfail : (c.proceed submit now).answer = .error e) :
    Refuses submit (c.proceed submit now) ∧ c.Ended (c.proceed submit now).next := by
  revert hfail
  unfold proceed
  split
  · next m rest _ =>
    intro hfail
    have hleft : ({ c with queued := rest } : Coordinator W).Resting setup := { h with }
    obtain ⟨hrefuses, hended⟩ := hleft.refuses_dispatch hfail
    exact ⟨hrefuses, { hended with }⟩
  · intro hfail
    nomatch hfail

end

/-! ## Failing calls -/

section

variable {W : Type} [Weight W] {setup : Setup W} {c : Coordinator W} {submit : Executor}
  {turn : Turn W Answer}

omit [Weight W] in
/-- A call that answers as an operation does, but has more effects, is refused if the operation
is. -/
theorem Refuses.mapAnswer {α : Type} {t : Turn W α} (h : Refuses submit t)
    {extra : List (Effect W)} (hextra : extra.filterMap Effect.submission? = [])
    (f : α → Answer) :
    Refuses submit (Turn.mapAnswer { t with effects := extra ++ t.effects } f) := by
  obtain ⟨request, reason, hrefused, hsubmissions, hanswer⟩ := h
  refine ⟨request, reason, hrefused, (t.submissions_extra hextra).trans hsubmissions, ?_⟩
  change t.answer.map f = _
  rw [hanswer]
  rfl

omit [Weight W] in
theorem error_of_mapAnswer {α β : Type} {t : Turn W α} {f : α → β} {e : Failure}
    (h : (t.mapAnswer f).answer = .error e) : ∃ e', t.answer = .error e' := by
  cases ht : t.answer with
  | error e' => exact ⟨e', rfl⟩
  | ok a =>
    change t.answer.map f = _ at h
    rw [ht] at h
    nomatch h

theorem leaves_of_commit (hc : c.Consistent setup) (hphase : c.phase ≠ .aborted) {now : Nat}
    (hcall : c.call submit (.commit now) = .ok turn) {e : Failure}
    (hfail : turn.answer = .error e) : ∃ a, c.Leaves submit (.commit now) turn a := by
  cases hcall
  cases hm : c.active with
  | none =>
    rw [commit_of_none hphase hm]
    exact ⟨.unchanged, rfl⟩
  | some m =>
    have hmigrating : c.phase = .migrating := hc.active_iff.mp (by simp [hm])
    have hmonitoring : c.flags.monitoring = false := by
      rw [← Bool.not_eq_true, hc.monitoring_iff, hmigrating]
      simp
    have hresting : c.committed.Resting setup := ⟨hc.setup_eq, hmonitoring, rfl, rfl, rfl⟩
    rw [commit_of_active hphase hm] at hfail ⊢
    obtain ⟨e', hfail'⟩ := error_of_mapAnswer hfail
    obtain ⟨hrefuses, hended⟩ := hresting.refuses_proceed hfail'
    have hstop : [(Effect.stopPusher : Effect W)].filterMap Effect.submission? = [] := rfl
    exact ⟨.ended, .inr (hrefuses.mapAnswer hstop _), { hended with }⟩

theorem leaves_of_observe (hc : c.Consistent setup)
    (hwatches : c.phase = .monitoring → c.planner.graph.Sound) {ks : List Key} {now : Nat}
    (hcall : c.call submit (.observe ks now) = .ok turn) {e : Failure}
    (hfail : turn.answer = .error e) : ∃ a, c.Leaves submit (.observe ks now) turn a := by
  obtain ⟨seen, hseen, hanswer⟩ := Outcome.bind_eq_ok.mp hcall
  cases hanswer
  rcases observe_cases hseen with ⟨-, rfl⟩ | ⟨-, -, rfl⟩ | ⟨e, hphase, herror, rfl⟩ |
    ⟨planner, hphase, hm, rfl | hstop⟩
  · exact ⟨.unchanged, rfl⟩
  · nomatch hfail
  · obtain ⟨k, -, -, rfl⟩ := Planner.violation_of_monitor (hwatches hphase) herror
    exact ⟨.halted, ⟨_, rfl⟩, rfl, ⟨rfl, rfl, rfl, rfl, rfl, rfl⟩, rfl, rfl⟩
  · nomatch hfail
  · obtain ⟨hmigrating, hanalyzing, hactive, hq⟩ := hc.of_not_migrating (by simp [hphase])
    have hstopped : (Coordinator.stopped { c with planner }).Resting setup :=
      ⟨hc.setup_eq, rfl, hmigrating, hanalyzing, hactive⟩
    rcases stopMonitoring_cases hstop with ⟨e', hround, rfl⟩ | ⟨moves, left, -, rfl⟩
    · refine ⟨.ended, .inl ?_, hstopped.ended_finish hq rfl⟩
      exact ⟨ks, now, planner, e', rfl, hphase, hm, hround, rfl⟩
    · have hloaded : ((Coordinator.stopped { c with planner }).loaded moves left).Resting setup :=
        { hstopped with }
      obtain ⟨e', hfail'⟩ := error_of_mapAnswer hfail
      obtain ⟨hrefuses, hended⟩ := hloaded.refuses_proceed hfail'
      exact ⟨.ended, .inr (hrefuses.mapAnswer (submissions_reports _) _), { hended with }⟩

theorem leaves_of_relocated (hphase : c.phase ≠ .aborted) {ks : List Key}
    (hcall : c.call submit (.relocated ks) = .ok turn) {e : Failure}
    (hfail : turn.answer = .error e) : ∃ a, c.Leaves submit (.relocated ks) turn a := by
  cases hcall
  revert hfail
  rw [Coordinator.relocated, guarded_of_running hphase]
  split
  · exact fun _ => ⟨.unchanged, rfl⟩
  · rintro ⟨⟩

theorem leaves_of_checkMigrated (hphase : c.phase ≠ .aborted) {k : Key}
    (hcall : c.call submit (.checkMigrated k) = .ok turn) {e : Failure}
    (hfail : turn.answer = .error e) : ∃ a, c.Leaves submit (.checkMigrated k) turn a := by
  cases hcall
  revert hfail
  rw [Coordinator.checkMigrated, guarded_of_running hphase]
  split
  · rintro ⟨⟩
  · rintro ⟨⟩
  · exact fun _ => ⟨.halted, ⟨_, rfl⟩, rfl, ⟨rfl, rfl, rfl, rfl, rfl, rfl⟩, rfl, rfl⟩

theorem leaves_of_insert (hphase : c.phase ≠ .aborted) {k : Key}
    (hcall : c.call submit (.insert k) = .ok turn) {e : Failure}
    (hfail : turn.answer = .error e) : ∃ a, c.Leaves submit (.insert k) turn a := by
  cases hcall
  revert hfail
  rw [Coordinator.insert, guarded_of_running hphase]
  split
  · rintro ⟨⟩
  · exact fun _ => ⟨.unchanged, rfl⟩

theorem leaves_of_analyze (hphase : c.phase ≠ .aborted) {ks : List Key}
    (hcall : c.call submit (.analyze ks) = .ok turn) {e : Failure}
    (hfail : turn.answer = .error e) : ∃ a, c.Leaves submit (.analyze ks) turn a := by
  cases hcall
  revert hfail
  rw [Coordinator.analyze, guarded_of_running hphase]
  split
  · rintro ⟨⟩
  · exact fun _ => ⟨.unchanged, rfl⟩

theorem exists_leaves (hc : c.Consistent setup)
    (hwatches : c.phase = .monitoring → c.planner.graph.Sound) {op : Call}
    (hop : op.isRegular = true) (hcall : c.call submit op = .ok turn) {e : Failure}
    (hfail : turn.answer = .error e) : ∃ a, c.Leaves submit op turn a := by
  by_cases hphase : c.phase = .aborted
  · rw [call_of_aborted hphase submit hop] at hcall
    cases hcall
    exact ⟨.unchanged, rfl⟩
  · cases op with
    | startMonitoring now => cases hop
    | launch now =>
      -- Outside the aborted phase a launch does not fail, and neither does a note of shipped keys.
      cases hcall
      revert hfail
      rw [Coordinator.launch, guarded_of_running hphase]
      split <;> rintro ⟨⟩
    | observe ks now => exact leaves_of_observe hc hwatches hcall hfail
    | commit now => exact leaves_of_commit hc hphase hcall hfail
    | relocated ks => exact leaves_of_relocated hphase hcall hfail
    | shipped ks =>
      cases hcall
      revert hfail
      rw [Coordinator.shipped, guarded_of_running hphase]
      split <;> rintro ⟨⟩
    | checkMigrated k => exact leaves_of_checkMigrated hphase hcall hfail
    | insert k => exact leaves_of_insert hphase hcall hfail
    | analyze ks => exact leaves_of_analyze hphase hcall hfail

/-! ## One state at most -/

theorem Halted.changes {op : Call} (h : c.Halted turn) (hop : op.isRegular = true)
    (hcall : c.call submit op = .ok turn) : turn.next ≠ c := by
  intro hsame
  have haborted : c.phase = .aborted := hsame ▸ h.phase
  rw [call_of_aborted haborted submit hop] at hcall
  cases hcall
  obtain ⟨cause, hcause⟩ := h.violation
  nomatch hcause

omit [Weight W] in
theorem Halted.not_ended (h : c.Halted turn) : ¬ c.Ended turn.next := by
  intro hended
  rcases hended.phase with ⟨hcompleted, -⟩ | ⟨hfinished, -⟩
  · rw [h.phase] at hcompleted
    nomatch hcompleted
  · rw [h.phase] at hfinished
    nomatch hfinished

omit [Weight W] in
/-- In an ended round no window is open. -/
theorem Ended.not_monitoring {next : Coordinator W} (h : c.Ended next) :
    next.phase ≠ .monitoring := by
  rcases h.phase with ⟨hphase, -⟩ | ⟨hphase, -⟩ <;> simp [hphase]

/-- Moves are planned when a window ends, and handed over then or when another one is committed. So
the round that a failure ends was running before. -/
theorem Ended.changes {op : Call} (h : c.Ended turn.next) (hc : c.Consistent setup)
    (hcall : c.call submit op = .ok turn)
    (hcause : c.PlanningFails op turn ∨ Refuses submit turn) : turn.next ≠ c := by
  intro hsame
  rw [hsame] at h
  rcases hcause with
    ⟨ks, now, planner, e, -, hphase, -⟩ | ⟨request, reason, -, hsubmissions, -⟩
  · exact h.not_monitoring hphase
  · cases fate_of_call hc hcall with
    | quiet hnone => simp [hnone] at hsubmissions
    | halted hnone => simp [hnone] at hsubmissions
    | committed now m _ hm =>
      rw [h.idle.active] at hm
      nomatch hm
    | planned ms hplans => exact h.not_monitoring hplans.phase_eq

theorem Leaves.eq {op : Call} (hc : c.Consistent setup) (hop : op.isRegular = true)
    (hcall : c.call submit op = .ok turn) {a b : Aftermath} (ha : c.Leaves submit op turn a)
    (hb : c.Leaves submit op turn b) : a = b := by
  cases a <;> cases b
  case unchanged.unchanged | halted.halted | ended.ended => rfl
  case unchanged.halted => exact absurd ha (Halted.changes hb hop hcall)
  case unchanged.ended => exact absurd ha (hb.2.changes hc hcall hb.1)
  case halted.unchanged => exact absurd hb (Halted.changes ha hop hcall)
  case halted.ended => exact absurd hb.2 ha.not_ended
  case ended.unchanged => exact absurd hb (ha.2.changes hc hcall ha.1)
  case ended.halted => exact absurd ha.2 hb.not_ended

/-- A failing call leaves exactly one of three states: that of before, the aborted one after a
violation, or that of a round which ended because its moves could not be planned or handed over. -/
theorem fails_cleanly {placement : Placement} {plans : Option ScalingPlans} {es : List (Entry W)}
    (h : Run (make setup placement plans) es c) (hregular : ∀ e ∈ es, e.op.isRegular = true)
    {op : Call} (hop : op.isRegular = true) (hcall : c.call submit op = .ok turn) {e : Failure}
    (hfail : turn.answer = .error e) : ∃! a, c.Leaves submit op turn a := by
  have hc := consistent_of_run h hregular
  have hwatches : c.phase = .monitoring → c.planner.graph.Sound :=
    fun hphase => Graph.sound_of_reachable (watches_of_run h hregular hphase)
  obtain ⟨a, ha⟩ := exists_leaves hc hwatches hop hcall hfail
  exact ⟨a, ha, fun b hb => Leaves.eq hc hop hcall hb ha⟩

end

/-- The round of the joining move ends when the move is refused. -/
theorem fails_cleanly_joining : ∃ es c turn,
    Run (make joining joiningPlacement (some joiningPlans)) es c ∧
    (∀ e ∈ es, e.op.isRegular = true) ∧ c.call refusing (.observe [] 5) = .ok turn ∧
    (∃ e, turn.answer = .error e) ∧ turn.next.phase = .finished ∧
    ∃! a, c.Leaves refusing (.observe [] 5) turn a := by
  let c := make joining joiningPlacement (some joiningPlans)
  have hend : ((c.launch 0).next.call refusing (.observe [] 5)).toOption.map (fun turn =>
      (turn.answer.toOption.isNone, turn.next.phase)) = some (true, .finished) := by decide +kernel
  match hcall : (c.launch 0).next.call refusing (.observe [] 5) with
  | .error e =>
    rw [hcall] at hend
    nomatch hend
  | .ok turn =>
    rw [hcall] at hend
    obtain ⟨hnone, hphase⟩ := Prod.mk.inj (Option.some.inj hend)
    let launched : Entry ℚ :=
      ⟨c, refusing, .launch 0, (c.launch 0).mapAnswer fun _ => Answer.done⟩
    have hrun : Run c [launched] (c.launch 0).next := Run.nil.call refusing (.launch 0) rfl
    have hregular : ∀ e ∈ [launched], e.op.isRegular = true := List.forall_mem_singleton.mpr rfl
    cases hanswer : turn.answer with
    | ok a =>
      rw [hanswer] at hnone
      nomatch hnone
    | error e =>
      exact ⟨[launched], _, turn, hrun, hregular, hcall, ⟨e, hanswer⟩, hphase,
        fails_cleanly hrun hregular rfl hcall hanswer⟩

end Coordinator

end Reshard
