import Reshard.Proofs.Migration.Rounds

/-!
How many partitions consolidation retires. A partition is retired when the moves that drain it are
planned, but it counts as drained only when the last of these moves is committed. If one of them is
refused, or a window is started from outside in between, the next round may retire another one:
there are no more retired partitions than one and those that such a round paid for
(`retired_of_run`).
-/

namespace Reshard

open Collections

/-- How many requests the execution layer refuses in a history. -/
def refusals {W : Type} (es : List (Entry W)) : Nat := (submissions es).countP (!·.2)

/-- How many windows are started from outside in a history. -/
def outsideStarts {W : Type} (es : List (Entry W)) : Nat := es.countP (!·.op.isRegular)

/-- Effects that hand over nothing may come first. -/
theorem Turn.submissions_extra {W α : Type} (t : Turn W α) {extra : List (Effect W)}
    (hextra : extra.filterMap Effect.submission? = []) :
    Turn.submissions { t with effects := extra ++ t.effects } = t.submissions := by
  rw [submissions, List.filterMap_append, hextra]
  rfl

/-! ## Planning retires one partition at most -/

section

variable {W : Type} [Weight W]

theorem Planner.retired_plan {p q : Planner W} {n : Nat} {plan : Option Plan}
    (h : p.plan n = .ok (plan, q)) : q.retired = p.retired := by
  rw [plan_eq_passes] at h
  obtain ⟨s, hs, hresult⟩ := Outcome.map_eq_ok.mp h
  cases hresult
  exact (Planning.sameBase_of_passes hs).2.1.symm

theorem Planner.retired_monitor {p q : Planner W} {l : Locations} {ks : List Key}
    (h : p.monitor l ks = .ok q) : q.retired = p.retired := by
  obtain ⟨accessed, -, h⟩ := Outcome.bind_eq_ok.mp h
  obtain ⟨graph, -, h⟩ := Outcome.bind_eq_ok.mp h
  cases h
  rfl

namespace Coordinator

/-- The moves of a round leave the retired partitions alone, or they drain a partition. -/
inductive Retires (c : Coordinator W) (left : Planner W) : Prop
  | none : left.retired = c.planner.retired → Retires c left
  /-- With moves planned ahead, this is always the last partition. -/
  | last : c.setup.predefined = true →
      left.retired = c.planner.retired.insert (c.setup.partitions - 1) → Retires c left
  | lightest (p : PartitionId) : c.setup.predefined = false → c.consolidated = false →
      left.retired = c.planner.retired.insert p → Retires c left

theorem retired_observedMoves {c : Coordinator W} {ms : List Move} {left : Planner W}
    (h : c.observedMoves = .ok (.ok (ms, left))) : left.retired = c.planner.retired := by
  obtain ⟨_, hplanned, h⟩ := Outcome.bind_eq_ok.mp h
  obtain ⟨-, rfl⟩ := Outcome.after_eq_ok.mp hplanned
  obtain ⟨⟨plan, q⟩, hplan, h⟩ := Outcome.bind_eq_ok.mp (Except.ok.inj h)
  cases h
  exact Planner.retired_plan hplan

omit [Weight W] in
theorem retired_joiningMoves {c : Coordinator W} {ms : List Move} {left : Planner W}
    (h : c.joiningMoves = .ok (.ok (ms, left))) : left.retired = c.planner.retired := by
  unfold joiningMoves at h
  split at h
  · nomatch h
  · obtain ⟨_, -, h⟩ := Outcome.bind_eq_ok.mp h
    cases h
    rfl

omit [Weight W] in
theorem retired_drainingMoves {c : Coordinator W} {p : PartitionId} {ms : List Move}
    {left : Planner W} (h : c.drainingMoves p = .ok (.ok (ms, left))) :
    left.retired = c.planner.retired.insert p := by
  unfold drainingMoves at h
  split at h
  · nomatch h
  · obtain ⟨_, -, h⟩ := Outcome.bind_eq_ok.mp h
    cases h
    rfl

theorem retired_lightestMoves {c : Coordinator W} {ms : List Move} {left : Planner W}
    (h : c.lightestMoves = .ok (.ok (ms, left))) :
    left.retired = c.planner.retired ∨ ∃ p, left.retired = c.planner.retired.insert p := by
  obtain ⟨_, -, h⟩ := Outcome.bind_eq_ok.mp h
  split at h
  · cases h
    exact .inl rfl
  · exact .inr ⟨_, retired_drainingMoves h⟩

theorem retires_of_roundMoves {c : Coordinator W} {ms : List Move} {left : Planner W}
    (h : c.roundMoves = .ok (.ok (ms, left))) : c.Retires left := by
  unfold roundMoves at h
  dsimp only at h
  split at h
  · exact .none (retired_observedMoves h)
  · split at h
    · exact .none (retired_joiningMoves h)
    · exact .none (retired_observedMoves h)
  · split at h
    · next hahead =>
      rw [Bool.and_eq_true] at hahead
      exact .last hahead.1 (retired_drainingMoves h)
    · split at h
      · next hdrains =>
        simp only [Bool.and_eq_true, Bool.not_eq_true'] at hdrains
        rcases retired_lightestMoves h with hsame | ⟨p, hp⟩
        · exact .none hsame
        · exact .lightest p hdrains.1 hdrains.2 hp
      · exact .none (retired_observedMoves h)

end Coordinator

end

/-! ## What is owed for retired partitions -/

namespace Coordinator

section

variable {W : Type} {setup : Setup W} {cuts : Nat} {c : Coordinator W}

/-- A partition was drained, or moves that may drain one are under way, or nothing more is done. -/
def mayDrain (c : Coordinator W) : Bool :=
  c.consolidated || (c.phase = .migrating && c.flags.operating) || c.phase = .aborted

/-- Every retired partition but one, or every one if none may be drained, is paid for by a round
that was cut off. With moves planned ahead only the last partition is ever retired. -/
structure Thrifty (setup : Setup W) (cuts : Nat) (c : Coordinator W) : Prop where
  setup_eq : c.setup = setup
  operating : c.phase = .monitoring → c.flags.operating = true
  ahead : setup.predefined = true → ∀ p ∈ c.planner.retired, p = setup.partitions - 1
  later : setup.predefined = false → c.planner.retired.size ≤ cuts + c.mayDrain.toNat

/-- The same inside an operation, before it goes on with the moves of the round. -/
structure Owing (setup : Setup W) (cuts : Nat) (c : Coordinator W) : Prop where
  setup_eq : c.setup = setup
  ahead : setup.predefined = true → ∀ p ∈ c.planner.retired, p = setup.partitions - 1
  later : setup.predefined = false →
    c.planner.retired.size ≤ cuts + (c.consolidated || c.flags.operating).toNat

theorem thrifty_make (setup : Setup W) (placement : Placement) (plans : Option ScalingPlans) :
    Thrifty setup 0 (make setup placement plans) := by
  constructor <;> simp [make, Planner.make]

/-- What the account depends on. -/
def ledger (c : Coordinator W) : Setup W × Phase × Bool × Bool × Std.ExtTreeSet PartitionId :=
  (c.setup, c.phase, c.flags.operating, c.consolidated, c.planner.retired)

theorem Thrifty.of_ledger {c' : Coordinator W} (h : Thrifty setup cuts c)
    (hledger : c'.ledger = c.ledger) : Thrifty setup cuts c' := by
  simp only [ledger, Prod.mk.injEq] at hledger
  obtain ⟨hsetup, hphase, hoperating, hconsolidated, hretired⟩ := hledger
  constructor
  · rw [hsetup, h.setup_eq]
  · rw [hphase, hoperating]
    exact h.operating
  · rw [hretired]
    exact h.ahead
  · rw [mayDrain, hconsolidated, hphase, hoperating, hretired]
    exact h.later

theorem Thrifty.later_succ (h : Thrifty setup cuts c) (hpredefined : setup.predefined = false) :
    c.planner.retired.size ≤ cuts + 1 :=
  (h.later hpredefined).trans (Nat.add_le_add_left (Bool.toNat_le _) cuts)

theorem Owing.later_succ (h : Owing setup cuts c) (hpredefined : setup.predefined = false) :
    c.planner.retired.size ≤ cuts + 1 :=
  (h.later hpredefined).trans (Nat.add_le_add_left (Bool.toNat_le _) cuts)

theorem Thrifty.halt (h : Thrifty setup cuts c) : Thrifty setup cuts c.halt := by
  constructor
  · exact h.setup_eq
  · intro hphase
    nomatch hphase
  · exact h.ahead
  · intro hpredefined
    have hmay : c.halt.mayDrain = true := by simp [mayDrain, Coordinator.halt]
    rw [hmay]
    exact h.later_succ hpredefined

theorem Thrifty.failOrHalt {α : Type} (h : Thrifty setup cuts c) (e : Failure) :
    Thrifty setup cuts (c.failOrHalt e : Turn W α).next := by
  unfold Coordinator.failOrHalt
  split
  · exact h.halt
  · exact h

/-! ## Windows -/

/-- A window that is started from outside may cut off a round. -/
theorem Thrifty.startMonitoring (h : Thrifty setup cuts c) (now : Nat) :
    Thrifty setup (cuts + 1) (c.startMonitoring now) := by
  constructor
  · exact h.setup_eq
  · exact fun _ => rfl
  · exact h.ahead
  · exact fun hpredefined => (h.later_succ hpredefined).trans (Nat.le_add_right _ _)

theorem mayDrain_startMonitoring (c : Coordinator W) (now : Nat) :
    (c.startMonitoring now).mayDrain = c.consolidated := by
  simp [mayDrain, Coordinator.startMonitoring]

theorem Thrifty.launch (h : Thrifty setup cuts c) (now : Nat) :
    Thrifty setup cuts (c.launch now).next := by
  unfold Coordinator.launch guarded
  split
  · exact h
  · next hrunning =>
    split
    · exact h
    · next hidle =>
      have hmay : c.mayDrain = c.consolidated := by simp [mayDrain, hrunning, hidle]
      constructor
      · exact h.setup_eq
      · exact fun _ => rfl
      · exact h.ahead
      · change _ → _ ≤ cuts + (c.startMonitoring now).mayDrain.toNat
        rw [mayDrain_startMonitoring, ← hmay]
        exact h.later

/-! ## Going on with the moves of a round -/

theorem mayDrain_finish (c : Coordinator W) : c.finish.mayDrain = c.consolidated := by
  unfold mayDrain Coordinator.finish
  cases c.setup.scaling.isOn <;> simp

theorem Owing.finish (h : Owing setup cuts c)
    (hlater : setup.predefined = false → c.planner.retired.size ≤ cuts + c.consolidated.toNat) :
    Thrifty setup cuts c.finish := by
  constructor
  · exact h.setup_eq
  · intro hphase
    unfold Coordinator.finish at hphase
    cases hon : c.setup.scaling.isOn <;> simp [hon] at hphase
  · exact h.ahead
  · rw [mayDrain_finish]
    exact hlater

/-- A move that is sent may drain a partition, and one that is refused cuts the round off. -/
theorem Owing.dispatch (h : Owing setup cuts c) (submit : Executor) (m : Move) :
    Thrifty setup (cuts + (c.dispatch submit m).submissions.countP (!·.2))
      (c.dispatch submit m).next := by
  unfold Coordinator.dispatch
  cases submit m.request with
  | ok _ =>
    constructor
    · exact h.setup_eq
    · intro hphase
      nomatch hphase
    · exact h.ahead
    · intro hpredefined
      refine (h.later hpredefined).trans ?_
      simp [mayDrain, Turn.submissions, done, forgetKeys]
  | error reason =>
    have hpaid : setup.predefined = false → ∀ n, c.planner.retired.size ≤ cuts + 1 + n :=
      fun hpredefined n => (h.later_succ hpredefined).trans (Nat.le_add_right _ n)
    change Thrifty setup (cuts + 1) (Coordinator.finish _)
    apply Owing.finish
    · exact ⟨h.setup_eq, h.ahead, fun hpredefined => hpaid hpredefined _⟩
    · exact fun hpredefined => hpaid hpredefined _

/-- When the last move is committed, the partition is drained. -/
theorem Owing.wrapUp (h : Owing setup cuts c) (hscaling : setup.scaling = .consolidate)
    (now : Nat) : Thrifty setup cuts (c.wrapUp now) := by
  have hs : c.setup.scaling = .consolidate := by rw [h.setup_eq, hscaling]
  unfold Coordinator.wrapUp
  rw [hs]
  dsimp only
  split
  · next hahead =>
    rw [h.setup_eq, Bool.and_eq_true] at hahead
    apply Owing.finish
    · exact { h with }
    · intro hpredefined
      rw [hahead.1] at hpredefined
      nomatch hpredefined
  · split
    · constructor
      · exact h.setup_eq
      · exact fun _ => rfl
      · exact h.ahead
      · exact h.later_succ
    · next hnot =>
      apply Owing.finish h
      intro hpredefined
      have hdrained : c.consolidated = true := by simpa [h.setup_eq, hpredefined] using hnot
      rw [hdrained]
      exact h.later_succ hpredefined

theorem Owing.proceed (h : Owing setup cuts c) (hscaling : setup.scaling = .consolidate)
    (submit : Executor) (now : Nat) :
    Thrifty setup (cuts + (c.proceed submit now).submissions.countP (!·.2))
      (c.proceed submit now).next := by
  unfold Coordinator.proceed
  split
  · next m rest _ =>
    have hleft : Owing setup cuts { c with queued := rest } := { h with }
    exact hleft.dispatch submit m
  · exact h.wrapUp hscaling now

end

/-! ## Calls and runs -/

section

variable {W : Type} [Weight W] {setup : Setup W} {cuts : Nat} {c : Coordinator W}

omit [Weight W] in
/-- Planning retires a partition if none was drained before. -/
theorem Thrifty.loaded (h : Thrifty setup cuts c) (hphase : c.phase = .monitoring)
    {left : Planner W} (hretires : c.stopped.Retires left) (ms : List Move) :
    Owing setup cuts (c.stopped.loaded ms left) := by
  have hmay : c.mayDrain = c.consolidated := by simp [mayDrain, hphase]
  have hcredit : (c.consolidated || c.flags.operating) = true := by simp [h.operating hphase]
  constructor
  · exact h.setup_eq
  · change _ → ∀ p ∈ left.retired, _
    intro hpredefined p hp
    cases hretires with
    | none hsame =>
      rw [hsame] at hp
      exact h.ahead hpredefined p hp
    | last _ hinsert =>
      rw [hinsert, Std.ExtTreeSet.mem_insert, Std.compare_eq_iff_eq] at hp
      rcases hp with rfl | hp
      · exact congrArg (·.partitions - 1) h.setup_eq
      · exact h.ahead hpredefined p hp
    | lightest _ hnot _ _ =>
      rw [show c.stopped.setup = setup from h.setup_eq, hpredefined] at hnot
      nomatch hnot
  · change _ → left.retired.size ≤ cuts + (c.consolidated || c.flags.operating).toNat
    intro hpredefined
    rw [hcredit]
    cases hretires with
    | none hsame =>
      rw [hsame]
      exact h.later_succ hpredefined
    | last hahead _ =>
      rw [show c.stopped.setup = setup from h.setup_eq, hpredefined] at hahead
      nomatch hahead
    | lightest _ _ hnot hinsert =>
      have hle := h.later hpredefined
      rw [hmay, show c.consolidated = false from hnot] at hle
      rw [hinsert]
      exact Std.ExtTreeSet.size_insert_le.trans (Nat.succ_le_succ hle)

theorem Thrifty.stopMonitoring (h : Thrifty setup cuts c) (hscaling : setup.scaling = .consolidate)
    (hphase : c.phase = .monitoring) {submit : Executor} {now : Nat} {turn : Turn W Unit}
    (hturn : c.stopMonitoring submit now = .ok turn) :
    Thrifty setup (cuts + turn.submissions.countP (!·.2)) turn.next := by
  rcases stopMonitoring_cases hturn with ⟨e, -, rfl⟩ | ⟨ms, left, hround, rfl⟩
  · have hmay : c.mayDrain = c.consolidated := by simp [mayDrain, hphase]
    have howing : Owing setup cuts c.stopped :=
      ⟨h.setup_eq, h.ahead, fun hpredefined => by
        change _ ≤ cuts + (c.consolidated || c.flags.operating).toNat
        rw [h.operating hphase, Bool.or_true]
        exact h.later_succ hpredefined⟩
    have hnone : Turn.submissions (α := Unit) ⟨.error e, c.reports, c.stopped.finish⟩ = [] :=
      submissions_reports c
    rw [hnone]
    apply howing.finish
    rw [← show c.mayDrain = c.stopped.consolidated from hmay]
    exact h.later
  · have hproceed :=
      (h.loaded hphase (retires_of_roundMoves hround) ms).proceed hscaling submit now
    have hsame := ((c.stopped.loaded ms left).proceed submit now).submissions_extra
      (submissions_reports c)
    exact hsame ▸ hproceed

theorem Thrifty.observe (h : Thrifty setup cuts c) (hscaling : setup.scaling = .consolidate)
    {submit : Executor} {ks : List Key} {now : Nat} {turn : Turn W Unit}
    (hturn : c.observe submit ks now = .ok turn) :
    Thrifty setup (cuts + turn.submissions.countP (!·.2)) turn.next := by
  rcases observe_cases hturn with ⟨-, rfl⟩ | ⟨-, -, rfl⟩ | ⟨e, -, -, rfl⟩ |
    ⟨planner, hphase, hm, hseen⟩
  · exact h
  · exact h
  · have hnone : (c.failOrHalt e : Turn W Unit).submissions = [] := by cases e <;> rfl
    rw [hnone]
    exact h.failOrHalt e
  · have hnoted : Thrifty setup cuts { c with planner } := by
      refine h.of_ledger ?_
      simp only [ledger, Planner.retired_monitor hm]
    rcases hseen with rfl | hstop
    · exact hnoted
    · exact hnoted.stopMonitoring hscaling hphase hstop

omit [Weight W] in
theorem Thrifty.commit (h : Thrifty setup cuts c) (hscaling : setup.scaling = .consolidate)
    (submit : Executor) (now : Nat) :
    Thrifty setup (cuts + (c.commit submit now).submissions.countP (!·.2))
      (c.commit submit now).next := by
  by_cases haborted : c.phase = .aborted
  · rw [Coordinator.commit, guarded_of_aborted haborted]
    exact h
  · cases hm : c.active with
    | none =>
      rw [commit_of_none haborted hm]
      exact h
    | some m =>
      have howing : Owing setup cuts c.committed := by
        refine ⟨h.setup_eq, h.ahead, fun hpredefined => (h.later hpredefined).trans ?_⟩
        have hmay : c.mayDrain = true → (c.consolidated || c.flags.operating) = true := by
          simp [mayDrain, haborted]
          tauto
        exact Nat.add_le_add_left (Bool.toNat_le_toNat hmay) cuts
      have hstop : [(Effect.stopPusher : Effect W)].filterMap Effect.submission? = [] := rfl
      rw [commit_of_active haborted hm]
      have hsame := (c.committed.proceed submit now).submissions_extra hstop
      exact hsame ▸ howing.proceed hscaling submit now

/-- The rounds that a call cuts off pay for a partition that it retires. -/
theorem Thrifty.call (h : Thrifty setup cuts c) (hscaling : setup.scaling = .consolidate)
    {submit : Executor} {op : Call} {turn : Turn W Answer} (hcall : c.call submit op = .ok turn) :
    Thrifty setup (cuts + turn.submissions.countP (!·.2) + (!op.isRegular).toNat) turn.next := by
  cases op with
  | startMonitoring now =>
    cases hcall
    exact h.startMonitoring now
  | launch now =>
    cases hcall
    have hnone : ((c.launch now).mapAnswer fun _ => Answer.done).submissions = [] := by
      unfold Coordinator.launch guarded
      split
      · rfl
      · split <;> rfl
    rw [hnone]
    exact h.launch now
  | observe ks now =>
    obtain ⟨seen, hobserve, hanswer⟩ := Outcome.bind_eq_ok.mp hcall
    cases hanswer
    exact h.observe hscaling hobserve
  | commit now =>
    cases hcall
    exact h.commit hscaling submit now
  | _ =>
    cases notes_of_call rfl hcall with
    | noted => exact h.of_ledger rfl
    | halted => exact h.halt

theorem thrifty_of_run {placement : Placement} {plans : Option ScalingPlans} {es : List (Entry W)}
    (h : Run (make setup placement plans) es c) (hscaling : setup.scaling = .consolidate) :
    Thrifty setup (refusals es + outsideStarts es) c := by
  induction h with
  | nil => exact thrifty_make setup placement plans
  | push pool _ ih => exact ih.of_ledger rfl
  | @call es c turn submit op _ hcall ih =>
    have hrefused : refusals (es ++ [⟨c, submit, op, turn⟩]) =
        refusals es + turn.submissions.countP (!·.2) := by
      simp [refusals, submissions]
    have houtside : outsideStarts (es ++ [⟨c, submit, op, turn⟩]) =
        outsideStarts es + (!op.isRegular).toNat := by
      cases hop : op.isRegular <;> simp [outsideStarts, hop]
    rw [hrefused, houtside]
    have hcalled := ih.call hscaling hcall
    rwa [show refusals es + outsideStarts es + turn.submissions.countP (!·.2) +
      (!op.isRegular).toNat = refusals es + turn.submissions.countP (!·.2) +
      (outsideStarts es + (!op.isRegular).toNat) by omega] at hcalled

/-- How many partitions are retired beyond the one that is to be. With moves planned ahead there are
none; else there are no more than refused requests and windows started from outside. -/
def spare (setup : Setup W) (es : List (Entry W)) : Nat :=
  if setup.predefined then 0 else refusals es + outsideStarts es

/-- Consolidation retires one partition. Only if moves are not planned ahead, it may retire one more
for every request that is refused and for every window that is started from outside. -/
theorem retired_of_run {placement : Placement} {plans : Option ScalingPlans} {es : List (Entry W)}
    (h : Run (make setup placement plans) es c) (hscaling : setup.scaling = .consolidate) :
    c.planner.retired.size ≤ 1 + spare setup es ∧
      setup.partitions - (1 + spare setup es) ≤ c.partitionsInService := by
  have hthrifty := thrifty_of_run h hscaling
  have hsize : c.planner.retired.size ≤ 1 + spare setup es := by
    cases hpredefined : setup.predefined with
    | true =>
      have hlast : ∀ p ∈ c.planner.retired, p ∈ [setup.partitions - 1] := fun p hp =>
        List.mem_singleton.mpr (hthrifty.ahead hpredefined p hp)
      exact (size_le_length hlast).trans (Nat.le_add_right _ _)
    | false =>
      rw [spare, hpredefined, if_neg Bool.false_ne_true, Nat.add_comm]
      exact hthrifty.later_succ hpredefined
  have hbound : c.planningBound = setup.partitions := by
    simp [planningBound, hthrifty.setup_eq, hscaling]
  have hcount : c.planner.retiredCount setup.partitions ≤ c.planner.retired.size := by
    rw [← Std.ExtTreeSet.length_toList]
    apply size_le_length
    intro p hp
    obtain ⟨hmem, -⟩ := Std.ExtTreeSet.mem_filter.mp hp
    exact Std.ExtTreeSet.mem_toList.mpr hmem
  refine ⟨hsize, ?_⟩
  rw [partitionsInService, hbound, Planner.liveCount]
  omega

end

/-- Three partitions, of which the lightest is drained. A window ends with its first transaction. -/
def shrinking : Setup ℚ :=
  { joining with partitions := 3, window := 0, scaling := .consolidate, predefined := false }

def refusing : Executor := fun _ => .error "refused"

def shrinkingStart : Coordinator ℚ := make shrinking joiningPlacement (some drainingPlans)

/-- If the request is accepted, one partition is retired and two stay in service. -/
theorem retired_of_run_shrinking : ∃ es c, Run shrinkingStart es c ∧ spare shrinking es = 0 ∧
    c.planner.retired.size ≤ 1 ∧ 2 ≤ c.partitionsInService := by
  have hend :
      (shrinkingStart.play [(accepting, .launch 0), (accepting, .observe [] 0)]).toOption.map
        (fun r => spare shrinking r.1) = some 0 := by
    decide +kernel
  obtain ⟨es, c, hrun, hresult⟩ := run_of_play_map hend
  have hspare : spare shrinking es = 0 := hresult
  have hretired := retired_of_run hrun rfl
  rw [hspare] at hretired
  exact ⟨es, c, hrun, hspare, hretired⟩

/-- If it is refused, the next round retires a second partition. -/
theorem two_retired_of_run : ∃ es c, Run shrinkingStart es c ∧
    (∀ e ∈ es, e.op.isRegular = true) ∧ c.planner.retired.size = 2 ∧
    c.partitionsInService = 1 := by
  have hend : (shrinkingStart.play [(refusing, .launch 0), (refusing, .observe [] 0),
      (accepting, .launch 1), (accepting, .observe [] 1)]).toOption.map (fun r =>
        (r.1.all (·.op.isRegular), r.2.planner.retired.size, r.2.partitionsInService)) =
      some (true, 2, 1) := by decide +kernel
  obtain ⟨es, c, hrun, hresult⟩ := run_of_play_map hend
  simp only [Prod.mk.injEq, List.all_eq_true] at hresult
  exact ⟨es, c, hrun, hresult⟩

end Coordinator

end Reshard
