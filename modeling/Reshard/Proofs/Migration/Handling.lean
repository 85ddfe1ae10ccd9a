import Reshard.Proofs.Migration.Runs

/-!
What a call makes of the moves, also when a window is open while a move is in flight
(`handling_of_call`): it leaves them as they are, it halts, or it goes on with the moves that are
left or with those that are planned.
-/

namespace Reshard

/-- The request that an effect hands to the execution layer, and whether it is accepted. -/
def Effect.submission? {W : Type} : Effect W → Option (Request × Bool)
  | .submit request accepted => some (request, accepted)
  | .startPusher _ _ => none
  | .stopPusher => none
  | .report _ _ => none

/-- The requests that are handed to the execution layer, each with whether it is accepted. -/
def Turn.submissions {W α : Type} (t : Turn W α) : List (Request × Bool) :=
  t.effects.filterMap Effect.submission?

namespace Coordinator

variable {W : Type}

/-! ## To go on with moves -/

/-- What it is to go on with some moves, where keys are as `l` tells: the first move is handed over.
Then it is in flight, with nothing known of its keys, and the others are left; or it is refused and
they are dropped. -/
inductive GoesOn {α : Type} (l : Locations) : List Move → Turn W α → Prop
  | finished {turn : Turn W α} : turn.submissions = [] → turn.next.active = none →
      turn.next.queued = [] → turn.next.locations = l → GoesOn l [] turn
  | sent {m : Move} {rest : List Move} {turn : Turn W α} :
      turn.submissions = [(m.request, true)] → turn.next.active = some m →
      turn.next.queued = rest → turn.next.locations = l → turn.next.forgetKeys = turn.next →
      GoesOn l (m :: rest) turn
  | refused {m : Move} {rest : List Move} {turn : Turn W α} (reason : String) :
      turn.submissions = [(m.request, false)] → turn.next.active = none →
      turn.next.queued = [] → turn.next.locations = l →
      turn.answer = .error (.refused reason) → GoesOn l (m :: rest) turn

theorem dispatch_goesOn (c : Coordinator W) (submit : Executor) (m : Move) :
    GoesOn c.locations (m :: c.queued) (c.dispatch submit m) := by
  unfold dispatch
  cases submit m.request with
  | ok _ =>
    refine .sent ?_ rfl rfl rfl rfl
    by_cases hsource : m.source = c.setup.localPartition <;>
      simp [Turn.submissions, Effect.submission?, done, hsource]
  | error reason => exact .refused reason rfl rfl rfl rfl rfl

theorem active_wrapUp (c : Coordinator W) (now : Nat) :
    (c.wrapUp now).active = c.active ∧ (c.wrapUp now).queued = c.queued ∧
      (c.wrapUp now).locations = c.locations := by
  unfold wrapUp
  split
  · exact ⟨rfl, rfl, rfl⟩
  · split
    · exact ⟨rfl, rfl, rfl⟩
    · split <;> exact ⟨rfl, rfl, rfl⟩

theorem proceed_goesOn {c : Coordinator W} (hactive : c.active = none) (submit : Executor)
    (now : Nat) : GoesOn c.locations c.queued (c.proceed submit now) := by
  unfold proceed
  cases hq : c.queued with
  | nil =>
    obtain ⟨hwrap, hqueued, hlocations⟩ := c.active_wrapUp now
    exact .finished rfl (hwrap.trans hactive) (hqueued.trans hq) hlocations
  | cons m rest => exact dispatch_goesOn { c with queued := rest } submit m

/-- What goes on does so whatever it answers, and whatever else it does outside. -/
theorem GoesOn.mapAnswer {α β : Type} {l : Locations} {ms : List Move} {t : Turn W α}
    (h : GoesOn l ms t) {extra : List (Effect W)} (hextra : extra.filterMap Effect.submission? = [])
    (f : α → β) : GoesOn l ms (Turn.mapAnswer { t with effects := extra ++ t.effects } f) := by
  have hsame : (Turn.mapAnswer { t with effects := extra ++ t.effects } f).submissions =
      t.submissions := by
    simp [Turn.submissions, Turn.mapAnswer, hextra]
  cases h with
  | finished hnone hactive hqueued hl => exact .finished (hsame.trans hnone) hactive hqueued hl
  | sent hsub hactive hqueued hl hnew => exact .sent (hsame.trans hsub) hactive hqueued hl hnew
  | refused reason hsub hactive hqueued hl hrefused =>
    refine .refused reason (hsame.trans hsub) hactive hqueued hl ?_
    change t.answer.map f = _
    rw [hrefused]
    rfl

theorem GoesOn.locations_eq {α : Type} {l : Locations} {ms : List Move} {turn : Turn W α}
    (h : GoesOn l ms turn) : turn.next.locations = l := by
  cases h <;> assumption

theorem GoesOn.queued_eq_nil {α : Type} {l : Locations} {ms : List Move} {turn : Turn W α}
    (h : GoesOn l ms turn) (hactive : turn.next.active = none) : turn.next.queued = [] := by
  cases h with
  | finished _ _ hqueued _ => exact hqueued
  | sent _ hsent _ _ _ =>
    rw [hsent] at hactive
    nomatch hactive
  | refused _ _ _ hqueued _ _ => exact hqueued

/-- The moves wait, the first of them in flight, unless one of them is refused. -/
theorem GoesOn.waiting_or_refused {α : Type} {l : Locations} {ms : List Move} {turn : Turn W α}
    (h : GoesOn l ms turn) : turn.next.active.toList ++ turn.next.queued = ms ∨
      ∃ request, (request, false) ∈ turn.submissions := by
  cases h with
  | finished _ hactive hqueued => exact .inl (by rw [hactive, hqueued]; rfl)
  | sent _ hactive hqueued => exact .inl (by rw [hactive, hqueued]; rfl)
  | @refused m _ _ _ hrefused =>
    refine .inr ⟨m.request, ?_⟩
    rw [hrefused]
    exact List.mem_singleton_self _

/-- Reports of the access graph are no submissions. -/
theorem submissions_reports (c : Coordinator W) :
    c.reports.filterMap Effect.submission? = [] := by
  unfold reports
  split <;> rfl

/-! ## Phases in which the coordinator is not aborted -/

theorem phase_finish (c : Coordinator W) : c.finish.phase ≠ .aborted := by
  unfold Coordinator.finish
  cases c.setup.scaling.isOn <;> simp

theorem phase_wrapUp (c : Coordinator W) (now : Nat) : (c.wrapUp now).phase ≠ .aborted := by
  unfold wrapUp
  split
  · exact c.phase_finish
  · split
    · exact phase_finish _
    · split
      · simp [Coordinator.startMonitoring]
      · exact c.phase_finish

theorem phase_proceed (c : Coordinator W) (submit : Executor) (now : Nat) :
    (c.proceed submit now).next.phase ≠ .aborted := by
  unfold proceed
  split
  · unfold dispatch
    split
    · simp [done]
    · exact phase_finish _
  · exact c.phase_wrapUp now

/-! ## Windows that end -/

section

variable [Weight W] {c : Coordinator W} {submit : Executor} {op : Call} {turn : Turn W Answer}

/-- The call ends the monitoring window, and the round is to make the moves `ms`. -/
def Plans (c : Coordinator W) (op : Call) (ms : List Move) : Prop :=
  ∃ ks now planner left, op = .observe ks now ∧ c.phase = .monitoring ∧
    c.planner.monitor c.locations ks = .ok planner ∧
    Coordinator.windowOver { c with planner } now = true ∧
    (Coordinator.stopped { c with planner }).roundMoves = .ok (.ok (ms, left))

theorem Plans.not_commit {ms : List Move} (h : c.Plans op ms) (now : Nat) : op ≠ .commit now := by
  obtain ⟨_, _, _, _, rfl, -⟩ := h
  simp

theorem Plans.phase_eq {ms : List Move} (h : c.Plans op ms) : c.phase = .monitoring := by
  obtain ⟨_, _, _, _, -, hphase, -⟩ := h
  exact hphase

theorem observe_of_monitor {c : Coordinator W} (hphase : c.phase = .monitoring) {ks : List Key}
    {planner : Planner W} (hm : c.planner.monitor c.locations ks = .ok planner) (submit : Executor)
    (now : Nat) :
    c.observe submit ks now =
      if Coordinator.windowOver { c with planner } now then
        Coordinator.stopMonitoring { c with planner } submit now
      else .ok (Coordinator.done { c with planner } ()) := by
  rw [observe, if_neg (by simp [hphase]), if_neg (by simp [hphase]), hm]

theorem observe_of_failure {c : Coordinator W} (hphase : c.phase = .monitoring) {ks : List Key}
    {e : Failure} (hm : c.planner.monitor c.locations ks = .error e) (submit : Executor)
    (now : Nat) : c.observe submit ks now = .ok (c.failOrHalt e) := by
  rw [observe, if_neg (by simp [hphase]), if_neg (by simp [hphase]), hm]

/-- A planned round goes on with its moves, whatever is in flight. -/
theorem proceeds_of_plans {ms : List Move} (hplans : c.Plans op ms)
    (hcall : c.call submit op = .ok turn) :
    ∃ (d : Coordinator W) (reports : List (Effect W)) (now : Nat),
      d.active = c.active ∧ d.queued = ms ∧ d.locations = c.locations ∧
      reports.filterMap Effect.submission? = [] ∧
      turn = Turn.mapAnswer { d.proceed submit now with
        effects := reports ++ (d.proceed submit now).effects } fun _ => .done := by
  obtain ⟨ks, now, planner, left, rfl, hphase, hm, hover, hround⟩ := hplans
  obtain ⟨seen, hseen, hanswer⟩ := Outcome.bind_eq_ok.mp hcall
  rw [observe_of_monitor hphase hm, if_pos hover, stopMonitoring_eq, hround] at hseen
  cases hseen
  cases hanswer
  exact ⟨(Coordinator.stopped { c with planner }).loaded ms left, _, now, rfl, rfl, rfl,
    submissions_reports _, rfl⟩

theorem goesOn_of_plans_cons {m : Move} {rest : List Move} (hplans : c.Plans op (m :: rest))
    (hcall : c.call submit op = .ok turn) :
    GoesOn c.locations (m :: rest) turn ∧ turn.next.phase ≠ .aborted := by
  obtain ⟨d, reports, now, -, hqueued, hlocations, hnone, rfl⟩ := proceeds_of_plans hplans hcall
  have hgoes : GoesOn c.locations (m :: rest) (d.proceed submit now) := by
    rw [proceed, hqueued, ← hlocations]
    exact dispatch_goesOn { d with queued := rest } submit m
  exact ⟨hgoes.mapAnswer hnone _, d.phase_proceed submit now⟩

/-- Without moves the round ends, and a move in flight stays there. -/
theorem emptied_of_plans_nil (hplans : c.Plans op []) (hcall : c.call submit op = .ok turn) :
    turn.submissions = [] ∧ turn.next.active = c.active ∧ turn.next.queued = [] ∧
      turn.next.phase ≠ .aborted := by
  obtain ⟨d, reports, now, hactive, hqueued, -, hnone, rfl⟩ := proceeds_of_plans hplans hcall
  have hproceed : d.proceed submit now = (d.wrapUp now).done () := by rw [proceed, hqueued]
  obtain ⟨hwrapped, hleft, -⟩ := d.active_wrapUp now
  rw [hproceed]
  refine ⟨?_, hwrapped.trans hactive, hleft.trans hqueued, d.phase_wrapUp now⟩
  simpa [Turn.submissions, Turn.mapAnswer, done] using hnone

/-! ## All calls -/

/-- Waiting moves have one in flight in front of them, and an aborted coordinator has none. -/
structure InLine (c : Coordinator W) : Prop where
  queued : c.active = none → c.queued = []
  aborted : c.phase = .aborted → c.active = none

omit [Weight W] in
theorem InLine.not_aborted {m : Move} (h : c.InLine) (hm : c.active = some m) :
    c.phase ≠ .aborted := by
  intro haborted
  rw [h.aborted haborted] at hm
  nomatch hm

/-- What becomes of the moves in a call, also when a window is open while a move is in flight. -/
inductive Handling (c : Coordinator W) (op : Call) (turn : Turn W Answer) : Prop
  | kept : turn.submissions = [] → turn.next.active = c.active → turn.next.queued = c.queued →
      (turn.next.phase = .aborted ↔ c.phase = .aborted ∧ op.isRegular = true) →
      (∀ now, op = .commit now → c.active = none) → Handling c op turn
  | halted : turn.submissions = [] → turn.next = c.halt → (∀ now, op ≠ .commit now) →
      Handling c op turn
  | committed (now : Nat) (m : Move) : op = .commit now → c.active = some m →
      GoesOn c.locations c.queued turn → turn.next.phase ≠ .aborted → Handling c op turn
  | planned (m : Move) (rest : List Move) : c.Plans op (m :: rest) →
      GoesOn c.locations (m :: rest) turn → turn.next.phase ≠ .aborted → Handling c op turn
  /-- Nothing is planned, and the moves that were left are dropped. -/
  | emptied : c.Plans op [] → turn.submissions = [] → turn.next.active = c.active →
      turn.next.queued = [] → turn.next.phase ≠ .aborted → Handling c op turn

/-- A regular call that leaves the phase as it is. -/
theorem Handling.of_phase (hop : op.isRegular = true) (hnone : turn.submissions = [])
    (hactive : turn.next.active = c.active) (hqueued : turn.next.queued = c.queued)
    (hphase : turn.next.phase = c.phase) (hno : ∀ now, op = .commit now → c.active = none) :
    Handling c op turn :=
  .kept hnone hactive hqueued (by rw [hphase, and_iff_left hop]) hno

theorem handling_observe {ks : List Key} {now : Nat}
    (hcall : c.call submit (.observe ks now) = .ok turn) : Handling c (.observe ks now) turn := by
  have hno : ∀ now', Call.observe ks now = .commit now' → c.active = none := by
    intro now' heq
    cases heq
  have hcall' := hcall
  obtain ⟨seen, hseen, hanswer⟩ := Outcome.bind_eq_ok.mp hcall
  cases hanswer
  rcases observe_cases hseen with ⟨-, rfl⟩ | ⟨-, -, rfl⟩ | ⟨e, hphase, -, rfl⟩ |
    ⟨planner, hphase, hm, -⟩
  · exact .of_phase rfl rfl rfl rfl rfl hno
  · exact .of_phase rfl rfl rfl rfl rfl hno
  · cases e with
    | violation cause => exact .halted rfl rfl (by simp)
    | _ => exact .of_phase rfl rfl rfl rfl rfl hno
  · rw [observe_of_monitor hphase hm] at hseen
    split at hseen
    · next hover =>
      rcases stopMonitoring_cases hseen with ⟨e, -, rfl⟩ | ⟨moves, left, hround, -⟩
      · refine .kept (submissions_reports _) rfl rfl (iff_of_false ?_ ?_) hno
        · exact phase_finish _
        · simp [hphase]
      · have hplans : c.Plans (.observe ks now) moves :=
          ⟨ks, now, planner, left, rfl, hphase, hm, hover, hround⟩
        cases moves with
        | nil =>
          obtain ⟨hnone, hactive, hqueued, hrunning⟩ := emptied_of_plans_nil hplans hcall'
          exact .emptied hplans hnone hactive hqueued hrunning
        | cons m rest =>
          obtain ⟨hgoes, hrunning⟩ := goesOn_of_plans_cons hplans hcall'
          exact .planned m rest hplans hgoes hrunning
    · cases hseen
      exact .of_phase rfl rfl rfl rfl rfl hno

theorem handling_commit {now : Nat} (hc : c.InLine)
    (hcall : c.call submit (.commit now) = .ok turn) : Handling c (.commit now) turn := by
  cases hcall
  by_cases haborted : c.phase = .aborted
  · rw [Coordinator.commit, guarded_of_aborted haborted]
    exact .of_phase rfl rfl rfl rfl rfl fun _ _ => hc.aborted haborted
  · cases hm : c.active with
    | none =>
      rw [commit_of_none haborted hm]
      exact .of_phase rfl rfl rfl rfl rfl fun _ _ => hm
    | some m =>
      have hgoes := proceed_goesOn (c := c.committed) rfl submit now
      have hrunning := c.committed.phase_proceed submit now
      have hstop : [(Effect.stopPusher : Effect W)].filterMap Effect.submission? = [] := rfl
      rw [commit_of_active haborted hm]
      exact .committed now m rfl hm (hgoes.mapAnswer hstop _) hrunning

theorem handling_of_call (hc : c.InLine) (hcall : c.call submit op = .ok turn) :
    Handling c op turn := by
  cases op with
  | startMonitoring now =>
    cases hcall
    exact .kept rfl rfl rfl (by simp [done, Coordinator.startMonitoring, Call.isRegular]) (by simp)
  | observe ks now => exact handling_observe hcall
  | commit now => exact handling_commit hc hcall
  | launch now =>
    have hno : ∀ now', Call.launch now = .commit now' → c.active = none := by
      intro now' heq
      cases heq
    cases hcall
    unfold Coordinator.launch guarded
    split
    · exact .of_phase rfl rfl rfl rfl rfl hno
    · next hrunning =>
      split
      · exact .of_phase rfl rfl rfl rfl rfl hno
      · have hphase : (c.startMonitoring now).phase ≠ .aborted := by
          simp [Coordinator.startMonitoring]
        exact .kept rfl rfl rfl (iff_of_false hphase fun haborted => hrunning haborted.1) hno
  | _ =>
    cases notes_of_call rfl hcall with
    | noted => exact .of_phase rfl rfl rfl rfl rfl (by simp)
    | halted => exact .halted rfl rfl (by simp)

/-- What the moves are in line with stays so in every call. -/
theorem InLine.of_handling (hc : c.InLine) (h : Handling c op turn) : turn.next.InLine := by
  cases h with
  | kept _ hactive hqueued hphase _ =>
    constructor
    · rw [hactive, hqueued]
      exact hc.queued
    · rw [hactive, hphase]
      exact fun haborted => hc.aborted haborted.1
  | halted _ hnext _ =>
    rw [hnext]
    exact ⟨fun _ => rfl, fun _ => rfl⟩
  | committed now m _ _ hgoes hrunning =>
    exact ⟨hgoes.queued_eq_nil, fun haborted => absurd haborted hrunning⟩
  | planned m rest _ hgoes hrunning =>
    exact ⟨hgoes.queued_eq_nil, fun haborted => absurd haborted hrunning⟩
  | emptied _ _ _ hqueued hrunning =>
    exact ⟨fun _ => hqueued, fun haborted => absurd haborted hrunning⟩

end

end Coordinator

end Reshard
