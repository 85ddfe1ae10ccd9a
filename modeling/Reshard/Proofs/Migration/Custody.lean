import Reshard.Proofs.Migration.Rounds
import Reshard.Proofs.Plan.Execution

/-!
Whether a move that was handed over is the move in flight until it is committed, and whether an
aborted coordinator stays so. Both hold as long as windows are started from outside at the right
time only, that is while no move is in flight and before any abort. A window that is started at
another time does harm exactly if it is an aborted coordinator that starts it, or if its end plans
over the moves of the round that it overlaps (`careful_iff`).
-/

namespace Reshard

/-- The requests of a history that the execution layer accepted. -/
def accepted {W : Type} (es : List (Entry W)) : List Request :=
  ((submissions es).filter (·.2)).map Prod.fst

namespace Entry

variable {W : Type}

/-- The call takes nothing out of flight but by a commit or an abort, and does not undo an abort. -/
structure Careful (e : Entry W) : Prop where
  in_flight : ∀ m, e.before.active = some m → e.turn.next.active = some m ∨
    (∃ now, e.op = .commit now) ∨ e.turn.next.phase = .aborted
  /-- No request is handed over beside a move in flight. -/
  alone : e.before.active.isSome = true → (∀ now, e.op ≠ .commit now) →
    e.turn.submissions = []
  /-- Moves are dropped if one of them is refused or the coordinator aborts. Else they wait on, or
  the first of them is put in flight. -/
  queued : e.before.queued = [] ∨ e.turn.next.queued = e.before.queued ∨
    ((∃ now, e.op = .commit now) ∧
      e.turn.next.active.toList ++ e.turn.next.queued = e.before.queued) ∨
    (∃ request, (request, false) ∈ e.turn.submissions) ∨ e.turn.next.phase = .aborted
  aborted : e.before.phase = .aborted →
    e.turn.next.phase = .aborted ∧ e.turn.submissions = []

/-- A window is started from outside only while no move is in flight and before any abort. -/
def Timely (e : Entry W) : Prop :=
  e.op.isRegular = false → e.before.active = none ∧ e.before.phase ≠ .aborted

/-- The call starts a window although the coordinator is aborted, or it plans moves over a round
that still has some. -/
inductive Breaks [Weight W] (e : Entry W) : Prop
  | revives : e.op.isRegular = false → e.before.phase = .aborted → Breaks e
  | displaces (ms : List Move) : e.before.Plans e.op ms → e.before.active.isSome = true →
      ms ≠ [] ∨ e.before.queued ≠ [] → Breaks e

end Entry

namespace Coordinator

variable {W : Type} [Weight W] {setup : Setup W} {c : Coordinator W} {submit : Executor}
  {op : Call} {turn : Turn W Answer}

/-! ## Runs -/

omit [Weight W] in
theorem inLine_make (setup : Setup W) (placement : Placement) (plans : Option ScalingPlans) :
    (make setup placement plans).InLine :=
  ⟨fun _ => rfl, fun _ => rfl⟩

theorem inLine_of_run {placement : Placement} {plans : Option ScalingPlans} {es : List (Entry W)}
    (h : Run (make setup placement plans) es c) : c.InLine := by
  induction h with
  | nil => exact inLine_make setup placement plans
  | push pool _ ih => exact { ih with }
  | call submit op _ hcall ih => exact ih.of_handling (handling_of_call ih hcall)

/-- A call that does not break into a round is careful. -/
theorem careful_of_handling (hc : c.InLine) (h : Handling c op turn)
    (hnot : ¬ Entry.Breaks ⟨c, submit, op, turn⟩) :
    Entry.Careful ⟨c, submit, op, turn⟩ := by
  cases h with
  | kept hnone hactive hqueued hphase _ =>
    refine ⟨fun m hm => .inl (hactive.trans hm), fun _ _ => hnone, .inr (.inl hqueued), ?_⟩
    intro haborted
    have hregular : op.isRegular = true := by
      rw [← Bool.not_eq_false]
      exact fun houtside => hnot (.revives houtside haborted)
    exact ⟨hphase.mpr ⟨haborted, hregular⟩, hnone⟩
  | halted hnone hnext _ =>
    have haborted : turn.next.phase = .aborted := by rw [hnext]; rfl
    exact ⟨fun _ _ => .inr (.inr haborted), fun _ _ => hnone,
      .inr (.inr (.inr (.inr haborted))), fun _ => ⟨haborted, hnone⟩⟩
  | committed now m hop hm hgoes _ =>
    refine ⟨fun _ _ => .inr (.inl ⟨now, hop⟩), fun _ hno => absurd hop (hno now), ?_,
      fun haborted => absurd haborted (hc.not_aborted hm)⟩
    rcases hgoes.waiting_or_refused with hwaiting | hrefused
    · exact .inr (.inr (.inl ⟨⟨now, hop⟩, hwaiting⟩))
    · exact .inr (.inr (.inr (.inl hrefused)))
  | planned m rest hplans hgoes _ =>
    have hactive : c.active = none := by
      rw [← Option.not_isSome_iff_eq_none]
      exact fun hsome => hnot (.displaces _ hplans hsome (.inl (List.cons_ne_nil m rest)))
    refine ⟨fun m hm => ?_, fun hsome => ?_, .inl (hc.queued hactive), fun haborted => ?_⟩
    · rw [hactive] at hm
      nomatch hm
    · rw [hactive] at hsome
      nomatch hsome
    · rw [hplans.phase_eq] at haborted
      nomatch haborted
  | emptied hplans hnone hactive hqueued _ =>
    have hempty : c.queued = [] := by
      cases hm : c.active with
      | none => exact hc.queued hm
      | some m =>
        by_contra hleft
        exact hnot (.displaces [] hplans (by simp [hm]) (.inr hleft))
    refine ⟨fun m hm => .inl (hactive.trans hm), fun _ _ => hnone, .inl hempty,
      fun haborted => ?_⟩
    rw [hplans.phase_eq] at haborted
    nomatch haborted

theorem not_careful_of_breaks (hcall : c.call submit op = .ok turn)
    (h : Entry.Breaks ⟨c, submit, op, turn⟩) : ¬ Entry.Careful ⟨c, submit, op, turn⟩ := by
  intro hcareful
  cases h with
  | revives houtside haborted =>
    cases op with
    | startMonitoring now =>
      cases hcall
      nomatch (hcareful.aborted haborted).1
    | _ => nomatch houtside
  | displaces ms hplans hsome hleft =>
    have hnone : turn.submissions = [] := hcareful.alone hsome hplans.not_commit
    cases ms with
    | nil =>
      obtain ⟨-, -, hqueued, hrunning⟩ := emptied_of_plans_nil hplans hcall
      have hwaiting : c.queued ≠ [] := hleft.resolve_left fun hne => hne rfl
      rcases hcareful.queued with
        hnil | hkept | ⟨⟨now, hop⟩, -⟩ | ⟨request, hrefused⟩ | haborted
      · exact hwaiting hnil
      · exact hwaiting (hkept.symm.trans hqueued)
      · exact hplans.not_commit now hop
      · exact List.not_mem_nil (hnone ▸ hrefused)
      · exact hrunning haborted
    | cons m rest =>
      obtain ⟨hgoes, -⟩ := goesOn_of_plans_cons hplans hcall
      cases hgoes with
      | sent hsent => simp [hsent] at hnone
      | refused _ hrefused => simp [hrefused] at hnone

omit [Weight W] in
/-- A window that is started while no move is in flight. -/
theorem Consistent.startMonitoring (h : c.Consistent setup) (hactive : c.active = none)
    (now : Nat) : (c.startMonitoring now).Consistent setup := by
  have hphase : c.phase ≠ .migrating := by
    rw [Ne, ← h.active_iff, hactive]
    nofun
  obtain ⟨hmigrating, hanalyzing, -, hq⟩ := h.of_not_migrating hphase
  -- Whether another window was open before makes no difference.
  have hclosed : ({ c with flags := { c.flags with monitoring := false } } :
      Coordinator W).Resting setup := ⟨h.setup_eq, rfl, hmigrating, hanalyzing, hactive⟩
  exact hclosed.consistent_startMonitoring hq now

/-- While windows are started from outside in time, phase, flags and moves agree. -/
theorem consistent_of_timely {placement : Placement} {plans : Option ScalingPlans}
    {es : List (Entry W)} (h : Run (make setup placement plans) es c)
    (htimely : ∀ e ∈ es, e.Timely) : c.Consistent setup := by
  induction h with
  | nil => exact consistent_make setup placement plans
  | push pool _ ih => exact { ih htimely with }
  | @call es c turn submit op _ hcall ih =>
    obtain ⟨hbefore, hlast⟩ := List.forall_mem_append.mp htimely
    have hc := ih hbefore
    cases hop : op.isRegular with
    | true => exact hc.call hop hcall
    | false =>
      obtain ⟨hactive, -⟩ := hlast _ (List.mem_singleton_self _) hop
      cases op with
      | startMonitoring now =>
        cases hcall
        exact hc.startMonitoring hactive now
      | _ => nomatch hop

/-- A call that is made in time does not break into a round. -/
theorem not_breaks_of_timely {e : Entry W} (hc : e.before.Consistent setup) (h : e.Timely) :
    ¬ e.Breaks := by
  intro hbreaks
  cases hbreaks with
  | revives houtside haborted => exact (h houtside).2 haborted
  | displaces ms hplans hsome _ =>
    rw [hc.active_iff, hplans.phase_eq] at hsome
    nomatch hsome

/-! ## Whose commits they are -/

/-- The accepted requests are those of the committed moves, in their order, and of the move in
flight. Only an abort may have taken one out of flight. -/
def Attributed (es : List (Entry W)) (c : Coordinator W) : Prop :=
  ∃ m? : Option Move, (c.phase ≠ .aborted → m? = c.active) ∧
    accepted es = (commits es ++ m?.toList).map Move.request

omit [Weight W] in
theorem accepted_concat (es : List (Entry W)) (e : Entry W) :
    accepted (es ++ [e]) = accepted es ++ (e.turn.submissions.filter (·.2)).map Prod.fst := by
  simp [accepted, submissions]

omit [Weight W] in
/-- What goes on with moves puts the one in flight whose request is accepted. -/
theorem GoesOn.accepted_eq {l : Locations} {ms : List Move} (h : GoesOn l ms turn) :
    (turn.submissions.filter (·.2)).map Prod.fst = turn.next.active.toList.map Move.request := by
  cases h with
  | finished hnone hactive => simp [hnone, hactive]
  | sent hsent hactive => simp [hsent, hactive]
  | refused _ hrefused hactive => simp [hrefused, hactive]

omit [Weight W] in
theorem GoesOn.submissions_ne_nil {l : Locations} {m : Move} {rest : List Move}
    (h : GoesOn l (m :: rest) turn) : turn.submissions ≠ [] := by
  cases h with
  | sent hsent => simp [hsent]
  | refused _ hrefused => simp [hrefused]

/-- One careful call. -/
theorem Attributed.call {es : List (Entry W)} (h : Attributed es c) (hc : c.InLine)
    (hcall : c.call submit op = .ok turn) (hcareful : Entry.Careful ⟨c, submit, op, turn⟩) :
    Attributed (es ++ [⟨c, submit, op, turn⟩]) turn.next := by
  obtain ⟨m?, hflight, haccepted⟩ := h
  -- A call that submits and commits nothing leaves the account as it is.
  have hsame : turn.submissions = [] → Entry.committed? ⟨c, submit, op, turn⟩ = none →
      accepted (es ++ [⟨c, submit, op, turn⟩]) =
        (commits (es ++ [⟨c, submit, op, turn⟩]) ++ m?.toList).map Move.request := by
    intro hnone hcommitted
    rw [accepted_concat, commits_concat, hnone, hcommitted]
    simpa using haccepted
  cases handling_of_call hc hcall with
  | kept hnone hactive _ _ hidle =>
    refine ⟨m?, fun hrunning => ?_, hsame hnone (Entry.committed?_eq_none hidle)⟩
    rw [hactive]
    exact hflight fun haborted => hrunning (hcareful.aborted haborted).1
  | halted hnone hnext hno =>
    refine ⟨m?, fun hrunning => ?_,
      hsame hnone (Entry.committed?_eq_none fun now heq => absurd heq (hno now))⟩
    rw [hnext] at hrunning
    exact absurd rfl hrunning
  | committed now m hop hm hgoes _ =>
    have hcommitted : Entry.committed? ⟨c, submit, op, turn⟩ = some m := by
      subst hop
      exact hm
    refine ⟨turn.next.active, fun _ => rfl, ?_⟩
    rw [accepted_concat, commits_concat, haccepted, hflight (hc.not_aborted hm), hm, hcommitted,
      hgoes.accepted_eq, List.map_append, List.map_append, List.map_append]
  | planned m rest hplans hgoes _ =>
    have hactive : c.active = none := by
      rw [← Option.not_isSome_iff_eq_none]
      exact fun hsome => hgoes.submissions_ne_nil (hcareful.alone hsome hplans.not_commit)
    have hcommitted := Entry.committed?_eq_none (e := ⟨c, submit, op, turn⟩)
      fun now heq => absurd heq (hplans.not_commit now)
    have hrunning : c.phase ≠ .aborted := by simp [hplans.phase_eq]
    refine ⟨turn.next.active, fun _ => rfl, ?_⟩
    rw [accepted_concat, commits_concat, haccepted, hflight hrunning, hactive, hcommitted,
      hgoes.accepted_eq]
    simp
  | emptied hplans hnone hactive _ _ =>
    have hcommitted := Entry.committed?_eq_none (e := ⟨c, submit, op, turn⟩)
      fun now heq => absurd heq (hplans.not_commit now)
    refine ⟨m?, fun _ => ?_, hsame hnone hcommitted⟩
    rw [hactive]
    exact hflight (by simp [hplans.phase_eq])

theorem attributed_of_run {placement : Placement} {plans : Option ScalingPlans}
    {es : List (Entry W)} (h : Run (make setup placement plans) es c)
    (hcareful : ∀ e ∈ es, e.Careful) : Attributed es c := by
  induction h with
  | nil => exact ⟨none, fun _ => rfl, rfl⟩
  | push pool _ ih => exact ih hcareful
  | call submit op hrun hcall ih =>
    obtain ⟨hbefore, hlast⟩ := List.forall_mem_append.mp hcareful
    exact (ih hbefore).call (inLine_of_run hrun) hcall (hlast _ (List.mem_singleton_self _))

/-- All calls of a run are careful exactly if none of them breaks into a round, and no other call
than one that is made out of time can lead to this. As long as all are, each commit is that of the
move whose request was accepted last. -/
theorem careful_iff {placement : Placement} {plans : Option ScalingPlans} {es : List (Entry W)}
    (h : Run (make setup placement plans) es c) :
    ((∀ e ∈ es, e.Careful) ↔ ∀ e ∈ es, ¬ e.Breaks) ∧
      ((∀ e ∈ es, e.Timely) → ∀ e ∈ es, e.Careful) ∧
      ((∀ e ∈ es, e.Careful) → Attributed es c) := by
  have hiff : ∀ e ∈ es, e.Careful ↔ ¬ e.Breaks := by
    intro e he
    obtain ⟨pre, post, rfl⟩ := List.append_of_mem he
    obtain ⟨hrun, hcall⟩ := h.at_call
    have hc := inLine_of_run hrun
    exact ⟨fun hcareful hbreaks => not_careful_of_breaks hcall hbreaks hcareful,
      careful_of_handling hc (handling_of_call hc hcall)⟩
  refine ⟨forall₂_congr hiff, fun htimely e he => ?_, attributed_of_run h⟩
  rw [hiff e he]
  obtain ⟨pre, post, rfl⟩ := List.append_of_mem he
  obtain ⟨hpre, -⟩ := List.forall_mem_append.mp htimely
  exact not_breaks_of_timely (consistent_of_timely h.at_call.1 hpre) (htimely e he)

/-- Three partitions of ten keys each. A window ends with its first transaction, and a plan has one
clump of one key. -/
def overlapping : Setup ℚ where
  localPartition := 0
  partitions := 3
  window := 0
  scaling := .disabled
  predefined := false
  capacity := 16
  tuning := { crossCost := 1, overload := 1, lookAhead := 5, clumpMaxSize := 1, maxClumps := 1 }
  batches := .default
  reportDir := none

def overlappingStart : Coordinator ℚ :=
  make overlapping { home := fun k => k.id / 10, replicated := fun k => k.table = "dim" } none

/-- A call, with the phase and the route of the move in flight before and after it. -/
structure Passage where
  op : Call
  before : Phase × Option (PartitionId × PartitionId)
  after : Phase × Option (PartitionId × PartitionId)
  deriving DecidableEq

def passage {W : Type} (e : Entry W) : Passage where
  op := e.op
  before := (e.before.phase, e.before.active.map Move.route)
  after := (e.turn.next.phase, e.turn.next.active.map Move.route)

/-- A window that is started again while it is open does no harm. -/
theorem careful_iff_restarted : ∃ es c, Run overlappingStart es c ∧
    es.map (·.op) =
      [.launch 0, .startMonitoring 1, .observe [⟨"t", 0⟩, ⟨"t", 10⟩] 1, .commit 2] ∧
    (accepted es).length = 1 ∧
    ((∀ e ∈ es, e.Careful) ↔ ∀ e ∈ es, ¬ e.Breaks) ∧
      ((∀ e ∈ es, e.Timely) → ∀ e ∈ es, e.Careful) ∧
      ((∀ e ∈ es, e.Careful) → Attributed es c) := by
  have hend : (overlappingStart.play ([.launch 0, .startMonitoring 1,
      .observe [⟨"t", 0⟩, ⟨"t", 10⟩] 1, .commit 2].map (accepting, ·))).toOption.map
      (fun r => (r.1.map (·.op), (accepted r.1).length)) =
      some ([.launch 0, .startMonitoring 1,
        .observe [⟨"t", 0⟩, ⟨"t", 10⟩] 1, .commit 2], 1) := by
    decide +kernel
  obtain ⟨es, c, hrun, hresult⟩ := run_of_play_map hend
  obtain ⟨hops, hcount⟩ := Prod.mk.inj hresult
  exact ⟨es, c, hrun, hops, hcount, careful_iff hrun⟩

/-- A window is started from outside while a move is in flight, and another one after an abort. -/
def overlappingCalls : List Call :=
  [.launch 0, .observe [⟨"t", 0⟩, ⟨"t", 10⟩] 0, .startMonitoring 1,
    .observe [⟨"t", 10⟩, ⟨"t", 20⟩] 1, .commit 2, .launch 3, .observe [⟨"dim", 1⟩] 3,
    .startMonitoring 4, .observe [⟨"t", 0⟩, ⟨"t", 10⟩] 4]

def displacing : Passage :=
  ⟨.observe [⟨"t", 10⟩, ⟨"t", 20⟩] 1, (.monitoring, some (0, 1)),
    (.migrating, some (1, 2))⟩

def reviving : Passage := ⟨.startMonitoring 4, (.aborted, none), (.monitoring, none)⟩

def submitting : Passage :=
  ⟨.observe [⟨"t", 0⟩, ⟨"t", 10⟩] 4, (.monitoring, none), (.migrating, some (0, 1))⟩

/-- The end of the first of these windows takes a move out of flight, and the next commit is that of
another one. The second window revives the coordinator, and its end hands over a request again. -/
theorem not_careful_overlapping : ∃ es c, Run overlappingStart es c ∧
    (∃ e ∈ es, passage e = displacing) ∧ (∃ e ∈ es, passage e = reviving) ∧
    (∃ e ∈ es, passage e = submitting) ∧
    ¬ (∀ e ∈ es, e.Careful) ∧ ¬ Attributed es c := by
  have hend : (overlappingStart.play (overlappingCalls.map (accepting, ·))).toOption.map
      (fun r => ([displacing, reviving, submitting].all (r.1.map passage).contains,
        (accepted r.1).length, (commits r.1).length)) = some (true, 3, 1) := by
    decide +kernel
  obtain ⟨es, c, hrun, hresult⟩ := run_of_play_map hend
  simp only [Prod.mk.injEq, List.all_cons, List.all_nil, Bool.and_true, Bool.and_eq_true,
    List.contains_iff_mem, List.mem_map] at hresult
  obtain ⟨⟨hdisplaced, hrevived, hsubmitted⟩, haccepted, hcommits⟩ := hresult
  refine ⟨es, c, hrun, hdisplaced, hrevived, hsubmitted, fun hcareful => ?_, ?_⟩
  · obtain ⟨e, he, hpassage⟩ := hdisplaced
    simp only [passage, displacing, Passage.mk.injEq, Prod.mk.injEq,
      Option.map_eq_some_iff] at hpassage
    obtain ⟨hop, ⟨-, m, hm, hroute⟩, hnext, m', hm', hroute'⟩ := hpassage
    rcases (hcareful e he).in_flight m hm with hkept | ⟨now, hcommit⟩ | haborted
    · rw [hkept, Option.some.injEq] at hm'
      rw [← hm', hroute] at hroute'
      nomatch hroute'
    · rw [hop] at hcommit
      nomatch hcommit
    · rw [hnext] at haborted
      nomatch haborted
  · rintro ⟨m?, -, heq⟩
    have hlength := congrArg List.length heq
    rw [List.length_map, List.length_append, haccepted, hcommits] at hlength
    cases m? <;> simp at hlength

end Coordinator

end Reshard
