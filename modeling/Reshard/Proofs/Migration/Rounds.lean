import Reshard.Proofs.Migration.Histories

/-!
The moves of a round, from the call that plans them on. They are handed over one after the other, in
their order and each of them once, and none before the one in front of it is committed
(`round_in_order`). How far a round has come is its `Progress`.
-/

namespace Reshard

/-- The move that a call commits, if it does. -/
def Entry.committed? {W : Type} (e : Entry W) : Option Move :=
  match e.op with
  | .commit _ => e.before.active
  | _ => none

theorem Entry.committed?_eq_none {W : Type} {e : Entry W}
    (h : ∀ now, e.op = .commit now → e.before.active = none) : e.committed? = none := by
  unfold Entry.committed?
  split
  · next now heq => exact h now heq
  · rfl

/-- The moves that are committed in a history. -/
def commits {W : Type} (es : List (Entry W)) : List Move := es.filterMap Entry.committed?

namespace Coordinator

variable {W : Type}

/-- How far a round with the moves `ms` has come when requests `handed` were handed over and the
moves `finished` are committed. -/
structure Progress (ms : List Move) (handed : List (Request × Bool)) (finished : List Move)
    (c : Coordinator W) : Prop where
  in_order : handed.map Prod.fst <+: ms.map Move.request
  finished_le : finished.length ≤ handed.length
  handed_le : handed.length ≤ finished.length + 1
  in_flight : ∀ m, c.active = some m →
    finished ++ m :: c.queued = ms ∧ handed.map Prod.fst = (finished ++ [m]).map Move.request
  at_rest : c.active = none → c.queued = [] ∧
    (c.phase ≠ .aborted → (∀ s ∈ handed, s.2 = true) →
      finished = ms ∧ handed.map Prod.fst = ms.map Move.request)

/-- A round goes on when all that was handed over is committed. -/
theorem Progress.of_goesOn {α : Type} {ms rest finished : List Move}
    {handed : List (Request × Bool)} {l : Locations} {turn : Turn W α}
    (h : GoesOn l rest turn) (hms : finished ++ rest = ms)
    (hhanded : handed.map Prod.fst = finished.map Move.request) :
    Progress ms (handed ++ turn.submissions) finished turn.next := by
  have hlength : handed.length = finished.length := by
    simpa using congrArg List.length hhanded
  cases h with
  | finished hnone hactive hqueued _ =>
    rw [List.append_nil] at hms
    subst hms
    rw [hnone, List.append_nil]
    constructor
    · rw [hhanded]
    · exact hlength.ge
    · exact hlength.le.trans (Nat.le_succ _)
    · intro m hm
      rw [hactive] at hm
      nomatch hm
    · intro _
      exact ⟨hqueued, fun _ _ => ⟨rfl, hhanded⟩⟩
  | @sent m rest turn hsent hactive hqueued _ _ =>
    have hone : (handed ++ turn.submissions).map Prod.fst = (finished ++ [m]).map Move.request := by
      rw [hsent, List.map_append, hhanded]
      simp
    constructor
    · rw [hone, ← hms]
      simp
    · simp [hsent, hlength]
    · simp [hsent, hlength]
    · intro m' hm'
      rw [hactive] at hm'
      cases hm'
      exact ⟨by rw [hqueued, hms], hone⟩
    · intro hnone
      rw [hactive] at hnone
      nomatch hnone
  | @refused m rest turn reason hrefused hactive hqueued _ _ =>
    constructor
    · rw [hrefused, ← hms, List.map_append, hhanded]
      simp
    · simp [hrefused, hlength]
    · simp [hrefused, hlength]
    · intro m' hm'
      rw [hactive] at hm'
      nomatch hm'
    · intro _
      refine ⟨hqueued, fun _ hall => ?_⟩
      have hfalse := hall (m.request, false) (by simp [hrefused])
      nomatch hfalse

section

variable [Weight W] {setup : Setup W} {c : Coordinator W} {submit : Executor} {op : Call}
  {turn : Turn W Answer} {ms finished : List Move} {handed : List (Request × Bool)}

/-- One call of a round, as long as it does not plan the next one. -/
theorem Progress.call (h : Progress ms handed finished c) (hc : c.Consistent setup)
    (hop : op.isRegular = true) (hplans : ∀ ms', ¬ c.Plans op ms')
    (hcall : c.call submit op = .ok turn) :
    Progress ms (handed ++ turn.submissions)
      (finished ++ (Entry.committed? ⟨c, submit, op, turn⟩).toList) turn.next := by
  cases fate_of_call hc hcall with
  | quiet hnone hactive hqueued hidle =>
    have hcommitted : Entry.committed? ⟨c, submit, op, turn⟩ = none :=
      Entry.committed?_eq_none hidle
    -- An aborted coordinator stays so, and nothing more is asked of the round.
    have hstays : turn.next.phase ≠ .aborted → c.phase ≠ .aborted := by
      intro hrunning haborted
      rw [call_of_aborted haborted submit hop] at hcall
      cases hcall
      exact hrunning haborted
    rw [hnone, hcommitted, List.append_nil, Option.toList_none, List.append_nil]
    constructor
    · exact h.in_order
    · exact h.finished_le
    · exact h.handed_le
    · rw [hactive, hqueued]
      exact h.in_flight
    · rw [hactive, hqueued]
      intro hrest
      obtain ⟨hq, hdone⟩ := h.at_rest hrest
      exact ⟨hq, fun hrunning => hdone (hstays hrunning)⟩
  | halted hnone hnext hno =>
    have hcommitted : Entry.committed? ⟨c, submit, op, turn⟩ = none :=
      Entry.committed?_eq_none fun now heq => absurd heq (hno now)
    rw [hnone, hnext, hcommitted, List.append_nil, Option.toList_none, List.append_nil]
    constructor
    · exact h.in_order
    · exact h.finished_le
    · exact h.handed_le
    · intro m hm
      nomatch hm
    · intro _
      exact ⟨rfl, fun hrunning => absurd rfl hrunning⟩
  | committed now m heq hm hgoes =>
    obtain ⟨hms, hhanded⟩ := h.in_flight m hm
    subst heq
    rw [List.append_cons] at hms
    have hcommitted : Entry.committed? ⟨c, submit, .commit now, turn⟩ = some m := hm
    rw [hcommitted]
    exact Progress.of_goesOn hgoes hms hhanded
  | planned ms' hms' _ => exact absurd hms' (hplans ms')

end

section

variable [Weight W] {setup : Setup W} {placement : Placement} {plans : Option ScalingPlans}
  {pre mid : List (Entry W)} {e : Entry W} {c : Coordinator W} {ms : List Move}

omit [Weight W] in
theorem commits_concat (es : List (Entry W)) (x : Entry W) :
    commits (es ++ [x]) = commits es ++ x.committed?.toList := by
  rw [commits, commits, List.filterMap_append]
  cases hc : x.committed? <;> simp [hc]

/-- A round from its planning on, until the next one is planned. -/
theorem progress_of_run (h : Run (make setup placement plans) (pre ++ e :: mid) c)
    (hregular : ∀ x ∈ pre ++ e :: mid, x.op.isRegular = true)
    (he : e.before.Plans e.op ms) (hmid : ∀ x ∈ mid, ∀ ms', ¬ x.before.Plans x.op ms') :
    Progress ms (submissions (e :: mid)) (commits mid) c := by
  induction mid using List.reverseRecOn generalizing c with
  | nil =>
    obtain ⟨hrun, hcall, pool, rfl⟩ := h.last
    obtain ⟨hpre, -⟩ := List.forall_mem_append.mp hregular
    have hgoes := goesOn_of_plans (consistent_of_run hrun hpre) he hcall
    have hstart : Progress ms ([] ++ e.turn.submissions) [] e.turn.next :=
      Progress.of_goesOn hgoes rfl rfl
    exact { (by simpa [submissions, commits] using hstart :
      Progress ms (submissions [e]) (commits []) e.turn.next) with }
  | append_singleton mid x ih =>
    obtain ⟨hmid, hx⟩ := List.forall_mem_append.mp hmid
    rw [← List.cons_append, ← List.append_assoc] at h hregular
    obtain ⟨hrun, hcall, pool, rfl⟩ := h.last
    obtain ⟨hbefore, hop⟩ := List.forall_mem_append.mp hregular
    have hplans := hx x (List.mem_singleton_self x)
    have hstep := (ih hrun hbefore hmid).call (consistent_of_run hrun hbefore)
      (hop x (List.mem_singleton_self x)) hplans hcall
    have hsubmissions :
        submissions (e :: (mid ++ [x])) = submissions (e :: mid) ++ x.turn.submissions := by
      simp [submissions]
    rw [commits_concat, hsubmissions]
    exact { hstep with }

/-- A call after the planning hands over nothing, or it commits the move that was handed over last
and hands over the one behind it. -/
theorem handed_after_commit {es es' : List (Entry W)} {x : Entry W}
    (h : Run (make setup placement plans) (pre ++ e :: (es ++ x :: es')) c)
    (hregular : ∀ y ∈ pre ++ e :: (es ++ x :: es'), y.op.isRegular = true)
    (he : e.before.Plans e.op ms)
    (hmid : ∀ y ∈ es ++ x :: es', ∀ ms', ¬ y.before.Plans y.op ms') :
    x.turn.submissions = [] ∨ ∃ m m' now accepted, x.op = .commit now ∧
      x.before.active = some m ∧ ms[(commits es).length]? = some m ∧
      ms[(commits es).length + 1]? = some m' ∧
      (submissions (e :: es)).length = (commits es).length + 1 ∧
      x.turn.submissions = [(m'.request, accepted)] := by
  obtain ⟨hes, hrest⟩ := List.forall_mem_append.mp hmid
  obtain ⟨hx, -⟩ := List.forall_mem_cons.mp hrest
  rw [← List.cons_append, ← List.append_assoc] at h hregular
  obtain ⟨hrun, hcall⟩ := h.at_call
  obtain ⟨hbefore, -⟩ := List.forall_mem_append.mp hregular
  have hprogress := progress_of_run hrun hbefore he hes
  cases fate_of_call (consistent_of_run hrun hbefore) hcall with
  | quiet hnone _ _ _ => exact .inl hnone
  | halted hnone _ _ => exact .inl hnone
  | planned ms' hms' _ => exact absurd hms' (hx ms')
  | committed now m heq hm hgoes =>
    obtain ⟨hms, hhanded⟩ := hprogress.in_flight m hm
    have hlength : (submissions (e :: es)).length = (commits es).length + 1 := by
      simpa using congrArg List.length hhanded
    generalize hq : x.before.queued = queued at hgoes hms
    subst hms
    cases hgoes with
    | finished hnone _ _ _ => exact .inl hnone
    | @sent m' rest _ hsent _ _ _ _ =>
      exact .inr ⟨m, m', now, true, heq, hm, by simp, by simp, hlength, hsent⟩
    | @refused m' rest _ _ hrefused _ _ _ _ =>
      exact .inr ⟨m, m', now, false, heq, hm, by simp, by simp, hlength, hrefused⟩

/-- A request that is refused ends the round, and moves no key. -/
theorem dropped_of_refused {x : Entry W} (hx : x.before.Consistent setup)
    (hcall : x.before.call x.submit x.op = .ok x.turn) {r : Request}
    (hr : (r, false) ∈ x.turn.submissions) :
    x.turn.next.queued = [] ∧ x.turn.next.active = none ∧
      ∀ k, x.turn.next.locations.current k = x.before.locations.current k := by
  have hgoes : ∃ l, GoesOn x.before.locations l x.turn := by
    cases fate_of_call hx hcall with
    | quiet hnone _ _ _ => simp [hnone] at hr
    | halted hnone _ _ => simp [hnone] at hr
    | committed now m _ _ hgoes => exact ⟨_, hgoes⟩
    | planned ms' _ hgoes => exact ⟨_, hgoes⟩
  obtain ⟨l, hgoes⟩ := hgoes
  cases hgoes with
  | finished hnone _ _ _ => simp [hnone] at hr
  | sent hsent _ _ _ _ => simp [hsent] at hr
  | refused reason _ hactive hqueued hl _ =>
    exact ⟨hqueued, hactive, fun k => by rw [hl]⟩

/-- How the moves `ms` are handed over in a round that the call `e` plans and that goes on with the
calls `mid` up to the state `c`. -/
structure InOrder (ms : List Move) (e : Entry W) (mid : List (Entry W)) (c : Coordinator W) :
    Prop where
  /-- The requests are those of the first moves, in their order and each of them once. -/
  requests : ∃ j ≤ ms.length,
    (submissions (e :: mid)).map Prod.fst = (ms.take j).map Move.request
  first : e.turn.submissions.map Prod.fst = (ms.take 1).map Move.request
  /-- Only the commit of a move hands over the next one. -/
  later : ∀ es x es', mid = es ++ x :: es' → x.turn.submissions = [] ∨
    ∃ m m' now accepted, x.op = .commit now ∧ x.before.active = some m ∧
      ms[(commits es).length]? = some m ∧ ms[(commits es).length + 1]? = some m' ∧
      (submissions (e :: es)).length = (commits es).length + 1 ∧
      x.turn.submissions = [(m'.request, accepted)]
  one_in_flight : (submissions (e :: mid)).length ≤ (commits mid).length + 1
  /-- If no request is refused and the coordinator does not abort, then the round does not end, and
  no new window starts, before all moves are committed. -/
  complete : (∀ s ∈ submissions (e :: mid), s.2 = true) → c.phase ≠ .aborted →
    c.phase ≠ .migrating →
    (submissions (e :: mid)).map Prod.fst = ms.map Move.request ∧ commits mid = ms
  dropped : ∀ x ∈ e :: mid, ∀ r : Request, (r, false) ∈ x.turn.submissions →
    x.turn.next.queued = [] ∧ x.turn.next.active = none ∧
      ∀ k, x.turn.next.locations.current k = x.before.locations.current k

/-- From the planning of a round until the next one is planned, its moves are handed over one by one
and in their order. -/
theorem round_in_order (h : Run (make setup placement plans) (pre ++ e :: mid) c)
    (hregular : ∀ x ∈ pre ++ e :: mid, x.op.isRegular = true) (he : e.before.Plans e.op ms)
    (hmid : ∀ x ∈ mid, ∀ ms', ¬ x.before.Plans x.op ms') : InOrder ms e mid c := by
  have hprogress := progress_of_run h hregular he hmid
  constructor
  · refine ⟨(submissions (e :: mid)).length, ?_, ?_⟩
    · simpa using hprogress.in_order.length_le
    · rw [List.map_take]
      simpa using List.prefix_iff_eq_take.mp hprogress.in_order
  · obtain ⟨hrun, hcall⟩ := h.at_call
    obtain ⟨hpre, -⟩ := List.forall_mem_append.mp hregular
    cases goesOn_of_plans (consistent_of_run hrun hpre) he hcall with
    | finished hnone _ _ _ => simp [hnone]
    | sent hsent _ _ _ _ => simp [hsent]
    | refused _ hrefused _ _ _ _ => simp [hrefused]
  · rintro es x es' rfl
    exact handed_after_commit h hregular he hmid
  · exact hprogress.handed_le
  · intro hall hrunning hphase
    have hactive := ((consistent_of_run h hregular).of_not_migrating hphase).2.2.1
    obtain ⟨hcommits, hhanded⟩ := (hprogress.at_rest hactive).2 hrunning hall
    exact ⟨hhanded, hcommits⟩
  · intro x hx r hr
    obtain ⟨es, es', hsplit⟩ := List.append_of_mem hx
    rw [hsplit, ← List.append_assoc] at h hregular
    obtain ⟨hrun, hcall⟩ := h.at_call
    obtain ⟨hbefore, -⟩ := List.forall_mem_append.mp hregular
    exact dropped_of_refused (consistent_of_run hrun hbefore) hcall hr

end

/-- Three partitions, of which the last is drained with moves that are planned ahead. -/
def draining : Setup ℚ := { joining with partitions := 3, scaling := .consolidate }

def twoDrains : List Move := [.ofRange 2 0 ⟨0, 5⟩, .ofRange 2 1 ⟨5, 10⟩]

def drainingPlans : ScalingPlans where
  scaleOut := fun _ => .ok []
  consolidate := fun _ _ => .ok twoDrains

def accepting : Executor := fun _ => .ok ()

def drainingLaunch : Entry ℚ :=
  let c := make draining joiningPlacement (some drainingPlans)
  ⟨c, accepting, .launch 0, (c.launch 0).mapAnswer fun _ => Answer.done⟩

/-- The coordinator in its first window. -/
def drainingWindow : Coordinator ℚ := drainingLaunch.turn.next

/-- The calls after the first observation: both moves are committed. -/
def drainingCommits (c : Coordinator ℚ) : List (Entry ℚ) :=
  let first := (c.commit accepting 6).mapAnswer fun _ => Answer.done
  let second := (first.next.commit accepting 7).mapAnswer fun _ => Answer.done
  [⟨c, accepting, .commit 6, first⟩, ⟨first.next, accepting, .commit 7, second⟩]

theorem plans_drainingWindow : drainingWindow.Plans (.observe [] 5) twoDrains := by
  have hnothing : (drainingWindow.planner.monitor drainingWindow.locations []).toOption.isSome := by
    decide +kernel
  cases hm : drainingWindow.planner.monitor drainingWindow.locations [] with
  | error e =>
    rw [hm] at hnothing
    nomatch hnothing
  | ok planner => exact ⟨[], 5, planner, _, rfl, rfl, hm, rfl, rfl⟩

/-- The first observation plans the round. Both moves are handed over, and scaling is done. -/
theorem round_in_order_draining : ∃ pre e mid c,
    Run (make draining joiningPlacement (some drainingPlans)) (pre ++ e :: mid) c ∧
    (∀ x ∈ pre ++ e :: mid, x.op.isRegular = true) ∧
    e.before.Plans e.op twoDrains ∧
    (∀ x ∈ mid, ∀ ms', ¬ x.before.Plans x.op ms') ∧
    (submissions (e :: mid)).length = 2 ∧ c.phase = .finished ∧ InOrder twoDrains e mid c := by
  have hend : ((drainingWindow.call accepting (.observe [] 5)).toOption.map fun turn =>
      (turn.submissions.length, (submissions (drainingCommits turn.next)).length,
        (drainingCommits turn.next).map (·.turn.next.phase))) =
      some (1, 1, [.migrating, .finished]) := by
    decide +kernel
  cases h : drainingWindow.call accepting (.observe [] 5) with
  | error e =>
    rw [h] at hend
    nomatch hend
  | ok turn =>
    rw [h] at hend
    simp only [Except.toOption, Option.map_some, Option.some.injEq, Prod.mk.injEq] at hend
    obtain ⟨hfirst, hrest, hphases⟩ := hend
    have hstart : Run (make draining joiningPlacement (some drainingPlans)) [] _ := .nil
    have hlaunched := hstart.call accepting (.launch 0) rfl
    have hplanned := hlaunched.call accepting (.observe [] 5) h
    have hrun : Run (make draining joiningPlacement (some drainingPlans))
        ([drainingLaunch] ++ ⟨drainingWindow, accepting, .observe [] 5, turn⟩ ::
          drainingCommits turn.next) _ :=
      (hplanned.call accepting (.commit 6) rfl).call accepting (.commit 7) rfl
    have hregular : ∀ x ∈ [drainingLaunch] ++
        ⟨drainingWindow, accepting, .observe [] 5, turn⟩ :: drainingCommits turn.next,
        x.op.isRegular = true := by
      simp [drainingLaunch, drainingCommits, Call.isRegular]
    have hmid : ∀ x ∈ drainingCommits turn.next, ∀ ms', ¬ x.before.Plans x.op ms' := by
      intro x hx ms' hplans
      simp only [drainingCommits, List.mem_cons, List.not_mem_nil, or_false] at hx
      rcases hx with rfl | rfl <;> exact hplans.not_commit _ rfl
    refine ⟨_, _, _, _, hrun, hregular, plans_drainingWindow, hmid, ?_, ?_,
      round_in_order hrun hregular plans_drainingWindow hmid⟩
    · rw [submissions, List.flatMap_cons, List.length_append, hfirst]
      exact congrArg (1 + ·) hrest
    · exact (List.cons.inj (List.cons.inj hphases).2).1

end Coordinator

end Reshard
