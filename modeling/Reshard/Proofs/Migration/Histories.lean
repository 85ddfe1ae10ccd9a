import Mathlib.Data.List.Induction
import Reshard.Proofs.Migration.Consistency
import Reshard.Proofs.Migration.Handling
import Reshard.Proofs.Placement.Whereabouts

/-!
Runs with their histories: which calls were made, on which states, and what came of them. What a
call hands to the execution layer follows from the moves that it goes on with (`fate_of_call`).
-/

namespace Reshard

/-- A call of a run: the state that it finds, the execution layer that it meets, the operation and
what comes of it. -/
structure Entry (W : Type) where
  before : Coordinator W
  submit : Executor
  op : Call
  turn : Turn W Answer

/-- The requests that a history hands to the execution layer. -/
def submissions {W : Type} (es : List (Entry W)) : List (Request × Bool) :=
  es.flatMap (·.turn.submissions)

namespace Coordinator

variable {W : Type} [Weight W]

/-- Calls one after the other, from a first state to a last one. Between two calls the background
pushers may do with the pool as they like. -/
inductive Run (first : Coordinator W) : List (Entry W) → Coordinator W → Prop
  | nil : Run first [] first
  | push {es : List (Entry W)} {c : Coordinator W} (pool : Pool) : Run first es c →
      Run first es { c with pool }
  | call {es : List (Entry W)} {c : Coordinator W} {turn : Turn W Answer} (submit : Executor)
      (op : Call) : Run first es c → c.call submit op = .ok turn →
      Run first (es ++ [⟨c, submit, op, turn⟩]) turn.next

/-- A run that ends with a call, and what pushers do to the pool afterwards. -/
theorem Run.last {first c : Coordinator W} {es : List (Entry W)} {e : Entry W}
    (h : Run first (es ++ [e]) c) :
    Run first es e.before ∧ e.before.call e.submit e.op = .ok e.turn ∧
      ∃ pool, c = { e.turn.next with pool } := by
  generalize hall : es ++ [e] = all at h
  induction h with
  | nil => simp at hall
  | push pool _ ih =>
    obtain ⟨hrun, hcall, pool', rfl⟩ := ih hall
    exact ⟨hrun, hcall, pool, rfl⟩
  | call submit op hrun hcall =>
    obtain ⟨rfl, he⟩ := List.append_inj' hall rfl
    cases he
    exact ⟨hrun, hcall, _, rfl⟩

/-- A run is one up to each of its states. -/
theorem Run.split {first c : Coordinator W} {es es' : List (Entry W)}
    (h : Run first (es ++ es') c) : ∃ middle, Run first es middle ∧ Run middle es' c := by
  generalize hall : es ++ es' = all at h
  induction h generalizing es' with
  | nil =>
    obtain ⟨rfl, rfl⟩ := List.append_eq_nil_iff.mp hall
    exact ⟨first, .nil, .nil⟩
  | push pool _ ih =>
    obtain ⟨middle, hfirst, hlast⟩ := ih hall
    exact ⟨middle, hfirst, hlast.push pool⟩
  | @call init before turn submit op hrun hcall ih =>
    rcases List.eq_nil_or_concat es' with rfl | ⟨rest, e, rfl⟩
    · rw [List.append_nil] at hall
      subst hall
      exact ⟨turn.next, hrun.call submit op hcall, .nil⟩
    · rw [List.concat_eq_append, ← List.append_assoc] at hall
      obtain ⟨hinit, he⟩ := List.append_inj' hall rfl
      cases he
      obtain ⟨middle, hfirst, hlast⟩ := ih hinit
      rw [List.concat_eq_append]
      exact ⟨middle, hfirst, hlast.call submit op hcall⟩

theorem Run.append {first middle c : Coordinator W} {es es' : List (Entry W)}
    (h : Run first es middle) (h' : Run middle es' c) : Run first (es ++ es') c := by
  induction h' with
  | nil => rwa [List.append_nil]
  | push pool _ ih => exact ih.push pool
  | call submit op _ hcall ih =>
    rw [← List.append_assoc]
    exact ih.call submit op hcall

/-- A call in a run. -/
theorem Run.at_call {first c : Coordinator W} {es es' : List (Entry W)} {e : Entry W}
    (h : Run first (es ++ e :: es') c) :
    Run first es e.before ∧ e.before.call e.submit e.op = .ok e.turn := by
  rw [List.append_cons] at h
  obtain ⟨middle, hfirst, -⟩ := h.split
  obtain ⟨hrun, hcall, -⟩ := hfirst.last
  exact ⟨hrun, hcall⟩

/-- Makes calls one after the other, each of them on an execution layer of its own. -/
def play (c : Coordinator W) :
    List (Executor × Call) → Except Overflow (List (Entry W) × Coordinator W)
  | [] => .ok ([], c)
  | (submit, op) :: rest => do
    let turn ← c.call submit op
    let (es, last) ← turn.next.play rest
    return (⟨c, submit, op, turn⟩ :: es, last)

theorem run_of_play {c last : Coordinator W} {calls : List (Executor × Call)}
    {es : List (Entry W)} (h : c.play calls = .ok (es, last)) : Run c es last := by
  induction calls generalizing c es with
  | nil =>
    cases h
    exact .nil
  | cons first rest ih =>
    obtain ⟨turn, hcall, h⟩ := Outcome.bind_eq_ok.mp h
    obtain ⟨⟨later, _⟩, hrest, h⟩ := Outcome.bind_eq_ok.mp h
    cases h
    exact (Run.nil.call first.1 first.2 hcall).append (ih hrest)

/-- What is computed of the history and the last state. -/
theorem run_of_play_map {α : Type} {c : Coordinator W} {calls : List (Executor × Call)} {a : α}
    {f : List (Entry W) × Coordinator W → α} (h : (c.play calls).toOption.map f = some a) :
    ∃ es last, Run c es last ∧ f (es, last) = a := by
  cases hplay : c.play calls with
  | error e =>
    rw [hplay] at h
    nomatch h
  | ok r =>
    rw [hplay] at h
    exact ⟨r.1, r.2, run_of_play hplay, Option.some.inj h⟩

theorem consistent_of_run {setup : Setup W} {placement : Placement} {plans : Option ScalingPlans}
    {es : List (Entry W)} {c : Coordinator W} (h : Run (make setup placement plans) es c)
    (hregular : ∀ e ∈ es, e.op.isRegular = true) : c.Consistent setup := by
  induction h with
  | nil => exact consistent_make setup placement plans
  | push pool _ ih => exact { ih hregular with }
  | call submit op _ hcall ih =>
    obtain ⟨hbefore, hop⟩ := List.forall_mem_append.mp hregular
    exact (ih hbefore).call (hop _ (List.mem_singleton_self _)) hcall

/-! ## What a call makes of the moves -/

/-- What becomes of the moves in a call. -/
inductive Fate (c : Coordinator W) (op : Call) (turn : Turn W Answer) : Prop
  /-- Nothing is handed over, and the moves are what they were. -/
  | quiet : turn.submissions = [] → turn.next.active = c.active →
      turn.next.queued = c.queued →
      (∀ now, op = .commit now → c.active = none) → Fate c op turn
  | halted : turn.submissions = [] → turn.next = c.halt → (∀ now, op ≠ .commit now) →
      Fate c op turn
  | committed (now : Nat) (m : Move) : op = .commit now → c.active = some m →
      GoesOn c.locations c.queued turn → Fate c op turn
  | planned (ms : List Move) : c.Plans op ms → GoesOn c.locations ms turn → Fate c op turn

section

variable {setup : Setup W} {c : Coordinator W} {submit : Executor} {turn : Turn W Answer}

omit [Weight W] in
theorem Consistent.inLine (h : c.Consistent setup) : c.InLine where
  queued hactive := by
    have hphase : c.phase ≠ .migrating := by
      rw [Ne, ← h.active_iff, hactive]
      simp
    exact (h.of_not_migrating hphase).2.2.2
  aborted haborted := (h.of_not_migrating (by simp [haborted])).2.2.1

theorem goesOn_of_plans (hc : c.Consistent setup) {op : Call} {ms : List Move}
    (hplans : c.Plans op ms) (hcall : c.call submit op = .ok turn) :
    GoesOn c.locations ms turn := by
  have hidle : c.active = none := (hc.of_not_migrating (by simp [hplans.phase_eq])).2.2.1
  obtain ⟨d, reports, now, hactive, rfl, hlocations, hnone, rfl⟩ :=
    proceeds_of_plans hplans hcall
  have hgoes := proceed_goesOn (hactive.trans hidle) submit now
  rw [hlocations] at hgoes
  exact hgoes.mapAnswer hnone _

/-- A call leaves the moves as they are, or is a step of a round. -/
theorem fate_of_call (hc : c.Consistent setup) {op : Call} (hcall : c.call submit op = .ok turn) :
    Fate c op turn := by
  cases handling_of_call hc.inLine hcall with
  | kept hnone hactive hqueued _ hidle => exact .quiet hnone hactive hqueued hidle
  | halted hnone hnext hno => exact .halted hnone hnext hno
  | committed now m hop hm hgoes _ => exact .committed now m hop hm hgoes
  | planned m rest hplans hgoes _ => exact .planned (m :: rest) hplans hgoes
  | emptied hplans => exact .planned [] hplans (goesOn_of_plans hc hplans hcall)

end

/-! ## Where keys are told to be -/

omit [Weight W] in
theorem locations_markAllPushed (c : Coordinator W) (ks : List Key) :
    (c.markAllPushed ks).locations = c.locations := by
  obtain ⟨_, _, _, heq⟩ := c.exists_markAllPushed ks
  rw [heq]

omit [Weight W] in
theorem locations_tagAll (c : Coordinator W) (ks : List Key) :
    (ks.foldl tagAnalyzed c).locations = c.locations := by
  obtain ⟨_, _, heq⟩ := c.exists_tagAll ks
  rw [heq]

omit [Weight W] in
theorem locations_proceed (c : Coordinator W) (submit : Executor) (now : Nat) :
    (c.proceed submit now).next.locations = c.locations := by
  unfold proceed
  split
  · next m rest _ => exact (dispatch_goesOn { c with queued := rest } submit m).locations_eq
  · exact (c.active_wrapUp now).2.2

omit [Weight W] in
theorem locations_relocated {c : Coordinator W} (hphase : c.phase ≠ .aborted) {m : Move}
    (hm : c.active = some m) (ks : List Key) :
    (c.relocated ks).next.locations = c.locations.relocateAll ks m.dest := by
  rw [relocated, guarded_of_running hphase, hm]
  change (if c.isSource then c.markAllPushed ks else c).locations.relocateAll ks m.dest = _
  split
  · rw [locations_markAllPushed]
  · rfl

omit [Weight W] in
theorem relocated_of_idle {c : Coordinator W} (hidle : c.phase = .aborted ∨ c.active = none)
    (ks : List Key) : (c.relocated ks).next = c := by
  unfold relocated guarded
  split
  · rfl
  · next hphase =>
    rw [hidle.resolve_left hphase]
    rfl

/-- Only keys that are told to be on the destination of the move in flight change their place. -/
theorem locations_call {c : Coordinator W} {submit : Executor} {op : Call} {turn : Turn W Answer}
    (hcall : c.call submit op = .ok turn) :
    turn.next.locations = c.locations ∨ ∃ ks m, op = .relocated ks ∧ c.active = some m ∧
      turn.next.locations = c.locations.relocateAll ks m.dest := by
  cases op with
  | startMonitoring now =>
    cases hcall
    exact .inl rfl
  | launch now =>
    cases hcall
    left
    unfold Coordinator.launch guarded
    split
    · rfl
    · split <;> rfl
  | observe ks now =>
    left
    obtain ⟨seen, hseen, hanswer⟩ := Outcome.bind_eq_ok.mp hcall
    cases hanswer
    rcases observe_cases hseen with ⟨-, rfl⟩ | ⟨-, -, rfl⟩ | ⟨e, -, -, rfl⟩ |
      ⟨planner, -, -, rfl | hstop⟩
    · rfl
    · rfl
    · cases e <;> rfl
    · rfl
    · rcases stopMonitoring_cases hstop with ⟨e, -, rfl⟩ | ⟨moves, left, -, rfl⟩
      · rfl
      · exact locations_proceed _ submit now
  | commit now =>
    cases hcall
    left
    by_cases haborted : c.phase = .aborted
    · rw [Coordinator.commit, guarded_of_aborted haborted]
      rfl
    · cases hm : c.active with
      | none =>
        rw [commit_of_none haborted hm]
        rfl
      | some m =>
        rw [commit_of_active haborted hm]
        exact locations_proceed c.committed submit now
  | _ =>
    cases notes_of_call rfl hcall with
    | noted _ _ _ _ _ _ _ hlocations => exact hlocations
    | halted => exact .inl rfl

theorem kept_call {c : Coordinator W} {submit : Executor} {op : Call} {turn : Turn W Answer}
    (hkept : c.locations.Kept) (hcall : c.call submit op = .ok turn) :
    turn.next.locations.Kept := by
  rcases locations_call hcall with hsame | ⟨ks, m, -, -, hmoved⟩
  · rw [hsame]
    exact hkept
  · rw [hmoved]
    exact hkept.relocateAll ks m.dest

theorem kept_of_run {setup : Setup W} {placement : Placement} {plans : Option ScalingPlans}
    {es : List (Entry W)} {c : Coordinator W} (h : Run (make setup placement plans) es c) :
    c.locations.Kept := by
  induction h with
  | nil => exact Locations.kept_make placement setup.capacity
  | push pool _ ih => exact ih
  | call submit op _ hcall ih => exact kept_call ih hcall

end Coordinator

end Reshard
