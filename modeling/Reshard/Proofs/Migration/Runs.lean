import Reshard.Migration.Coordinator
import Reshard.Proofs.Outcome

/-!
Runs of a coordinator. Each call may meet another execution layer, which may accept or refuse as it
likes, and may succeed or fail; the states that come of it are `Reached`. The lemmas on cases say
once what an operation can do.
-/

namespace Reshard

/-- Monitoring is started by the operations themselves, never from outside. -/
def Call.isRegular : Call → Bool
  | .startMonitoring _ => false
  | _ => true

/-- The call is about single keys. The other calls are about rounds. -/
def Call.isOnKeys : Call → Bool
  | .relocated _ => true
  | .shipped _ => true
  | .checkMigrated _ => true
  | .insert _ => true
  | .analyze _ => true
  | _ => false

namespace Coordinator

variable {W : Type} [Weight W]

inductive Reached (setup : Setup W) (placement : Placement) (plans : Option ScalingPlans) :
    Coordinator W → Prop
  | start : Reached setup placement plans (make setup placement plans)
  | call {c : Coordinator W} {turn : Turn W Answer} (submit : Executor) (op : Call) :
      Reached setup placement plans c → op.isRegular = true →
      c.call submit op = .ok turn → Reached setup placement plans turn.next

/-! ## What an aborted coordinator does -/

omit [Weight W] in
theorem guarded_of_aborted {α : Type} {c : Coordinator W} (h : c.phase = .aborted)
    (turn : Turn W α) : c.guarded turn = c.fail .aborted := by
  rw [guarded, if_pos h]

omit [Weight W] in
theorem guarded_of_running {α : Type} {c : Coordinator W} (h : c.phase ≠ .aborted)
    (turn : Turn W α) : c.guarded turn = turn := by
  rw [guarded, if_neg h]

/-- Every regular call fails, without effects, and leaves the coordinator as it is. -/
theorem call_of_aborted {c : Coordinator W} (h : c.phase = .aborted) (submit : Executor)
    {op : Call} (hop : op.isRegular = true) :
    c.call submit op = .ok ⟨.error .aborted, [], c⟩ := by
  cases op with
  | startMonitoring now => nomatch hop
  | launch now =>
    rw [Coordinator.call, launch, guarded_of_aborted h]
    rfl
  | observe ks now =>
    rw [Coordinator.call, observe, if_pos h]
    rfl
  | commit now =>
    rw [Coordinator.call, commit, guarded_of_aborted h]
    rfl
  | relocated ks =>
    rw [Coordinator.call, relocated, guarded_of_aborted h]
    rfl
  | shipped ks =>
    rw [Coordinator.call, shipped, guarded_of_aborted h]
    rfl
  | checkMigrated k =>
    rw [Coordinator.call, checkMigrated, guarded_of_aborted h]
    rfl
  | insert k =>
    rw [Coordinator.call, Coordinator.insert, guarded_of_aborted h]
    rfl
  | analyze ks =>
    rw [Coordinator.call, analyze, guarded_of_aborted h]
    rfl

/-! ## What one operation can do -/

/-- The coordinator when its monitoring window has ended. -/
def stopped (c : Coordinator W) : Coordinator W :=
  { c with
    flags :=
      { c.flags with
        monitoring := false
        scaled := c.flags.scaled || c.setup.scaling.isOn }
    deadline := none
    phase := .planning }

/-- The moves of a round are chosen. -/
def loaded (c : Coordinator W) (moves : List Move) (planner : Planner W) : Coordinator W :=
  { c with planner, queued := moves }

def reports (c : Coordinator W) : List (Effect W) :=
  if c.setup.reportDir.isSome then [.report c.round c.planner.graph.report] else []

/-- A round without moves fails, and any other goes on with its first move. -/
theorem stopMonitoring_eq (c : Coordinator W) (submit : Executor) (now : Nat) :
    c.stopMonitoring submit now = c.stopped.roundMoves.map fun
      | .error e => ⟨.error e, c.reports, c.stopped.finish⟩
      | .ok (moves, planner) =>
        let turn := (c.stopped.loaded moves planner).proceed submit now
        { turn with effects := c.reports ++ turn.effects } := by
  rw [stopMonitoring]
  change (c.stopped.roundMoves >>= _) = _
  cases c.stopped.roundMoves with
  | error e => rfl
  | ok result => cases result <;> rfl

/-- A round fails while its moves are chosen, or goes on with them. -/
theorem stopMonitoring_cases {c : Coordinator W} {submit : Executor} {now : Nat}
    {turn : Turn W Unit} (h : c.stopMonitoring submit now = .ok turn) :
    (∃ e, c.stopped.roundMoves = .ok (.error e) ∧
      turn = ⟨.error e, c.reports, c.stopped.finish⟩) ∨
    ∃ moves planner, c.stopped.roundMoves = .ok (.ok (moves, planner)) ∧
      turn = { (c.stopped.loaded moves planner).proceed submit now with
        effects :=
          c.reports ++ ((c.stopped.loaded moves planner).proceed submit now).effects } := by
  rw [stopMonitoring_eq] at h
  obtain ⟨result, hround, hturn⟩ := Outcome.map_eq_ok.mp h
  cases result with
  | error e => exact .inl ⟨e, hround, hturn.symm⟩
  | ok chosen => exact .inr ⟨chosen.1, chosen.2, hround, hturn.symm⟩

/-- Outside a window nothing is noted, and what is noted may end the window. -/
theorem observe_cases {c : Coordinator W} {submit : Executor} {ks : List Key} {now : Nat}
    {turn : Turn W Unit} (h : c.observe submit ks now = .ok turn) :
    (c.phase = .aborted ∧ turn = c.fail .aborted) ∨
    (c.phase ≠ .aborted ∧ c.phase ≠ .monitoring ∧ turn = c.done ()) ∨
    (∃ e, c.phase = .monitoring ∧ c.planner.monitor c.locations ks = .error e ∧
      turn = c.failOrHalt e) ∨
    ∃ planner, c.phase = .monitoring ∧ c.planner.monitor c.locations ks = .ok planner ∧
      (turn = Coordinator.done { c with planner } () ∨
        Coordinator.stopMonitoring { c with planner } submit now = .ok turn) := by
  rw [observe] at h
  by_cases haborted : c.phase = .aborted
  · rw [if_pos haborted] at h
    cases h
    exact .inl ⟨haborted, rfl⟩
  · rw [if_neg haborted] at h
    by_cases hphase : c.phase = .monitoring
    · rw [if_neg (fun hne => hne hphase)] at h
      cases hm : c.planner.monitor c.locations ks with
      | error e =>
        rw [hm] at h
        cases h
        exact .inr (.inr (.inl ⟨e, hphase, rfl, rfl⟩))
      | ok planner =>
        rw [hm] at h
        refine .inr (.inr (.inr ⟨planner, hphase, rfl, ?_⟩))
        dsimp only at h
        split at h
        · exact .inr h
        · cases h
          exact .inl rfl
    · rw [if_pos hphase] at h
      cases h
      exact .inr (.inl ⟨haborted, hphase, rfl⟩)

omit [Weight W] in
/-- Marking keys as pushed changes nothing but tags and the pool. -/
theorem exists_markAllPushed (c : Coordinator W) (ks : List Key) :
    ∃ inserted analyzed pool, c.markAllPushed ks = { c with inserted, analyzed, pool } := by
  induction ks generalizing c with
  | nil => exact ⟨c.inserted, c.analyzed, c.pool, rfl⟩
  | cons k rest ih =>
    have hfirst : ∃ inserted analyzed pool,
        c.markPushed k = { c with inserted, analyzed, pool } := by
      unfold markPushed
      split
      · exact ⟨_, _, _, rfl⟩
      · split <;> exact ⟨_, _, _, rfl⟩
    obtain ⟨_, _, _, hfirst⟩ := hfirst
    obtain ⟨inserted, analyzed, pool, hrest⟩ := ih (c.markPushed k)
    refine ⟨inserted, analyzed, pool, hrest.trans ?_⟩
    rw [hfirst]

omit [Weight W] in
/-- Tagging the keys that an analysis found changes nothing but its tags and the pool. -/
theorem exists_tagAll (c : Coordinator W) (ks : List Key) :
    ∃ analyzed pool, ks.foldl tagAnalyzed c = { c with analyzed, pool } := by
  induction ks generalizing c with
  | nil => exact ⟨c.analyzed, c.pool, rfl⟩
  | cons k rest ih =>
    obtain ⟨analyzed, pool, hrest⟩ := ih (c.tagAnalyzed k)
    exact ⟨analyzed, pool, hrest⟩

/-- What a call on keys comes to. It leaves the round and its moves as they are, or finds a key at
neither end of the move in flight. -/
inductive Notes (c : Coordinator W) (op : Call) : Turn W Answer → Prop
  | noted (answer : Except Failure Answer) (locations : Locations) (analyzing : Bool)
      (inserted analyzed : Std.ExtTreeMap Key Bool) (confirmed : KeySet) (pool : Pool) :
      (locations = c.locations ∨ ∃ ks m, op = .relocated ks ∧ c.active = some m ∧
        locations = c.locations.relocateAll ks m.dest) →
      (analyzing = true → c.flags.analyzing = true) →
      Notes c op ⟨answer, [],
        { c with
          locations, inserted, analyzed, confirmed, pool
          flags := { c.flags with analyzing } }⟩
  | halted (e : Failure) : Notes c op ⟨.error e, [], c.halt⟩

omit [Weight W] in
theorem Notes.same {c : Coordinator W} {op : Call} (answer : Except Failure Answer) :
    Notes c op ⟨answer, [], c⟩ :=
  .noted answer c.locations c.flags.analyzing c.inserted c.analyzed c.confirmed c.pool (.inl rfl) id

omit [Weight W] in
theorem notes_relocated (c : Coordinator W) (ks : List Key) :
    Notes c (.relocated ks) ((c.relocated ks).mapAnswer fun _ => .done) := by
  unfold relocated guarded
  split
  · exact .same _
  · split
    · exact .same _
    · next m hm =>
      obtain ⟨_, _, _, heq⟩ := c.exists_markAllPushed ks
      rw [heq]
      split
      · exact .noted _ _ _ _ _ _ _ (.inr ⟨ks, m, rfl, hm, rfl⟩) id
      · exact .noted _ _ _ _ _ _ _ (.inr ⟨ks, m, rfl, hm, rfl⟩) id

omit [Weight W] in
theorem notes_shipped (c : Coordinator W) (ks : List Key) :
    Notes c (.shipped ks) ((c.shipped ks).mapAnswer fun _ => .done) := by
  unfold shipped guarded
  split
  · exact .same _
  · split
    · obtain ⟨_, _, _, heq⟩ := c.exists_markAllPushed ks
      rw [heq]
      exact .noted _ _ _ _ _ _ _ (.inl rfl) id
    · exact .noted _ _ _ _ _ _ _ (.inl rfl) id

omit [Weight W] in
theorem notes_checkMigrated (c : Coordinator W) (k : Key) :
    Notes c (.checkMigrated k) ((c.checkMigrated k).mapAnswer .migrated) := by
  unfold checkMigrated guarded
  split
  · exact .same _
  · split
    · exact .same _
    · exact .same _
    · exact .halted _

omit [Weight W] in
theorem notes_insert (c : Coordinator W) (k : Key) :
    Notes c (.insert k) ((c.insert k).mapAnswer fun _ => .done) := by
  unfold Coordinator.insert guarded
  split
  · exact .same _
  · split
    · exact .noted _ _ _ _ _ _ _ (.inl rfl) id
    · exact .same _

omit [Weight W] in
theorem notes_analyze (c : Coordinator W) (ks : List Key) :
    Notes c (.analyze ks) ((c.analyze ks).mapAnswer fun _ => .done) := by
  unfold analyze guarded
  split
  · exact .same _
  · split
    · obtain ⟨_, _, heq⟩ := c.exists_tagAll ks
      rw [heq]
      exact .noted _ _ false _ _ _ _ (.inl rfl) nofun
    · exact .same _

theorem notes_of_call {c : Coordinator W} {submit : Executor} {op : Call} {turn : Turn W Answer}
    (hop : op.isOnKeys = true) (hcall : c.call submit op = .ok turn) : Notes c op turn := by
  cases op with
  | relocated ks =>
    cases hcall
    exact c.notes_relocated ks
  | shipped ks =>
    cases hcall
    exact c.notes_shipped ks
  | checkMigrated k =>
    cases hcall
    exact c.notes_checkMigrated k
  | insert k =>
    cases hcall
    exact c.notes_insert k
  | analyze ks =>
    cases hcall
    exact c.notes_analyze ks
  | _ => nomatch hop

/-- The coordinator when its move is committed, before the next one. -/
def committed (c : Coordinator W) : Coordinator W :=
  { c.forgetKeys with
    active := none
    flags := { c.flags with migrating := false, analyzing := false, migrated := true } }

omit [Weight W] in
theorem commit_of_active {c : Coordinator W} (hphase : c.phase ≠ .aborted) {m : Move}
    (hm : c.active = some m) (submit : Executor) (now : Nat) :
    c.commit submit now =
      ⟨(c.committed.proceed submit now).answer,
        .stopPusher :: (c.committed.proceed submit now).effects,
        (c.committed.proceed submit now).next⟩ := by
  rw [commit, guarded_of_running hphase, hm]
  rfl

omit [Weight W] in
theorem commit_of_none {c : Coordinator W} (hphase : c.phase ≠ .aborted) (hm : c.active = none)
    (submit : Executor) (now : Nat) : c.commit submit now = c.fail .noMoveInFlight := by
  rw [commit, guarded_of_running hphase, hm]

end Coordinator

end Reshard
