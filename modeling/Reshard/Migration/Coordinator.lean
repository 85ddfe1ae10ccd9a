import Reshard.Migration.State

/-!
The control loop: monitor, plan, then move one unit of data at a time. Every operation is a
pure function. It answers, tells which effects it has outside, in order, and leaves the next
state. The execution layer appears as a function that accepts or refuses a request. Messages
that are only logged are left out, and so is what becomes of a report in the file system.
-/

namespace Reshard

/-- The execution layer's answer to a request; a refusal comes with its reason. -/
abbrev Executor := Request → Except String Unit

/-- What an operation does outside the coordinator. -/
inductive Effect (W : Type)
  | submit (request : Request) (accepted : Bool)
  /-- Starts a background pusher. -/
  | startPusher (source dest : PartitionId)
  /-- Stops the background pusher that was started last. -/
  | stopPusher
  /-- Reports the access graph of a round. -/
  | report (round : Nat) (graph : List (VertexReport W))
  deriving Repr

/-- The file that holds the report of a round. -/
def reportFile (round : Nat) : String := "heatgraph_" ++ toString round ++ ".json"

/-- The answer of an operation, its effects, and the coordinator it leaves. -/
structure Turn (W α : Type) where
  answer : Except Failure α
  effects : List (Effect W)
  next : Coordinator W

namespace Coordinator

variable {W : Type} [Weight W] {α : Type}

def done (c : Coordinator W) (a : α) (effects : List (Effect W) := []) : Turn W α :=
  ⟨.ok a, effects, c⟩

def fail (c : Coordinator W) (e : Failure) : Turn W α := ⟨.error e, [], c⟩

/-- Does nothing but fail once the coordinator is aborted. -/
def guarded (c : Coordinator W) (turn : Turn W α) : Turn W α :=
  if c.phase = .aborted then c.fail .aborted else turn

/-! Steps shared by the operations. -/

def finish (c : Coordinator W) : Coordinator W :=
  { c with
    flags := { c.flags with operating := false }
    phase := if c.setup.scaling.isOn then .finished else .completed }

/-- Forgets everything about the keys of the move in flight. -/
def forgetKeys (c : Coordinator W) : Coordinator W :=
  { c with inserted := ∅, analyzed := ∅, confirmed := ∅, pool := ∅ }

def halt (c : Coordinator W) : Coordinator W :=
  { c with
    phase := .aborted
    flags :=
      { c.flags with
        monitoring := false, analyzing := false, migrating := false, operating := false }
    queued := []
    active := none }

/-- Fails; a violation also aborts the coordinator. -/
def failOrHalt (c : Coordinator W) (e : Failure) : Turn W α :=
  match e with
  | .violation _ => c.halt.fail e
  | _ => c.fail e

/-- Starts a monitoring window with an empty access graph. -/
def startMonitoring (c : Coordinator W) (now : Nat) : Coordinator W :=
  { c with
    round := c.round + 1
    planner := c.planner.reset
    flags := { c.flags with monitoring := true, operating := true }
    deadline := some (now + c.setup.window)
    phase := .monitoring }

/-- Puts a move in flight, and hands its request to the execution layer. A refusal ends the
round and drops the moves that were left. -/
def dispatch (c : Coordinator W) (submit : Executor) (m : Move) : Turn W Unit :=
  let atSource : Bool := m.source = c.setup.localPartition
  let sent :=
    { c.forgetKeys with
      active := some m
      flags := { c.flags with analyzing := atSource, migrating := true, migrated := false }
      phase := .migrating }
  match submit m.request with
  | .ok () =>
    sent.done () (.submit m.request true :: if atSource then [.startPusher m.source m.dest] else [])
  | .error reason =>
    let dropped :=
      { sent with
        flags := { sent.flags with migrating := false, analyzing := false }
        active := none
        queued := [] }
    ⟨.error (.refused reason), [.submit m.request false], dropped.finish⟩

/-- Ends a round that has no move left. After the least loaded partition was drained,
monitoring starts again, to balance what it left behind. -/
def wrapUp (c : Coordinator W) (now : Nat) : Coordinator W :=
  match c.setup.scaling with
  | .disabled => c.finish
  | scaling =>
    if c.setup.predefined && !c.predefinedDone then
      { c with predefinedDone := true }.finish
    else if scaling = .consolidate && !c.setup.predefined && !c.consolidated then
      { c with consolidated := true }.finish.startMonitoring now
    else
      c.finish

/-- Dispatches the next move, or ends the round. -/
def proceed (c : Coordinator W) (submit : Executor) (now : Nat) : Turn W Unit :=
  match c.queued with
  | m :: rest => { c with queued := rest }.dispatch submit m
  | [] => (c.wrapUp now).done ()

/-! Choosing the moves of a round. -/

/-- Moves planned from the observed accesses. -/
def observedMoves (c : Coordinator W) :
    Except Overflow (Except Failure (List Move × Planner W)) := do
  let planned ← c.planner.planInMemory c.planningBound
  return do
    let (plan, planner) ← planned
    return ((plan.map (·.moves)).getD [], planner)

/-- Moves that fill the newest partition. -/
def joiningMoves (c : Coordinator W) :
    Except Overflow (Except Failure (List Move × Planner W)) :=
  match c.scalingPlans with
  | none => .ok (.error .noScalingPlans)
  | some plans => do return .ok (← plans.scaleOut c.setup.partitions, c.planner)

/-- Moves that drain a partition, which is retired. -/
def drainingMoves (c : Coordinator W) (retiring : PartitionId) :
    Except Overflow (Except Failure (List Move × Planner W)) :=
  match c.scalingPlans with
  | none => .ok (.error .noScalingPlans)
  | some plans => do
    return .ok (← plans.consolidate retiring c.setup.partitions, c.planner.retire retiring)

/-- Moves that drain the least loaded partition. -/
def lightestMoves (c : Coordinator W) :
    Except Overflow (Except Failure (List Move × Planner W)) := do
  match ← c.planner.leastLoadedInMemory c.setup.partitions with
  | none => return .ok ([], c.planner)
  | some retiring => c.drainingMoves retiring

/-- The moves of the round, and the planner that is left. -/
def roundMoves (c : Coordinator W) :
    Except Overflow (Except Failure (List Move × Planner W)) :=
  let ahead := c.setup.predefined && !c.predefinedDone
  match c.setup.scaling with
  | .disabled => c.observedMoves
  | .scaleOut => if ahead then c.joiningMoves else c.observedMoves
  | .consolidate =>
    if ahead then c.drainingMoves (c.setup.partitions - 1)
    else if !c.setup.predefined && !c.consolidated then c.lightestMoves
    else c.observedMoves

/-- Ends the monitoring window, and starts on the moves of the round. -/
def stopMonitoring (c : Coordinator W) (submit : Executor) (now : Nat) :
    Except Overflow (Turn W Unit) := do
  let stopped :=
    { c with
      flags :=
        { c.flags with
          monitoring := false
          scaled := c.flags.scaled || c.setup.scaling.isOn }
      deadline := none
      phase := .planning }
  let reports :=
    if c.setup.reportDir.isSome then [Effect.report c.round c.planner.graph.report] else []
  match ← stopped.roundMoves with
  | .error e => return ⟨.error e, reports, stopped.finish⟩
  | .ok (moves, planner) =>
    let turn := { stopped with planner, queued := moves }.proceed submit now
    return { turn with effects := reports ++ turn.effects }

/-! Operations. -/

/-- Starts a round, unless one is still running. -/
def launch (c : Coordinator W) (now : Nat) : Turn W Unit :=
  c.guarded <| if c.flags.operating then c.done () else (c.startMonitoring now).done ()

/-- Whether the monitoring window is over at `now`. Scaling with moves planned ahead does not
wait for its end. -/
def windowOver (c : Coordinator W) (now : Nat) : Bool :=
  c.deadline.all (· ≤ now) || (c.setup.scaling.isOn && c.setup.predefined)

/-- Takes note of the keys that one transaction accessed. -/
def observe (c : Coordinator W) (submit : Executor) (ks : List Key) (now : Nat) :
    Except Overflow (Turn W Unit) :=
  if c.phase = .aborted then
    .ok (c.fail .aborted)
  else if c.phase ≠ .monitoring then
    .ok (c.done ())
  else
    match c.planner.monitor c.locations ks with
    | .error e => .ok (c.failOrHalt e)
    | .ok planner =>
      let seen := { c with planner }
      if seen.windowOver now then seen.stopMonitoring submit now else .ok (seen.done ())

/-- The move in flight is committed. -/
def commit (c : Coordinator W) (submit : Executor) (now : Nat) : Turn W Unit :=
  c.guarded <|
    match c.active with
    | none => c.fail .noMoveInFlight
    | some _ =>
      let committed :=
        { c.forgetKeys with
          active := none
          flags := { c.flags with migrating := false, analyzing := false, migrated := true } }
      let turn := committed.proceed submit now
      { turn with effects := .stopPusher :: turn.effects }

/-- Turns the tag of a pending key to pushed. -/
def flip (tags : Std.ExtTreeMap Key Bool) (k : Key) : Std.ExtTreeMap Key Bool := tags.insert k true

/-- Notes at the source that a key was pushed, and has the background pusher skip it. The tag
of an insertion comes before the tag of the analysis. -/
def markPushed (c : Coordinator W) (k : Key) : Coordinator W :=
  if c.inserted[k]? = some false then
    { c with inserted := flip c.inserted k, pool := c.pool.skip k }
  else if c.analyzed[k]? = some false then
    { c with analyzed := flip c.analyzed k, pool := c.pool.skip k }
  else
    c

def markAllPushed (c : Coordinator W) (ks : List Key) : Coordinator W :=
  ks.foldl markPushed c

/-- The keys now live on the destination of the move in flight. -/
def relocated (c : Coordinator W) (ks : List Key) : Turn W Unit :=
  c.guarded <|
    match c.active with
    | none => c.fail .noMoveInFlight
    | some m =>
      let marked := if c.isSource then c.markAllPushed ks else c
      { marked with locations := marked.locations.relocateAll ks m.dest }.done ()

/-- The keys were shipped in the foreground. -/
def shipped (c : Coordinator W) (ks : List Key) : Turn W Unit :=
  c.guarded <|
    if c.isSource then (c.markAllPushed ks).done ()
    else { c with confirmed := c.confirmed.insertMany ks }.done ()

/-- Whether the key has left the source of the move in flight. A key found at neither end of
the move aborts the coordinator. -/
def checkMigrated (c : Coordinator W) (k : Key) : Turn W Bool :=
  c.guarded <|
    match c.keyState k with
    | .migrated => c.done true
    | .pending => c.done false
    | .diverged found source dest =>
      c.failOrHalt (.violation (.locationDiverged k found source dest))

/-- At the source: a key was inserted, and still has to be shipped. -/
def insert (c : Coordinator W) (k : Key) : Turn W Unit :=
  c.guarded <|
    if c.isSource then
      { c with inserted := c.inserted.insert k false, pool := c.pool.add k }.done ()
    else
      c.fail (.insertElsewhere k)

/-- Tags a key found by the analysis, unless it has a tag of an earlier analysis. -/
def tagAnalyzed (c : Coordinator W) (k : Key) : Coordinator W :=
  { c with
    analyzed := c.analyzed.alter k fun tag => some (tag.getD false)
    pool := c.pool.add k }

/-- At the source: the analysis found the keys that the move has to ship. -/
def analyze (c : Coordinator W) (ks : List Key) : Turn W Unit :=
  c.guarded <|
    if c.isSource then
      let tagged := ks.foldl tagAnalyzed c
      { tagged with flags := { tagged.flags with analyzing := false } }.done ()
    else
      c.fail .analysisElsewhere

/-- Takes the next background batch out of the pool. -/
def takeBatch (c : Coordinator W) (r : BatchRule) (size : String → Nat) :
    Except Overflow (List Key × Coordinator W) := do
  let (batch, pool) ← c.pool.takeBatch r size
  return (batch, { c with pool })

end Coordinator

/-- An operation with its arguments. -/
inductive Call
  | launch (now : Nat)
  | startMonitoring (now : Nat)
  | observe (keys : List Key) (now : Nat)
  | commit (now : Nat)
  | relocated (keys : List Key)
  | shipped (keys : List Key)
  | checkMigrated (key : Key)
  | insert (key : Key)
  | analyze (keys : List Key)
  deriving DecidableEq, Repr

/-- What an operation answers when it succeeds. -/
inductive Answer
  | done
  | migrated (yes : Bool)
  deriving DecidableEq, Repr

def Turn.mapAnswer {W α β : Type} (t : Turn W α) (f : α → β) : Turn W β :=
  ⟨t.answer.map f, t.effects, t.next⟩

def Coordinator.call {W : Type} [Weight W] (c : Coordinator W) (submit : Executor) :
    Call → Except Overflow (Turn W Answer)
  | .launch now => .ok ((c.launch now).mapAnswer fun _ => .done)
  | .startMonitoring now => .ok ((c.startMonitoring now).done .done)
  | .observe ks now => do return (← c.observe submit ks now).mapAnswer fun _ => .done
  | .commit now => .ok ((c.commit submit now).mapAnswer fun _ => .done)
  | .relocated ks => .ok ((c.relocated ks).mapAnswer fun _ => .done)
  | .shipped ks => .ok ((c.shipped ks).mapAnswer fun _ => .done)
  | .checkMigrated k => .ok ((c.checkMigrated k).mapAnswer .migrated)
  | .insert k => .ok ((c.insert k).mapAnswer fun _ => .done)
  | .analyze ks => .ok ((c.analyze ks).mapAnswer fun _ => .done)

end Reshard
