import Reshard.Balance.Planning
import Reshard.Push.Pool

/-!
The state of a migration coordinator: its setup, the phase it is in, the moves of the round
and what is known about the keys of the move in flight. The source of that move tags the
keys that it still has to ship; any other node remembers the keys confirmed to have moved.
-/

namespace Reshard

inductive Phase
  | idle
  | monitoring
  | planning
  | migrating
  /-- A round is done, and the next launch starts another. -/
  | completed
  /-- Scaling is done. -/
  | finished
  /-- A violation was met, and no further work is accepted. -/
  | aborted
  deriving DecidableEq, Repr

/-- What other threads may see of a coordinator. -/
structure Flags where
  monitoring : Bool := false
  analyzing : Bool := false
  migrating : Bool := false
  /-- The last move is done, and no other is in flight. -/
  migrated : Bool := false
  /-- A round is between its launch and its end. -/
  operating : Bool := false
  scaled : Bool := false
  deriving DecidableEq, Repr

inductive Scaling
  | disabled
  /-- The newest partition joins. -/
  | scaleOut
  /-- One partition is drained and retired. -/
  | consolidate
  deriving DecidableEq, Repr

def Scaling.isOn : Scaling → Bool
  | disabled => false
  | scaleOut => true
  | consolidate => true

structure Setup (W : Type) where
  /-- The partition that this node serves. -/
  localPartition : PartitionId
  /-- Partitions, with one that scaling adds or retires. -/
  partitions : Nat
  /-- Milliseconds of one monitoring window. -/
  window : Nat
  scaling : Scaling
  /-- Whether scaling starts with the moves planned ahead. -/
  predefined : Bool
  capacity : Nat
  tuning : Tuning W
  batches : BatchRule
  /-- Where the access graph of each window is reported, if it is. -/
  reportDir : Option String
  deriving Repr

structure Coordinator (W : Type) where
  setup : Setup W
  scalingPlans : Option ScalingPlans
  phase : Phase
  flags : Flags
  planner : Planner W
  locations : Locations
  round : Nat
  /-- When the monitoring window ends. -/
  deadline : Option Nat
  /-- The moves planned ahead are done. -/
  predefinedDone : Bool
  /-- The least loaded partition was drained. -/
  consolidated : Bool
  queued : List Move
  active : Option Move
  /-- Keys inserted at the source since dispatch, each with whether it was pushed. -/
  inserted : Std.ExtTreeMap Key Bool
  /-- Keys found by the analysis at the source, each with whether it was pushed. -/
  analyzed : Std.ExtTreeMap Key Bool
  /-- Keys confirmed to have moved, elsewhere than at the source. -/
  confirmed : KeySet
  pool : Pool

namespace Coordinator

variable {W : Type} [Weight W]

def make (setup : Setup W) (placement : Placement) (plans : Option ScalingPlans) :
    Coordinator W where
  setup := setup
  scalingPlans := plans
  phase := .idle
  flags := {}
  planner := .make setup.tuning
  locations := .make placement setup.capacity
  round := 0
  deadline := none
  predefinedDone := false
  consolidated := false
  queued := []
  active := none
  inserted := ∅
  analyzed := ∅
  confirmed := ∅
  pool := ∅

/-- The same, if the slots of the directory can be addressed. -/
def inMemory (setup : Setup W) (placement : Placement) (plans : Option ScalingPlans) :
    Except Overflow (Coordinator W) := do
  let locations ← Locations.inMemory placement setup.capacity
  return { make setup placement plans with locations }

/-- Partitions below this bound are planned over. A partition that joins counts once scaling
has started. -/
def planningBound (c : Coordinator W) : Nat :=
  if c.setup.scaling = .scaleOut ∧ c.flags.scaled = false then c.setup.partitions - 1
  else c.setup.partitions

/-- How many partitions are in service. -/
def partitionsInService (c : Coordinator W) : Nat := c.planner.liveCount c.planningBound

/-- Whether this node is the source of the move in flight. -/
def isSource (c : Coordinator W) : Bool :=
  match c.active with
  | none => false
  | some m => m.source = c.setup.localPartition

/-- Whether the move in flight covers the key, itself or by its representative. -/
def inFlight (c : Coordinator W) (k : Key) : Bool :=
  match c.active with
  | none => false
  | some m => m.covers k || m.covers (c.locations.placement.representative k)

/-- Where a key stands with the move in flight. -/
inductive KeyState
  | migrated
  | pending
  /-- The key is at neither end of the move. -/
  | diverged (found source dest : PartitionId)
  deriving DecidableEq, Repr

/-- At the source, a key without a tag was never to be shipped, or was shipped already. -/
def sourceKeyState (c : Coordinator W) (k : Key) : KeyState :=
  match (c.inserted[k]?).or (c.analyzed[k]?) with
  | some false => .pending
  | _ => .migrated

/-- Away from the source, a key is judged by its location unless it was confirmed. -/
def remoteKeyState (c : Coordinator W) (m : Move) (k : Key) : KeyState :=
  if k ∈ c.confirmed then .migrated
  else if !c.inFlight k then .pending
  else
    let found := c.locations.current k
    if found = m.dest then .migrated
    else if found = m.source then .pending
    else .diverged found m.source m.dest

def keyState (c : Coordinator W) (k : Key) : KeyState :=
  match c.active with
  | none => .pending
  | some m =>
    if m.source = c.setup.localPartition then c.sourceKeyState k else c.remoteKeyState m k

/-- Whether the key has left the source of the move in flight; a diverged key has not. -/
def isMigrated (c : Coordinator W) (k : Key) : Bool := c.keyState k = .migrated

end Coordinator

end Reshard
