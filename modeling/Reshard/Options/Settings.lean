import Reshard.Options.CommandLine
import Reshard.Options.Number
import Reshard.Migration.State
import Reshard.Migration.Launcher

/-!
The settings of a node as options, and the setup that is made of them. Values out of range
are put back into it, so that everything else can rely on sane limits.
-/

namespace Reshard

/-- Settings as they are given, before any correction. -/
structure Settings where
  localPartition : Nat := 0
  partitions : Nat := 4
  window : Nat := 5000
  crossCost : Float := 1.0
  overload : Float := 1.3
  lookAhead : Nat := 5
  clumpMaxSize : Nat := 20
  maxClumps : Nat := 5000
  capacity : Nat := Directory.defaultCapacity
  scaling : Scaling := .disabled
  predefined : Bool := false
  pushCount : Nat := 1000
  pushBytes : Nat := 4000000
  selection : Selection := .roundRobin
  budget : Budget := .count
  pushInterval : Nat := 100
  startDelay : Nat := 10000
  launchPeriod : Nat := 60000
  stopAfter : Nat := 600000
  reportDir : Option String := none
  deriving Repr

namespace Tuning

def default : Tuning Float where
  crossCost := 1.0
  overload := 1.3
  lookAhead := 5
  clumpMaxSize := 20
  maxClumps := 5000

end Tuning

namespace Setup

def default : Setup Float where
  localPartition := 0
  partitions := 2
  window := 5000
  scaling := .disabled
  predefined := false
  capacity := Directory.defaultCapacity
  tuning := .default
  batches := .default
  reportDir := none

end Setup

def Scaling.words : List (String × Scaling) :=
  [("disabled", .disabled), ("scale-out", .scaleOut), ("consolidate", .consolidate)]

def Selection.words : List (String × Selection) :=
  [("round-robin", .roundRobin), ("largest-table-first", .largestTableFirst)]

def Budget.words : List (String × Budget) := [("count", .count), ("bytes", .bytes)]

namespace Settings

open CommandLine

def envName (name : String) : Option String := some ("HOLO_CLAY_" ++ name)

def wordOption (name env : String) (set : Settings → Nat → Settings) :
    CommandOption Settings :=
  ⟨name, envName env, readable Number.word? set⟩

def floatOption (name env : String) (set : Settings → Float → Settings) :
    CommandOption Settings :=
  ⟨name, envName env, readable Number.float? set⟩

def options : List (CommandOption Settings) :=
  [ wordOption "local-partition" "LOCAL_PARTITION" fun s n => { s with localPartition := n },
    wordOption "num-partitions" "NUM_PARTITIONS" fun s n => { s with partitions := n },
    wordOption "monitoring-ms" "MONITORING_MS" fun s n => { s with window := n },
    floatOption "multi-parts-cost" "MULTI_PARTS_COST" fun s x => { s with crossCost := x },
    floatOption "overload-percentage" "OVERLOAD_PERCENTAGE" fun s x => { s with overload := x },
    wordOption "look-ahead-max" "LOOK_AHEAD_MAX" fun s n => { s with lookAhead := n },
    wordOption "clump-max-size" "CLUMP_MAX_SIZE" fun s n => { s with clumpMaxSize := n },
    wordOption "max-clumps" "MAX_CLUMPS" fun s n => { s with maxClumps := n },
    wordOption "directory-capacity" "DIRECTORY_CAPACITY" fun s n => { s with capacity := n },
    ⟨"scaling", envName "SCALING", oneOf Scaling.words fun s x => { s with scaling := x }⟩,
    ⟨"use-predefined-plan", envName "USE_PREDEFINED_PLAN",
      .flag fun s b => { s with predefined := b }⟩,
    wordOption "push-count" "PUSH_COUNT" fun s n => { s with pushCount := n },
    wordOption "push-bytes" "PUSH_BYTES" fun s n => { s with pushBytes := n },
    ⟨"push-selection", envName "PUSH_SELECTION",
      oneOf Selection.words fun s x => { s with selection := x }⟩,
    ⟨"push-budget", envName "PUSH_BUDGET",
      oneOf Budget.words fun s x => { s with budget := x }⟩,
    wordOption "push-interval-ms" "PUSH_INTERVAL_MS" fun s n => { s with pushInterval := n },
    wordOption "start-delay-ms" "START_DELAY_MS" fun s n => { s with startDelay := n },
    wordOption "launch-period-ms" "LAUNCH_PERIOD_MS" fun s n => { s with launchPeriod := n },
    wordOption "stop-after-ms" "STOP_AFTER_MS" fun s n => { s with stopAfter := n },
    ⟨"graph-snapshot-dir", envName "GRAPH_SNAPSHOT_DIR",
      nonempty fun s dir => { s with reportDir := some dir }⟩ ]

/-- The settings of a command line, with the environment behind it. -/
def parse (env : String → Option String) (args : List String) : Except Rejection Settings :=
  CommandLine.parse options env {} args

def tuning (s : Settings) : Tuning Float where
  crossCost := Number.atLeast 0.0 s.crossCost
  overload := Number.atLeast 1.0 s.overload
  lookAhead := max s.lookAhead 1
  clumpMaxSize := max s.clumpMaxSize 1
  maxClumps := max s.maxClumps 1

def batches (s : Settings) : BatchRule where
  maxCount := max s.pushCount 1
  maxBytes := max s.pushBytes 1
  selection := s.selection
  budget := s.budget
  interval := max s.pushInterval 1

def setup (s : Settings) : Setup Float where
  localPartition := min s.localPartition (max s.partitions 1 - 1)
  partitions := max s.partitions 1
  window := s.window
  scaling := s.scaling
  predefined := s.predefined
  capacity := max s.capacity 1
  tuning := s.tuning
  batches := s.batches
  reportDir := s.reportDir

def launchRule (s : Settings) : LaunchRule where
  initial := s.startDelay
  period := max s.launchPeriod 1
  stopAfter := s.stopAfter
  once := s.scaling.isOn

end Settings

end Reshard
