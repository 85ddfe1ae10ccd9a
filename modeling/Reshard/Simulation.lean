import Reshard.Options.Settings
import Reshard.Options.Duration
import Reshard.Placement.Ranges

/-!
The command line of the simulator, up to the point where a run would start: what it accepts,
the checks that come first, and the status that it ends with. The run itself, which feeds
random transactions to a node, is left out.
-/

namespace Reshard

structure RunSettings where
  node : Settings := {}
  table : String := "usertable"
  keysPerPartition : Nat := 1000
  hotPartition : Nat := 0
  hotKeys : Nat := 40
  hotPercent : Nat := 60
  txnSize : Nat := 2
  txnInterval : Nat := 1000000
  migrationDelay : Nat := 200 * 1000000
  recordBytes : Nat := 1000
  reportInterval : Nat := 5 * Duration.second
  duration : Nat := 120 * Duration.second
  seed : Nat := 0

inductive RunFailure
  | noKeysPerPartition
  | noHotKeys
  | hotPercentTooHigh
  | noTxnSize
  | noTxnInterval
  | noReportInterval
  | hotPartitionTooHigh
  deriving DecidableEq, Repr

def RunFailure.message : RunFailure → String
  | noKeysPerPartition => "--keys-per-partition must be > 0"
  | noHotKeys => "--hot-keys must be > 0"
  | hotPercentTooHigh => "--hot-pct must be <= 100"
  | noTxnSize => "--txn-size must be > 0"
  | noTxnInterval => "--txn-interval must be > 0"
  | noReportInterval => "--report-interval must be > 0"
  | hotPartitionTooHigh => "--hot-partition must be < --num-partitions"

namespace RunSettings

open CommandLine

/-- A number below 256, where zero may have a minus sign. -/
def byte? (s : String) : Option Nat := do
  let (negative, digits) := Number.takeSign s.toList
  let n ← Number.digitsOf? digits
  if 256 ≤ n || (negative && n ≠ 0) then none else some n

def option (name : String) (reading : Reading RunSettings) : CommandOption RunSettings :=
  ⟨name, none, reading⟩

def options : List (CommandOption RunSettings) :=
  Settings.options.map (fun o => o.lift RunSettings.node fun r node => { r with node }) ++
  [ option "table" (readable some fun r s => { r with table := s }),
    option "keys-per-partition"
      (readable Number.word? fun r n => { r with keysPerPartition := n }),
    option "hot-partition" (readable Number.word? fun r n => { r with hotPartition := n }),
    option "hot-keys" (readable Number.word? fun r n => { r with hotKeys := n }),
    option "hot-pct" (readable byte? fun r n => { r with hotPercent := n }),
    option "txn-size" (readable Number.word? fun r n => { r with txnSize := n }),
    option "txn-interval" (checked Duration.read fun r n => { r with txnInterval := n }),
    option "migration-delay"
      (checked Duration.read fun r n => { r with migrationDelay := n }),
    option "record-bytes" (readable Number.word? fun r n => { r with recordBytes := n }),
    option "report-interval"
      (checked Duration.read fun r n => { r with reportInterval := n }),
    option "duration" (checked Duration.read fun r n => { r with duration := n }),
    option "seed" (readable Number.word? fun r n => { r with seed := n }) ]

/-- The checks, of which the first that fails is told. -/
def check (r : RunSettings) : Except RunFailure Unit :=
  if r.keysPerPartition = 0 then .error .noKeysPerPartition
  else if r.hotKeys = 0 then .error .noHotKeys
  else if 100 < r.hotPercent then .error .hotPercentTooHigh
  else if r.txnSize = 0 then .error .noTxnSize
  else if r.txnInterval = 0 then .error .noTxnInterval
  else if r.reportInterval = 0 then .error .noReportInterval
  else if r.node.setup.partitions ≤ r.hotPartition then .error .hotPartitionTooHigh
  else .ok ()

/-- Seconds of the clock are below this number. -/
def clockSeconds : Nat := 9223372036854775808

/-- For so many seconds the clock may have been running when a run starts. -/
def clockAge : Nat := 4294967296

/-- Bytes of memory; a larger table is refused. -/
def memory : Nat := 34359738368

/-- Why a run does not start although its settings pass the checks. -/
inductive Obstacle
  /-- A number is not a word, a table is not addressable, or a time is not of the clock. -/
  | overflow
  /-- A table is larger than the memory. -/
  | noMemory
  deriving DecidableEq, Repr

/-- A table of `n` entries of `bytes` each is addressable and not larger than the memory. -/
def allot (n bytes : Nat) : Except Obstacle Unit :=
  if Word.addressable ≤ n * bytes then .error .overflow
  else if memory < n * bytes then .error .noMemory
  else .ok ()

/-- The ids of the hot partition and of all partitions together are words. -/
def checkIds (r : RunSettings) : Except Overflow Unit := do
  let partitions := r.node.setup.partitions
  let _ ← (Ranges.make partitions r.keysPerPartition []).span r.hotPartition
  discard (Word.mul partitions r.keysPerPartition)

/-- The end of the run is a time of the clock, however long the clock has been running. -/
def ends (r : RunSettings) : Bool :=
  clockAge + r.duration / Duration.second < clockSeconds

/-- What a run needs to start, in the order in which it is asked for: its ids, the directory,
its end, and a counter of eight bytes for each partition. -/
def prepare (r : RunSettings) : Except Obstacle Unit := do
  let setup := r.node.setup
  r.checkIds.mapError fun _ => .overflow
  allot (Directory.empty setup.capacity).capacity Directory.slotBytes
  if !r.ends then throw .overflow
  allot setup.partitions 8

end RunSettings

/-- What a command line of the simulator comes to. -/
inductive RunOutcome
  | ready (settings : RunSettings)
  | help
  | rejected
  | failed (failure : RunFailure)
  | overflow
  /-- The run is aborted for want of memory. -/
  | aborted

namespace RunOutcome

def ofRun (env : String → Option String) (args : List String) : RunOutcome :=
  match CommandLine.parse RunSettings.options env {} args with
  | .error .help => .help
  | .error .overflow => .overflow
  | .error _ => .rejected
  | .ok settings =>
    match settings.check with
    | .error failure => .failed failure
    | .ok () =>
      match settings.prepare with
      | .error .overflow => .overflow
      | .error .noMemory => .aborted
      | .ok () => .ready settings

/-- The first argument names the command; `help` may be asked about a command. -/
def ofArguments (env : String → Option String) : List String → RunOutcome
  | "run" :: args => ofRun env args
  | ["help"] => .help
  | ["help", "run"] => .help
  | ["help", "help"] => .help
  | "--help" :: _ => .help
  | arg :: _ =>
    match arg.toList with
    | '-' :: 'h' :: _ => .help
    | _ => .rejected
  | [] => .rejected

/-- The status that the program ends with; an aborted one has none. -/
def status? : RunOutcome → Option Nat
  | ready _ => some 0
  | help => some 0
  | rejected => some 2
  | failed _ => some 1
  | overflow => some 101
  | aborted => none

def message? : RunOutcome → Option String
  | failed failure => some failure.message
  | _ => none

end RunOutcome

end Reshard
