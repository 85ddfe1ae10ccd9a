import Reshard.Push.Tables
import Reshard.Word

/-!
Which keys a background batch takes: the tables are drained in a fixed order, and the batch
ends as soon as it has used up its budget.
-/

namespace Reshard

/-- The order in which the tables are drained. -/
inductive Selection
  /-- One key of each table in every sweep. -/
  | roundRobin
  /-- The table with the most keys first. -/
  | largestTableFirst
  deriving DecidableEq, Repr

/-- What a batch is bounded by. -/
inductive Budget
  | count
  | bytes
  deriving DecidableEq, Repr

structure BatchRule where
  maxCount : Nat
  maxBytes : Nat
  selection : Selection
  budget : Budget
  /-- Milliseconds between two background rounds. -/
  interval : Nat
  deriving DecidableEq, Repr

namespace BatchRule

def default : BatchRule where
  maxCount := 1000
  maxBytes := 4000000
  selection := .roundRobin
  budget := .count
  interval := 100

instance : Inhabited BatchRule := ⟨default⟩

def limit (r : BatchRule) : Nat :=
  match r.budget with
  | .count => r.maxCount
  | .bytes => r.maxBytes

/-- What a record of the given size uses of the budget; one of size zero still counts. -/
def cost (r : BatchRule) (size : Nat) : Nat :=
  match r.budget with
  | .count => 1
  | .bytes => max size 1

end BatchRule

/-- The tables in the order in which they are drained. Tables of one group take turns. -/
def Selection.groups (s : Selection) (t : Tables) : List (List String) :=
  match s with
  | .roundRobin => [t.names]
  | .largestTableFirst => t.namesBySize.map fun name => [name]

/-- A batch in the making. -/
structure Draft where
  /-- The keys taken so far, the last one first. -/
  taken : List Key
  /-- What they use of the budget. -/
  used : Nat
  left : Tables
  deriving DecidableEq, Repr

namespace Draft

def start (t : Tables) : Draft := ⟨[], 0, t⟩

def isFull (r : BatchRule) (d : Draft) : Bool := r.limit ≤ d.used

/-- Takes the first key of a table, unless the budget is used up or the table is empty. -/
def take (r : BatchRule) (size : String → Nat) (d : Draft) (name : String) :
    Except Overflow Draft :=
  if d.isFull r then
    .ok d
  else
    match d.left.first? name with
    | none => .ok d
    | some k => do
      let used ← Word.add d.used (r.cost (size name))
      return ⟨k :: d.taken, used, d.left.erase k⟩

/-- Takes one key of each table, sweep after sweep, until the budget is used up or the tables
are empty. The first argument bounds the number of sweeps. -/
def sweeps (r : BatchRule) (size : String → Nat) :
    Nat → List String → Draft → Except Overflow Draft
  | 0, _, d => .ok d
  | n + 1, names, d =>
    if d.isFull r || names.isEmpty then
      .ok d
    else do
      let swept ← names.foldlM (take r size) d
      sweeps r size n (names.filter swept.left.hasTable) swept

/-- Drains the groups one after the other. A sweep takes one key at least, so that there are
no more sweeps than keys. -/
def fill (r : BatchRule) (size : String → Nat) (t : Tables) : Except Overflow Draft :=
  let count := t.size
  (r.selection.groups t).foldlM (fun d names => d.sweeps r size count names) (start t)

end Draft

end Reshard
