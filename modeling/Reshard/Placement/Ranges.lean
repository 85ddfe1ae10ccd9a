import Reshard.Placement.Basic

/-!
Placement by contiguous ranges of ids: partition `p` owns the ids from `p * width` up to
`(p + 1) * width`, and the last partition also owns every id after its range. Scaling
plans cut these ranges into slices.
-/

namespace Reshard

structure Ranges where
  partitions : Nat
  width : Nat
  replicatedTables : List String
  partitions_pos : 0 < partitions
  width_pos : 0 < width

namespace Ranges

theorem max_one_pos (n : Nat) : 0 < max n 1 := by omega

/-- There is at least one partition, and a partition owns at least one id. -/
def make (partitions width : Nat) (replicatedTables : List String) : Ranges where
  partitions := max partitions 1
  width := max width 1
  replicatedTables := replicatedTables
  partitions_pos := max_one_pos partitions
  width_pos := max_one_pos width

def home (r : Ranges) (k : Key) : PartitionId :=
  min (k.id / r.width) (r.partitions - 1)

def replicated (r : Ranges) (k : Key) : Bool := r.replicatedTables.contains k.table

def placement (r : Ranges) : Placement where
  home := r.home
  replicated := r.replicated

/-- The ids that partition `p` owns by its number. -/
def owned (r : Ranges) (p : PartitionId) : IdRange := ⟨p * r.width, p * r.width + r.width⟩

/-- The ids that a partition owns, if their bounds are words. -/
def span (r : Ranges) (p : PartitionId) : Except Overflow IdRange := do
  let _ ← Word.check (r.owned p).last
  return r.owned p

/-- Moves the top slice of a partition's range to `dest`. -/
def topSlice (r : Ranges) (slice : Nat) (dest source : PartitionId) : Move :=
  let owned := r.owned source
  Move.ofRange source dest ⟨max (owned.last - slice) owned.first, owned.last⟩

/-- Every partition but the newest hands over the top `1 / n` slice of its range. The ranges
are words if the last of them is. -/
def scaleOut (r : Ranges) (n : Nat) : Except Overflow (List Move) :=
  if n < 2 then
    .ok []
  else do
    Move.room (n - 1)
    let _ ← r.span (n - 2)
    return (List.range (n - 1)).map (r.topSlice (max (r.width / n) 1) (n - 1))

/-- How many partitions below `n` can take over from `retiring`. -/
def receiverCount (retiring : PartitionId) (n : Nat) : Nat :=
  if retiring < n then n - 1 else n

/-- Receiver number `i`: the partitions in their order, without `retiring`. -/
def receiver (retiring : PartitionId) (i : Nat) : PartitionId :=
  if i < retiring then i else i + 1

/-- Slice number `i` of `count` consecutive slices; the last one takes the rest. -/
def slice (owned : IdRange) (width count i : Nat) : IdRange :=
  let first := owned.first + width * i
  ⟨first, if i + 1 = count then owned.last else first + width⟩

/-- Cuts the range of `retiring` into equal slices, one for each receiver while ids last. -/
def consolidate (r : Ranges) (retiring : PartitionId) (n : Nat) :
    Except Overflow (List Move) :=
  let count := receiverCount retiring n
  if count = 0 then
    .ok []
  else do
    let owned ← r.span retiring
    let width := max (r.width / count) 1
    return (List.range (min count r.width)).map fun i =>
      Move.ofRange retiring (receiver retiring i) (slice owned width count i)

def scalingPlans (r : Ranges) : ScalingPlans where
  scaleOut := r.scaleOut
  consolidate := r.consolidate

end Ranges

end Reshard
