import Reshard.Access.Clump
import Reshard.Placement.Locations

/-!
Choosing what to move off an overloaded partition. A pass measures the loads, takes the lowest
partition above the threshold and grows a clump from its hottest vertex. Partitions that were
retired take no part in it.
-/

namespace Reshard

structure Tuning (W : Type) where
  /-- Weight of a co-access that crosses partitions. -/
  crossCost : W
  /-- A partition is overloaded above this multiple of the mean load. -/
  overload : W
  /-- How many infeasible expansions in a row are tolerated once a feasible clump was seen. -/
  lookAhead : Nat
  clumpMaxSize : Nat
  /-- Upper bound on the clumps of one plan. -/
  maxClumps : Nat
  deriving Repr

structure Planner (W : Type) where
  tuning : Tuning W
  graph : Graph W
  /-- Partitions drained for good. -/
  retired : Std.ExtTreeSet PartitionId
  deriving Repr

variable {W : Type} [Weight W]

/-- The least loaded partition, the first among equals. -/
def leastLoaded? (loads : List (Load W)) (excluding : Option PartitionId) :
    Option PartitionId :=
  (choose (fun new best => new.total < best.total)
    (loads.filter fun l => excluding ≠ some l.partition)).map (·.partition)

namespace Planner

def make (tuning : Tuning W) : Planner W := ⟨tuning, ∅, ∅⟩

/-! Observations. -/

/-- The representatives of the keys, unless one of the keys is fully replicated. -/
def representatives (l : Locations) : List Key → Except Failure KeySet
  | [] => .ok ∅
  | k :: rest =>
    if l.placement.replicated k then
      .error (.violation (.fullyReplicatedKey k))
    else do
      return (← representatives l rest).insert (l.placement.representative k)

/-- Feeds the keys of one transaction to the graph. -/
def monitor (p : Planner W) (l : Locations) (ks : List Key) : Except Failure (Planner W) := do
  let accessed := (← representatives l ks).toList
  let graph := accessed.foldl (fun g k => (g.access k (l.current k)).1) p.graph
  return { p with graph := ← graph.coAccess accessed }

/-- Discards every observation. -/
def reset (p : Planner W) : Planner W := { p with graph := ∅ }

/-! Partitions in service. -/

def retire (p : Planner W) (partition : PartitionId) : Planner W :=
  { p with retired := p.retired.insert partition }

def isRetired (p : Planner W) (partition : PartitionId) : Bool := partition ∈ p.retired

def retiredCount (p : Planner W) (n : Nat) : Nat := (p.retired.filter (· < n)).size

/-- How many of the partitions below `n` are in service. -/
def liveCount (p : Planner W) (n : Nat) : Nat := n - p.retiredCount n

/-- The live partitions below `n` with vertices on them, and of those without, which are all
alike, the first two at least. -/
def watched (p : Planner W) (n : Nat) (busy : Std.ExtTreeMap PartitionId (Load W)) :
    List PartitionId :=
  let first := List.range (min n (busy.size + p.retired.size + 2))
  ((Std.ExtTreeSet.ofList first).insertMany busy.keys).toList.filter fun id =>
    id < n && !p.isRetired id

/-- The loads of the watched partitions. -/
def watchedLoads (p : Planner W) (n : Nat) (busy : Std.ExtTreeMap PartitionId (Load W)) :
    List (Load W) :=
  (p.watched n busy).map fun id => (busy[id]?).getD (.idle id)

/-- The mean load of the live partitions, scaled by the overload factor; partitions that are
not watched add nothing. -/
def threshold (p : Planner W) (n : Nat) (watched : List (Load W)) : W :=
  Weight.sum (watched.map (·.total)) / (p.liveCount n : W) * p.tuning.overload

def leastLoadedPartition? (p : Planner W) (n : Nat) : Option PartitionId :=
  leastLoaded? (p.watchedLoads n (p.graph.busyLoads p.tuning.crossCost)) none

/-- The least loaded partition, if a table of loads can be addressed. -/
def leastLoadedInMemory (p : Planner W) (n : Nat) : Except Overflow (Option PartitionId) := do
  Load.room n
  return p.leastLoadedPartition? n

/-! Growing a clump. What stays fixed while a clump grows is an `Overload`. -/

/-- An overloaded partition, with what is known in its pass. -/
structure Overload (W : Type) where
  partition : PartitionId
  /-- How many partitions are planned over. -/
  partitions : Nat
  /-- The loads of the partitions that vertices are on. -/
  busy : Std.ExtTreeMap PartitionId (Load W)
  threshold : W
  /-- The least loaded live partition, other than the overloaded one. -/
  lightest : Option PartitionId
  deriving Repr

/-- The load of a live partition. -/
def liveLoad? (p : Planner W) (o : Overload W) (dest : PartitionId) : Option (Load W) :=
  if dest < o.partitions && !p.isRetired dest then some ((o.busy[dest]?).getD (.idle dest))
  else none

/-- Whether `dest` can take a clump with the given gains: its load does not grow, or stays below
the threshold. -/
def feasible (p : Planner W) (o : Overload W) (gain : PartitionId → W) (dest : PartitionId) :
    Bool :=
  match p.liveLoad? o dest with
  | none => false
  | some load =>
    let delta := gain dest
    delta ≤ 0 || load.total + delta < o.threshold

/-- The load that a partition gains by a clump of the given profile. -/
def gainOf (p : Planner W) (f : Profile W) : PartitionId → W := f.gain p.tuning.crossCost

/-- How many edges of a vertex end on each partition. -/
def reached (p : Planner W) (id : VertexId) : Std.ExtTreeMap PartitionId Nat :=
  ((p.graph.edgesOf id).keys.filterMap p.graph.partitionOf?).foldl
    (fun counts dest => counts.alter dest fun n => some (n.getD 0 + 1)) ∅

/-- The live partition that most edges of the seed reach, else the least loaded one. -/
def initialDest? (p : Planner W) (o : Overload W) (seed : VertexId) : Option PartitionId :=
  let eligible := (p.reached seed).toList.filter fun e =>
    e.1 ≠ o.partition && (p.liveLoad? o e.1).isSome
  match choose (fun new best => best.2 < new.2) eligible with
  | some (dest, _) => some dest
  | none => o.lightest

/-- The most co-accessed partition, if it differs from the current one and is feasible. -/
def coAccessedDest? (p : Planner W) (o : Overload W) (f : Profile W) (current : PartitionId) :
    Option PartitionId :=
  (f.mostCoAccessed? o.partitions (o.partition :: p.retired.toList)).filter
    fun dest => dest ≠ current && p.feasible o (p.gainOf f) dest

/-- The least loaded partition, if it differs from the current one, gains less by the clump
and is feasible. -/
def lightestDest? (p : Planner W) (o : Overload W) (f : Profile W) (current : PartitionId) :
    Option PartitionId :=
  let gain := p.gainOf f
  o.lightest.filter
    fun dest => dest ≠ current && gain dest < gain current && p.feasible o gain dest

/-- Where a clump goes after it has grown, if anywhere is feasible. -/
def feasibleDest? (p : Planner W) (o : Overload W) (f : Profile W) (current : PartitionId) :
    Option PartitionId :=
  if p.feasible o (p.gainOf f) current then
    some current
  else
    match p.coAccessedDest? o f current with
    | some dest => some dest
    | none => p.lightestDest? o f current

/-- A clump on its way, and whether its destination can take it. -/
structure Growth (W : Type) where
  clump : Clump W
  fits : Bool
  deriving Repr

/-- The seed of a clump. -/
def sprout (p : Planner W) (o : Overload W) (c : Clump W) : Growth W :=
  ⟨c, p.feasible o (p.gainOf (c.profile p.graph)) c.dest⟩

/-- Settles the destination of a clump that has grown. It keeps an infeasible destination when
there is no better one, since further growth may make it feasible. -/
def settle (p : Planner W) (o : Overload W) (c : Clump W) : Growth W :=
  match p.feasibleDest? o (c.profile p.graph) c.dest with
  | some dest => ⟨{ c with dest }, true⟩
  | none => ⟨c, false⟩

/-- The clump after it takes in its hottest neighbour and settles its destination. -/
def growOnce (p : Planner W) (o : Overload W) (c : Clump W) :
    Except Failure (Option (Growth W)) :=
  match c.hottestNeighbour? p.graph with
  | none => .ok none
  | some id => do return some (p.settle o (← c.expand p.graph id))

/-- Grows a clump until it is too large, has no neighbour left, or was infeasible too often in
a row. Answers the last feasible clump, or an oversized one if none was feasible. The first
argument bounds the number of expansions. -/
def grow (p : Planner W) (o : Overload W) :
    Nat → Growth W → Option (Clump W) → Nat → Except Failure (Option (Clump W))
  | expansions, ⟨c, fits⟩, best, patience =>
    let best' := if fits then some c else best
    let patience' :=
      if fits then p.tuning.lookAhead else if best.isSome then patience - 1 else patience
    if p.tuning.clumpMaxSize < c.size then
      .ok (some (best'.getD c))
    else if patience' = 0 then
      .ok best'
    else
      match expansions with
      | 0 => .ok best'
      | expansions + 1 => do
        match ← p.growOnce o c with
        | none => return best'
        | some grown => grow p o expansions grown best' patience'

/-- The clump to move off an overloaded partition. -/
def overloadClump (p : Planner W) (o : Overload W) : Except Failure (Option (Clump W)) :=
  match p.graph.hottest? o.partition with
  | none => .ok none
  | some seed =>
    match p.initialDest? o seed with
    | none => .ok none
    | some dest => do
      let c ← Clump.seed p.graph seed dest
      p.grow o p.tuning.clumpMaxSize (p.sprout o c) none p.tuning.lookAhead

/-! One pass. -/

/-- The lowest live partition above the threshold. -/
def overload? (p : Planner W) (n : Nat) : Option (Overload W) :=
  let busy := p.graph.busyLoads p.tuning.crossCost
  let watched := p.watchedLoads n busy
  let threshold := p.threshold n watched
  (watched.find? fun l => threshold < l.total).map fun l =>
    { partition := l.partition
      partitions := n
      busy := busy
      threshold := threshold
      lightest := leastLoaded? watched (some l.partition) }

/-- The next clump to move, or `none` when nothing can be relieved any more. -/
def nextClump (p : Planner W) (n : Nat) : Except Failure (Option (Clump W)) :=
  match p.overload? n with
  | none => .ok none
  | some o => do
    match ← p.overloadClump o with
    | none => return none
    | some c => return if c.needsMove p.graph then some c else none

/-- Puts the members of the clump on their destination. -/
def apply (p : Planner W) (c : Clump W) : Planner W :=
  { p with graph := p.graph.reassign c.members.toList c.dest }

end Planner

end Reshard
