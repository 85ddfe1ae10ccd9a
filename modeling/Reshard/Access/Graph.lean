import Reshard.Failure
import Reshard.Weight
import Reshard.Choice

/-!
The weighted access graph. A vertex stands for a record that transactions were seen to
access, and an edge for two records accessed by one transaction. Vertices are numbered in
the order of their first access; edges are kept at both ends. Loads of partitions are read
off the graph, always adding in the order of vertex numbers.
-/

namespace Reshard

abbrev VertexId := Nat

structure Vertex (W : Type) where
  key : Key
  /-- How often the key was accessed. -/
  weight : W
  /-- How often the key was accessed together with a neighbour. -/
  edges : Std.ExtTreeMap VertexId W
  partition : PartitionId
  moved : Bool
  deriving Repr

/-- Load of one partition: the accesses to its vertices, and the co-accesses that leave it. -/
structure Load (W : Type) where
  partition : PartitionId
  inside : W
  across : W
  deriving Repr

structure Graph (W : Type) where
  vertices : Array (Vertex W)
  /-- The vertex of each key. -/
  index : Std.ExtTreeMap Key VertexId
  deriving Repr

/-- What is told about a vertex outside the graph, where neighbours go by their keys. -/
structure VertexReport (W : Type) where
  key : Key
  weight : W
  partition : PartitionId
  edges : List (Key × W)
  deriving Repr

variable {W : Type} [Weight W]

def Load.total (l : Load W) : W := l.inside + l.across

/-- The load of a partition that no vertex is on. -/
def Load.idle (p : PartitionId) : Load W := ⟨p, 0, 0⟩

/-- Room for the loads of `n` partitions, of which each takes 24 bytes. -/
def Load.room (n : Nat) : Except Overflow Unit := Word.room n 24

namespace Vertex

def edgeWeight (v : Vertex W) : W := Weight.sum (v.edges.toList.map (·.2))

/-- More weight, or as much weight and a lower key. -/
def hotter (a b : Vertex W) : Bool :=
  b.weight < a.weight || (a.weight == b.weight && a.key < b.key)

def addEdge (v : Vertex W) (neighbour : VertexId) : Vertex W :=
  { v with edges := v.edges.alter neighbour fun w => some (w.getD 0 + 1) }

def addEdges (v : Vertex W) (neighbours : List VertexId) : Vertex W :=
  neighbours.foldl addEdge v

end Vertex

namespace Graph

def empty : Graph W := ⟨#[], ∅⟩

instance : EmptyCollection (Graph W) := ⟨empty⟩

instance : Inhabited (Graph W) := ⟨empty⟩

def size (g : Graph W) : Nat := g.vertices.size

def isEmpty (g : Graph W) : Bool := g.vertices.isEmpty

def vertex? (g : Graph W) (id : VertexId) : Option (Vertex W) := g.vertices[id]?

def vertex (g : Graph W) (id : VertexId) : Except Failure (Vertex W) :=
  match g.vertex? id with
  | some v => .ok v
  | none => .error (.noVertex id)

def idOf? (g : Graph W) (k : Key) : Option VertexId := g.index[k]?

def partitionOf? (g : Graph W) (id : VertexId) : Option PartitionId :=
  (g.vertex? id).map (·.partition)

/-- Whether the graph has the vertex, on partition `p`. -/
def isOn (g : Graph W) (id : VertexId) (p : PartitionId) : Bool :=
  if h : id < g.vertices.size then g.vertices[id].partition = p else false

/-- A vertex that the graph does not have has no edges. -/
def edgesOf (g : Graph W) (id : VertexId) : Std.ExtTreeMap VertexId W :=
  ((g.vertex? id).map (·.edges)).getD ∅

/-- Changes a vertex, but not its key. -/
def modify (g : Graph W) (id : VertexId) (f : Vertex W → Vertex W) : Graph W :=
  { g with vertices := g.vertices.modify id f }

/-! Observing accesses. -/

/-- Counts one access. The first access of a key makes its vertex, on the given partition. -/
def access (g : Graph W) (k : Key) (p : PartitionId) : Graph W × VertexId :=
  match g.idOf? k with
  | some id => (g.modify id fun v => { v with weight := v.weight + 1 }, id)
  | none =>
    let v := { key := k, weight := 0 + 1, edges := ∅, partition := p, moved := false }
    (⟨g.vertices.push v, g.index.insert k g.size⟩, g.size)

/-- Counts a co-access of every vertex with every other one. -/
def link (g : Graph W) (ids : List VertexId) : Graph W :=
  ids.foldl (fun g id => g.modify id (·.addEdges (ids.filter (· ≠ id)))) g

def idsOf (g : Graph W) : List Key → Except Failure (List VertexId)
  | [] => .ok []
  | k :: rest =>
    match g.idOf? k with
    | none => .error (.unmonitoredKey k)
    | some id => do return id :: (← idsOf g rest)

/-- Counts one co-access for every pair of distinct keys, all of which must have a vertex. -/
def coAccess (g : Graph W) (ks : List Key) : Except Failure (Graph W) := do
  let ids ← g.idsOf ks
  return g.link (Std.ExtTreeSet.ofList ids).toList

/-! Changing vertices. -/

def setPartition (g : Graph W) (id : VertexId) (p : PartitionId) :
    Except Failure (Graph W) := do
  let _ ← g.vertex id
  return g.modify id fun v => { v with partition := p }

def markMoved (g : Graph W) (id : VertexId) : Except Failure (Graph W) := do
  let _ ← g.vertex id
  return g.modify id fun v => { v with moved := true }

/-- Puts vertices on `p` and marks them as moved. -/
def reassign (g : Graph W) (ids : List VertexId) (p : PartitionId) : Graph W :=
  ids.foldl (fun g id => g.modify id fun v => { v with partition := p, moved := true }) g

/-! Loads. -/

/-- Adds a vertex to the load of its partition: its weight, and its edges to elsewhere, each
scaled by `cost`. -/
def charge (g : Graph W) (cost : W) (l : Load W) (v : Vertex W) : Load W where
  partition := l.partition
  inside := l.inside + v.weight
  across := v.edges.foldl (fun across id w =>
    if g.isOn id v.partition then across else across + w * cost) l.across

/-- Loads of the partitions that vertices are on. -/
def busyLoads (g : Graph W) (cost : W) : Std.ExtTreeMap PartitionId (Load W) :=
  g.vertices.foldl (fun loads v =>
    loads.alter v.partition fun l => some (g.charge cost (l.getD (.idle v.partition)) v)) ∅

/-- Loads of the partitions below `n`; vertices elsewhere are left out. -/
def loads (g : Graph W) (n : Nat) (cost : W) : List (Load W) :=
  let busy := g.busyLoads cost
  (List.range n).map fun p => (busy[p]?).getD (.idle p)

/-- The loads, if a table of them can be addressed. -/
def loadsInMemory (g : Graph W) (n : Nat) (cost : W) : Except Overflow (List (Load W)) := do
  Load.room n
  return g.loads n cost

/-! Looking at vertices. -/

def numbered (g : Graph W) : List (VertexId × Vertex W) :=
  g.vertices.toList.zipIdx.map fun (v, id) => (id, v)

/-- Whether the first vertex is the hotter one. -/
def hotter (g : Graph W) (a b : VertexId) : Bool :=
  match g.vertex? a, g.vertex? b with
  | some va, some vb => va.hotter vb
  | _, _ => false

/-- The vertices on a partition, in the order of their numbers. -/
def residents (g : Graph W) (p : PartitionId) : List VertexId :=
  (List.range g.size).filter fun id => g.isOn id p

/-- The hottest vertex on a partition. -/
def hottest? (g : Graph W) (p : PartitionId) : Option VertexId :=
  choose g.hotter (g.residents p)

def report (g : Graph W) : List (VertexReport W) :=
  g.vertices.toList.map fun v =>
    { key := v.key
      weight := v.weight
      partition := v.partition
      edges := v.edges.toList.filterMap fun (id, w) => (g.vertex? id).map (·.key, w) }

end Graph

end Reshard
