import Reshard.Access.Graph

/-!
A clump is a connected group of vertices that is considered for a common move. Its frontier
holds the vertices next to it, each with the summed weight of its edges into the clump. What
a move would bring about is read off a profile of the clump: where its members are, and where
their edges lead.
-/

namespace Reshard

structure Clump (W : Type) where
  members : Std.ExtTreeSet VertexId
  frontier : Std.ExtTreeMap VertexId W
  /-- Where the members are to go. -/
  dest : PartitionId
  deriving Repr

/-- An edge of a member. -/
structure Tie (W : Type) where
  /-- Where the member is. -/
  source : PartitionId
  /-- Where its neighbour is. -/
  target : PartitionId
  /-- Whether the neighbour is a member, too. -/
  inside : Bool
  weight : W
  deriving Repr

structure Profile (W : Type) where
  /-- Where each member is, with its weight. -/
  members : List (PartitionId × W)
  ties : List (Tie W)
  deriving Repr

variable {W : Type} [Weight W]

namespace Profile

/-- How an edge changes the boundary of `dest` when its member comes there: to a vertex that is
there already it stops crossing, to another member it stays inside, and to any other vertex it
starts crossing. A member that is there already changes nothing. -/
def boundaryChange (dest : PartitionId) (total : W) (t : Tie W) : W :=
  if t.source = dest then total
  else if t.target = dest then total - t.weight
  else if t.inside then total
  else total + t.weight

/-- The load that `dest` would gain by receiving the members. -/
def gain (f : Profile W) (cost : W) (dest : PartitionId) : W :=
  Weight.sum ((f.members.filter (·.1 ≠ dest)).map (·.2)) +
    cost * f.ties.foldl (boundaryChange dest) 0

/-- Weights of the edges that lead outside, by the partition they lead to. -/
def coAccess (f : Profile W) : Std.ExtTreeMap PartitionId W :=
  f.ties.foldl (fun sums t =>
    if t.inside then sums
    else sums.alter t.target fun old => some (old.getD 0 + t.weight)) ∅

/-- The partition below `n` with the most co-access; the lowest among equals. -/
def mostCoAccessed? (f : Profile W) (n : Nat) (excluded : List PartitionId) :
    Option PartitionId :=
  let eligible := f.coAccess.toList.filter fun e =>
    e.1 < n && !(e.2 ≤ 0) && !excluded.contains e.1
  (choose (fun new best => best.2 < new.2) eligible).map (·.1)

/-- Room for the co-accesses with `n` partitions, of which each takes eight bytes. -/
def room (n : Nat) : Except Overflow Unit := Word.room n 8

end Profile

namespace Clump

def size (c : Clump W) : Nat := c.members.size

def hasNeighbour (c : Clump W) : Bool := !c.frontier.isEmpty

/-- Adds the edges of a new member to the frontier, unless they end inside. -/
def reach (c : Clump W) (edges : List (VertexId × W)) : Clump W :=
  edges.foldl (fun c (id, w) =>
    if id ∈ c.members then c
    else { c with frontier := c.frontier.alter id fun old => some (old.getD 0 + w) }) c

/-- Takes in a vertex with the given edges. -/
def absorb (c : Clump W) (id : VertexId) (edges : Std.ExtTreeMap VertexId W) : Clump W :=
  reach { c with members := c.members.insert id, frontier := c.frontier.erase id } edges.toList

/-- The clump of one vertex. -/
def seed (g : Graph W) (id : VertexId) (dest : PartitionId) : Except Failure (Clump W) := do
  let v ← g.vertex id
  return absorb { members := ∅, frontier := ∅, dest } id v.edges

/-- Takes in a vertex of the frontier. -/
def expand (c : Clump W) (g : Graph W) (id : VertexId) : Except Failure (Clump W) := do
  let v ← g.vertex id
  if c.frontier.contains id then
    return c.absorb id v.edges
  else
    throw (.notOnFrontier id v.key)

/-- Whether the first vertex has the lower key. -/
def keyBelow (g : Graph W) (a b : VertexId) : Bool :=
  match g.vertex? a, g.vertex? b with
  | some va, some vb => va.key < vb.key
  | _, _ => false

/-- The frontier vertex of the highest weight; the lowest key among equals. -/
def hottestNeighbour? (c : Clump W) (g : Graph W) : Option VertexId :=
  (choose
    (fun new best =>
      !(new.2 < best.2 || (new.2 == best.2 && keyBelow g best.1 new.1)))
    c.frontier.toList).map (·.1)

/-- Where the edges of a vertex lead, in front of others. -/
def tiesOf (c : Clump W) (g : Graph W) (v : Vertex W) (rest : List (Tie W)) : List (Tie W) :=
  v.edges.foldr (fun id w ties =>
    match g.partitionOf? id with
    | none => ties
    | some target => ⟨v.partition, target, c.members.contains id, w⟩ :: ties) rest

/-- The profile of the clump, in the order of its members and of their neighbours. -/
def profile (c : Clump W) (g : Graph W) : Profile W :=
  let members := c.members.toList.filterMap g.vertex?
  { members := members.map fun v => (v.partition, v.weight)
    ties := members.foldr (c.tiesOf g) [] }

/-- The load that `dest` would gain by receiving the clump. -/
def receiveDelta (c : Clump W) (g : Graph W) (dest : PartitionId) (cost : W) : W :=
  (c.profile g).gain cost dest

/-- The partition below `n` that the clump is most co-accessed with. -/
def mostCoAccessed? (c : Clump W) (g : Graph W) (n : Nat) (excluded : List PartitionId) :
    Option PartitionId :=
  (c.profile g).mostCoAccessed? n excluded

/-- The same, if a table of co-accesses can be addressed. A plan does not ask for it: it was based
on the loads of as many partitions, which take more room. -/
def mostCoAccessedInMemory (c : Clump W) (g : Graph W) (n : Nat) (excluded : List PartitionId) :
    Except Overflow (Option PartitionId) := do
  Profile.room n
  return c.mostCoAccessed? g n excluded

/-- The members that a move to `dest` would carry, in the order of their numbers. -/
def incoming (c : Clump W) (g : Graph W) (dest : PartitionId) : List (Vertex W) :=
  (c.members.toList.filterMap g.vertex?).filter (·.partition ≠ dest)

/-- Whether any member is away from the destination. -/
def needsMove (c : Clump W) (g : Graph W) : Bool := !(c.incoming g c.dest).isEmpty

/-- One key-list move for each source partition, in the order of the sources. -/
def plan (c : Clump W) (g : Graph W) : Plan :=
  let incoming := c.incoming g c.dest
  let sources := Std.ExtTreeSet.ofList (incoming.map (·.partition))
  Plan.ofMoves <| sources.toList.map fun source =>
    Move.ofKeys source c.dest ((incoming.filter (·.partition = source)).map (·.key))

end Clump

end Reshard
