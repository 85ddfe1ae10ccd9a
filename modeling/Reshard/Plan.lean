import Reshard.Key
import Reshard.Word

/-!
Moves of records between partitions, and plans made of them. A plan holds at most one
key-list move per route; range moves always stay apart, and a move of nothing is dropped.
-/

namespace Reshard

/-- What a move covers: the listed keys, or every key whose id is in a range. -/
inductive Scope
  | keys (members : KeySet)
  | range (ids : IdRange)
  deriving DecidableEq, Repr

namespace Scope

def covers (k : Key) : Scope → Bool
  | keys members => decide (k ∈ members)
  | range ids => ids.contains k

def count : Scope → Nat
  | keys members => members.size
  | range ids => ids.width

def isRange : Scope → Bool
  | keys _ => false
  | range _ => true

end Scope

/-- One transfer of records from a source to a destination partition. -/
structure Move where
  source : PartitionId
  dest : PartitionId
  scope : Scope
  deriving DecidableEq, Repr

namespace Move

def ofKeys (source dest : PartitionId) (ks : List Key) : Move :=
  { source, dest, scope := .keys (Std.ExtTreeSet.ofList ks) }

def ofRange (source dest : PartitionId) (ids : IdRange) : Move :=
  { source, dest, scope := .range ids }

def covers (m : Move) (k : Key) : Bool := m.scope.covers k

def keyCount (m : Move) : Nat := m.scope.count

/-- A range move covers its keys already, so that only a key list grows. -/
def addKey (m : Move) (k : Key) : Move :=
  match m.scope with
  | .keys members => { m with scope := .keys (members.insert k) }
  | .range _ => m

/-- Two key lists with the same source and destination. -/
def sameRoute (a b : Move) : Bool :=
  a.source = b.source && a.dest = b.dest && !a.scope.isRange && !b.scope.isRange

/-- Takes over the keys of another key list. -/
def absorb (m : Move) (other : Scope) : Move :=
  match m.scope, other with
  | .keys mine, .keys theirs => { m with scope := .keys (mine.insertMany theirs.toList) }
  | _, _ => m

/-- Room for a list of `n` moves, of which each takes 48 bytes. -/
def room (n : Nat) : Except Overflow Unit := Word.room n 48

end Move

/-- What a request asks for: a list of keys, or a range of ids. -/
inductive Payload
  | keys (list : List Key)
  | range (ids : IdRange)
  deriving DecidableEq, Repr

/-- A move as it is handed to the execution layer. -/
structure Request where
  source : PartitionId
  dest : PartitionId
  payload : Payload
  deriving DecidableEq, Repr

def Move.request (m : Move) : Request where
  source := m.source
  dest := m.dest
  payload :=
    match m.scope with
    | .keys members => .keys members.toList
    | .range ids => .range ids

def Request.text (r : Request) : String :=
  "part." ++ toString r.source ++ " -> part." ++ toString r.dest ++
    match r.payload with
    | .keys list => " (" ++ toString list.length ++ " keys)"
    | .range ids => " (ids " ++ toString ids.first ++ ".." ++ toString ids.last ++ ")"

/-- Moves in the order in which they are carried out. -/
structure Plan where
  moves : List Move
  deriving DecidableEq, Repr

namespace Plan

def empty : Plan := ⟨[]⟩

instance : EmptyCollection Plan := ⟨empty⟩

instance : Inhabited Plan := ⟨empty⟩

/-- Folds a move into the first one it shares a route with, else appends it. -/
def placeMove (m : Move) : List Move → List Move
  | [] => [m]
  | first :: rest =>
    if first.sameRoute m then first.absorb m.scope :: rest else first :: placeMove m rest

def add (p : Plan) (m : Move) : Plan :=
  if m.keyCount = 0 then p else ⟨placeMove m p.moves⟩

def merge (p q : Plan) : Plan := q.moves.foldl add p

def ofMoves (ms : List Move) : Plan := ms.foldl add empty

def isEmpty (p : Plan) : Bool := p.moves.isEmpty

def countMoves : List Move → Nat → Except Overflow Nat
  | [], total => .ok total
  | m :: rest, total => do countMoves rest (← Word.add total m.keyCount)

/-- Keys listed by the moves, where a range counts with its width. -/
def countKeys (p : Plan) : Except Overflow Nat := countMoves p.moves 0

end Plan

end Reshard
