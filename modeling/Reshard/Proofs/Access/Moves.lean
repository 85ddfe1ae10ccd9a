import Reshard.Access.Places
import Reshard.Proofs.Access.Sound

/-!
Where vertices and records are after a move. `partitionOf?_reassign` says it of vertices and
`placeOf?_reassign` of records, which are named by keys; weights and edges stay what they were.
-/

namespace Reshard

namespace Graph

variable {W : Type}

/-- Putting one vertex on `p`. -/
def place (g : Graph W) (id : VertexId) (p : PartitionId) : Graph W :=
  g.modify id fun v => { v with partition := p, moved := true }

theorem reassign_cons (g : Graph W) (id : VertexId) (rest : List VertexId) (p : PartitionId) :
    g.reassign (id :: rest) p = (g.place id p).reassign rest p := rfl

/-- Moved vertices are on `p` and marked, all others are as they were. -/
theorem vertex?_reassign (g : Graph W) (ids : List VertexId) (p : PartitionId) (a : VertexId) :
    (g.reassign ids p).vertex? a =
      if a ∈ ids then (g.vertex? a).map fun v => { v with partition := p, moved := true }
      else g.vertex? a := by
  induction ids generalizing g with
  | nil => simp [reassign]
  | cons id rest ih =>
    rw [reassign_cons, ih, place, vertex?_modify]
    rcases eq_or_ne id a with rfl | hne
    · by_cases hrest : id ∈ rest <;> simp [hrest, Function.comp_def]
    · simp [hne, hne.symm]

theorem partitionOf?_reassign (g : Graph W) (ids : List VertexId) (p : PartitionId)
    (a : VertexId) :
    (g.reassign ids p).partitionOf? a =
      if a ∈ ids then (g.partitionOf? a).map (fun _ => p) else g.partitionOf? a := by
  rw [partitionOf?, vertex?_reassign, partitionOf?]
  split
  · rw [Option.map_map, Option.map_map]
    rfl
  · rfl

theorem size_reassign (g : Graph W) (ids : List VertexId) (p : PartitionId) :
    (g.reassign ids p).size = g.size := by
  induction ids generalizing g with
  | nil => rfl
  | cons id rest ih =>
    rw [reassign_cons, ih]
    simp [place, modify, size]

theorem edge?_reassign (g : Graph W) (ids : List VertexId) (p : PartitionId) (a b : VertexId) :
    (g.reassign ids p).edge? a b = g.edge? a b := by
  induction ids generalizing g with
  | nil => rfl
  | cons id rest ih =>
    rw [reassign_cons, ih, place, edge?_modify]
    exact fun _ => rfl

/-! ## Places of records -/

/-- Where a record is, if it has a vertex. -/
def placeOf? (g : Graph W) (k : Key) : Option PartitionId := (g.idOf? k).bind g.partitionOf?

theorem idOf?_reassign (g : Graph W) (ids : List VertexId) (p : PartitionId) (k : Key) :
    (g.reassign ids p).idOf? k = g.idOf? k := by
  rw [idOf?, index_reassign, idOf?]

/-- A record is on `p` if its vertex is moved there, else where it was. -/
theorem placeOf?_reassign {g : Graph W} (hg : g.Sound) (ids : List VertexId) (p : PartitionId)
    (k : Key) :
    (g.reassign ids p).placeOf? k =
      if ∃ id ∈ ids, g.idOf? k = some id then some p else g.placeOf? k := by
  rw [placeOf?, idOf?_reassign, placeOf?]
  cases hid : g.idOf? k with
  | none => simp
  | some id =>
    obtain ⟨v, hv⟩ := exists_vertex (hg.idOf_lt hid)
    have hp : g.partitionOf? id = some v.partition := by simp [partitionOf?, hv]
    rw [Option.bind_some, Option.bind_some, partitionOf?_reassign, hp]
    simp

end Graph

end Reshard
