import Reshard.Access.Graph

/-!
A vertex has a record, which observation made, and a place, which planning changes. Putting
vertices elsewhere leaves all records alone, and a graph is known by its records and places.
-/

namespace Reshard

variable {W : Type}

namespace Vertex

/-- What observation tells of a vertex. -/
def record (v : Vertex W) : Key × W × Std.ExtTreeMap VertexId W := (v.key, v.weight, v.edges)

/-- Whether two vertices are on one partition, and both moved or both not. -/
def samePlace (a b : Vertex W) : Bool := a.partition = b.partition && a.moved = b.moved

theorem eq_of_samePlace {a b : Vertex W} (hr : a.record = b.record)
    (hp : a.samePlace b = true) : a = b := by
  cases a
  cases b
  simp_all [record, samePlace]

end Vertex

namespace Graph

def records (g : Graph W) : Array (Key × W × Std.ExtTreeMap VertexId W) :=
  g.vertices.map Vertex.record

/-- Whether the vertices of two graphs have the same places. -/
def samePlaces (g h : Graph W) : Bool := g.vertices.isEqv h.vertices Vertex.samePlace

theorem records_modify (g : Graph W) (id : VertexId) (f : Vertex W → Vertex W)
    (h : ∀ v, (f v).record = v.record) : (g.modify id f).records = g.records := by
  apply Array.ext
  · simp [records, modify]
  · intro i h₁ h₂
    simp only [records, modify, Array.getElem_map, Array.getElem_modify]
    split
    · exact h _
    · rfl

theorem records_reassign (g : Graph W) (ids : List VertexId) (p : PartitionId) :
    (g.reassign ids p).records = g.records := by
  induction ids generalizing g with
  | nil => rfl
  | cons id rest ih =>
    rw [reassign, List.foldl_cons, ← reassign, ih]
    exact g.records_modify id _ fun _ => rfl

theorem index_reassign (g : Graph W) (ids : List VertexId) (p : PartitionId) :
    (g.reassign ids p).index = g.index := by
  induction ids generalizing g with
  | nil => rfl
  | cons id rest ih =>
    rw [reassign, List.foldl_cons, ← reassign, ih]
    rfl

theorem eq_of_samePlaces {g h : Graph W} (hi : g.index = h.index)
    (hr : g.records = h.records) (hp : g.samePlaces h = true) : g = h := by
  obtain ⟨hsize, hplace⟩ := Array.isEqv_iff_rel.mp hp
  have hvertices : g.vertices = h.vertices := by
    apply Array.ext hsize
    intro i h₁ h₂
    have hrecord := congrArg (·[i]?) hr
    simp only [records, Array.getElem?_map, Array.getElem?_eq_getElem h₁,
      Array.getElem?_eq_getElem h₂, Option.map_some, Option.some.injEq] at hrecord
    exact Vertex.eq_of_samePlace hrecord (hplace i h₁)
  cases g
  cases h
  simp_all

end Graph

end Reshard
