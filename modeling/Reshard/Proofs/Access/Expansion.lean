import Reshard.Access.Clump
import Reshard.Proofs.Access.Sound
import Reshard.Proofs.Choice

/-!
Taking vertices into a clump. What a clump holds are vertices of its graph (`Proper`), so that any
vertex of the frontier can be taken in (`Within.exists_expand`), and this makes the clump larger by
one member (`Proper.size_expand`). No law of weights is used.
-/

namespace Reshard

open Outcome

namespace Graph

variable {W : Type} [Weight W] {g : Graph W} {s : PartitionId} {id : VertexId}

theorem partition_of_hottest (h : g.hottest? s = some id) : g.partitionOf? id = some s :=
  mem_residents_iff.mp (mem_of_choose h)

/-- A partition has a hottest vertex if there are vertices on it. -/
theorem exists_hottest (h : g.partitionOf? id = some s) :
    ∃ hottest, g.hottest? s = some hottest := by
  rw [← Option.ne_none_iff_exists', hottest?, ne_eq, choose_eq_none_iff]
  exact List.ne_nil_of_mem (mem_residents_iff.mpr h)

end Graph

namespace Clump

variable {W : Type}

/-- The frontier is made of vertices. -/
def Within (c : Clump W) (g : Graph W) : Prop := ∀ a ∈ c.frontier, a < g.size

/-- The members and the frontier are made of vertices, and no vertex is in both. -/
structure Proper (c : Clump W) (g : Graph W) : Prop where
  members : ∀ a ∈ c.members, a < g.size
  frontier : c.Within g
  apart : ∀ a ∈ c.frontier, a ∉ c.members

variable [Weight W]

/-! ## The edges of a new member -/

/-- One edge of a new member reaches a vertex. -/
def touch (c : Clump W) (e : VertexId × W) : Clump W :=
  if e.1 ∈ c.members then c
  else { c with frontier := c.frontier.alter e.1 fun old => some (old.getD 0 + e.2) }

theorem reach_eq_foldl (c : Clump W) (edges : List (VertexId × W)) :
    c.reach edges = edges.foldl touch c := rfl

theorem members_touch (c : Clump W) (e : VertexId × W) : (c.touch e).members = c.members := by
  rw [touch]
  split <;> rfl

theorem dest_touch (c : Clump W) (e : VertexId × W) : (c.touch e).dest = c.dest := by
  rw [touch]
  split <;> rfl

theorem members_reach (c : Clump W) (edges : List (VertexId × W)) :
    (c.reach edges).members = c.members := by
  rw [reach_eq_foldl]
  induction edges generalizing c with
  | nil => rfl
  | cons e rest ih => rw [List.foldl_cons, ih, members_touch]

theorem dest_reach (c : Clump W) (edges : List (VertexId × W)) :
    (c.reach edges).dest = c.dest := by
  rw [reach_eq_foldl]
  induction edges generalizing c with
  | nil => rfl
  | cons e rest ih => rw [List.foldl_cons, ih, dest_touch]

/-- The frontier grows by the ends of the edges that are no members. -/
theorem mem_frontier_reach {c : Clump W} {edges : List (VertexId × W)} {a : VertexId}
    (ha : a ∈ (c.reach edges).frontier) :
    a ∈ c.frontier ∨ (a ∉ c.members ∧ ∃ w, (a, w) ∈ edges) := by
  rw [reach_eq_foldl] at ha
  induction edges generalizing c with
  | nil => exact .inl ha
  | cons e rest ih =>
    rcases ih ha with hmem | ⟨hnot, w', hw'⟩
    · rw [touch] at hmem
      split at hmem
      · exact .inl hmem
      · next houtside =>
        rw [Std.ExtTreeMap.mem_alter] at hmem
        rcases eq_or_ne e.1 a with rfl | hne
        · exact .inr ⟨houtside, e.2, List.mem_cons_self⟩
        · simp only [Std.compare_eq_iff_eq, hne, if_false] at hmem
          exact .inl hmem
    · rw [members_touch] at hnot
      exact .inr ⟨hnot, w', List.mem_cons_of_mem _ hw'⟩

/-! ## New members -/

section

variable (c : Clump W) (id : VertexId) (edges : Std.ExtTreeMap VertexId W)

theorem members_absorb : (c.absorb id edges).members = c.members.insert id := by
  rw [absorb, members_reach]

theorem dest_absorb : (c.absorb id edges).dest = c.dest := by
  rw [absorb, dest_reach]

end

section

variable {c d : Clump W} {g : Graph W} {id : VertexId} {dest : PartitionId}

theorem Within.absorb (hc : c.Within g) {edges : Std.ExtTreeMap VertexId W}
    (hedges : ∀ b w, edges[b]? = some w → b < g.size) : (c.absorb id edges).Within g := by
  intro a ha
  rcases mem_frontier_reach ha with hmem | ⟨-, w, hw⟩
  · exact hc a (Std.ExtTreeMap.mem_of_mem_erase hmem)
  · exact hedges a w (Std.ExtTreeMap.mem_toList_iff_getElem?_eq_some.mp hw)

theorem Proper.absorb (hc : c.Proper g) {edges : Std.ExtTreeMap VertexId W} (hid : id < g.size)
    (hedges : ∀ b w, edges[b]? = some w → b < g.size) : (c.absorb id edges).Proper g where
  members := by
    intro a ha
    rw [members_absorb, Std.ExtTreeSet.mem_insert, Std.compare_eq_iff_eq] at ha
    rcases ha with rfl | ha
    · exact hid
    · exact hc.members a ha
  frontier := hc.frontier.absorb hedges
  apart := by
    intro a ha
    rw [members_absorb]
    rcases mem_frontier_reach ha with hmem | ⟨hnot, -⟩
    · obtain ⟨hne, hmem⟩ := Std.ExtTreeMap.mem_erase.mp hmem
      rw [Std.ExtTreeSet.mem_insert, not_or]
      exact ⟨hne, hc.apart a hmem⟩
    · exact hnot

omit [Weight W] in
theorem proper_empty (g : Graph W) (dest : PartitionId) :
    (⟨∅, ∅, dest⟩ : Clump W).Proper g where
  members a ha := by simp at ha
  frontier a ha := by simp at ha
  apart a ha := by simp at ha

omit [Weight W] in
/-- The neighbours that a vertex is absorbed with are vertices. -/
theorem lt_of_edges (hg : g.Sound) {v : Vertex W} (hv : g.vertex? id = some v) (b : VertexId)
    (w : W) (hb : v.edges[b]? = some w) : b < g.size := by
  refine hg.edge_lt (a := id) (w := w) ?_
  rw [Graph.edge?, Graph.edgesOf_of_vertex hv, hb]

/-- What is taken in is a vertex of the frontier. -/
theorem absorb_of_expand (h : c.expand g id = .ok d) :
    id ∈ c.frontier ∧ ∃ v, g.vertex? id = some v ∧ d = c.absorb id v.edges := by
  obtain ⟨v, hv, h⟩ := bind_eq_ok.mp h
  split at h
  · next hid =>
    cases h
    exact ⟨Std.ExtTreeMap.contains_iff_mem.mp hid, v, Graph.vertex_eq_ok_iff.mp hv, rfl⟩
  · nomatch h

theorem dest_seed (h : Clump.seed g id dest = .ok c) : c.dest = dest := by
  obtain ⟨v, -, h⟩ := bind_eq_ok.mp h
  cases h
  exact dest_absorb _ _ _

theorem dest_expand (h : c.expand g id = .ok d) : d.dest = c.dest := by
  obtain ⟨-, v, -, rfl⟩ := absorb_of_expand h
  exact dest_absorb _ _ _

theorem members_seed (h : Clump.seed g id dest = .ok c) : c.members = {id} := by
  obtain ⟨v, -, h⟩ := bind_eq_ok.mp h
  cases h
  exact members_absorb _ _ _

theorem members_expand (h : c.expand g id = .ok d) : d.members = c.members.insert id := by
  obtain ⟨-, v, -, rfl⟩ := absorb_of_expand h
  exact members_absorb _ _ _

theorem size_seed (h : Clump.seed g id dest = .ok c) : c.size = 1 := by
  rw [size, members_seed h]
  rfl

/-- A clump grows by one member at most. -/
theorem size_expand_le (h : c.expand g id = .ok d) : d.size ≤ c.size + 1 := by
  rw [size, members_expand h]
  exact Std.ExtTreeSet.size_insert_le

/-! ## Clumps in a graph -/

/-- Any vertex can be the seed of a clump. -/
theorem exists_seed (hid : id < g.size) (dest : PartitionId) :
    ∃ c, Clump.seed g id dest = .ok c := by
  obtain ⟨v, hv⟩ := Graph.exists_vertex hid
  refine ⟨absorb ⟨∅, ∅, dest⟩ id v.edges, ?_⟩
  rw [Clump.seed, Graph.vertex_eq_ok_iff.mpr hv]
  rfl

/-- Any vertex of the frontier can be taken in. -/
theorem Within.exists_expand (hc : c.Within g) (hid : id ∈ c.frontier) :
    ∃ d, c.expand g id = .ok d := by
  obtain ⟨v, hv⟩ := Graph.exists_vertex (hc id hid)
  refine ⟨c.absorb id v.edges, ?_⟩
  rw [Clump.expand, Graph.vertex_eq_ok_iff.mpr hv]
  exact if_pos (Std.ExtTreeMap.contains_iff_mem.mpr hid)

theorem proper_seed (hg : g.Sound) (h : Clump.seed g id dest = .ok c) : c.Proper g := by
  obtain ⟨v, hv, h⟩ := bind_eq_ok.mp h
  cases h
  have hv := Graph.vertex_eq_ok_iff.mp hv
  exact (proper_empty g dest).absorb (Graph.lt_size_of_vertex hv) (lt_of_edges hg hv)

theorem Proper.expand (hc : c.Proper g) (hg : g.Sound) (h : c.expand g id = .ok d) :
    d.Proper g := by
  obtain ⟨-, v, hv, rfl⟩ := absorb_of_expand h
  exact hc.absorb (Graph.lt_size_of_vertex hv) (lt_of_edges hg hv)

/-- Each expansion makes a clump larger. -/
theorem Proper.size_expand (hc : c.Proper g) (h : c.expand g id = .ok d) :
    d.size = c.size + 1 := by
  obtain ⟨hid, v, -, rfl⟩ := absorb_of_expand h
  rw [size, members_absorb, Std.ExtTreeSet.size_insert,
    if_neg (mt Std.ExtTreeSet.contains_iff_mem.mp (hc.apart id hid)), size]

/-! ## The hottest neighbour -/

omit [Weight W] in
theorem mem_frontier_of_entry {e : VertexId × W} (he : e ∈ c.frontier.toList) :
    e.1 ∈ c.frontier := by
  have hentry : c.frontier[e.1]? = some e.2 := Std.ExtTreeMap.mem_toList_iff_getElem?_eq_some.mp he
  exact Std.ExtTreeMap.mem_iff_isSome_getElem?.mpr (by rw [hentry]; rfl)

theorem mem_frontier_of_hottest (h : c.hottestNeighbour? g = some id) : id ∈ c.frontier := by
  obtain ⟨e, he, rfl⟩ := Option.map_eq_some_iff.mp h
  exact mem_frontier_of_entry (mem_of_choose he)

/-- A clump has no hottest neighbour only if it has no neighbour. -/
theorem hottestNeighbour?_eq_none_iff : c.hottestNeighbour? g = none ↔ c.frontier = ∅ := by
  rw [hottestNeighbour?, Option.map_eq_none_iff, choose_eq_none_iff,
    Std.ExtTreeMap.toList_eq_nil_iff]

end

end Clump

end Reshard
