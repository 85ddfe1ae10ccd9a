import Reshard.Access.Graph
import Reshard.Proofs.Collections
import Reshard.Proofs.Outcome

/-!
What observing and moving keep of an access graph. Keys and vertex numbers name each other, and
an edge has the same weight at both of its ends. `sound_of_reachable` says so of every graph that
the operations build; `edge?_link` says which edges a co-access counts.
-/

namespace Reshard

namespace Graph

variable {W : Type}

/-- The weight of the edge from `a` to `b`, if there is one. -/
def edge? (g : Graph W) (a b : VertexId) : Option W := (g.edgesOf a)[b]?

def Adjacent (g : Graph W) (a b : VertexId) : Prop := g.edge? a b ≠ none

def keyOf? (g : Graph W) (a : VertexId) : Option Key := (g.vertex? a).map (·.key)

structure Sound (g : Graph W) : Prop where
  key_of_idOf : ∀ {k : Key} {id : VertexId}, g.idOf? k = some id → g.keyOf? id = some k
  idOf_of_key : ∀ {k : Key} {id : VertexId}, g.keyOf? id = some k → g.idOf? k = some id
  edge_symm : ∀ a b : VertexId, g.edge? a b = g.edge? b a
  edge_irrefl : ∀ a : VertexId, g.edge? a a = none

/-! ## Vertices and edges in range -/

theorem vertex?_eq_none_iff {g : Graph W} {a : VertexId} : g.vertex? a = none ↔ g.size ≤ a := by
  simp [vertex?, size]

theorem exists_vertex {g : Graph W} {a : VertexId} (h : a < g.size) :
    ∃ v, g.vertex? a = some v :=
  ⟨g.vertices[a], Array.getElem?_eq_getElem h⟩

theorem lt_size_of_vertex {g : Graph W} {a : VertexId} {v : Vertex W}
    (h : g.vertex? a = some v) : a < g.size := by
  rw [← Nat.not_le, ← vertex?_eq_none_iff, h]
  exact Option.some_ne_none v

theorem lt_size_of_partition {g : Graph W} {a : VertexId} {p : PartitionId}
    (h : g.partitionOf? a = some p) : a < g.size := by
  obtain ⟨v, hv, -⟩ := Option.map_eq_some_iff.mp h
  exact lt_size_of_vertex hv

theorem isOn_iff {g : Graph W} {a : VertexId} {p : PartitionId} :
    g.isOn a p = true ↔ g.partitionOf? a = some p := by
  simp only [isOn, partitionOf?, vertex?]
  split
  · next h => simp [Array.getElem?_eq_getElem h]
  · next h => simp [Nat.not_lt.mp h]

theorem mem_residents_iff {g : Graph W} {p : PartitionId} {a : VertexId} :
    a ∈ g.residents p ↔ g.partitionOf? a = some p := by
  rw [residents, List.mem_filter, List.mem_range, isOn_iff]
  exact and_iff_right_of_imp lt_size_of_partition

theorem vertex_eq_ok_iff {g : Graph W} {a : VertexId} {v : Vertex W} :
    g.vertex a = .ok v ↔ g.vertex? a = some v := by
  rw [vertex]
  cases g.vertex? a <;> simp

theorem keyOf?_eq_none_iff {g : Graph W} {a : VertexId} : g.keyOf? a = none ↔ g.size ≤ a := by
  simp [keyOf?, vertex?_eq_none_iff]

theorem edge?_eq_none_of_size_le {g : Graph W} {a : VertexId} (h : g.size ≤ a) (b : VertexId) :
    g.edge? a b = none := by
  rw [edge?, edgesOf, vertex?_eq_none_iff.mpr h]
  simp

theorem edgesOf_of_vertex {g : Graph W} {a : VertexId} {v : Vertex W}
    (h : g.vertex? a = some v) : g.edgesOf a = v.edges := by
  simp [edgesOf, h]

theorem Sound.idOf_lt {g : Graph W} (hg : g.Sound) {k : Key} {id : VertexId}
    (h : g.idOf? k = some id) : id < g.size := by
  rcases Nat.lt_or_ge id g.size with hlt | hle
  · exact hlt
  · have hkey := hg.key_of_idOf h
    rw [keyOf?_eq_none_iff.mpr hle] at hkey
    simp at hkey

theorem Sound.adjacent_comm {g : Graph W} (hg : g.Sound) {a b : VertexId} :
    g.Adjacent a b ↔ g.Adjacent b a := by
  rw [Adjacent, hg.edge_symm, Adjacent]

/-- The neighbours of a vertex are vertices. -/
theorem Sound.edge_lt {g : Graph W} (hg : g.Sound) {a b : VertexId} {w : W}
    (h : g.edge? a b = some w) : b < g.size := by
  rcases Nat.lt_or_ge b g.size with hlt | hle
  · exact hlt
  · rw [hg.edge_symm, edge?_eq_none_of_size_le hle] at h
    simp at h

/-! ## Changing one vertex -/

theorem vertex?_modify (g : Graph W) (id a : VertexId) (f : Vertex W → Vertex W) :
    (g.modify id f).vertex? a = if id = a then (g.vertex? a).map f else g.vertex? a := by
  simp [modify, vertex?, Array.getElem?_modify]

theorem keyOf?_modify (g : Graph W) (id : VertexId) {f : Vertex W → Vertex W}
    (hk : ∀ v, (f v).key = v.key) (a : VertexId) : (g.modify id f).keyOf? a = g.keyOf? a := by
  rw [keyOf?, keyOf?, vertex?_modify]
  split
  · cases g.vertex? a <;> simp [hk]
  · rfl

theorem edge?_modify (g : Graph W) (id : VertexId) {f : Vertex W → Vertex W}
    (he : ∀ v, (f v).edges = v.edges) (a b : VertexId) :
    (g.modify id f).edge? a b = g.edge? a b := by
  simp only [edge?, edgesOf, vertex?_modify]
  split
  · cases g.vertex? a <;> simp [he]
  · rfl

/-- A graph is sound if it has the keys of a sound one and its edges are still symmetric. -/
theorem Sound.of_keys {g h : Graph W} (hg : g.Sound) (hindex : h.index = g.index)
    (hkeys : ∀ a, h.keyOf? a = g.keyOf? a)
    (hsymm : ∀ a b, h.edge? a b = h.edge? b a) (hirrefl : ∀ a, h.edge? a a = none) :
    h.Sound where
  key_of_idOf := by
    intro k id hid
    rw [idOf?, hindex] at hid
    rw [hkeys]
    exact hg.key_of_idOf hid
  idOf_of_key := by
    intro k id hid
    rw [hkeys] at hid
    rw [idOf?, hindex]
    exact hg.idOf_of_key hid
  edge_symm := hsymm
  edge_irrefl := hirrefl

theorem Sound.modify {g : Graph W} (hg : g.Sound) (id : VertexId) {f : Vertex W → Vertex W}
    (hk : ∀ v, (f v).key = v.key) (he : ∀ v, (f v).edges = v.edges) :
    (g.modify id f).Sound := by
  have hindex : (g.modify id f).index = g.index := rfl
  apply hg.of_keys hindex (g.keyOf?_modify id hk)
  · intro a b
    rw [edge?_modify g id he, edge?_modify g id he, hg.edge_symm]
  · intro a
    rw [edge?_modify g id he, hg.edge_irrefl]

theorem Sound.setPartition {g h : Graph W} (hg : g.Sound) {id : VertexId} {p : PartitionId}
    (hp : g.setPartition id p = .ok h) : h.Sound := by
  obtain ⟨_, -, hh⟩ := Outcome.bind_eq_ok.mp hp
  cases hh
  exact hg.modify id (fun _ => rfl) (fun _ => rfl)

theorem Sound.markMoved {g h : Graph W} (hg : g.Sound) {id : VertexId}
    (hm : g.markMoved id = .ok h) : h.Sound := by
  obtain ⟨_, -, hh⟩ := Outcome.bind_eq_ok.mp hm
  cases hh
  exact hg.modify id (fun _ => rfl) (fun _ => rfl)

theorem Sound.reassign {g : Graph W} (hg : g.Sound) (ids : List VertexId) (p : PartitionId) :
    (g.reassign ids p).Sound := by
  induction ids generalizing g with
  | nil => exact hg
  | cons id rest ih =>
    rw [Graph.reassign, List.foldl_cons, ← Graph.reassign]
    exact ih (hg.modify id (fun _ => rfl) (fun _ => rfl))

theorem Sound.empty : Sound (∅ : Graph W) where
  key_of_idOf := by
    intro k id h
    have hnone : (∅ : Graph W).idOf? k = none := Std.ExtTreeMap.getElem?_empty
    rw [hnone] at h
    simp at h
  idOf_of_key := by
    intro k id h
    rw [keyOf?_eq_none_iff.mpr (Nat.zero_le id)] at h
    simp at h
  edge_symm := by
    intro a b
    rw [edge?_eq_none_of_size_le (Nat.zero_le a), edge?_eq_none_of_size_le (Nat.zero_le b)]
  edge_irrefl := by
    intro a
    exact edge?_eq_none_of_size_le (Nat.zero_le a) a

/-! ## Accesses -/

variable [Weight W]

/-- The graph with a new vertex for `k`. -/
def extend (g : Graph W) (k : Key) (p : PartitionId) : Graph W :=
  ⟨g.vertices.push { key := k, weight := 0 + 1, edges := ∅, partition := p, moved := false },
    g.index.insert k g.size⟩

theorem access_of_new {g : Graph W} {k : Key} (h : g.idOf? k = none) (p : PartitionId) :
    (g.access k p).1 = g.extend k p := by
  rw [access, h]
  rfl

theorem access_of_known {g : Graph W} {k : Key} {id : VertexId} (h : g.idOf? k = some id)
    (p : PartitionId) :
    (g.access k p).1 = g.modify id fun v => { v with weight := v.weight + 1 } := by
  rw [access, h]

theorem keyOf?_extend (g : Graph W) (k : Key) (p : PartitionId) (a : VertexId) :
    (g.extend k p).keyOf? a = if a = g.size then some k else g.keyOf? a := by
  simp only [keyOf?, vertex?, extend, Array.getElem?_push, size]
  by_cases h : a = g.vertices.size <;> simp [h]

theorem idOf?_extend (g : Graph W) (k : Key) (p : PartitionId) (k' : Key) :
    (g.extend k p).idOf? k' = if k = k' then some g.size else g.idOf? k' := by
  simp [idOf?, extend, Std.ExtTreeMap.getElem?_insert]

theorem edge?_extend (g : Graph W) (k : Key) (p : PartitionId) (a b : VertexId) :
    (g.extend k p).edge? a b = g.edge? a b := by
  simp only [edge?, edgesOf, vertex?, extend, Array.getElem?_push]
  split
  · simp_all
  · rfl

theorem Sound.extend {g : Graph W} (hg : g.Sound) {k : Key} (h : g.idOf? k = none)
    (p : PartitionId) : (g.extend k p).Sound where
  key_of_idOf := by
    intro k' id hid
    rw [idOf?_extend] at hid
    rw [keyOf?_extend]
    split at hid
    · simp_all
    · rw [if_neg (Nat.ne_of_lt (hg.idOf_lt hid))]
      exact hg.key_of_idOf hid
  idOf_of_key := by
    intro k' id hid
    rw [keyOf?_extend] at hid
    rw [idOf?_extend]
    split at hid
    · simp_all
    · have hk' := hg.idOf_of_key hid
      have hne : k ≠ k' := by
        intro heq
        rw [heq, hk'] at h
        simp at h
      rw [if_neg hne]
      exact hk'
  edge_symm := by
    intro a b
    rw [edge?_extend, edge?_extend, hg.edge_symm]
  edge_irrefl := by
    intro a
    rw [edge?_extend, hg.edge_irrefl]

theorem Sound.access {g : Graph W} (hg : g.Sound) (k : Key) (p : PartitionId) :
    (g.access k p).1.Sound := by
  cases h : g.idOf? k with
  | none =>
    rw [access_of_new h]
    exact hg.extend h p
  | some id =>
    rw [access_of_known h]
    exact hg.modify id (fun _ => rfl) (fun _ => rfl)

/-! ## Co-accesses -/

omit [Weight W] in
/-- The ids of keys that have vertices. -/
theorem idsOf_lt {g : Graph W} (hg : g.Sound) {ks : List Key} {ids : List VertexId}
    (h : g.idsOf ks = .ok ids) : ∀ id ∈ ids, id < g.size := by
  induction ks generalizing ids with
  | nil =>
    cases h
    simp
  | cons k rest ih =>
    rw [idsOf] at h
    cases hid : g.idOf? k with
    | none =>
      rw [hid] at h
      nomatch h
    | some first =>
      rw [hid] at h
      obtain ⟨others, hrest, hids⟩ := Outcome.bind_eq_ok.mp h
      cases hids
      intro id hmem
      rcases List.mem_cons.mp hmem with rfl | hmem
      · exact hg.idOf_lt hid
      · exact ih hrest id hmem

theorem edges_addEdges (v : Vertex W) {ids : List VertexId} (h : ids.Nodup) (b : VertexId) :
    (v.addEdges ids).edges[b]? =
      if b ∈ ids then some ((v.edges[b]?).getD 0 + 1) else v.edges[b]? := by
  induction ids generalizing v with
  | nil => simp [Vertex.addEdges]
  | cons id rest ih =>
    obtain ⟨hnot, hrest⟩ := List.nodup_cons.mp h
    rw [Vertex.addEdges, List.foldl_cons, ← Vertex.addEdges, ih _ hrest]
    simp only [Vertex.addEdge, Std.ExtTreeMap.getElem?_alter, Std.compare_eq_iff_eq]
    by_cases hb : id = b
    · subst hb
      simp [hnot]
    · simp [hb, Ne.symm hb]

theorem key_addEdges (v : Vertex W) (ids : List VertexId) : (v.addEdges ids).key = v.key := by
  induction ids generalizing v with
  | nil => rfl
  | cons id rest ih => exact ih (v.addEdge id)

/-- One step of `link`: a vertex gets its edges to the others. -/
def tie (g : Graph W) (ids : List VertexId) (id : VertexId) : Graph W :=
  g.modify id (·.addEdges (ids.filter (· ≠ id)))

theorem link_eq_foldl (g : Graph W) (ids : List VertexId) :
    g.link ids = ids.foldl (fun g id => g.tie ids id) g := rfl

theorem size_tie (g : Graph W) (ids : List VertexId) (id : VertexId) :
    (g.tie ids id).size = g.size := by
  simp [tie, modify, size]

theorem keyOf?_tie (g : Graph W) (ids : List VertexId) (id a : VertexId) :
    (g.tie ids id).keyOf? a = g.keyOf? a :=
  g.keyOf?_modify id (fun v => key_addEdges v _) a

theorem edge?_tie {g : Graph W} {ids : List VertexId} (h : ids.Nodup) {id : VertexId}
    (hid : id < g.size) (a b : VertexId) :
    (g.tie ids id).edge? a b =
      if a = id ∧ b ∈ ids ∧ b ≠ a then some ((g.edge? a b).getD 0 + 1)
      else g.edge? a b := by
  by_cases ha : a = id
  · subst ha
    obtain ⟨v, hv⟩ := exists_vertex hid
    have hv' : (g.tie ids a).vertex? a = some (v.addEdges (ids.filter (· ≠ a))) := by
      simp [tie, vertex?_modify, hv]
    rw [edge?, edgesOf_of_vertex hv', edges_addEdges v (h.filter _), edge?, edgesOf_of_vertex hv]
    simp
  · have hv : (g.tie ids id).vertex? a = g.vertex? a := by
      simp [tie, vertex?_modify, Ne.symm ha]
    simp [edge?, edgesOf, hv, ha]

/-- The ties of the vertices in `todo` to all of `ids`. -/
theorem edge?_foldl_tie {ids : List VertexId} (h : ids.Nodup) (a b : VertexId) :
    ∀ (todo : List VertexId) (g : Graph W), todo.Nodup → (∀ id ∈ todo, id < g.size) →
      (todo.foldl (fun g id => g.tie ids id) g).edge? a b =
        if a ∈ todo ∧ b ∈ ids ∧ b ≠ a then some ((g.edge? a b).getD 0 + 1)
        else g.edge? a b := by
  intro todo
  induction todo with
  | nil =>
    intro g _ _
    simp
  | cons id rest ih =>
    intro g hnodup hlt
    obtain ⟨hnot, hrest⟩ := List.nodup_cons.mp hnodup
    have hlt' : ∀ i ∈ rest, i < (g.tie ids id).size := by
      intro i hi
      rw [size_tie]
      exact hlt i (List.mem_cons_of_mem _ hi)
    rw [List.foldl_cons, ih _ hrest hlt', edge?_tie h (hlt id List.mem_cons_self)]
    by_cases ha : a = id
    · subst ha
      simp [hnot]
    · simp [ha]

/-- A co-access counts once for every two of its vertices. -/
theorem edge?_link {g : Graph W} {ids : List VertexId} (h : ids.Nodup)
    (hlt : ∀ id ∈ ids, id < g.size) (a b : VertexId) :
    (g.link ids).edge? a b =
      if a ∈ ids ∧ b ∈ ids ∧ b ≠ a then some ((g.edge? a b).getD 0 + 1)
      else g.edge? a b := by
  rw [link_eq_foldl]
  exact edge?_foldl_tie h a b ids g h hlt

theorem keyOf?_foldl_tie (ids todo : List VertexId) (g : Graph W) (a : VertexId) :
    (todo.foldl (fun g id => g.tie ids id) g).keyOf? a = g.keyOf? a := by
  induction todo generalizing g with
  | nil => rfl
  | cons id rest ih => rw [List.foldl_cons, ih, keyOf?_tie]

theorem index_foldl_tie (ids todo : List VertexId) (g : Graph W) :
    (todo.foldl (fun g id => g.tie ids id) g).index = g.index := by
  induction todo generalizing g with
  | nil => rfl
  | cons id rest ih =>
    rw [List.foldl_cons, ih]
    rfl

theorem Sound.link {g : Graph W} (hg : g.Sound) {ids : List VertexId} (h : ids.Nodup)
    (hlt : ∀ id ∈ ids, id < g.size) : (g.link ids).Sound := by
  have hindex : (g.link ids).index = g.index := index_foldl_tie ids ids g
  have hkeys : ∀ a, (g.link ids).keyOf? a = g.keyOf? a := keyOf?_foldl_tie ids ids g
  apply hg.of_keys hindex hkeys
  · intro a b
    rw [edge?_link h hlt, edge?_link h hlt, hg.edge_symm a b]
    simp only [ne_comm, and_left_comm]
  · intro a
    rw [edge?_link h hlt, hg.edge_irrefl]
    simp

theorem Sound.coAccess {g h : Graph W} (hg : g.Sound) {ks : List Key}
    (hk : g.coAccess ks = .ok h) : h.Sound := by
  obtain ⟨ids, hids, hlink⟩ := Outcome.bind_eq_ok.mp hk
  cases hlink
  apply hg.link (Collections.nodup_toList _)
  intro id hid
  apply idsOf_lt hg hids
  simpa using hid

/-! ## All operations -/

/-- The graphs that start empty and grow by observations, where vertices may be put elsewhere
at any time. -/
inductive Reachable : Graph W → Prop
  | empty : Reachable ∅
  | access {g : Graph W} (k : Key) (p : PartitionId) :
      Reachable g → Reachable (g.access k p).1
  | coAccess {g h : Graph W} (ks : List Key) :
      Reachable g → g.coAccess ks = .ok h → Reachable h
  | setPartition {g h : Graph W} (id : VertexId) (p : PartitionId) :
      Reachable g → g.setPartition id p = .ok h → Reachable h
  | markMoved {g h : Graph W} (id : VertexId) :
      Reachable g → g.markMoved id = .ok h → Reachable h

theorem sound_of_reachable {g : Graph W} (h : g.Reachable) : g.Sound := by
  induction h with
  | empty => exact .empty
  | access k p _ ih => exact ih.access k p
  | coAccess ks _ hk ih => exact ih.coAccess hk
  | setPartition id p _ hp ih => exact ih.setPartition hp
  | markMoved id _ hm ih => exact ih.markMoved hm

end Graph

end Reshard
