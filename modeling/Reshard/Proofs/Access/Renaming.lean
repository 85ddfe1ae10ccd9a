import Reshard.Proofs.Access.Loads
import Reshard.Proofs.Access.Moves
import Reshard.Proofs.Renamed
import Reshard.Proofs.Selection

/-!
Graphs that differ in the numbers of their vertices only (`Renames`). They have the same loads
(`Renames.busyLoads_eq`), and the hottest vertex of a partition is the same one under its other
number (`Renames.hottest?_eq`).
-/

namespace Reshard

/-- What a graph tells of a vertex, apart from its edges. -/
def Vertex.note {W : Type} (v : Vertex W) : Key × W × PartitionId × Bool :=
  (v.key, v.weight, v.partition, v.moved)

namespace Graph

section

variable {W : Type}

/-- The vertex `a` of the first graph is the vertex `σ a` of the second one. -/
structure Renames (σ : Equiv.Perm VertexId) (g h : Graph W) : Prop where
  note : ∀ a, (h.vertex? (σ a)).map Vertex.note = (g.vertex? a).map Vertex.note
  edge : ∀ a b, h.edge? (σ a) (σ b) = g.edge? a b

namespace Renames

variable {σ : Equiv.Perm VertexId} {g h : Graph W}

theorem symm (hr : Renames σ g h) : Renames σ.symm h g where
  note a := by rw [← hr.note, Equiv.apply_symm_apply]
  edge a b := by rw [← hr.edge, Equiv.apply_symm_apply, Equiv.apply_symm_apply]

theorem exists_vertex (hr : Renames σ g h) {a : VertexId} {v : Vertex W}
    (hv : g.vertex? a = some v) : ∃ v', h.vertex? (σ a) = some v' ∧ v'.note = v.note := by
  have hnote := hr.note a
  rw [hv, Option.map_some] at hnote
  exact Option.map_eq_some_iff.mp hnote

theorem vertex?_eq_none (hr : Renames σ g h) {a : VertexId} (hv : g.vertex? a = none) :
    h.vertex? (σ a) = none := by
  have hnote := hr.note a
  rwa [hv, Option.map_none, Option.map_eq_none_iff] at hnote

/-- Whatever is read off the notes is the same. -/
theorem map_eq (hr : Renames σ g h) {γ : Type} {f : Vertex W → γ}
    (hf : ∀ v v' : Vertex W, v'.note = v.note → f v' = f v) (a : VertexId) :
    (h.vertex? (σ a)).map f = (g.vertex? a).map f := by
  cases hv : g.vertex? a with
  | none => rw [hr.vertex?_eq_none hv, Option.map_none]
  | some v =>
    obtain ⟨v', hv', hnote⟩ := hr.exists_vertex hv
    rw [hv', Option.map_some, Option.map_some, hf v v' hnote]

theorem keyOf?_eq (hr : Renames σ g h) (a : VertexId) : h.keyOf? (σ a) = g.keyOf? a :=
  hr.map_eq (fun _ _ hnote => congrArg (·.1) hnote) a

theorem partitionOf?_eq (hr : Renames σ g h) (a : VertexId) :
    h.partitionOf? (σ a) = g.partitionOf? a :=
  hr.map_eq (fun _ _ hnote => congrArg (·.2.2.1) hnote) a

theorem lt_size_iff (hr : Renames σ g h) (a : VertexId) : σ a < h.size ↔ a < g.size := by
  rw [← Nat.not_le, ← Nat.not_le, ← keyOf?_eq_none_iff, ← keyOf?_eq_none_iff, hr.keyOf?_eq]

theorem edges_eq (hr : Renames σ g h) {a : VertexId} {v v' : Vertex W}
    (hv : g.vertex? a = some v) (hv' : h.vertex? (σ a) = some v') (b : VertexId) :
    v'.edges[σ b]? = v.edges[b]? := by
  have hedge := hr.edge a b
  rw [edge?, edge?, edgesOf_of_vertex hv, edgesOf_of_vertex hv'] at hedge
  exact hedge

end Renames

/-! ## Moves -/

/-- Moves of the same vertices leave the graphs alike. -/
theorem Renames.reassign {σ : Equiv.Perm VertexId} {g h : Graph W} (hr : Renames σ g h)
    {ids ids' : List VertexId} (hids : ∀ a, σ a ∈ ids' ↔ a ∈ ids) (p : PartitionId) :
    Renames σ (g.reassign ids p) (h.reassign ids' p) where
  note a := by
    rw [vertex?_reassign, vertex?_reassign]
    simp only [hids]
    split
    · rw [Option.map_map, Option.map_map]
      refine hr.map_eq ?_ a
      intro v v' hnote
      simp only [Vertex.note, Prod.mk.injEq] at hnote
      simp [Vertex.note, hnote.1, hnote.2.1]
    · exact hr.note a
  edge a b := by
    rw [edge?_reassign, edge?_reassign]
    exact hr.edge a b

end

/-! ## Loads -/

section

variable {W : Type} [Weight W]

theorem mem_foldl_book (g : Graph W) (cost : W) (p : PartitionId) (vs : List (Vertex W))
    (busy : Std.ExtTreeMap PartitionId (Load W)) :
    p ∈ vs.foldl (g.book cost) busy ↔ p ∈ busy ∨ ∃ v ∈ vs, v.partition = p := by
  induction vs generalizing busy with
  | nil => simp
  | cons v rest ih =>
    have hbook : p ∈ g.book cost busy v ↔ v.partition = p ∨ p ∈ busy := by
      rw [book, Std.ExtTreeMap.mem_alter]
      by_cases hp : v.partition = p <;> simp [hp]
    rw [List.foldl_cons, ih, hbook]
    simp only [List.mem_cons, exists_eq_or_imp]
    tauto

/-- Loads are told of the partitions that vertices are on. -/
theorem mem_busyLoads (g : Graph W) (cost : W) (p : PartitionId) :
    p ∈ g.busyLoads cost ↔ ∃ a, g.partitionOf? a = some p := by
  have hbook : g.busyLoads cost = g.vertices.toList.foldl (g.book cost) ∅ := by
    rw [busyLoads, ← Array.foldl_toList]
    rfl
  rw [hbook, mem_foldl_book]
  simp only [Std.ExtTreeMap.not_mem_empty, false_or, List.mem_iff_getElem?, Array.getElem?_toList,
    partitionOf?, vertex?, Option.map_eq_some_iff]
  constructor
  · rintro ⟨v, ⟨a, hv⟩, hp⟩
    exact ⟨a, v, hv, hp⟩
  · rintro ⟨a, v, hv, hp⟩
    exact ⟨v, ⟨a, hv⟩, hp⟩

end

section

variable {σ : Equiv.Perm VertexId} {g h : Graph ℚ}

namespace Renames

theorem weightOf_eq (hr : Renames σ g h) (a : VertexId) : h.weightOf (σ a) = g.weightOf a :=
  congrArg (·.getD 0) (hr.map_eq (fun _ _ hnote => congrArg (·.2.1) hnote) a)

theorem pull_eq (hr : Renames σ g h) (a b : VertexId) : h.pull (σ a) (σ b) = g.pull a b := by
  rw [pull, pull, hr.edge]

theorem isOn_iff (hr : Renames σ g h) (a : VertexId) (p : PartitionId) :
    h.isOn (σ a) p = true ↔ g.isOn a p = true := by
  rw [Graph.isOn_iff, Graph.isOn_iff, hr.partitionOf?_eq]

/-- A sum over all vertices. -/
theorem sum_eq (hr : Renames σ g h) {f f' : VertexId → ℚ}
    (hf : ∀ a < g.size, f' (σ a) = f a) :
    ∑ a ∈ Finset.range h.size, f' a = ∑ a ∈ Finset.range g.size, f a := by
  symm
  refine Finset.sum_equiv σ ?_ ?_
  · intro a
    rw [Finset.mem_range, Finset.mem_range, hr.lt_size_iff]
  · intro a ha
    exact (hf a (Finset.mem_range.mp ha)).symm

theorem mass_eq (hr : Renames σ g h) {m m' : VertexId → Prop} [DecidablePred m]
    [DecidablePred m'] (hm : ∀ a, m' (σ a) ↔ m a) : h.mass m' = g.mass m := by
  refine hr.sum_eq fun a _ => ?_
  simp only [hm, hr.weightOf_eq]

theorem cut_eq (hr : Renames σ g h) {m m' : VertexId → Prop} [DecidablePred m]
    [DecidablePred m'] (hm : ∀ a, m' (σ a) ↔ m a) : h.cut m' = g.cut m := by
  refine hr.sum_eq fun a _ => hr.sum_eq fun b _ => ?_
  simp only [hm, hr.pull_eq]

theorem loadOn_eq (hr : Renames σ g h) (hg : g.Sound) (hh : h.Sound) (cost : ℚ)
    (p : PartitionId) : h.loadOn cost p = g.loadOn cost p := by
  have hon : ∀ a, h.isOn (σ a) p = true ↔ g.isOn a p = true := fun a => hr.isOn_iff a p
  have hinside : (h.loadOn cost p).inside = (g.loadOn cost p).inside := by
    rw [inside_loadOn, inside_loadOn, hr.mass_eq hon]
  have hacross : (h.loadOn cost p).across = (g.loadOn cost p).across := by
    rw [across_loadOn hh, across_loadOn hg, hr.cut_eq hon]
  have hpartition : (h.loadOn cost p).partition = (g.loadOn cost p).partition := by
    rw [partition_loadOn, partition_loadOn]
  cases hload : h.loadOn cost p
  cases hload' : g.loadOn cost p
  simp_all

/-- The loads do not depend on how the vertices are numbered. -/
theorem busyLoads_eq (hr : Renames σ g h) (hg : g.Sound) (hh : h.Sound) (cost : ℚ) :
    h.busyLoads cost = g.busyLoads cost := by
  apply Std.ExtTreeMap.ext_getElem?
  intro p
  have hload : ((h.busyLoads cost)[p]?).getD (.idle p) =
      ((g.busyLoads cost)[p]?).getD (.idle p) := by
    rw [getD_busyLoads, getD_busyLoads, hr.loadOn_eq hg hh]
  have hmem : p ∈ h.busyLoads cost ↔ p ∈ g.busyLoads cost := by
    rw [mem_busyLoads, mem_busyLoads]
    constructor
    · rintro ⟨a, ha⟩
      refine ⟨σ.symm a, ?_⟩
      rw [← hr.partitionOf?_eq, Equiv.apply_symm_apply]
      exact ha
    · rintro ⟨a, ha⟩
      exact ⟨σ a, (hr.partitionOf?_eq a).trans ha⟩
  by_cases hp : p ∈ g.busyLoads cost
  · rw [Std.ExtTreeMap.getElem?_eq_some_getElem (hmem.mpr hp),
      Std.ExtTreeMap.getElem?_eq_some_getElem hp] at hload ⊢
    exact congrArg some hload
  · rw [Std.ExtTreeMap.getElem?_eq_none hp, Std.ExtTreeMap.getElem?_eq_none (mt hmem.mp hp)]

end Renames

end

/-! ## The hottest vertex -/

section

variable {W : Type} {g : Graph W} {a b : VertexId}

/-- The key of a vertex. -/
def nameOf (g : Graph W) (a : VertexId) : Key := (g.keyOf? a).getD default

theorem nameOf_of_vertex {v : Vertex W} (hv : g.vertex? a = some v) : g.nameOf a = v.key := by
  simp [nameOf, keyOf?, hv]

theorem Sound.nameOf_ne (hg : g.Sound) (ha : a < g.size) (hb : b < g.size) (hne : a ≠ b) :
    g.nameOf a ≠ g.nameOf b := by
  intro heq
  obtain ⟨v, hv⟩ := exists_vertex ha
  obtain ⟨u, hu⟩ := exists_vertex hb
  rw [nameOf_of_vertex hv, nameOf_of_vertex hu] at heq
  have hka : g.keyOf? a = some u.key := by simp [keyOf?, hv, heq]
  have hkb : g.keyOf? b = some u.key := by simp [keyOf?, hu]
  exact hne (Option.some.inj ((hg.idOf_of_key hka).symm.trans (hg.idOf_of_key hkb)))

variable [Weight W]

/-- What vertices are compared by: the weight, and the key. -/
def heat (g : Graph W) (a : VertexId) : W × Key :=
  (((g.vertex? a).map (·.weight)).getD 0, g.nameOf a)

theorem heat_of_vertex {v : Vertex W} (hv : g.vertex? a = some v) :
    g.heat a = (v.weight, v.key) := by
  rw [heat, hv, nameOf_of_vertex hv]
  rfl

theorem hotter_iff (ha : a < g.size) (hb : b < g.size) :
    g.hotter a b = true ↔ Precedes (· > ·) (g.heat a) (g.heat b) := by
  obtain ⟨v, hv⟩ := exists_vertex ha
  obtain ⟨u, hu⟩ := exists_vertex hb
  simp [hotter, Vertex.hotter, Precedes, hv, hu, heat_of_vertex hv, heat_of_vertex hu]

end

section

variable {σ : Equiv.Perm VertexId} {g h : Graph ℚ}

/-- Among the vertices of a partition there is a hottest one. -/
theorem Sound.decisive_hotter (hg : g.Sound) (p : PartitionId) :
    Decisive g.hotter (g.residents p) := by
  have hlt : ∀ a ∈ g.residents p, a < g.size :=
    fun a ha => lt_size_of_partition (mem_residents_iff.mp ha)
  refine ranking_gt.decisive g.heat (fun _ _ => Weight.isNumber_rat _) ?_ ?_
  · exact fun a ha b hb => hg.nameOf_ne (hlt a ha) (hlt b hb)
  · exact fun a ha b hb _ => hotter_iff (hlt a ha) (hlt b hb)

namespace Renames

theorem hotter_eq (hr : Renames σ g h) (a b : VertexId) :
    h.hotter (σ a) (σ b) = g.hotter a b := by
  have hrank := fun a => hr.map_eq (f := fun v => (v.weight, v.key))
    (fun _ _ hnote => by simp_all [Vertex.note]) a
  have ha := hrank a
  have hb := hrank b
  rw [hotter, hotter]
  cases hva : g.vertex? a <;> cases hva' : h.vertex? (σ a) <;> cases hvb : g.vertex? b <;>
    cases hvb' : h.vertex? (σ b) <;> simp_all [Vertex.hotter]

/-- The hottest vertex of a partition does not depend on how the vertices are numbered. -/
theorem hottest?_eq (hr : Renames σ g h) (hg : g.Sound) (p : PartitionId) :
    h.hottest? p = (g.hottest? p).map σ := by
  refine choose_image (hg.decisive_hotter p) σ ?_ fun a _ b _ _ => hr.hotter_eq a b
  intro b
  rw [mem_residents_iff]
  constructor
  · intro hb
    refine ⟨σ.symm b, ?_, σ.apply_symm_apply b⟩
    rw [mem_residents_iff, ← hr.partitionOf?_eq, Equiv.apply_symm_apply]
    exact hb
  · rintro ⟨a, ha, rfl⟩
    rw [hr.partitionOf?_eq]
    exact mem_residents_iff.mp ha

end Renames

end

end Graph

end Reshard
