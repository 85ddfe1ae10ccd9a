import Reshard.Proofs.Exact
import Reshard.Proofs.Access.Sound

/-!
Loads as sums over the vertices. In exact arithmetic the load of a partition is what its vertices
weigh and what the edges across its boundary weigh (`total_loadOn`), in whatever order they are
added up.
-/

namespace Reshard

namespace Graph

section

variable {W : Type} [Weight W]

/-- The load of one partition: its vertices are charged in the order of their numbers. -/
def loadOn (g : Graph W) (cost : W) (p : PartitionId) : Load W :=
  (g.vertices.toList.filter (·.partition = p)).foldl (g.charge cost) (.idle p)

/-- Counts a vertex in the load of its partition. -/
def book (g : Graph W) (cost : W) (busy : Std.ExtTreeMap PartitionId (Load W)) (v : Vertex W) :
    Std.ExtTreeMap PartitionId (Load W) :=
  busy.alter v.partition fun l => some (g.charge cost (l.getD (.idle v.partition)) v)

theorem getD_foldl_book (g : Graph W) (cost : W) (p : PartitionId) (vs : List (Vertex W))
    (busy : Std.ExtTreeMap PartitionId (Load W)) :
    ((vs.foldl (g.book cost) busy)[p]?).getD (.idle p) =
      (vs.filter (·.partition = p)).foldl (g.charge cost) ((busy[p]?).getD (.idle p)) := by
  induction vs generalizing busy with
  | nil => rfl
  | cons v rest ih =>
    rw [List.foldl_cons, ih, book, Std.ExtTreeMap.getElem?_alter]
    by_cases h : v.partition = p
    · simp [h]
    · simp [h]

theorem getD_busyLoads (g : Graph W) (cost : W) (p : PartitionId) :
    (((g.busyLoads cost)[p]?).getD (.idle p)) = g.loadOn cost p := by
  have hbook : g.busyLoads cost = g.vertices.toList.foldl (g.book cost) ∅ := by
    rw [busyLoads, ← Array.foldl_toList]
    rfl
  rw [hbook, getD_foldl_book, loadOn, Std.ExtTreeMap.getElem?_empty]
  rfl

theorem getElem?_loads (g : Graph W) {n : Nat} (cost : W) {p : PartitionId} (h : p < n) :
    (g.loads n cost)[p]? = some (g.loadOn cost p) := by
  simp only [loads, List.getElem?_map, List.getElem?_range h, Option.map_some, getD_busyLoads]

theorem partition_foldl_charge (g : Graph W) (cost : W) (vs : List (Vertex W)) (l : Load W) :
    (vs.foldl (g.charge cost) l).partition = l.partition := by
  induction vs generalizing l with
  | nil => rfl
  | cons v rest ih => rw [List.foldl_cons, ih]; rfl

theorem partition_loadOn (g : Graph W) (cost : W) (p : PartitionId) :
    (g.loadOn cost p).partition = p := by
  rw [loadOn, partition_foldl_charge]
  rfl

/-- Loads are kept under the numbers of their partitions. -/
theorem partition_of_busyLoads {g : Graph W} {cost : W} {p : PartitionId} {l : Load W}
    (h : (g.busyLoads cost)[p]? = some l) : l.partition = p := by
  have hload := getD_busyLoads g cost p
  rw [h, Option.getD_some] at hload
  rw [hload, partition_loadOn]

end

/-! ## Loads in exact arithmetic -/

def weightOf (g : Graph ℚ) (a : VertexId) : ℚ := ((g.vertex? a).map (·.weight)).getD 0

/-- The weight of the edge between two vertices, zero if there is none. -/
def pull (g : Graph ℚ) (a b : VertexId) : ℚ := (g.edge? a b).getD 0

/-- What the vertices with the property `m` weigh. -/
def mass (g : Graph ℚ) (m : VertexId → Prop) [DecidablePred m] : ℚ :=
  ∑ a ∈ Finset.range g.size, if m a then g.weightOf a else 0

/-- The weight of the edges that lead from inside `m` to outside. -/
def cut (g : Graph ℚ) (m : VertexId → Prop) [DecidablePred m] : ℚ :=
  ∑ a ∈ Finset.range g.size, ∑ b ∈ Finset.range g.size,
    if m a ∧ ¬ m b then g.pull a b else 0

theorem foldl_charge (g : Graph ℚ) (cost : ℚ) (vs : List (Vertex ℚ)) (l : Load ℚ) :
    (vs.foldl (g.charge cost) l).inside = l.inside + (vs.map (·.weight)).sum ∧
    (vs.foldl (g.charge cost) l).across = l.across + (vs.map fun v =>
      (v.edges.toList.map fun e => if g.isOn e.1 v.partition then 0 else e.2 * cost).sum).sum := by
  induction vs generalizing l with
  | nil => simp
  | cons v rest ih =>
    have hinside : (g.charge cost l v).inside = l.inside + v.weight := rfl
    have hstep : (fun (across : ℚ) (e : VertexId × ℚ) =>
        if g.isOn e.1 v.partition then across else across + e.2 * cost) =
        fun across e => across + if g.isOn e.1 v.partition then 0 else e.2 * cost := by
      funext across e
      split <;> simp
    have hacross : (g.charge cost l v).across = l.across +
        (v.edges.toList.map fun e =>
          if g.isOn e.1 v.partition then 0 else e.2 * cost).sum := by
      rw [← Exact.foldl_add, ← hstep]
      exact Std.ExtTreeMap.foldl_eq_foldl_toList
    rw [List.foldl_cons, (ih _).1, (ih _).2, hinside, hacross]
    simp only [List.map_cons, List.sum_cons]
    constructor <;> ring

theorem sum_map_filter {α : Type} (keep : α → Bool) (f : α → ℚ) (l : List α) :
    ((l.filter keep).map f).sum = (l.map fun x => if keep x then f x else 0).sum := by
  induction l with
  | nil => rfl
  | cons x rest ih =>
    rw [List.filter_cons]
    split <;> simp_all

/-- An edge of `v` to a vertex elsewhere costs its weight. -/
def crossing (g : Graph ℚ) (cost : ℚ) (v : Vertex ℚ) : ℚ :=
  (v.edges.toList.map fun e => if g.isOn e.1 v.partition then 0 else e.2 * cost).sum

theorem isOn_of_vertex {g : Graph ℚ} {a : VertexId} {v : Vertex ℚ} (h : g.vertex? a = some v)
    (p : PartitionId) : g.isOn a p = true ↔ v.partition = p := by
  simp [isOn_iff, partitionOf?, h]

theorem pull_of_vertex {g : Graph ℚ} {a : VertexId} {v : Vertex ℚ} (h : g.vertex? a = some v)
    (b : VertexId) : g.pull a b = (v.edges[b]?).getD 0 := by
  rw [pull, edge?, edgesOf_of_vertex h]

theorem pull_eq_zero {g : Graph ℚ} {a b : VertexId} (h : ¬ g.Adjacent a b) : g.pull a b = 0 := by
  rw [pull, not_not.mp h, Option.getD_none]

/-- A sum over the edges of a vertex is one over all vertices. -/
theorem sum_edges {g : Graph ℚ} (hg : g.Sound) {a : VertexId} {v : Vertex ℚ}
    (h : g.vertex? a = some v) (f : VertexId → ℚ → ℚ) (hf : ∀ b, f b 0 = 0) :
    (v.edges.toList.map fun e => f e.1 e.2).sum =
      ∑ b ∈ Finset.range g.size, f b (g.pull a b) := by
  have hlt : ∀ b w, v.edges[b]? = some w → b < g.size := by
    intro b w hb
    apply hg.edge_lt (a := a) (w := w)
    rw [edge?, edgesOf_of_vertex h, hb]
  rw [Exact.sum_toList v.edges hlt]
  apply Finset.sum_congr rfl
  intro b _
  rw [pull_of_vertex h]
  cases v.edges[b]? with
  | none => exact (hf b).symm
  | some w => rfl

/-- A sum over the vertices of one partition is one over all numbers. -/
theorem sum_residents (g : Graph ℚ) (p : PartitionId) (f : Vertex ℚ → ℚ) :
    ((g.vertices.toList.filter (·.partition = p)).map f).sum =
      ∑ a ∈ Finset.range g.size, if g.isOn a p then ((g.vertex? a).map f).getD 0 else 0 := by
  rw [sum_map_filter, Exact.sum_eq_sum_range]
  apply Finset.sum_congr rfl
  intro a ha
  obtain ⟨v, hv⟩ := exists_vertex (Finset.mem_range.mp ha)
  have hon := isOn_of_vertex hv p
  simp only [Array.getElem?_toList, decide_eq_true_eq, hon]
  rw [← vertex?, hv]
  rfl

theorem inside_loadOn (g : Graph ℚ) (cost : ℚ) (p : PartitionId) :
    (g.loadOn cost p).inside = g.mass fun a => g.isOn a p := by
  have hfold := (g.foldl_charge cost (g.vertices.toList.filter (·.partition = p)) (.idle p)).1
  have hidle : (Load.idle p : Load ℚ).inside = 0 := rfl
  rw [loadOn, hfold, hidle, zero_add, sum_residents]
  rfl

theorem across_loadOn {g : Graph ℚ} (hg : g.Sound) (cost : ℚ) (p : PartitionId) :
    (g.loadOn cost p).across = (g.cut fun a => g.isOn a p) * cost := by
  have hfold := (g.foldl_charge cost (g.vertices.toList.filter (·.partition = p)) (.idle p)).2
  have hidle : (Load.idle p : Load ℚ).across = 0 := rfl
  have hrow : ∀ a ∈ Finset.range g.size,
      (if g.isOn a p then ((g.vertex? a).map (g.crossing cost)).getD 0 else 0) =
        ∑ b ∈ Finset.range g.size,
          (if g.isOn a p ∧ ¬ g.isOn b p then g.pull a b else 0) * cost := by
    intro a ha
    obtain ⟨v, hv⟩ := exists_vertex (Finset.mem_range.mp ha)
    by_cases hon : g.isOn a p
    · have hp : v.partition = p := (isOn_of_vertex hv p).mp hon
      rw [if_pos hon, hv, Option.map_some, Option.getD_some, crossing, hp,
        sum_edges hg hv (fun b w => if g.isOn b p then 0 else w * cost) (by simp)]
      apply Finset.sum_congr rfl
      intro b _
      by_cases hb : g.isOn b p <;> simp [hon, hb]
    · simp [hon]
  rw [loadOn, hfold, hidle, zero_add]
  calc
    _ = ∑ a ∈ Finset.range g.size,
        if g.isOn a p then ((g.vertex? a).map (g.crossing cost)).getD 0 else 0 :=
      sum_residents g p (g.crossing cost)
    _ = _ := Finset.sum_congr rfl hrow
    _ = _ := by simp only [cut, Finset.sum_mul]

theorem total_loadOn {g : Graph ℚ} (hg : g.Sound) (cost : ℚ) (p : PartitionId) :
    (g.loadOn cost p).total =
      (g.mass fun a => g.isOn a p) + (g.cut fun a => g.isOn a p) * cost := by
  rw [Load.total, inside_loadOn, across_loadOn hg]

end Graph

end Reshard
