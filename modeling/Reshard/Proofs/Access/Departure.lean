import Mathlib.Algebra.Order.BigOperators.Group.Finset
import Reshard.Proofs.Access.Counting
import Reshard.Proofs.Access.Gain

/-!
What a move does to the load of a partition that vertices leave. They take their weight with them
and the edges that they had across the boundary already, and leave behind the edges to what stays:
these come to cross the boundary (`total_reassign_source`). As accesses and co-accesses are counted,
weights are positive and no edge has a negative one (`weighed_of_reachable`).
-/

namespace Reshard

namespace Graph

/-! ## Weights that were counted -/

structure Weighed (g : Graph ℚ) : Prop where
  weight_pos : ∀ a < g.size, 0 < g.weightOf a
  pull_nonneg : ∀ a b, 0 ≤ g.pull a b

theorem getD_tally_nonneg (n : Nat) : 0 ≤ (tally n).getD 0 := by
  rw [tally]
  split
  · exact le_rfl
  · exact Nat.cast_nonneg n

theorem Tallies.weighed {g : Graph ℚ} {n : Key → Nat} {m : Key → Key → Nat}
    (hg : g.Tallies n m) : g.Weighed where
  weight_pos := by
    intro a ha
    obtain ⟨v, hv⟩ := exists_vertex ha
    have hweight := hg.weight hv
    have hpos : 0 < n v.key := by
      rw [Nat.pos_iff_ne_zero, ne_eq, ← tally_eq_none_iff, ← hweight]
      exact Option.some_ne_none _
    rw [weightOf, hv, Option.map_some, Option.getD_some, eq_of_tally hweight]
    exact Nat.cast_pos.mpr hpos
  pull_nonneg := by
    intro a b
    by_cases hadj : g.Adjacent a b
    · obtain ⟨w, hw⟩ := Option.ne_none_iff_exists'.mp hadj
      obtain ⟨w', hw'⟩ := Option.ne_none_iff_exists'.mp (hg.sound.adjacent_comm.mp hadj)
      obtain ⟨va, hva⟩ := exists_vertex (hg.sound.edge_lt hw')
      obtain ⟨vb, hvb⟩ := exists_vertex (hg.sound.edge_lt hw)
      have ha := hg.sound.idOf?_eq_some_iff.mpr ⟨va, hva, rfl⟩
      have hb := hg.sound.idOf?_eq_some_iff.mpr ⟨vb, hvb, rfl⟩
      have hne : vb.key ≠ va.key := by
        intro heq
        rw [heq, ha, Option.some.injEq] at hb
        rw [hb, hg.sound.edge_irrefl] at hw
        cases hw
      rw [pull, hg.edge hne ha hb]
      exact getD_tally_nonneg _
    · rw [pull_eq_zero hadj]

theorem weighed_of_reachable {g : Graph ℚ} (hg : g.Reachable) : g.Weighed := by
  obtain ⟨acts, rfl⟩ := exists_run hg
  exact (tallies_run acts).weighed

theorem Weighed.reassign {g : Graph ℚ} (hg : g.Weighed) (ids : List VertexId) (p : PartitionId) :
    (g.reassign ids p).Weighed where
  weight_pos := by
    intro a ha
    rw [size_reassign] at ha
    rw [weightOf_reassign]
    exact hg.weight_pos a ha
  pull_nonneg a b := by
    rw [pull_reassign]
    exact hg.pull_nonneg a b

/-! ## Edges between two sets -/

section

variable {g : Graph ℚ} {m m' : VertexId → Prop} [DecidablePred m] [DecidablePred m']

theorem Weighed.mass_pos (hg : g.Weighed) (h : ∃ a < g.size, m a) : 0 < g.mass m := by
  obtain ⟨a, ha, hm⟩ := h
  apply Finset.sum_pos'
  · intro b hb
    split
    · exact (hg.weight_pos b (Finset.mem_range.mp hb)).le
    · exact le_rfl
  · refine ⟨a, Finset.mem_range.mpr ha, ?_⟩
    rw [if_pos hm]
    exact hg.weight_pos a ha

/-- The weight of the edges that lead from `m` to `m'`. -/
def between (g : Graph ℚ) (m m' : VertexId → Prop) [DecidablePred m] [DecidablePred m'] : ℚ :=
  ∑ a ∈ Finset.range g.size, ∑ b ∈ Finset.range g.size,
    if m a ∧ m' b then g.pull a b else 0

theorem Weighed.between_nonneg (hg : g.Weighed) : 0 ≤ g.between m m' := by
  apply Finset.sum_nonneg
  intro a _
  apply Finset.sum_nonneg
  intro b _
  split
  · exact hg.pull_nonneg a b
  · exact le_rfl

theorem between_eq_zero (h : ∀ a b, m a → m' b → ¬ g.Adjacent a b) : g.between m m' = 0 := by
  apply Finset.sum_eq_zero
  intro a _
  apply Finset.sum_eq_zero
  intro b _
  split
  · next hab => exact pull_eq_zero (h a b hab.1 hab.2)
  · rfl

variable (m m') in
theorem between_comm (hg : g.Sound) : g.between m m' = g.between m' m := by
  rw [between, between, Finset.sum_comm]
  simp only [pull_symm hg, and_comm]

end

end Graph

namespace Clump

open Reshard.Graph

variable (c : Clump ℚ) (g : Graph ℚ) (source : PartitionId)

/-! ## What leaves and what stays -/

/-- A member on `source`. -/
def Leaves (a : VertexId) : Prop := g.isOn a source = true ∧ a ∈ c.members

/-- A vertex on `source` that is no member. -/
def Stays (a : VertexId) : Prop := g.isOn a source = true ∧ a ∉ c.members

/-- A vertex that is not on `source`. -/
def Beyond (a : VertexId) : Prop := ¬ g.isOn a source = true

instance : DecidablePred (c.Leaves g source) := fun _ => inferInstanceAs (Decidable (_ ∧ _))

instance : DecidablePred (c.Stays g source) := fun _ => inferInstanceAs (Decidable (_ ∧ _))

instance : DecidablePred (Beyond g source) := fun _ => inferInstanceAs (Decidable (¬ _))

/-- What the leaving vertices weigh. -/
def taken : ℚ := g.mass (c.Leaves g source)

/-- The weight of the edges between what leaves and what stays. -/
def torn : ℚ := g.between (c.Leaves g source) (c.Stays g source)

/-- The weight of the edges of what leaves that cross the boundary of `source` already. -/
def freed : ℚ := g.between (c.Leaves g source) (Beyond g source)

theorem mass_stays : g.mass (c.Stays g source) =
    (g.mass fun a => g.isOn a source) - c.taken g source := by
  rw [taken, mass, mass, mass, ← Finset.sum_sub_distrib]
  apply Finset.sum_congr rfl
  intro a _
  by_cases hon : g.isOn a source = true <;> by_cases hm : a ∈ c.members <;>
    simp [Stays, Leaves, hon, hm]

/-- The boundary of what stays is the one there was, without the edges of what leaves across it, and
with the edges between the two. -/
theorem cut_stays (hg : g.Sound) : g.cut (c.Stays g source) =
    (g.cut fun a => g.isOn a source) - c.freed g source + c.torn g source := by
  -- What stays is cut from its own side, so that the torn edges are looked at from there, too.
  rw [freed, torn, between_comm (c.Leaves g source) (c.Stays g source) hg]
  simp only [cut, between, ← Finset.sum_sub_distrib, ← Finset.sum_add_distrib]
  refine Finset.sum_congr rfl fun a _ => Finset.sum_congr rfl fun b _ => ?_
  by_cases ha : g.isOn a source = true <;> by_cases hma : a ∈ c.members <;>
    by_cases hb : g.isOn b source = true <;> by_cases hmb : b ∈ c.members <;>
    simp [Stays, Leaves, Beyond, ha, hma, hb, hmb]

/-! ## The load that is left -/

variable {c g source}

/-- What stays is what the partition holds after the move. -/
theorem isOn_reassign_source {dest : PartitionId} (hne : dest ≠ source) (a : VertexId) :
    (g.reassign c.members.toList dest).isOn a source = true ↔ c.Stays g source a := by
  rw [isOn_iff, partitionOf?_reassign, Stays, isOn_iff]
  simp only [Std.ExtTreeSet.mem_toList]
  split
  · next hm => simp [hm, hne]
  · next hm => simp [hm]

theorem inside_reassign_source {dest : PartitionId} (hne : dest ≠ source) (cost : ℚ) :
    ((g.reassign c.members.toList dest).loadOn cost source).inside =
      (g.loadOn cost source).inside - c.taken g source := by
  rw [inside_loadOn, inside_loadOn, mass_reassign,
    mass_congr fun a _ => isOn_reassign_source hne a, mass_stays]

theorem total_reassign_source (hg : g.Sound) {dest : PartitionId} (hne : dest ≠ source)
    (cost : ℚ) :
    ((g.reassign c.members.toList dest).loadOn cost source).total =
      (g.loadOn cost source).total - c.taken g source +
        cost * (c.torn g source - c.freed g source) := by
  rw [total_loadOn (hg.reassign _ _), total_loadOn hg, mass_reassign, cut_reassign,
    mass_congr fun a _ => isOn_reassign_source hne a,
    cut_congr fun a _ => isOn_reassign_source hne a, mass_stays, cut_stays c g source hg]
  ring

end Clump

end Reshard
