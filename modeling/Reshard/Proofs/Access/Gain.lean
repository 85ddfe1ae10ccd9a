import Mathlib.Algebra.BigOperators.Group.Finset.Sigma
import Mathlib.Tactic.Linarith
import Reshard.Access.Clump
import Reshard.Proofs.Access.Loads
import Reshard.Proofs.Access.Moves

/-!
What a move does to the loads, and what a clump predicts of it. The gain of a clump is read off
the edges of its members alone, and `total_reassign` says that it is the change of the
destination's load, to which the edges of all vertices count.
-/

namespace Reshard

/-! ## Loads after a move -/

namespace Graph

theorem weightOf_reassign (g : Graph ℚ) (ids : List VertexId) (p : PartitionId) (a : VertexId) :
    (g.reassign ids p).weightOf a = g.weightOf a := by
  induction ids generalizing g with
  | nil => rfl
  | cons id rest ih =>
    rw [reassign_cons, ih, weightOf, place, vertex?_modify]
    split
    · cases h : g.vertex? a <;> simp [weightOf, h]
    · rfl

theorem pull_reassign (g : Graph ℚ) (ids : List VertexId) (p : PartitionId) (a b : VertexId) :
    (g.reassign ids p).pull a b = g.pull a b := by
  rw [pull, edge?_reassign, pull]

/-- The destination holds the moved vertices and what it held before. -/
theorem isOn_reassign_dest {g : Graph ℚ} {ids : List VertexId} {p : PartitionId} {a : VertexId}
    (ha : a < g.size) : (g.reassign ids p).isOn a p = true ↔ a ∈ ids ∨ g.isOn a p = true := by
  obtain ⟨v, hv⟩ := exists_vertex ha
  rw [isOn_iff, partitionOf?_reassign, isOn_iff]
  split
  · next h => simp [h, partitionOf?, hv]
  · next h => simp [h]

/-- A partition that takes no part in the move holds what it held before. -/
theorem isOn_reassign_other {g : Graph ℚ} {ids : List VertexId} {d p : PartitionId}
    (hd : p ≠ d) (hfree : ∀ id ∈ ids, g.partitionOf? id ≠ some p) (a : VertexId) :
    (g.reassign ids d).isOn a p = true ↔ g.isOn a p = true := by
  rw [isOn_iff, partitionOf?_reassign, isOn_iff]
  split
  · next h =>
    cases hq : g.partitionOf? a with
    | none => simp
    | some q =>
      have hne := hfree a h
      rw [hq] at hne
      simp_all [Ne.symm hd]
  · rfl

theorem mass_reassign (g : Graph ℚ) (ids : List VertexId) (p : PartitionId)
    (m : VertexId → Prop) [DecidablePred m] : (g.reassign ids p).mass m = g.mass m := by
  simp only [mass, size_reassign, weightOf_reassign]

theorem cut_reassign (g : Graph ℚ) (ids : List VertexId) (p : PartitionId)
    (m : VertexId → Prop) [DecidablePred m] : (g.reassign ids p).cut m = g.cut m := by
  simp only [cut, size_reassign, pull_reassign]

theorem mass_congr {g : Graph ℚ} {m m' : VertexId → Prop} [DecidablePred m] [DecidablePred m']
    (h : ∀ a < g.size, m a ↔ m' a) : g.mass m = g.mass m' := by
  apply Finset.sum_congr rfl
  intro a ha
  rw [Finset.mem_range] at ha
  simp only [h a ha]

theorem cut_congr {g : Graph ℚ} {m m' : VertexId → Prop} [DecidablePred m] [DecidablePred m']
    (h : ∀ a < g.size, m a ↔ m' a) : g.cut m = g.cut m' := by
  apply Finset.sum_congr rfl
  intro a ha
  apply Finset.sum_congr rfl
  intro b hb
  rw [Finset.mem_range] at ha hb
  simp only [h a ha, h b hb]

theorem loadOn_reassign_other {g : Graph ℚ} (hg : g.Sound) (cost : ℚ) {ids : List VertexId}
    {d p : PartitionId} (hd : p ≠ d) (hfree : ∀ id ∈ ids, g.partitionOf? id ≠ some p) :
    (g.reassign ids d).loadOn cost p = g.loadOn cost p := by
  have hsame : ∀ a < g.size, (g.reassign ids d).isOn a p = true ↔ g.isOn a p = true :=
    fun a _ => isOn_reassign_other hd hfree a
  have hinside : ((g.reassign ids d).loadOn cost p).inside = (g.loadOn cost p).inside := by
    rw [inside_loadOn, inside_loadOn, mass_reassign, mass_congr hsame]
  have hacross : ((g.reassign ids d).loadOn cost p).across = (g.loadOn cost p).across := by
    rw [across_loadOn (hg.reassign ids d), across_loadOn hg, cut_reassign, cut_congr hsame]
  cases h : (g.reassign ids d).loadOn cost p
  cases h' : g.loadOn cost p
  have hp := partition_loadOn (g.reassign ids d) cost p
  have hp' := partition_loadOn g cost p
  simp_all

/-! ## Boundaries -/

section

variable (g : Graph ℚ) (here moving : VertexId → Prop) [DecidablePred here]
  [DecidablePred moving]

/-- What `here` comes to weigh when the vertices of `moving` join it. -/
theorem mass_or : g.mass (fun a => moving a ∨ here a) =
    g.mass here + g.mass fun a => moving a ∧ ¬ here a := by
  rw [mass, mass, mass, ← Finset.sum_add_distrib]
  apply Finset.sum_congr rfl
  intro a _
  by_cases hm : moving a <;> by_cases hh : here a <;> simp [hm, hh]

/-- How the edge from `a` to `b` changes the boundary of `here`, seen from a vertex `a` that
joins it: one that crossed it no longer does, and one that leads to a vertex staying outside
comes to cross it. -/
def shift (a b : VertexId) : ℚ :=
  if moving a ∧ ¬ here a then
    if here b then - g.pull a b else if moving b then 0 else g.pull a b
  else 0

/-- The edges from `here` to vertices that join it. -/
def arriving (a b : VertexId) : ℚ :=
  if here a ∧ moving b ∧ ¬ here b then g.pull a b else 0

/-- The boundary changes by what is seen from the joining vertices alone. An edge that leads from
`here` to one of them was charged where it starts, and is taken off at its other end. -/
theorem cut_or (hsymm : ∀ a b, g.pull a b = g.pull b a) :
    g.cut (fun a => moving a ∨ here a) =
      g.cut here + ∑ a ∈ Finset.range g.size, ∑ b ∈ Finset.range g.size,
        g.shift here moving a b := by
  let s := Finset.range g.size
  have hswap : ∑ a ∈ s, ∑ b ∈ s, g.arriving here moving a b =
      ∑ a ∈ s, ∑ b ∈ s, g.arriving here moving b a := Finset.sum_comm
  -- Edge by edge the two sides differ by what is taken off at the other end; over all edges
  -- `hswap` brings the two ends together.
  have hedge : ∀ a b,
      (if (moving a ∨ here a) ∧ ¬ (moving b ∨ here b) then g.pull a b else 0) +
      g.arriving here moving a b =
        (if here a ∧ ¬ here b then g.pull a b else 0) + g.shift here moving a b +
          g.arriving here moving b a := by
    intro a b
    rw [shift, arriving, arriving, hsymm b a]
    by_cases hma : moving a <;> by_cases hha : here a <;> by_cases hmb : moving b <;>
      by_cases hhb : here b <;> simp [hma, hha, hmb, hhb]
  have hall : ∑ a ∈ s, ∑ b ∈ s,
      ((if (moving a ∨ here a) ∧ ¬ (moving b ∨ here b) then g.pull a b else 0) +
        g.arriving here moving a b) =
      ∑ a ∈ s, ∑ b ∈ s, ((if here a ∧ ¬ here b then g.pull a b else 0) +
        g.shift here moving a b + g.arriving here moving b a) :=
    Finset.sum_congr rfl fun a _ => Finset.sum_congr rfl fun b _ => hedge a b
  simp only [Finset.sum_add_distrib] at hall
  rw [cut, cut]
  linarith

end

theorem pull_symm {g : Graph ℚ} (hg : g.Sound) (a b : VertexId) : g.pull a b = g.pull b a := by
  rw [pull, pull, hg.edge_symm]

end Graph

/-! ## The gain of a clump -/

namespace Clump

open Reshard.Graph

variable (c : Clump ℚ) (g : Graph ℚ) (dest : PartitionId)

theorem sum_filterMap (ids : List VertexId) (f : Vertex ℚ → ℚ) :
    ((ids.filterMap g.vertex?).map f).sum =
      (ids.map fun a => ((g.vertex? a).map f).getD 0).sum := by
  induction ids with
  | nil => rfl
  | cons id rest ih => cases h : g.vertex? id <;> simp [h, ih]

/-- A sum over the members is one over all numbers. -/
theorem sum_members (f : Vertex ℚ → ℚ) :
    ((c.members.toList.filterMap g.vertex?).map f).sum =
      ∑ a ∈ Finset.range g.size,
        if a ∈ c.members then ((g.vertex? a).map f).getD 0 else 0 := by
  have hzero : ∀ a ∈ c.members.toList, g.size ≤ a → ((g.vertex? a).map f).getD 0 = 0 := by
    intro a _ ha
    rw [vertex?_eq_none_iff.mpr ha]
    rfl
  rw [sum_filterMap, Exact.sum_of_nodup (Collections.nodup_toList _) hzero]
  simp only [Std.ExtTreeSet.mem_toList]

/-- The change that one tie makes to the boundary of `dest`. -/
def tieChange (t : Tie ℚ) : ℚ := Profile.boundaryChange dest 0 t

theorem boundaryChange_eq_add (total : ℚ) (t : Tie ℚ) :
    Profile.boundaryChange dest total t = total + tieChange dest t := by
  unfold tieChange Profile.boundaryChange
  split
  · simp
  · split
    · ring
    · split
      · simp
      · ring

/-- The change that the edge to `b` makes when its end on `source` comes to `dest`. -/
def edgeChange (source : PartitionId) (b : VertexId) (w : ℚ) : ℚ :=
  ((g.partitionOf? b).map fun target =>
    tieChange dest ⟨source, target, c.members.contains b, w⟩).getD 0

theorem sum_tiesOf (v : Vertex ℚ) (rest : List (Tie ℚ)) :
    ((c.tiesOf g v rest).map (tieChange dest)).sum =
      (v.edges.toList.map fun e => c.edgeChange g dest v.partition e.1 e.2).sum +
        (rest.map (tieChange dest)).sum := by
  rw [tiesOf, Std.ExtTreeMap.foldr_eq_foldr_toList]
  induction v.edges.toList with
  | nil => simp
  | cons e others ih =>
    rw [List.foldr_cons, List.map_cons, List.sum_cons, add_assoc, ← ih, edgeChange]
    cases g.partitionOf? e.1 <;> simp

theorem sum_ties (vs : List (Vertex ℚ)) :
    ((vs.foldr (c.tiesOf g) []).map (tieChange dest)).sum =
      (vs.map fun v =>
        (v.edges.toList.map fun e => c.edgeChange g dest v.partition e.1 e.2).sum).sum := by
  induction vs with
  | nil => rfl
  | cons v rest ih => rw [List.foldr_cons, sum_tiesOf, ih, List.map_cons, List.sum_cons]

/-- Seen from a member, an edge changes the boundary as `shift` says. -/
theorem edgeChange_eq_shift {a b : VertexId} {v : Vertex ℚ} (hv : g.vertex? a = some v)
    (ha : a ∈ c.members) (hb : b < g.size) :
    c.edgeChange g dest v.partition b (g.pull a b) =
      g.shift (fun i => g.isOn i dest) (· ∈ c.members) a b := by
  obtain ⟨neighbour, hneighbour⟩ := exists_vertex hb
  have hon := isOn_of_vertex hv dest
  have hon' := isOn_of_vertex hneighbour dest
  simp only [edgeChange, partitionOf?, hneighbour, Option.map_some, Option.getD_some, tieChange,
    Profile.boundaryChange, shift, hon, hon', ha, Std.ExtTreeSet.contains_iff_mem]
  by_cases hs : v.partition = dest <;> by_cases ht : neighbour.partition = dest <;> simp [hs, ht]

theorem weight_members :
    Weight.sum ((((c.profile g).members).filter (·.1 ≠ dest)).map (·.2)) =
      g.mass fun a => a ∈ c.members ∧ ¬ g.isOn a dest := by
  have hsum : ∀ ws : List ℚ, Weight.sum ws = ws.sum := by
    intro ws
    rw [Weight.sum, Exact.foldl_add (fun w => w), List.map_id']
    exact zero_add _
  rw [hsum, sum_map_filter, profile, List.map_map]
  refine (c.sum_members g _).trans ?_
  apply Finset.sum_congr rfl
  intro a ha
  obtain ⟨v, hv⟩ := exists_vertex (Finset.mem_range.mp ha)
  have hon := isOn_of_vertex hv dest
  simp only [hv, weightOf, Option.map_some, Option.getD_some, Function.comp_apply, hon]
  by_cases hm : a ∈ c.members <;> by_cases hd : v.partition = dest <;>
    simp [hm, hd]

theorem foldl_boundaryChange {g : Graph ℚ} (hg : g.Sound) :
    (c.profile g).ties.foldl (Profile.boundaryChange dest) 0 =
      ∑ a ∈ Finset.range g.size, ∑ b ∈ Finset.range g.size,
        g.shift (fun i => g.isOn i dest) (· ∈ c.members) a b := by
  have hadd : Profile.boundaryChange dest = fun total t => total + tieChange dest t := by
    funext total t
    exact boundaryChange_eq_add dest total t
  rw [hadd, Exact.foldl_add, zero_add]
  refine (c.sum_ties g dest _).trans ((c.sum_members g _).trans ?_)
  apply Finset.sum_congr rfl
  intro a ha
  obtain ⟨v, hv⟩ := exists_vertex (Finset.mem_range.mp ha)
  split
  · next hm =>
    have hzero : ∀ b, c.edgeChange g dest v.partition b 0 = 0 := by
      intro b
      cases h : g.partitionOf? b <;> simp [edgeChange, h, tieChange, Profile.boundaryChange]
    rw [hv, Option.map_some, Option.getD_some,
      sum_edges hg hv (c.edgeChange g dest v.partition) hzero]
    apply Finset.sum_congr rfl
    intro b hb
    rw [Finset.mem_range] at hb
    exact c.edgeChange_eq_shift g dest hv hm hb
  · next hm => simp [shift, hm]

theorem receiveDelta_eq {g : Graph ℚ} (hg : g.Sound) (cost : ℚ) :
    c.receiveDelta g dest cost =
      (g.mass fun a => a ∈ c.members ∧ ¬ g.isOn a dest) +
        cost * ∑ a ∈ Finset.range g.size, ∑ b ∈ Finset.range g.size,
          g.shift (fun i => g.isOn i dest) (· ∈ c.members) a b := by
  rw [receiveDelta, Profile.gain, weight_members, foldl_boundaryChange c dest hg]

/-- The destination's load after the move is the one before and the gain. -/
theorem total_reassign {g : Graph ℚ} (hg : g.Sound) (cost : ℚ) :
    ((g.reassign c.members.toList dest).loadOn cost dest).total =
      (g.loadOn cost dest).total + c.receiveDelta g dest cost := by
  have hjoined : ∀ a < g.size, (g.reassign c.members.toList dest).isOn a dest = true ↔
      (a ∈ c.members ∨ g.isOn a dest = true) := by
    intro a ha
    rw [isOn_reassign_dest ha, Std.ExtTreeSet.mem_toList]
  rw [total_loadOn (hg.reassign _ _), total_loadOn hg, mass_reassign, cut_reassign,
    mass_congr hjoined, cut_congr hjoined, mass_or, cut_or _ _ _ (pull_symm hg),
    receiveDelta_eq c dest hg]
  ring

/-- Moving a clump changes the load of its destination by what the clump predicts, and no load
of a partition that takes no part in the move. -/
theorem loads_reassign {g : Graph ℚ} (hg : g.Reachable) (c : Clump ℚ) (cost : ℚ) {n : Nat}
    {dest : PartitionId} (hd : dest < n) :
    (∃ before after : Load ℚ,
      (g.loads n cost)[dest]? = some before ∧ before.partition = dest ∧
      ((g.reassign c.members.toList dest).loads n cost)[dest]? = some after ∧
      after.partition = dest ∧
      after.total = before.total + c.receiveDelta g dest cost) ∧
    ∀ p < n, p ≠ dest → (∀ id ∈ c.members, g.partitionOf? id ≠ some p) →
      ((g.reassign c.members.toList dest).loads n cost)[p]? = (g.loads n cost)[p]? := by
  have hsound := sound_of_reachable hg
  constructor
  · refine ⟨g.loadOn cost dest, (g.reassign c.members.toList dest).loadOn cost dest, ?_⟩
    refine ⟨g.getElem?_loads cost hd, partition_loadOn g cost dest, ?_⟩
    refine ⟨getElem?_loads _ cost hd, partition_loadOn _ cost dest, ?_⟩
    exact c.total_reassign dest hsound cost
  · intro p hp hne hfree
    have hfree' : ∀ id ∈ c.members.toList, g.partitionOf? id ≠ some p := by
      intro id hid
      exact hfree id (Std.ExtTreeSet.mem_toList.mp hid)
    rw [getElem?_loads _ cost hp, getElem?_loads _ cost hp,
      loadOn_reassign_other hsound cost hne hfree']

/-- Three records on the partitions 0, 0 and 1, where the second was accessed together with
each of the others. -/
def chain : Except Failure (Graph ℚ) := do
  let g := ((∅ : Graph ℚ).access ⟨"", 0⟩ 0).1
  let g := (g.access ⟨"", 1⟩ 0).1
  let g ← (g.access ⟨"", 2⟩ 1).1.coAccess [⟨"", 0⟩, ⟨"", 1⟩]
  g.coAccess [⟨"", 1⟩, ⟨"", 2⟩]

theorem reachable_chain {g : Graph ℚ} (h : chain = .ok g) : g.Reachable := by
  unfold chain at h
  simp only [bind, Except.bind] at h
  split at h
  · nomatch h
  · next first hfirst =>
    refine .coAccess _ (.coAccess _ ?_ hfirst) h
    exact .access _ _ (.access _ _ (.access _ _ .empty))

/-- The record in the middle of the chain. -/
def middle : Clump ℚ := ⟨.ofList [1], ∅, 1⟩

/-- The middle of the chain loads partition 1 with its own access alone: it brings a new edge
across, and keeps another one from crossing. -/
theorem loads_reassign_chain : ∃ g, chain = .ok g ∧ middle.receiveDelta g 1 1 = 1 ∧
    (∃ before after : Load ℚ,
      (g.loads 3 1)[1]? = some before ∧ before.partition = 1 ∧
      ((g.reassign middle.members.toList 1).loads 3 1)[1]? = some after ∧
      after.partition = 1 ∧
      after.total = before.total + middle.receiveDelta g 1 1) ∧
    ∀ p < 3, p ≠ 1 → (∀ id ∈ middle.members, g.partitionOf? id ≠ some p) →
      ((g.reassign middle.members.toList 1).loads 3 1)[p]? = (g.loads 3 1)[p]? := by
  have hgain : (chain.toOption.map fun g => middle.receiveDelta g 1 1) = some 1 := by
    decide +kernel
  cases h : chain with
  | error e =>
    rw [h] at hgain
    nomatch hgain
  | ok g =>
    rw [h] at hgain
    refine ⟨g, rfl, Option.some.inj hgain, ?_⟩
    exact loads_reassign (reachable_chain h) middle 1 (by decide)

end Clump

end Reshard
