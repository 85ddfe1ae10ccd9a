import Reshard.Proofs.Ordered
import Reshard.Proofs.Access.Counting
import Reshard.Proofs.Access.Expansion

/-!
Weights that come from counting are numbers, and none is negative. It is so for the vertices and the
edges of every graph (`nonneg_of_reachable`), and for the frontier of every clump that grows in one
(`Reachable.nonneg`), even if the graph changes meanwhile.
-/

namespace Reshard

open Weight

/-! ## Sums in maps -/

/-- No weight in the map is negative. -/
def NonnegMap {W : Type} [Weight W] (m : Std.ExtTreeMap VertexId W) : Prop :=
  ∀ (a : VertexId) (w : W), m[a]? = some w → 0 ≤ w

section

variable {W : Type} [Weight W]

theorem nonnegMap_empty : NonnegMap (∅ : Std.ExtTreeMap VertexId W) := by
  intro a w hw
  simp at hw

variable [Weight.Ordered W]

theorem NonnegMap.getD {m : Std.ExtTreeMap VertexId W} (hm : NonnegMap m) (a : VertexId) :
    (0 : W) ≤ (m[a]?).getD 0 := by
  cases hw : m[a]? with
  | none => exact zero_le_zero
  | some w => exact hm a w hw

/-- A weight is added to one of the map. -/
theorem NonnegMap.add {m : Std.ExtTreeMap VertexId W} (hm : NonnegMap m) (a : VertexId) {w : W}
    (hw : 0 ≤ w) : NonnegMap (m.alter a fun old => some (old.getD 0 + w)) := by
  intro b w' hw'
  rw [Std.ExtTreeMap.getElem?_alter] at hw'
  split at hw'
  · cases hw'
    exact Ordered.add_nonneg (hm.getD a) hw
  · exact hm b w' hw'

end

/-! ## Graphs -/

structure Vertex.Counted {W : Type} [Weight W] (v : Vertex W) : Prop where
  weight : 0 ≤ v.weight
  edges : NonnegMap v.edges

namespace Graph

variable {W : Type} [Weight W] {g h : Graph W}

/-- All vertices and edges of the graph have been counted. -/
def Nonneg (g : Graph W) : Prop := ∀ id v, g.vertex? id = some v → v.Counted

theorem Nonneg.modify (hg : g.Nonneg) (id : VertexId) {f : Vertex W → Vertex W}
    (hf : ∀ v, v.Counted → (f v).Counted) : (g.modify id f).Nonneg := by
  intro a v hv
  rw [vertex?_modify] at hv
  split at hv
  · obtain ⟨u, hu, rfl⟩ := Option.map_eq_some_iff.mp hv
    exact hf u (hg a u hu)
  · exact hg a v hv

section

variable [Weight.Ordered W]

theorem Nonneg.access (hg : g.Nonneg) (k : Key) (p : PartitionId) : (g.access k p).1.Nonneg := by
  cases hid : g.idOf? k with
  | none =>
    rw [access_of_new hid]
    intro a v hv
    rw [vertex?, Graph.extend, Array.getElem?_push] at hv
    split at hv
    · cases hv
      exact ⟨add_one_nonneg zero_le_zero, nonnegMap_empty⟩
    · exact hg a v hv
  | some id =>
    rw [access_of_known hid]
    exact hg.modify id fun v hv => ⟨add_one_nonneg hv.weight, hv.edges⟩

theorem counted_addEdges {v : Vertex W} (hv : v.Counted) (neighbours : List VertexId) :
    (v.addEdges neighbours).Counted := by
  induction neighbours generalizing v with
  | nil => exact hv
  | cons id rest ih => exact ih ⟨hv.weight, hv.edges.add id Ordered.zero_le_one⟩

theorem Nonneg.coAccess (hg : g.Nonneg) {ks : List Key} (hk : g.coAccess ks = .ok h) :
    h.Nonneg := by
  obtain ⟨ids, -, hlink⟩ := Outcome.bind_eq_ok.mp hk
  cases hlink
  rw [link_eq_foldl]
  exact List.foldlRecOn _ _ hg fun g hg id _ => hg.modify id fun v hv => counted_addEdges hv _

/-- Counting never leads below zero. -/
theorem nonneg_of_reachable (h : g.Reachable) : g.Nonneg := by
  induction h with
  | empty =>
    intro id v hv
    rw [vertex?_eq_none_iff.mpr (Nat.zero_le id)] at hv
    nomatch hv
  | access k p _ ih => exact ih.access k p
  | coAccess ks _ hk ih => exact ih.coAccess hk
  | setPartition id p _ hp ih =>
    obtain ⟨_, -, hh⟩ := Outcome.bind_eq_ok.mp hp
    cases hh
    exact ih.modify id fun v hv => ⟨hv.weight, hv.edges⟩
  | markMoved id _ hm ih =>
    obtain ⟨_, -, hh⟩ := Outcome.bind_eq_ok.mp hm
    cases hh
    exact ih.modify id fun v hv => ⟨hv.weight, hv.edges⟩

end

theorem Reachable.step (hg : g.Reachable) {a : Act} (h' : g.step a = .ok h) : h.Reachable := by
  cases a with
  | access k p =>
    cases h'
    exact .access k p hg
  | coAccess ks => exact .coAccess ks hg h'
  | setPartition id p => exact .setPartition id p hg h'
  | markMoved id => exact .markMoved id hg h'

/-- Every history makes a graph. -/
theorem reachable_run (acts : List Act) : (run acts : Graph W).Reachable := by
  induction acts using List.reverseRecOn with
  | nil => exact .empty
  | append_singleton init a ih =>
    rw [run_concat]
    cases ha : (run init : Graph W).step a with
    | ok h =>
      rw [after_of_ok ha]
      exact ih.step ha
    | error e =>
      rw [after_of_error ha]
      exact ih

omit [Weight W] in
theorem size_modify (g : Graph W) (id : VertexId) (f : Vertex W → Vertex W) :
    (g.modify id f).size = g.size := by
  simp [modify, size]

/-- No act takes a vertex away. -/
theorem size_le_of_step {a : Act} (h' : g.step a = .ok h) : g.size ≤ h.size := by
  cases a with
  | access k p =>
    cases h'
    cases hid : g.idOf? k with
    | none =>
      rw [access_of_new hid]
      simp [size, Graph.extend]
    | some id => rw [access_of_known hid, size_modify]
  | coAccess ks =>
    obtain ⟨ids, -, hlink⟩ := Outcome.bind_eq_ok.mp h'
    cases hlink
    rw [link_eq_foldl]
    refine List.foldlRecOn (motive := fun h : Graph W => g.size ≤ h.size) _ _ (Nat.le_refl _) ?_
    intro h hh id _
    rw [size_tie]
    exact hh
  | setPartition id p =>
    obtain ⟨_, -, hh⟩ := Outcome.bind_eq_ok.mp h'
    cases hh
    exact (size_modify g id _).ge
  | markMoved id =>
    obtain ⟨_, -, hh⟩ := Outcome.bind_eq_ok.mp h'
    cases hh
    exact (size_modify g id _).ge

end Graph

/-! ## Clumps -/

namespace Clump

section

variable {W : Type} [Weight W]

/-- The clumps that grow in a graph. The graph may change between their expansions. -/
inductive Reachable : Graph W → Clump W → Prop
  | seed {g : Graph W} {c : Clump W} {id : VertexId} {dest : PartitionId} :
      g.Reachable → Clump.seed g id dest = .ok c → Reachable g c
  | expand {g : Graph W} {c d : Clump W} (id : VertexId) :
      Reachable g c → c.expand g id = .ok d → Reachable g d
  | redirect {g : Graph W} {c : Clump W} (dest : PartitionId) :
      Reachable g c → Reachable g { c with dest }
  | act {g h : Graph W} {c : Clump W} (a : Graph.Act) :
      Reachable g c → g.step a = .ok h → Reachable h c

variable {g : Graph W} {c : Clump W}

theorem Reachable.graph (h : Reachable g c) : g.Reachable := by
  induction h with
  | seed hg _ => exact hg
  | expand _ _ _ ih => exact ih
  | redirect _ _ ih => exact ih
  | act a _ ha ih => exact ih.step ha

theorem Reachable.within (h : Reachable g c) : c.Within g := by
  induction h with
  | seed hg hc => exact (proper_seed (Graph.sound_of_reachable hg) hc).frontier
  | expand id hc hd ih =>
    obtain ⟨-, v, hv, rfl⟩ := absorb_of_expand hd
    exact ih.absorb (lt_of_edges (Graph.sound_of_reachable hc.graph) hv)
  | redirect _ _ ih => exact ih
  | act a _ ha ih => exact fun id hid => (ih id hid).trans_le (Graph.size_le_of_step ha)

end

section

variable {W : Type} [Weight W] [Weight.Ordered W] {g : Graph W} {c : Clump W}

theorem nonneg_touch (hc : NonnegMap c.frontier) {e : VertexId × W} (he : 0 ≤ e.2) :
    NonnegMap (c.touch e).frontier := by
  rw [touch]
  split
  · exact hc
  · exact hc.add e.1 he

theorem nonneg_absorb (hc : NonnegMap c.frontier) (id : VertexId)
    {edges : Std.ExtTreeMap VertexId W} (hedges : NonnegMap edges) :
    NonnegMap (c.absorb id edges).frontier := by
  rw [absorb, reach_eq_foldl]
  refine List.foldlRecOn (motive := fun c : Clump W => NonnegMap c.frontier) _ _ ?_ ?_
  · intro a w hw
    rw [Std.ExtTreeMap.getElem?_erase] at hw
    split at hw
    · cases hw
    · exact hc a w hw
  · intro c hc e he
    exact nonneg_touch hc (hedges e.1 e.2 (Std.ExtTreeMap.mem_toList_iff_getElem?_eq_some.mp he))

/-- What connects a vertex of the frontier with the clump adds up from what was counted. -/
theorem Reachable.nonneg (h : Reachable g c) : NonnegMap c.frontier := by
  induction h with
  | seed hg hc =>
    obtain ⟨v, hv, hc⟩ := Outcome.bind_eq_ok.mp hc
    cases hc
    exact nonneg_absorb nonnegMap_empty _
      (Graph.nonneg_of_reachable hg _ v (Graph.vertex_eq_ok_iff.mp hv)).edges
  | expand id hc hd ih =>
    obtain ⟨-, v, hv, rfl⟩ := absorb_of_expand hd
    exact nonneg_absorb ih id (Graph.nonneg_of_reachable hc.graph id v hv).edges
  | redirect _ _ ih => exact ih
  | act _ _ _ ih => exact ih

end

end Clump

end Reshard
