import Reshard.Proofs.Balance.Passes

/-!
What planning leaves alone. Only places of vertices change, and a vertex changes its partition only
along a move that the plan reports (`Frame`). Each clump has such a frame for the moves that it is
reported with (`frame_clump`); the frames of all passes join, and merging moves by route loses none
of them (`plan_touches`).
-/

namespace Reshard

open Outcome

variable {W : Type}

/-- Apart from places, the second graph is the first. A vertex on another partition than before was
taken there by one of the moves, and is marked; no mark is taken away. -/
structure Frame (ms : List Move) (g h : Graph W) : Prop where
  index : h.index = g.index
  records : h.records = g.records
  moved : ∀ (id : VertexId) (v w : Vertex W), g.vertex? id = some v → h.vertex? id = some w →
    w.partition ≠ v.partition →
    w.moved = true ∧ ∃ m ∈ ms, m.covers v.key = true ∧ m.dest = w.partition
  marks : ∀ (id : VertexId) (v w : Vertex W), g.vertex? id = some v → h.vertex? id = some w →
    v.moved = true → w.moved = true

namespace Frame

variable {ms later : List Move} {g h k : Graph W}

theorem refl (g : Graph W) : Frame [] g g where
  index := rfl
  records := rfl
  moved := by
    intro id v w hv hw hne
    rw [hv] at hw
    cases hw
    exact absurd rfl hne
  marks := by
    intro id v w hv hw hmark
    rw [hv] at hw
    cases hw
    exact hmark

theorem exists_vertex (hf : Frame ms g h) {id : VertexId} {v : Vertex W}
    (hv : g.vertex? id = some v) : ∃ u, h.vertex? id = some u ∧ u.key = v.key := by
  have hrecord := congrArg (·[id]?) hf.records
  simp only [Graph.records, Array.getElem?_map] at hrecord
  have hv' : g.vertices[id]? = some v := hv
  rw [hv', Option.map_some] at hrecord
  obtain ⟨u, hu, hsame⟩ := Option.map_eq_some_iff.mp hrecord
  exact ⟨u, hu, congrArg (·.1) hsame⟩

theorem append (hf : Frame ms g h) (hf' : Frame later h k) : Frame (ms ++ later) g k where
  index := hf'.index.trans hf.index
  records := hf'.records.trans hf.records
  moved := by
    intro id v w hv hw hne
    obtain ⟨u, hu, hkey⟩ := hf.exists_vertex hv
    by_cases hlater : w.partition = u.partition
    · -- The vertex has not been moved since.
      rw [hlater] at hne ⊢
      obtain ⟨hmark, m, hm, hcovers, hdest⟩ := hf.moved id v u hv hu hne
      exact ⟨hf'.marks id u w hu hw hmark, m, List.mem_append_left _ hm, hcovers, hdest⟩
    · obtain ⟨hmark, m, hm, hcovers, hdest⟩ := hf'.moved id u w hu hw hlater
      exact ⟨hmark, m, List.mem_append_right _ hm, hkey ▸ hcovers, hdest⟩
  marks := by
    intro id v w hv hw hmark
    obtain ⟨u, hu, -⟩ := hf.exists_vertex hv
    exact hf'.marks id u w hu hw (hf.marks id v u hv hu hmark)

/-- Moves may be merged as long as their routes stay. -/
theorem ofMoves (hf : Frame ms g h) : Frame (Plan.ofMoves ms).moves g h where
  index := hf.index
  records := hf.records
  moved := by
    intro id v w hv hw hne
    obtain ⟨hmark, m, hm, hcovers, hdest⟩ := hf.moved id v w hv hw hne
    obtain ⟨m', hm', hcovers', hsame⟩ := Plan.exists_merged hm hcovers
    exact ⟨hmark, m', hm', hcovers', (congrArg Prod.snd hsame).trans hdest⟩
  marks := hf.marks

/-- A vertex that no move takes along stays where it is. -/
theorem partition_eq (hf : Frame ms g h) {id : VertexId} {v w : Vertex W}
    (hv : g.vertex? id = some v) (hw : h.vertex? id = some w)
    (hnot : ∀ m ∈ ms, m.covers v.key = false) : w.partition = v.partition := by
  by_contra hne
  obtain ⟨-, m, hm, hcovers, -⟩ := hf.moved id v w hv hw hne
  rw [hnot m hm] at hcovers
  nomatch hcovers

end Frame

/-! ## One clump -/

/-- A clump is moved along the moves that it is reported with. -/
theorem frame_clump {g : Graph W} (hg : g.Sound) (c : Clump W) :
    Frame (c.plan g).moves g (g.reassign c.members.toList c.dest) where
  index := Graph.index_reassign _ _ _
  records := Graph.records_reassign _ _ _
  moved := by
    intro id v w hv hw hne
    rw [Graph.vertex?_reassign, hv] at hw
    split at hw
    · next hmem =>
      cases hw
      have hkey : g.keyOf? id = some v.key := by simp [Graph.keyOf?, hv]
      have hcarried : v.key ∈ c.carried g v.partition :=
        (Clump.mem_carried hg).mpr ⟨id, Std.ExtTreeSet.mem_toList.mp hmem, hg.idOf_of_key hkey,
          by simp [Graph.partitionOf?, hv], fun heq => hne heq.symm⟩
      rw [c.moves_plan]
      exact ⟨rfl, _, List.mem_map_of_mem (Clump.mem_sources_of_carried hcarried),
        Move.covers_ofKeys.mpr hcarried, rfl⟩
    · cases hw
      exact absurd rfl hne
  marks := by
    intro id v w hv hw hmark
    rw [Graph.vertex?_reassign, hv] at hw
    split at hw
    · cases hw
      rfl
    · cases hw
      exact hmark

/-- A clump that needs a move is reported with one. -/
theorem Clump.moves_ne_nil {g : Graph W} {c : Clump W} (h : c.needsMove g = true) :
    (c.plan g).moves ≠ [] := by
  rw [needsMove, Bool.not_eq_true', List.isEmpty_eq_false_iff] at h
  obtain ⟨v, hv⟩ := List.exists_mem_of_ne_nil _ h
  rw [c.moves_plan]
  exact List.ne_nil_of_mem (List.mem_map_of_mem (Clump.mem_sources.mpr ⟨v, hv, rfl⟩))

namespace Planner

variable [Weight W] {p q : Planner W} {n bound : Nat}

/-! ## All passes -/

theorem exists_emitted (hg : p.graph.Sound) (n bound : Nat) :
    ∃ ms q, p.emitted n bound = .ok (ms, q) := by
  obtain ⟨cs, hcs, -⟩ := exists_clumps hg n bound
  have hpasses : Planning.passes n bound (.start p) = .ok (cs.foldl Planning.move (.start p)) := by
    rw [passes_eq_clumps, Planning.start, hcs]
    rfl
  rw [Planning.start, passes_eq_emitted] at hpasses
  obtain ⟨⟨ms, q⟩, hms, -⟩ := map_eq_ok.mp hpasses
  exact ⟨ms, q, hms⟩

theorem frame_emitted (hg : p.graph.Sound) {ms : List Move}
    (h : p.emitted n bound = .ok (ms, q)) :
    q.tuning = p.tuning ∧ q.retired = p.retired ∧ Frame ms p.graph q.graph := by
  induction bound generalizing p ms with
  | zero =>
    cases h
    exact ⟨rfl, rfl, .refl _⟩
  | succ bound ih =>
    rcases emitted_succ h with ⟨-, rfl, rfl⟩ | ⟨c, later, -, hlater, rfl⟩
    · exact ⟨rfl, rfl, .refl _⟩
    · obtain ⟨htuning, hretired, hframe⟩ := ih (hg.reassign _ _) hlater
      exact ⟨htuning, hretired, (frame_clump hg c).append hframe⟩

/-- Passes that report nothing do nothing. -/
theorem eq_of_emitted_nil (h : p.emitted n bound = .ok ([], q)) : q = p := by
  cases bound with
  | zero =>
    cases h
    rfl
  | succ bound =>
    rcases emitted_succ h with ⟨-, -, rfl⟩ | ⟨c, later, hc, -, hnil⟩
    · rfl
    · obtain ⟨-, -, -, hmove⟩ := nextClump_eq_some hc
      exact absurd (List.append_eq_nil_iff.mp hnil.symm).1 (Clump.moves_ne_nil hmove)

/-- The moves of a plan, if there is one. -/
def movesOf (plan? : Option Plan) : List Move := (plan?.map (·.moves)).getD []

omit [Weight W] in
theorem movesOf_result (s : Planning W) : movesOf s.result.1 = s.plan.moves := by
  rw [Planning.result]
  split
  · next hempty => exact (List.isEmpty_iff.mp hempty).symm
  · rfl

/-- Planning changes the places of vertices, and reports where they go: whatever is on another
partition afterwards was taken there by a move of the plan. Without a plan nothing has changed. -/
theorem plan_touches (hp : p.Reachable) (n : Nat) :
    ∃ plan? q, p.plan n = .ok (plan?, q) ∧ q.tuning = p.tuning ∧ q.retired = p.retired ∧
      Frame (movesOf plan?) p.graph q.graph ∧
      (∀ (id : VertexId) (v w : Vertex W), p.graph.vertex? id = some v →
        q.graph.vertex? id = some w → (∀ m ∈ movesOf plan?, m.covers v.key = false) →
        w.partition = v.partition) ∧
      (plan? = none → q = p) := by
  have hg := sound_graph_of_reachable hp
  obtain ⟨ms, q, hms⟩ := exists_emitted hg n (max p.tuning.maxClumps 1)
  have hplan : p.plan n = .ok ((Planning.result ⟨Plan.ofMoves ms, q⟩).1, q) := by
    rw [plan_eq_emitted, hms]
    rfl
  have hmoves : movesOf (Planning.result ⟨Plan.ofMoves ms, q⟩).1 = (Plan.ofMoves ms).moves :=
    movesOf_result _
  obtain ⟨htuning, hretired, hframe⟩ := frame_emitted hg hms
  refine ⟨_, q, hplan, htuning, hretired, ?_, ?_, ?_⟩
  · rw [hmoves]
    exact hframe.ofMoves
  · rw [hmoves]
    exact fun id v w hv hw hnot => hframe.ofMoves.partition_eq hv hw hnot
  · intro hnone
    rw [hnone] at hmoves
    obtain rfl := Plan.eq_nil_of_ofMoves (isList_emitted hms).2 hmoves.symm
    exact eq_of_emitted_nil hms

/-- Of the two records the first is on another partition afterwards, as the plan says. -/
theorem plan_touches_paired : ∃ p plan q, paired 1 = .ok p ∧ p.plan 3 = .ok (some plan, q) ∧
    plan = ⟨[.ofKeys 0 1 [⟨"t", 0⟩]]⟩ ∧ q.tuning = p.tuning ∧ q.retired = p.retired ∧
    Frame (movesOf (some plan)) p.graph q.graph ∧
    ∀ (id : VertexId) (v w : Vertex ℚ), p.graph.vertex? id = some v →
      q.graph.vertex? id = some w → (∀ m ∈ movesOf (some plan), m.covers v.key = false) →
      w.partition = v.partition := by
  obtain ⟨p, plan, q, hp, hplan, hcheck⟩ :=
    exists_plan (paired 1) 3 (fun _ plan _ => plan = ⟨[.ofKeys 0 1 [⟨"t", 0⟩]]⟩)
      (by decide +kernel)
  obtain ⟨plan?, q', hplan', htuning, hretired, hframe, hkept, -⟩ :=
    plan_touches (reachable_paired hp) 3
  obtain ⟨rfl, rfl⟩ := Prod.mk.inj (Except.ok.inj (hplan.symm.trans hplan'))
  exact ⟨p, plan, q, hp, hplan, of_decide_eq_true hcheck, htuning, hretired, hframe, hkept⟩

end Planner

end Reshard
