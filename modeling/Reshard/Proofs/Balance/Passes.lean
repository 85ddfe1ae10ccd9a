import Reshard.Proofs.Balance.Trail

/-!
Planning from pass to pass. Any clump that a growth answers takes its seed away from the overloaded
partition (`relieves_of_answer`), so that a pass moves every clump that is answered
(`nextClump_of_overload?`). No pass fails, and there are no more passes than clumps allowed
(`plan_proceeds`).
-/

namespace Reshard

open Outcome

namespace Planner

variable {W : Type} [Weight W]

/-- The clumps of up to so many passes. -/
def clumps (n : Nat) : Nat → Planner W → Except Failure (List (Clump W))
  | 0, _ => .ok []
  | bound + 1, p => do
    match ← p.nextClump n with
    | none => return []
    | some c => return c :: (← clumps n bound (p.apply c))

/-- The clumps of a growth off the overloaded partition. There are none if this has no vertex, or
its hottest vertex has nowhere to go. -/
inductive Attempt (p : Planner W) (o : Overload W) : List (Clump W) → Prop
  | idle : (∀ id, p.graph.hottest? o.partition = some id → p.initialDest? o id = none) →
      Attempt p o []
  | growth {trail : List (Clump W)} : p.Ends o trail → Attempt p o trail

/-- A clump that takes the hottest vertex of the overloaded partition elsewhere. -/
structure Relieves (p : Planner W) (o : Overload W) (c : Clump W) : Prop where
  seed : ∃ id ∈ c.members, p.graph.hottest? o.partition = some id ∧
    p.graph.partitionOf? id = some o.partition
  dest_ne : c.dest ≠ o.partition

/-- What a pass can rely on: edges lead to vertices, and off an overloaded partition a growth is
attempted that keeps to vertices and is over after as many expansions as a clump may have members.
A clump that it answers relieves the partition, and is moved. -/
structure Proceeds (p : Planner W) (n : Nat) : Prop where
  closed : ∀ a b w, p.graph.edge? a b = some w → b < p.graph.size
  attempt : ∀ o, p.overload? n = some o → ∃ trail, p.Attempt o trail ∧
    trail.length ≤ p.tuning.clumpMaxSize + 1 ∧ (∀ c ∈ trail, c.Proper p.graph) ∧
    p.overloadClump o = .ok (p.answer o trail) ∧
    ∀ c, p.answer o trail = some c → p.Relieves o c ∧ p.nextClump n = .ok (some c)

variable {p : Planner W} {o : Overload W} {n : Nat} {c : Clump W} {trail : List (Clump W)}

/-! ## The seed and the destination -/

theorem Trail.exists_hottest (h : p.Trail o trail) :
    ∃ id, p.graph.hottest? o.partition = some id ∧ ∀ c ∈ trail, id ∈ c.members := by
  induction h with
  | @seed id dest c hid _ hc =>
    refine ⟨id, hid, List.forall_mem_singleton.mpr ?_⟩
    rw [Clump.members_seed hc]
    exact Std.ExtTreeSet.mem_insert_self
  | @expand c next earlier _ _ _ _ hnext ih =>
    obtain ⟨id, hid, hmembers⟩ := ih
    obtain ⟨dest, hdest⟩ := p.clump_settle o next
    refine ⟨id, hid, List.forall_mem_cons.mpr ⟨?_, hmembers⟩⟩
    rw [hdest]
    show id ∈ next.members
    rw [Clump.members_expand hnext]
    exact Std.ExtTreeSet.mem_insert.mpr (.inr (hmembers c List.mem_cons_self))

theorem ne_of_leastLoaded? {loads : List (Load W)} {partition dest : PartitionId}
    (h : leastLoaded? loads (some partition) = some dest) : dest ≠ partition := by
  obtain ⟨l, hl, rfl⟩ := Option.map_eq_some_iff.mp h
  have hkept := (List.mem_filter.mp (mem_of_choose hl)).2
  rw [decide_eq_true_eq] at hkept
  exact fun heq => hkept (congrArg some heq.symm)

theorem ne_of_initialDest? (hlight : ∀ dest, o.lightest = some dest → dest ≠ o.partition)
    {id : VertexId} {dest : PartitionId} (h : p.initialDest? o id = some dest) :
    dest ≠ o.partition := by
  rw [initialDest?] at h
  split at h
  · next hchoose =>
    cases h
    have hkept := (List.mem_filter.mp (mem_of_choose hchoose)).2
    rw [Bool.and_eq_true, decide_eq_true_eq] at hkept
    exact hkept.1
  · exact hlight dest h

theorem ne_of_mostCoAccessed? {f : Profile W} {excluded : List PartitionId} {dest : PartitionId}
    (h : f.mostCoAccessed? n excluded = some dest) : dest ∉ excluded := by
  obtain ⟨e, he, rfl⟩ := Option.map_eq_some_iff.mp h
  have hkept := (List.mem_filter.mp (mem_of_choose he)).2
  simp only [Bool.and_eq_true, Bool.not_eq_true', List.contains_eq_mem, decide_eq_false_iff_not]
    at hkept
  exact hkept.2

/-- A clump is not settled on the overloaded partition. -/
theorem ne_settle (hlight : ∀ dest, o.lightest = some dest → dest ≠ o.partition)
    (hc : c.dest ≠ o.partition) : (p.settle o c).clump.dest ≠ o.partition := by
  rw [settle]
  cases hdest : p.feasibleDest? o (c.profile p.graph) c.dest with
  | none => exact hc
  | some dest =>
    show dest ≠ o.partition
    rw [feasibleDest?] at hdest
    split at hdest
    · cases hdest
      exact hc
    · split at hdest
      · next hco =>
        cases hdest
        have hmost := (Option.filter_eq_some_iff.mp hco).1
        exact List.ne_of_not_mem_cons (ne_of_mostCoAccessed? hmost)
      · exact hlight dest (Option.filter_eq_some_iff.mp hdest).1

theorem Trail.dest_ne (hlight : ∀ dest, o.lightest = some dest → dest ≠ o.partition)
    (h : p.Trail o trail) : ∀ c ∈ trail, c.dest ≠ o.partition := by
  induction h with
  | seed _ hdest hc =>
    refine List.forall_mem_singleton.mpr ?_
    rw [Clump.dest_seed hc]
    exact ne_of_initialDest? hlight hdest
  | @expand c next earlier _ _ _ _ hnext ih =>
    refine List.forall_mem_cons.mpr ⟨ne_settle hlight ?_, ih⟩
    rw [Clump.dest_expand hnext]
    exact ih c List.mem_cons_self

/-! ## What is answered -/

theorem mem_of_answer (h : p.answer o trail = some c) : c ∈ trail := by
  rcases Option.or_eq_some_iff.mp h with hfits | ⟨-, hlarge⟩
  · exact List.mem_of_find?_eq_some hfits
  · exact List.mem_of_mem_head? (Option.filter_eq_some_iff.mp hlarge).1

/-- Off any partition a growth is attempted, and answers. -/
theorem exists_attempt (hg : p.graph.Sound) (o : Overload W) :
    ∃ trail, p.Attempt o trail ∧ p.overloadClump o = .ok (p.answer o trail) := by
  cases hid : p.graph.hottest? o.partition with
  | none =>
    refine ⟨[], .idle fun id hid' => ?_, ?_⟩
    · rw [hid] at hid'
      nomatch hid'
    · rw [overloadClump, hid]
      rfl
  | some id =>
    cases hdest : p.initialDest? o id with
    | none =>
      refine ⟨[], .idle fun id' hid' => ?_, ?_⟩
      · rw [hid] at hid'
        cases hid'
        exact hdest
      · simp only [overloadClump, hid, hdest]
        rfl
    | some dest =>
      obtain ⟨trail, hends, hclump⟩ := overloadClump_ends hg hid hdest
      exact ⟨trail, .growth hends, hclump⟩

theorem ne_lightest (ho : p.overload? n = some o) :
    ∀ dest, o.lightest = some dest → dest ≠ o.partition := by
  obtain ⟨l, -, rfl⟩ := Option.map_eq_some_iff.mp ho
  intro dest hdest
  dsimp only at hdest
  exact ne_of_leastLoaded? hdest

/-- Whatever is answered has the seed, which is on the overloaded partition, and goes elsewhere. -/
theorem relieves_of_answer (ho : p.overload? n = some o) (h : p.Attempt o trail)
    (hc : p.answer o trail = some c) : p.Relieves o c := by
  have hmem := mem_of_answer hc
  cases h with
  | idle _ => nomatch hmem
  | growth hends =>
    obtain ⟨id, hid, hmembers⟩ := hends.reached.exists_hottest
    exact ⟨⟨id, hmembers c hmem, hid, Graph.partition_of_hottest hid⟩,
      hends.reached.dest_ne (ne_lightest ho) c hmem⟩

theorem Relieves.needsMove (h : p.Relieves o c) : c.needsMove p.graph = true := by
  obtain ⟨id, hmem, -, hon⟩ := h.seed
  obtain ⟨v, hv, hpartition⟩ := Option.map_eq_some_iff.mp hon
  have hne : v.partition ≠ c.dest := by
    rw [hpartition]
    exact h.dest_ne.symm
  have hincoming : v ∈ c.incoming p.graph c.dest :=
    Clump.mem_incoming.mpr ⟨⟨id, hmem, hv⟩, hne⟩
  rw [Clump.needsMove, Bool.not_eq_true', List.isEmpty_eq_false_iff]
  exact List.ne_nil_of_mem hincoming

/-! ## One pass -/

theorem nextClump_of_balanced (h : p.overload? n = none) : p.nextClump n = .ok none := by
  rw [nextClump, h]

/-- A pass moves whatever is answered. -/
theorem nextClump_of_overload? (hg : p.graph.Sound) (ho : p.overload? n = some o) :
    p.nextClump n = p.overloadClump o := by
  obtain ⟨trail, htrail, hclump⟩ := exists_attempt hg o
  rw [nextClump, ho]
  dsimp only
  rw [hclump]
  cases hc : p.answer o trail with
  | none => rfl
  | some c =>
    show Except.ok (if c.needsMove p.graph then some c else none) = _
    rw [if_pos (relieves_of_answer ho htrail hc).needsMove]

theorem exists_nextClump (hg : p.graph.Sound) (n : Nat) : ∃ c?, p.nextClump n = .ok c? := by
  cases ho : p.overload? n with
  | none => exact ⟨none, nextClump_of_balanced ho⟩
  | some o =>
    obtain ⟨trail, -, hclump⟩ := exists_attempt hg o
    exact ⟨p.answer o trail, (nextClump_of_overload? hg ho).trans hclump⟩

theorem proceeds (hg : p.graph.Sound) (n : Nat) : p.Proceeds n where
  closed _ _ _ := hg.edge_lt
  attempt := by
    intro o ho
    obtain ⟨trail, htrail, hclump⟩ := exists_attempt hg o
    refine ⟨trail, htrail, ?_, ?_, hclump,
      fun c hc => ⟨relieves_of_answer ho htrail hc, ?_⟩⟩
    · cases htrail with
      | idle _ => exact Nat.zero_le _
      | growth hends => exact hends.length_le hg
    · cases htrail with
      | idle _ => exact List.forall_mem_nil _
      | growth hends => exact hends.reached.proper hg
    · rw [nextClump_of_overload? hg ho, hclump, hc]

/-! ## All passes -/

theorem clumps_succ_of_error {bound : Nat} {e : Failure} (h : p.nextClump n = .error e) :
    p.clumps n (bound + 1) = .error e := by
  rw [clumps, h]
  rfl

theorem clumps_succ_of_none {bound : Nat} (h : p.nextClump n = .ok none) :
    p.clumps n (bound + 1) = .ok [] := by
  rw [clumps, h]
  rfl

theorem clumps_succ_of_some {bound : Nat} (h : p.nextClump n = .ok (some c)) :
    p.clumps n (bound + 1) = ((p.apply c).clumps n bound).map (c :: ·) := by
  rw [clumps, h]
  rfl

/-- A pass has the next of the clumps, or there are no more. -/
theorem clumps_succ {bound : Nat} {cs : List (Clump W)} (h : p.clumps n (bound + 1) = .ok cs) :
    (p.nextClump n = .ok none ∧ cs = []) ∨
    ∃ c rest, p.nextClump n = .ok (some c) ∧ (p.apply c).clumps n bound = .ok rest ∧
      cs = c :: rest := by
  obtain ⟨clump?, hnext, -⟩ := bind_eq_ok.mp h
  cases clump? with
  | none =>
    rw [clumps_succ_of_none hnext] at h
    cases h
    exact .inl ⟨hnext, rfl⟩
  | some c =>
    rw [clumps_succ_of_some hnext] at h
    obtain ⟨rest, hrest, hcs⟩ := map_eq_ok.mp h
    exact .inr ⟨c, rest, hnext, hrest, hcs.symm⟩

/-- The passes add the clumps to the plan, and move them. -/
theorem passes_eq_clumps (n bound : Nat) (s : Planning W) :
    Planning.passes n bound s =
      (s.planner.clumps n bound).map fun cs => cs.foldl Planning.move s := by
  induction bound generalizing s with
  | zero => rfl
  | succ bound ih =>
    match hc : s.planner.nextClump n with
    | .error e =>
      rw [Planning.passes_succ_of_error hc, clumps_succ_of_error hc]
      rfl
    | .ok none =>
      rw [Planning.passes_succ_of_none hc, clumps_succ_of_none hc]
      rfl
    | .ok (some c) =>
      rw [Planning.passes_succ_of_some hc, ih, clumps_succ_of_some hc]
      show ((s.planner.apply c).clumps n bound).map _ = _
      cases (s.planner.apply c).clumps n bound <;> rfl

theorem plan_of_clumps {cs : List (Clump W)}
    (h : p.clumps n (max p.tuning.maxClumps 1) = .ok cs) :
    p.plan n = .ok (cs.foldl Planning.move (.start p)).result := by
  rw [plan_eq_passes, passes_eq_clumps, Planning.start, h]
  rfl

theorem exists_clumps (hg : p.graph.Sound) (n bound : Nat) :
    ∃ cs, p.clumps n bound = .ok cs ∧ cs.length ≤ bound := by
  induction bound generalizing p with
  | zero => exact ⟨[], rfl, Nat.le_refl _⟩
  | succ bound ih =>
    obtain ⟨c?, hc⟩ := exists_nextClump hg n
    cases c? with
    | none => exact ⟨[], clumps_succ_of_none hc, Nat.zero_le _⟩
    | some c =>
      obtain ⟨cs, hcs, hlength⟩ := ih (p := p.apply c) (hg.reassign _ _)
      refine ⟨c :: cs, ?_, Nat.succ_le_succ hlength⟩
      rw [clumps_succ_of_some hc, hcs]
      rfl

omit [Weight W] in
theorem sound_foldl_move {s : Planning W} (hs : s.planner.graph.Sound) (cs : List (Clump W)) :
    (cs.foldl Planning.move s).planner.graph.Sound := by
  induction cs generalizing s with
  | nil => exact hs
  | cons c rest ih =>
    have hmoved : (s.move c).planner.graph.Sound := hs.reassign c.members.toList c.dest
    exact ih hmoved

theorem sound_of_passes {bound : Nat} {s t : Planning W} (hs : s.planner.graph.Sound)
    (h : Planning.passes n bound s = .ok t) : t.planner.graph.Sound := by
  rw [passes_eq_clumps] at h
  obtain ⟨cs, -, rfl⟩ := map_eq_ok.mp h
  exact sound_foldl_move hs cs

/-- Planning always answers, after as many clumps as are allowed or fewer, and finds all it relies
on in each of its passes. -/
theorem plan_proceeds (hp : p.Reachable) (n : Nat) :
    ∃ cs, p.clumps n (max p.tuning.maxClumps 1) = .ok cs ∧
      cs.length ≤ max p.tuning.maxClumps 1 ∧
      p.plan n = .ok (cs.foldl Planning.move (.start p)).result ∧
      ∀ earlier, earlier <+: cs →
        (earlier.foldl Planning.move (.start p)).planner.Proceeds n := by
  have hg := sound_graph_of_reachable hp
  obtain ⟨cs, hcs, hlength⟩ := exists_clumps hg n (max p.tuning.maxClumps 1)
  exact ⟨cs, hcs, hlength, plan_of_clumps hcs,
    fun earlier _ => proceeds (sound_foldl_move (s := .start p) hg earlier) n⟩

/-- The two records are taken back and forth, as often as clumps are allowed. -/
theorem plan_proceeds_paired : ∃ p, paired 3 = .ok p ∧
    (p.clumps 3 (max p.tuning.maxClumps 1)).toOption.map List.length = some 3 ∧
    ∃ cs, p.clumps 3 (max p.tuning.maxClumps 1) = .ok cs ∧
      cs.length ≤ max p.tuning.maxClumps 1 ∧
      p.plan 3 = .ok (cs.foldl Planning.move (.start p)).result ∧
      ∀ earlier, earlier <+: cs →
        (earlier.foldl Planning.move (.start p)).planner.Proceeds 3 := by
  obtain ⟨p, plan, q, hp, -, hcheck⟩ := exists_plan (paired 3) 3
    (fun p _ _ => (p.clumps 3 (max p.tuning.maxClumps 1)).toOption.map List.length = some 3)
    (by decide +kernel)
  exact ⟨p, hp, of_decide_eq_true hcheck, plan_proceeds (reachable_paired hp) 3⟩

end Planner

end Reshard
