import Reshard.Access.Clump
import Reshard.Proofs.Access.ClumpMoves
import Reshard.Proofs.Access.Expansion
import Reshard.Proofs.Access.Gain
import Reshard.Proofs.Access.Renaming

/-!
Clumps of vertices that are numbered in another way (`Clump.Renames`). They grow alike: the same
vertex is their hottest neighbour, a move brings about the same, and they are moved by the same
plan.
-/

namespace Reshard

namespace Clump

section

variable {W : Type}

/-- The members and the frontier of the first clump, each under its other number. -/
structure Renames (σ : Equiv.Perm VertexId) (c c' : Clump W) : Prop where
  members : ∀ a, σ a ∈ c'.members ↔ a ∈ c.members
  frontier : ∀ a, c'.frontier[σ a]? = c.frontier[a]?
  dest : c'.dest = c.dest

theorem Renames.symm {σ : Equiv.Perm VertexId} {c c' : Clump W} (hc : Renames σ c c') :
    Renames σ.symm c' c where
  members a := by rw [← hc.members, Equiv.apply_symm_apply]
  frontier a := by rw [← hc.frontier, Equiv.apply_symm_apply]
  dest := hc.dest.symm

theorem Renames.size_eq {σ : Equiv.Perm VertexId} {c c' : Clump W} (hc : Renames σ c c') :
    c'.size = c.size :=
  Collections.size_eq_of_renamed σ hc.members

theorem Renames.withDest {σ : Equiv.Perm VertexId} {c c' : Clump W} (hc : Renames σ c c')
    (dest : PartitionId) : Renames σ { c with dest } { c' with dest } :=
  { hc with dest := rfl }

end

section

variable {W : Type} [Weight W]

theorem Renames.touch {σ : Equiv.Perm VertexId} {c c' : Clump W} (hc : Renames σ c c')
    (e : VertexId × W) : Renames σ (c.touch e) (c'.touch (σ e.1, e.2)) := by
  rw [Clump.touch, Clump.touch]
  simp only [hc.members]
  split
  · exact hc
  · refine { hc with frontier := fun a => ?_ }
    simp only [Std.ExtTreeMap.getElem?_alter, Std.compare_eq_iff_eq, σ.injective.eq_iff]
    split <;> simp [hc.frontier]

/-- Clumps grow alike by the same edges in the same order. -/
theorem Renames.reach_map {σ : Equiv.Perm VertexId} {c c' : Clump W} (hc : Renames σ c c')
    (edges : List (VertexId × W)) :
    Renames σ (c.reach edges) (c'.reach (edges.map fun e => (σ e.1, e.2))) := by
  rw [reach_eq_foldl, reach_eq_foldl]
  induction edges generalizing c c' with
  | nil => exact hc
  | cons e rest ih => exact ih (hc.touch e)

end

section

variable {σ : Equiv.Perm VertexId} {c c' : Clump ℚ} {g h : Graph ℚ}

theorem touch_comm (c : Clump ℚ) (d e : VertexId × ℚ) :
    (c.touch d).touch e = (c.touch e).touch d := by
  by_cases hd : d.1 ∈ c.members <;> by_cases he : e.1 ∈ c.members <;>
    simp only [touch, hd, he, if_true, if_false]
  congr 1
  refine Collections.alter_comm c.frontier d.1 e.1 fun old => ?_
  simp [add_right_comm]

/-- The order of the edges makes no difference to a clump. -/
theorem reach_perm (c : Clump ℚ) {edges edges' : List (VertexId × ℚ)} (h : edges.Perm edges') :
    c.reach edges = c.reach edges' :=
  h.foldl_eq' (fun d _ e _ c => c.touch_comm d e) c

theorem Renames.absorb (hc : Renames σ c c') (id : VertexId)
    {edges edges' : Std.ExtTreeMap VertexId ℚ} (hedges : ∀ b, edges'[σ b]? = edges[b]?) :
    Renames σ (c.absorb id edges) (c'.absorb (σ id) edges') := by
  rw [Clump.absorb, Clump.absorb, reach_perm _ (Collections.perm_toList σ hedges)]
  refine Renames.reach_map ?_ edges.toList
  refine ⟨fun a => ?_, fun a => ?_, hc.dest⟩
  · simp [hc.members]
  · simp [Std.ExtTreeMap.getElem?_erase, hc.frontier]

/-- Clumps that start from the same vertex. -/
theorem seed_renames (hr : g.Renames σ h) (hg : g.Sound) {id : VertexId} (hid : id < g.size)
    (dest : PartitionId) : Outcome.Related (fun c c' => Renames σ c c' ∧ c.Within g)
      (Clump.seed g id dest) (Clump.seed h (σ id) dest) := by
  obtain ⟨v, hv⟩ := Graph.exists_vertex hid
  obtain ⟨v', hv', -⟩ := hr.exists_vertex hv
  have hempty : Renames σ (⟨∅, ∅, dest⟩ : Clump ℚ) ⟨∅, ∅, dest⟩ :=
    ⟨fun _ => by simp, fun _ => by simp, rfl⟩
  refine ⟨_, _, ?_, ?_, hempty.absorb id (hr.edges_eq hv hv'), ?_⟩
  · rw [Clump.seed, Graph.vertex, hv]
    rfl
  · rw [Clump.seed, Graph.vertex, hv']
    rfl
  · exact (proper_empty g dest).frontier.absorb (lt_of_edges hg hv)

/-- Clumps that take in the same neighbour. -/
theorem Renames.expand (hc : Renames σ c c') (hw : c.Within g) (hr : g.Renames σ h)
    (hg : g.Sound) {id : VertexId} (hid : id ∈ c.frontier) :
    Outcome.Related (fun d d' => Renames σ d d' ∧ d.Within g)
      (c.expand g id) (c'.expand h (σ id)) := by
  obtain ⟨v, hv⟩ := Graph.exists_vertex (hw id hid)
  obtain ⟨v', hv', -⟩ := hr.exists_vertex hv
  have hcontains : c'.frontier.contains (σ id) = c.frontier.contains id := by
    rw [Std.ExtTreeMap.contains_eq_isSome_getElem?, Std.ExtTreeMap.contains_eq_isSome_getElem?,
      hc.frontier]
  have hin : c.frontier.contains id = true := Std.ExtTreeMap.contains_iff_mem.mpr hid
  refine ⟨_, _, ?_, ?_, hc.absorb id (hr.edges_eq hv hv'), ?_⟩
  · rw [Clump.expand, Graph.vertex, hv]
    exact if_pos hin
  · rw [Clump.expand, Graph.vertex, hv']
    exact if_pos (hcontains.trans hin)
  · exact hw.absorb (lt_of_edges hg hv)

end

/-! ## The hottest neighbour -/

section

variable {W : Type} [Weight W] {g : Graph W}

/-- Whether the first frontier entry is chosen before the second one. -/
def nearer (g : Graph W) (new best : VertexId × W) : Bool :=
  !(new.2 < best.2 || (new.2 == best.2 && keyBelow g best.1 new.1))

theorem hottestNeighbour?_eq_choose (c : Clump W) (g : Graph W) :
    c.hottestNeighbour? g = (choose (nearer g) c.frontier.toList).map (·.1) := rfl

omit [Weight W] in
theorem keyBelow_iff {a b : VertexId} (ha : a < g.size) (hb : b < g.size) :
    keyBelow g a b = true ↔ g.nameOf a < g.nameOf b := by
  obtain ⟨v, hv⟩ := Graph.exists_vertex ha
  obtain ⟨u, hu⟩ := Graph.exists_vertex hb
  simp [keyBelow, hv, hu, Graph.nameOf_of_vertex hv, Graph.nameOf_of_vertex hu]

/-- The scan keeps the best so far only if this is known to precede the new entry. -/
theorem nearer_iff [Weight.Ordered W] (hg : g.Sound) {d e : VertexId × W} (hd : d.1 < g.size)
    (he : e.1 < g.size) (hd' : Weight.IsNumber d.2) (he' : Weight.IsNumber e.2)
    (hne : d.1 ≠ e.1) :
    nearer g d e = true ↔ Precedes (· > ·) (d.2, g.nameOf d.1) (e.2, g.nameOf e.1) := by
  rw [ranking_gt.precedes_iff hd' he' (hg.nameOf_ne hd he hne), Precedes, Weight.beq_comm,
    ← keyBelow_iff he hd, nearer, Bool.not_eq_true', ← Bool.not_eq_true, Bool.or_eq_true,
    Bool.and_eq_true, decide_eq_true_eq]

end

section

variable {σ : Equiv.Perm VertexId} {c c' : Clump ℚ} {g h : Graph ℚ}

theorem Within.decisive (hw : c.Within g) (hg : g.Sound) :
    Decisive (nearer g) c.frontier.toList := by
  have hlt : ∀ e ∈ c.frontier.toList, e.1 < g.size :=
    fun e he => hw _ (mem_frontier_of_entry he)
  have hentry : ∀ d ∈ c.frontier.toList, ∀ e ∈ c.frontier.toList, d ≠ e → d.1 ≠ e.1 :=
    fun d hd e he => mt (Collections.entry_inj hd he)
  refine ranking_gt.decisive (fun e => (e.2, g.nameOf e.1)) (fun _ _ => Weight.isNumber_rat _) ?_ ?_
  · exact fun d hd e he hne => hg.nameOf_ne (hlt d hd) (hlt e he) (hentry d hd e he hne)
  · exact fun d hd e he hne => nearer_iff hg (hlt d hd) (hlt e he) (Weight.isNumber_rat _)
      (Weight.isNumber_rat _) (hentry d hd e he hne)

theorem keyBelow_eq (hr : g.Renames σ h) (a b : VertexId) :
    keyBelow h (σ a) (σ b) = keyBelow g a b := by
  have ha := hr.keyOf?_eq a
  have hb := hr.keyOf?_eq b
  rw [keyBelow, keyBelow]
  cases hva : g.vertex? a <;> cases hva' : h.vertex? (σ a) <;> cases hvb : g.vertex? b <;>
    cases hvb' : h.vertex? (σ b) <;> simp_all [Graph.keyOf?]

/-- The hottest neighbour does not depend on how the vertices are numbered. -/
theorem Renames.hottestNeighbour?_eq (hc : Renames σ c c') (hw : c.Within g) (hr : g.Renames σ h)
    (hg : g.Sound) : c'.hottestNeighbour? h = (c.hottestNeighbour? g).map σ := by
  have hentries := Collections.perm_toList σ hc.frontier
  have himage : choose (nearer h) c'.frontier.toList =
      (choose (nearer g) c.frontier.toList).map fun e => (σ e.1, e.2) := by
    refine choose_image (hw.decisive hg) _ ?_ ?_
    · intro e
      rw [hentries.mem_iff, List.mem_map]
    · intro d _ e _ _
      simp only [nearer, keyBelow_eq hr]
  rw [hottestNeighbour?_eq_choose, hottestNeighbour?_eq_choose, himage, Option.map_map,
    Option.map_map]
  rfl

/-! ## Profiles -/

/-- The edges of one member, as ties. -/
def tiesAt (c : Clump ℚ) (g : Graph ℚ) (a : VertexId) : List (Tie ℚ) :=
  match g.vertex? a with
  | none => []
  | some v => v.edges.toList.filterMap fun e =>
    (g.partitionOf? e.1).map fun target => ⟨v.partition, target, c.members.contains e.1, e.2⟩

theorem tiesOf_eq (c : Clump ℚ) (g : Graph ℚ) (v : Vertex ℚ) (rest : List (Tie ℚ)) :
    c.tiesOf g v rest = (v.edges.toList.filterMap fun e =>
      (g.partitionOf? e.1).map fun target =>
        (⟨v.partition, target, c.members.contains e.1, e.2⟩ : Tie ℚ)) ++ rest := by
  rw [tiesOf, Std.ExtTreeMap.foldr_eq_foldr_toList]
  induction v.edges.toList with
  | nil => rfl
  | cons e others ih =>
    rw [List.foldr_cons, ih]
    cases hp : g.partitionOf? e.1 <;> simp [hp]

theorem ties_profile (c : Clump ℚ) (g : Graph ℚ) :
    (c.profile g).ties = c.members.toList.flatMap (c.tiesAt g) := by
  rw [profile]
  dsimp only
  induction c.members.toList with
  | nil => rfl
  | cons a rest ih =>
    rw [List.flatMap_cons, ← ih, tiesAt]
    cases hv : g.vertex? a with
    | none => simp [hv]
    | some v => simp [hv, tiesOf_eq]

theorem Renames.perm_tiesAt (hc : Renames σ c c') (hr : g.Renames σ h) (a : VertexId) :
    (c'.tiesAt h (σ a)).Perm (c.tiesAt g a) := by
  rw [tiesAt, tiesAt]
  cases hv : g.vertex? a with
  | none =>
    rw [hr.vertex?_eq_none hv]
  | some v =>
    obtain ⟨v', hv', hnote⟩ := hr.exists_vertex hv
    have hpartition : v'.partition = v.partition := congrArg (·.2.2.1) hnote
    have hinside : ∀ b, c'.members.contains (σ b) = c.members.contains b := by
      intro b
      rw [Bool.eq_iff_iff, Std.ExtTreeSet.contains_iff_mem, Std.ExtTreeSet.contains_iff_mem]
      exact hc.members b
    rw [hv']
    dsimp only
    refine ((Collections.perm_toList σ (hr.edges_eq hv hv')).filterMap _).trans ?_
    rw [List.filterMap_map]
    simp only [Function.comp_def, hr.partitionOf?_eq, hpartition, hinside, List.Perm.refl]

/-- The profiles tell the same, in another order. -/
structure SameProfile (f f' : Profile ℚ) : Prop where
  members : f'.members.Perm f.members
  ties : f'.ties.Perm f.ties

theorem Renames.sameProfile (hc : Renames σ c c') (hr : g.Renames σ h) :
    SameProfile (c.profile g) (c'.profile h) := by
  have hmembers := Collections.perm_toList_set σ hc.members
  constructor
  · have hnotes : ∀ a, (h.vertex? (σ a)).map (fun v => (v.partition, v.weight)) =
        (g.vertex? a).map fun v => (v.partition, v.weight) := by
      refine hr.map_eq fun v v' hnote => ?_
      simp only [Vertex.note, Prod.mk.injEq] at hnote
      rw [hnote.2.1, hnote.2.2.1]
    refine ((hmembers.filterMap _).map _).trans ?_
    rw [profile, List.map_filterMap, List.map_filterMap, List.filterMap_map]
    simp only [Function.comp_def, hnotes, List.Perm.refl]
  · rw [ties_profile, ties_profile]
    refine (hmembers.flatMap_right _).trans ?_
    rw [List.flatMap_map]
    exact List.Perm.flatMap_left _ fun a _ => hc.perm_tiesAt hr a

variable {f f' : Profile ℚ}

theorem SameProfile.gain_eq (hf : SameProfile f f') (cost : ℚ) : f'.gain cost = f.gain cost := by
  funext dest
  have hweights : Weight.sum ((f'.members.filter (·.1 ≠ dest)).map (·.2)) =
      Weight.sum ((f.members.filter (·.1 ≠ dest)).map (·.2)) := by
    rw [Exact.sum_eq, Exact.sum_eq]
    exact ((hf.members.filter _).map _).sum_eq
  have hties : f'.ties.foldl (Profile.boundaryChange dest) 0 =
      f.ties.foldl (Profile.boundaryChange dest) 0 := by
    refine hf.ties.foldl_eq' (fun s _ t _ total => ?_) 0
    simp only [boundaryChange_eq_add, add_right_comm]
  rw [Profile.gain, Profile.gain, hweights, hties]

theorem SameProfile.coAccess_eq (hf : SameProfile f f') : f'.coAccess = f.coAccess := by
  rw [Profile.coAccess, Profile.coAccess]
  refine hf.ties.foldl_eq' (fun s _ t _ sums => ?_) ∅
  by_cases hs : s.inside = true
  · simp [hs]
  by_cases ht : t.inside = true
  · simp [ht]
  rw [if_neg hs, if_neg ht, if_neg ht, if_neg hs]
  refine Collections.alter_comm sums s.target t.target fun old => ?_
  simp [add_right_comm]

/-! ## Plans -/

/-- What a move would carry in one graph it carries in the other. -/
theorem Renames.exists_incoming (hc : Renames σ c c') (hr : g.Renames σ h) {v : Vertex ℚ}
    (hv : v ∈ c.incoming g c.dest) :
    ∃ v' ∈ c'.incoming h c'.dest, v'.partition = v.partition ∧ v'.key = v.key := by
  obtain ⟨⟨a, ha, hva⟩, hne⟩ := mem_incoming.mp hv
  obtain ⟨v', hv', hnote⟩ := hr.exists_vertex hva
  simp only [Vertex.note, Prod.mk.injEq] at hnote
  obtain ⟨hkey, -, hpartition, -⟩ := hnote
  refine ⟨v', mem_incoming.mpr ⟨⟨σ a, (hc.members a).mpr ha, hv'⟩, ?_⟩,
    hpartition, hkey⟩
  rw [hpartition, hc.dest]
  exact hne

theorem needsMove_iff {c : Clump ℚ} {g : Graph ℚ} :
    c.needsMove g = true ↔ ∃ v, v ∈ c.incoming g c.dest := by
  rw [needsMove, Bool.not_eq_true', List.isEmpty_eq_false_iff_exists_mem]

theorem Renames.needsMove_eq (hc : Renames σ c c') (hr : g.Renames σ h) :
    c'.needsMove h = c.needsMove g := by
  rw [Bool.eq_iff_iff, needsMove_iff, needsMove_iff]
  constructor
  · rintro ⟨v, hv⟩
    obtain ⟨v', hv', -⟩ := hc.symm.exists_incoming hr.symm hv
    exact ⟨v', hv'⟩
  · rintro ⟨v, hv⟩
    obtain ⟨v', hv', -⟩ := hc.exists_incoming hr hv
    exact ⟨v', hv'⟩

theorem Renames.subset_sources (hc : Renames σ c c') (hr : g.Renames σ h) {s : PartitionId}
    (hs : s ∈ c.sources g) : s ∈ c'.sources h := by
  obtain ⟨v, hv, rfl⟩ := mem_sources.mp hs
  obtain ⟨v', hv', hpartition, -⟩ := hc.exists_incoming hr hv
  exact mem_sources.mpr ⟨v', hv', hpartition⟩

theorem Renames.subset_carried (hc : Renames σ c c') (hr : g.Renames σ h) {s : PartitionId}
    {k : Key} (hk : k ∈ c.carried g s) : k ∈ c'.carried h s := by
  simp only [carried, List.mem_map, List.mem_filter, decide_eq_true_eq] at hk ⊢
  obtain ⟨v, ⟨hv, rfl⟩, rfl⟩ := hk
  obtain ⟨v', hv', hpartition, hkey⟩ := hc.exists_incoming hr hv
  exact ⟨v', ⟨hv', hpartition⟩, hkey⟩

theorem Renames.sources_eq (hc : Renames σ c c') (hr : g.Renames σ h) :
    c'.sources h = c.sources g := by
  refine congrArg Std.ExtTreeSet.toList (Std.ExtTreeSet.ext_mem fun s => ?_)
  rw [← Std.ExtTreeSet.mem_toList, ← Std.ExtTreeSet.mem_toList]
  exact ⟨hc.symm.subset_sources hr.symm, hc.subset_sources hr⟩

theorem ofKeys_congr {source dest : PartitionId} {ks ks' : List Key}
    (hks : ∀ k, k ∈ ks ↔ k ∈ ks') :
    Move.ofKeys source dest ks = Move.ofKeys source dest ks' := by
  have hset : Std.ExtTreeSet.ofList ks = Std.ExtTreeSet.ofList ks' := by
    refine Std.ExtTreeSet.ext_mem fun k => ?_
    simpa using hks k
  rw [Move.ofKeys, Move.ofKeys, hset]

/-- The moves of a clump do not depend on how the vertices are numbered. -/
theorem Renames.plan_eq (hc : Renames σ c c') (hr : g.Renames σ h) : c'.plan h = c.plan g := by
  have hmoves : c'.rawMoves h = c.rawMoves g := by
    rw [rawMoves, rawMoves, hc.sources_eq hr, hc.dest]
    refine List.map_congr_left fun s _ => ofKeys_congr fun k => ?_
    exact ⟨hc.symm.subset_carried hr.symm, hc.subset_carried hr⟩
  exact congrArg Plan.ofMoves hmoves

end

end Clump

end Reshard
