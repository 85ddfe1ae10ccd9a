import Mathlib.Algebra.BigOperators.Group.Finset.Sigma
import Mathlib.Algebra.Order.Field.Rat
import Mathlib.Logic.Relation
import Reshard.Proofs.Access.Expansion
import Reshard.Proofs.Access.Gain

/-!
Where a clump ends. The frontier is kept up to date by each new member: the member leaves it, and
its other neighbours come to it or get heavier there. What this amounts to, in whatever order
members are taken in, is the border of a connected set (`Region`), with the weights of all edges
across it (`region_attempts`).
-/

namespace Reshard

theorem Graph.adjacent_of_vertex {W : Type} {g : Graph W} {a : VertexId} {v : Vertex W}
    (h : g.vertex? a = some v) (b : VertexId) :
    g.Adjacent a b ↔ ∃ w, (b, w) ∈ v.edges.toList := by
  simp only [Adjacent, edge?, edgesOf_of_vertex h, Option.ne_none_iff_exists',
    Std.ExtTreeMap.mem_toList_iff_getElem?_eq_some]

namespace Clump

/-! ## The frontier after a new member -/

theorem notMem_insert_iff {members : Std.ExtTreeSet VertexId} {id a : VertexId} :
    a ∉ members.insert id ↔ id ≠ a ∧ a ∉ members := by
  rw [Std.ExtTreeSet.mem_insert, Std.compare_eq_iff_eq, not_or]

section

variable {W : Type} [Weight W]

/-- Edges add to the frontier, and take nothing from it. -/
theorem mem_frontier_touch {c : Clump W} {e : VertexId × W} {a : VertexId} :
    a ∈ (c.touch e).frontier ↔ a ∈ c.frontier ∨ (a ∉ c.members ∧ e.1 = a) := by
  rw [touch]
  split
  · next h =>
    constructor
    · exact .inl
    · rintro (hmem | ⟨hnot, rfl⟩)
      · exact hmem
      · exact absurd h hnot
  · next h =>
    rw [Std.ExtTreeMap.mem_alter]
    rcases eq_or_ne e.1 a with rfl | hne
    · simp [h]
    · simp [hne]

theorem mem_frontier_reach_iff {c : Clump W} {edges : List (VertexId × W)} {a : VertexId} :
    a ∈ (c.reach edges).frontier ↔
      a ∈ c.frontier ∨ (a ∉ c.members ∧ ∃ w, (a, w) ∈ edges) := by
  refine ⟨mem_frontier_reach, ?_⟩
  rw [reach_eq_foldl]
  induction edges generalizing c with
  | nil => simp
  | cons e rest ih =>
    intro h
    apply ih
    rw [mem_frontier_touch, members_touch]
    rcases h with hmem | ⟨hnot, w, hw⟩
    · exact .inl (.inl hmem)
    · rcases List.mem_cons.mp hw with rfl | hw
      · exact .inl (.inr ⟨hnot, rfl⟩)
      · exact .inr ⟨hnot, w, hw⟩

/-- A new member leaves the frontier, and its neighbours outside come to it. -/
theorem mem_frontier_absorb {g : Graph W} {c : Clump W} {id : VertexId} {v : Vertex W}
    (hv : g.vertex? id = some v) {a : VertexId} (ha : a ∉ c.members.insert id) :
    a ∈ (c.absorb id v.edges).frontier ↔ a ∈ c.frontier ∨ g.Adjacent id a := by
  have hne : id ≠ a := (notMem_insert_iff.mp ha).1
  rw [absorb, mem_frontier_reach_iff, Graph.adjacent_of_vertex hv, Std.ExtTreeMap.mem_erase]
  simp [ha, hne]

end

section

variable {g : Graph ℚ} {c : Clump ℚ} {id a : VertexId}

theorem getD_touch (e : VertexId × ℚ) (ha : a ∉ c.members) :
    ((c.touch e).frontier[a]?).getD 0 =
      (c.frontier[a]?).getD 0 + if e.1 = a then e.2 else 0 := by
  rw [touch]
  by_cases he : e.1 = a
  · subst he
    simp [ha]
  · rw [if_neg he, add_zero]
    split
    · rfl
    · simp [he, Std.ExtTreeMap.getElem?_alter]

theorem getD_reach (edges : List (VertexId × ℚ)) (ha : a ∉ c.members) :
    ((c.reach edges).frontier[a]?).getD 0 =
      (c.frontier[a]?).getD 0 + (edges.map fun e => if e.1 = a then e.2 else 0).sum := by
  rw [reach_eq_foldl]
  induction edges generalizing c with
  | nil => simp
  | cons e rest ih =>
    have ha' : a ∉ (c.touch e).members := by rwa [members_touch]
    rw [List.foldl_cons, ih ha', getD_touch e ha, List.map_cons, List.sum_cons, add_assoc]

/-- A new member adds the weight of its edge to each vertex outside. -/
theorem getD_absorb (hg : g.Sound) {v : Vertex ℚ} (hv : g.vertex? id = some v)
    (ha : a ∉ c.members.insert id) :
    ((c.absorb id v.edges).frontier[a]?).getD 0 = (c.frontier[a]?).getD 0 + g.pull id a := by
  have hne : id ≠ a := (notMem_insert_iff.mp ha).1
  have hsum := Graph.sum_edges hg hv (fun b w => if b = a then w else 0) (by simp)
  have hedge : ∑ b ∈ Finset.range g.size, (if b = a then g.pull id b else 0) = g.pull id a := by
    rw [Finset.sum_ite_eq' (Finset.range g.size) a]
    split
    · rfl
    · next hlt =>
      rw [Finset.mem_range, Nat.not_lt] at hlt
      rw [Graph.pull_symm hg, Graph.pull, Graph.edge?_eq_none_of_size_le hlt, Option.getD_none]
  rw [absorb, getD_reach _ ha, hsum, hedge]
  simp [hne, Std.ExtTreeMap.getElem?_erase]

end

/-! ## Borders -/

/-- The weight of the edges that join a vertex to some others. -/
def pullTo (g : Graph ℚ) (members : Std.ExtTreeSet VertexId) (a : VertexId) : ℚ :=
  (members.toList.map (g.pull a)).sum

theorem pullTo_insert (g : Graph ℚ) {members : Std.ExtTreeSet VertexId} {id : VertexId}
    (h : id ∉ members) (a : VertexId) :
    pullTo g (members.insert id) a = pullTo g members a + g.pull a id := by
  have hperm := (Collections.toList_insert_perm h).map (g.pull a)
  rw [pullTo, hperm.sum_eq, List.map_cons, List.sum_cons, add_comm, pullTo]

theorem pullTo_eq_zero {g : Graph ℚ} {members : Std.ExtTreeSet VertexId} {a : VertexId}
    (h : ¬ ∃ b ∈ members, g.Adjacent a b) : pullTo g members a = 0 := by
  apply List.sum_eq_zero
  intro w hw
  obtain ⟨b, hb, rfl⟩ := List.mem_map.mp hw
  exact Graph.pull_eq_zero fun hadj => h ⟨b, Std.ExtTreeSet.mem_toList.mp hb, hadj⟩

/-- The frontier is what is next to the members, each vertex with the weight of all its edges to
them. -/
structure Bordered (c : Clump ℚ) (g : Graph ℚ) : Prop where
  members_lt : ∀ a ∈ c.members, a < g.size
  mem_frontier_iff : ∀ a,
    a ∈ c.frontier ↔ a ∉ c.members ∧ ∃ b ∈ c.members, g.Adjacent a b
  weight_eq : ∀ a ∈ c.frontier, c.frontier[a]? = some (pullTo g c.members a)

section

variable {g : Graph ℚ} {c : Clump ℚ} {id : VertexId}

/-- A vertex outside has the weight of its edges to the members, be it on the frontier or not. -/
theorem Bordered.getD_frontier (h : c.Bordered g) {a : VertexId} (ha : a ∉ c.members) :
    (c.frontier[a]?).getD 0 = pullTo g c.members a := by
  by_cases hmem : a ∈ c.frontier
  · rw [h.weight_eq a hmem, Option.getD_some]
  · have hnone : ¬ ∃ b ∈ c.members, g.Adjacent a b :=
      fun hadj => hmem ((h.mem_frontier_iff a).mpr ⟨ha, hadj⟩)
    rw [Std.ExtTreeMap.getElem?_eq_none hmem, Option.getD_none, pullTo_eq_zero hnone]

theorem bordered_empty (g : Graph ℚ) (dest : PartitionId) :
    (⟨∅, ∅, dest⟩ : Clump ℚ).Bordered g where
  members_lt a ha := by simp at ha
  mem_frontier_iff a := by simp
  weight_eq a ha := by simp at ha

theorem Bordered.proper (h : c.Bordered g) (hg : g.Sound) : c.Proper g where
  members := h.members_lt
  frontier := by
    intro a ha
    obtain ⟨-, b, -, hadj⟩ := (h.mem_frontier_iff a).mp ha
    obtain ⟨w, hw⟩ := Option.ne_none_iff_exists'.mp (hg.adjacent_comm.mp hadj)
    exact hg.edge_lt hw
  apart a ha := ((h.mem_frontier_iff a).mp ha).1

/-- Members, frontier and weights all move on by the one new member. -/
theorem Bordered.absorb (h : c.Bordered g) (hg : g.Sound) {v : Vertex ℚ}
    (hv : g.vertex? id = some v) (hid : id ∉ c.members) : (c.absorb id v.edges).Bordered g := by
  have hproper : (c.absorb id v.edges).Proper g :=
    (h.proper hg).absorb (Graph.lt_size_of_vertex hv) (lt_of_edges hg hv)
  have hmembers : (c.absorb id v.edges).members = c.members.insert id := members_absorb c id v.edges
  refine ⟨hproper.members, ?frontier, ?weight⟩
  case frontier =>
    -- A vertex outside is next to the members now if it was before, or if it is next to `id`.
    intro a
    rw [hmembers]
    by_cases ha : a ∈ c.members.insert id
    · have hnot : a ∉ (c.absorb id v.edges).frontier :=
        fun hmem => hproper.apart a hmem (hmembers ▸ ha)
      simp [ha, hnot]
    · have houtside : a ∉ c.members := (notMem_insert_iff.mp ha).2
      rw [mem_frontier_absorb hv ha, h.mem_frontier_iff, hg.adjacent_comm]
      simp only [ha, houtside, not_false_eq_true, true_and, Std.ExtTreeSet.mem_insert,
        Std.compare_eq_iff_eq, or_and_right, exists_or, exists_eq_left']
      exact or_comm
  case weight =>
    intro a hmem
    have ha : a ∉ c.members.insert id := hmembers ▸ hproper.apart a hmem
    have houtside : a ∉ c.members := (notMem_insert_iff.mp ha).2
    have hsum := getD_absorb (c := c) hg hv ha
    rw [h.getD_frontier houtside, Graph.pull_symm hg, ← pullTo_insert g hid] at hsum
    obtain ⟨w, hw⟩ :=
      Option.isSome_iff_exists.mp (Std.ExtTreeMap.mem_iff_isSome_getElem?.mp hmem)
    rw [hw, Option.getD_some] at hsum
    rw [hw, hmembers, hsum]

end

/-! ## Regions -/

/-- An edge between two members. -/
def Inner (c : Clump ℚ) (g : Graph ℚ) (a b : VertexId) : Prop :=
  a ∈ c.members ∧ b ∈ c.members ∧ g.Adjacent a b

/-- The members are the seed and what is connected to it through other members, and the frontier is
their border. -/
structure Region (c : Clump ℚ) (g : Graph ℚ) (seed : VertexId) : Prop extends c.Bordered g where
  seed_mem : seed ∈ c.members
  connected : ∀ a ∈ c.members, ∀ b ∈ c.members, Relation.ReflTransGen (c.Inner g) a b

section

variable {g : Graph ℚ} {c d : Clump ℚ} {seed id : VertexId} {dest : PartitionId}

theorem inner_symm (hg : g.Sound) : Std.Symm (c.Inner g) where
  symm _ _ := fun ⟨ha, hb, hadj⟩ => ⟨hb, ha, hg.adjacent_comm.mp hadj⟩

/-- A set is connected if each vertex can be reached from one of them. -/
theorem connected_of_hub (hg : g.Sound) (hub : VertexId)
    (h : ∀ a ∈ c.members, Relation.ReflTransGen (c.Inner g) hub a) :
    ∀ a ∈ c.members, ∀ b ∈ c.members, Relation.ReflTransGen (c.Inner g) a b := by
  intro a ha b hb
  have hsymm := inner_symm (c := c) hg
  have hback : Relation.ReflTransGen (c.Inner g) a hub := Std.Symm.symm hub a (h a ha)
  exact hback.trans (h b hb)

theorem region_seed (hg : g.Sound) (h : Clump.seed g seed dest = .ok c) : c.Region g seed := by
  have hmembers := members_seed h
  obtain ⟨v, hv, h⟩ := Outcome.bind_eq_ok.mp h
  cases h
  have hv := Graph.vertex_eq_ok_iff.mp hv
  refine ⟨(bordered_empty g dest).absorb hg hv (by simp), ?_, connected_of_hub hg seed ?_⟩
  · rw [hmembers]
    simp
  · intro a ha
    rw [hmembers] at ha
    have heq : seed = a := by simpa using ha
    rw [heq]

/-- A vertex of the frontier is next to a member, and through it the region stays connected. -/
theorem Region.expand (hc : c.Region g seed) (hg : g.Sound) (h : c.expand g id = .ok d) :
    d.Region g seed := by
  have hmembers := members_expand h
  obtain ⟨hid, v, hv, rfl⟩ := absorb_of_expand h
  obtain ⟨hnot, b, hb, hadj⟩ := (hc.mem_frontier_iff id).mp hid
  have hkept : ∀ {a}, a ∈ c.members → a ∈ (c.absorb id v.edges).members := by
    intro a ha
    rw [hmembers, Std.ExtTreeSet.mem_insert]
    exact .inr ha
  -- Paths among the members so far stay inside, and the new member hangs on `b`.
  have hold : ∀ a ∈ c.members,
      Relation.ReflTransGen ((c.absorb id v.edges).Inner g) seed a := by
    intro a ha
    refine Relation.ReflTransGen.mono ?_ _ _ (hc.connected seed hc.seed_mem a ha)
    exact fun _ _ ⟨hx, hy, hxy⟩ => ⟨hkept hx, hkept hy, hxy⟩
  have hnew : id ∈ (c.absorb id v.edges).members := by
    rw [hmembers]
    exact Std.ExtTreeSet.mem_insert_self
  refine ⟨hc.toBordered.absorb hg hv hnot, hkept hc.seed_mem, connected_of_hub hg seed ?_⟩
  intro a ha
  rw [hmembers, Std.ExtTreeSet.mem_insert, Std.compare_eq_iff_eq] at ha
  rcases ha with rfl | ha
  · exact (hold b hb).tail ⟨hkept hb, hnew, hg.adjacent_comm.mp hadj⟩
  · exact hold a ha

/-- Takes in a vertex if it can be taken in. -/
def attempt (g : Graph ℚ) (c : Clump ℚ) (id : VertexId) : Clump ℚ :=
  match c.expand g id with
  | .ok d => d
  | .error _ => c

theorem Region.attempt (hc : c.Region g seed) (hg : g.Sound) (id : VertexId) :
    (attempt g c id).Region g seed := by
  rw [Clump.attempt]
  split
  · next d h => exact hc.expand hg h
  · exact hc

/-- Why a vertex is not taken in. -/
def refusal (g : Graph ℚ) (id : VertexId) : Failure :=
  match g.vertex? id with
  | some v => .notOnFrontier id v.key
  | none => .noVertex id

/-- What becomes of a request to take in a vertex: one of the frontier is the one new member, and
any other is refused. -/
structure Answers (c : Clump ℚ) (g : Graph ℚ) : Prop where
  grows : ∀ id ∈ c.frontier, ∃ d, c.expand g id = .ok d ∧ attempt g c id = d ∧
    d.members = c.members.insert id ∧ d.size = c.size + 1
  refuses : ∀ id ∉ c.frontier, c.expand g id = .error (refusal g id) ∧ attempt g c id = c

theorem expand_of_notMem (hid : id ∉ c.frontier) : c.expand g id = .error (refusal g id) := by
  rw [Clump.expand, refusal]
  cases hv : g.vertex? id with
  | none =>
    rw [Graph.vertex, hv]
    rfl
  | some v =>
    rw [Graph.vertex_eq_ok_iff.mpr hv]
    exact if_neg (mt Std.ExtTreeMap.contains_iff_mem.mp hid)

theorem Proper.answers (hc : c.Proper g) : c.Answers g where
  grows := by
    intro id hid
    obtain ⟨d, hd⟩ := hc.frontier.exists_expand hid
    exact ⟨d, hd, by rw [Clump.attempt, hd], members_expand hd, hc.size_expand hd⟩
  refuses := by
    intro id hid
    have herror := expand_of_notMem (g := g) hid
    exact ⟨herror, by rw [Clump.attempt, herror]⟩

theorem Region.foldl_attempt (hc : c.Region g seed) (hg : g.Sound) (ids : List VertexId) :
    (ids.foldl (Clump.attempt g) c).Region g seed := by
  induction ids generalizing c with
  | nil => exact hc
  | cons id rest ih => exact ih (hc.attempt hg id)

/-- A clump stays a region around its seed, whatever vertices it is asked to take in. -/
theorem region_attempts (hg : g.Reachable) (hseed : seed < g.size) (dest : PartitionId) :
    ∃ c, Clump.seed g seed dest = .ok c ∧ ∀ ids : List VertexId,
      (ids.foldl (Clump.attempt g) c).Region g seed ∧
      (ids.foldl (Clump.attempt g) c).Answers g := by
  have hsound := Graph.sound_of_reachable hg
  obtain ⟨c, hc⟩ := exists_seed hseed dest
  refine ⟨c, hc, ?_⟩
  intro ids
  have hregion := (region_seed hsound hc).foldl_attempt hsound ids
  exact ⟨hregion, (hregion.proper hsound).answers⟩

/-- In the chain of three records, a clump from one end takes in the middle, but not the other end
in front of it. -/
theorem region_attempts_chain : ∃ g, chain = .ok g ∧ 0 < g.size ∧
    ∃ c, Clump.seed g 0 1 = .ok c ∧
      ([2, 1].foldl (Clump.attempt g) c).members.toList = [0, 1] ∧
      ∀ ids : List VertexId,
        (ids.foldl (Clump.attempt g) c).Region g 0 ∧
        (ids.foldl (Clump.attempt g) c).Answers g := by
  have hruns : (chain >>= fun g => (Clump.seed g 0 1).map fun c =>
      (g.size, ([2, 1].foldl (Clump.attempt g) c).members.toList)).toOption =
        some (3, [0, 1]) := by
    decide +kernel
  obtain ⟨g, hchain, h⟩ := Outcome.bind_eq_ok.mp (Outcome.eq_ok_of_toOption hruns)
  obtain ⟨c, hc, h⟩ := Outcome.map_eq_ok.mp h
  obtain ⟨hsize, hmembers⟩ := Prod.mk.inj h
  have hlt : 0 < g.size := by omega
  obtain ⟨c', hc', hall⟩ := region_attempts (reachable_chain hchain) hlt 1
  have heq : c' = c := Except.ok.inj (hc'.symm.trans hc)
  exact ⟨g, hchain, hlt, c, hc, hmembers, heq ▸ hall⟩

end

end Clump

end Reshard
