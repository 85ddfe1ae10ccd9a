import Reshard.Access.Clump
import Reshard.Proofs.Access.Moves
import Reshard.Proofs.Plan.Merging

/-!
The moves of one clump. Each takes the members on one partition away from there, and together they
take every record to where the vertices are put (`executes_plan`).
-/

namespace Reshard

namespace Clump

variable {W : Type}

/-- The keys that a move to the clump's destination would take from `source`. -/
def carried (c : Clump W) (g : Graph W) (source : PartitionId) : List Key :=
  ((c.incoming g c.dest).filter (·.partition = source)).map (·.key)

/-- The partitions that the clump is taken from. -/
def sources (c : Clump W) (g : Graph W) : List PartitionId :=
  (Std.ExtTreeSet.ofList ((c.incoming g c.dest).map (·.partition))).toList

def rawMoves (c : Clump W) (g : Graph W) : List Move :=
  (c.sources g).map fun source => .ofKeys source c.dest (c.carried g source)

theorem mem_incoming {c : Clump W} {g : Graph W} {dest : PartitionId} {v : Vertex W} :
    v ∈ c.incoming g dest ↔
      (∃ id ∈ c.members, g.vertex? id = some v) ∧ v.partition ≠ dest := by
  simp [incoming]

theorem mem_sources {c : Clump W} {g : Graph W} {s : PartitionId} :
    s ∈ c.sources g ↔ ∃ v ∈ c.incoming g c.dest, v.partition = s := by
  simp [sources]

theorem exists_carried {c : Clump W} {g : Graph W} {s : PartitionId} (h : s ∈ c.sources g) :
    ∃ k, k ∈ c.carried g s := by
  obtain ⟨v, hv, hs⟩ := mem_sources.mp h
  exact ⟨v.key, by simpa [carried] using ⟨v, ⟨hv, hs⟩, rfl⟩⟩

/-- A key is taken from where its vertex is, if this is a member away from the destination. -/
theorem mem_carried {c : Clump W} {g : Graph W} (hg : g.Sound) {s : PartitionId} {k : Key} :
    k ∈ c.carried g s ↔
      ∃ id ∈ c.members,
        g.idOf? k = some id ∧ g.partitionOf? id = some s ∧ s ≠ c.dest := by
  simp only [carried, List.mem_map, List.mem_filter, mem_incoming, decide_eq_true_eq]
  constructor
  · rintro ⟨v, ⟨⟨⟨id, hid, hv⟩, hne⟩, rfl⟩, rfl⟩
    have hkey : g.keyOf? id = some v.key := by simp [Graph.keyOf?, hv]
    refine ⟨id, hid, hg.idOf_of_key hkey, ?_, hne⟩
    simp [Graph.partitionOf?, hv]
  · rintro ⟨id, hid, hk, hs, hne⟩
    have hkey := hg.key_of_idOf hk
    obtain ⟨v, hv, hvs⟩ := Option.map_eq_some_iff.mp hs
    simp only [Graph.keyOf?, hv, Option.map_some, Option.some.injEq] at hkey
    refine ⟨v, ⟨⟨⟨id, hid, hv⟩, ?_⟩, hvs⟩, hkey⟩
    rw [hvs]
    exact hne

theorem isList_rawMoves {c : Clump W} {g : Graph W} : ∀ m ∈ c.rawMoves g, m.IsList := by
  intro m hm
  obtain ⟨s, -, rfl⟩ := List.mem_map.mp hm
  rfl

theorem covers_rawMoves {c : Clump W} {g : Graph W} :
    ∀ m ∈ c.rawMoves g, ∃ k, m.covers k = true := by
  intro m hm
  obtain ⟨s, hs, rfl⟩ := List.mem_map.mp hm
  obtain ⟨k, hk⟩ := exists_carried hs
  exact ⟨k, Move.covers_ofKeys.mpr hk⟩

/-- The moves of a clump have different sources, so that none of them are merged. -/
theorem moves_plan (c : Clump W) (g : Graph W) : (c.plan g).moves = c.rawMoves g := by
  have hnodup : ((c.rawMoves g).map Move.route).Nodup := by
    rw [rawMoves, List.map_map]
    apply List.Nodup.map
    · intro s s' h
      exact congrArg Prod.fst h
    · exact Collections.nodup_toList _
  exact Plan.ofMoves_of_nodup hnodup covers_rawMoves

theorem mem_sources_of_carried {c : Clump W} {g : Graph W} {s : PartitionId} {k : Key}
    (h : k ∈ c.carried g s) : s ∈ c.sources g := by
  obtain ⟨v, hv, -⟩ := List.mem_map.mp h
  rw [List.mem_filter, decide_eq_true_eq] at hv
  exact mem_sources.mpr ⟨v, hv⟩

/-- The clump is moved by its moves: a member that none of them takes is on the destination. -/
theorem placeOf?_apply {g : Graph W} (hg : g.Sound) (c : Clump W) (k : Key) :
    (g.reassign c.members.toList c.dest).placeOf? k =
      if ∃ s ∈ c.sources g, k ∈ c.carried g s then some c.dest else g.placeOf? k := by
  rw [Graph.placeOf?_reassign hg]
  by_cases hcarried : ∃ s ∈ c.sources g, k ∈ c.carried g s
  · rw [if_pos hcarried]
    obtain ⟨s, -, hk⟩ := hcarried
    obtain ⟨id, hmem, hid, -⟩ := (mem_carried hg).mp hk
    rw [if_pos ⟨id, Std.ExtTreeSet.mem_toList.mpr hmem, hid⟩]
  · rw [if_neg hcarried]
    split
    · next hmember =>
      obtain ⟨id, hmem, hid⟩ := hmember
      obtain ⟨v, hv⟩ := Graph.exists_vertex (hg.idOf_lt hid)
      have hp : g.partitionOf? id = some v.partition := by simp [Graph.partitionOf?, hv]
      have hdest : v.partition = c.dest := by
        by_cases hne : v.partition = c.dest
        · exact hne
        · have hk : k ∈ c.carried g v.partition :=
            (mem_carried hg).mpr ⟨id, Std.ExtTreeSet.mem_toList.mp hmem, hid, hp, hne⟩
          exact absurd ⟨_, mem_sources_of_carried hk, hk⟩ hcarried
      rw [Graph.placeOf?, hid, Option.bind_some, hp, hdest]
    · rfl

/-- The moves of a clump take every record to where its vertex is put. -/
theorem executes_plan {g : Graph W} (hg : g.Sound) (c : Clump W) :
    Executes (c.plan g).moves g.placeOf? (g.reassign c.members.toList c.dest).placeOf? := by
  have hplace : ∀ s ∈ c.sources g, ∀ k ∈ c.carried g s, g.placeOf? k = some s := by
    intro s _ k hk
    obtain ⟨id, -, hid, hs, -⟩ := (mem_carried hg).mp hk
    rw [Graph.placeOf?, hid, Option.bind_some, hs]
  rw [moves_plan, funext (placeOf?_apply hg c)]
  exact executes_gather c.dest (c.carried g) (Collections.nodup_toList _) g.placeOf? hplace

end Clump

end Reshard
