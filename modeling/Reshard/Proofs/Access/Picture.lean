import Mathlib.Data.Finset.Card
import Reshard.Proofs.Access.Renaming

/-!
What a graph tells of its keys, whatever the numbers of their vertices (`Graph.picture`). How a
transaction changes the picture depends on the set of its keys only (`picture_observe`), and
transactions may change places (`Picture.add_comm`). Graphs with the same picture differ in the
numbers of their vertices only (`exists_renames`).
-/

namespace Reshard

/-- What is known of keys that were accessed. -/
@[ext]
structure Picture (W : Type) where
  /-- The weight and the partition of a key, and whether it was moved. -/
  note : Key → Option (W × PartitionId × Bool)
  /-- The weight of the edge between two keys. -/
  tie : Key → Key → Option W

namespace Picture

variable {W : Type} [Weight W]

/-- What is noted of a key that is accessed, for the first time or once more. -/
def count (place : PartitionId) : Option (W × PartitionId × Bool) → W × PartitionId × Bool
  | none => (0 + 1, place, false)
  | some (weight, partition, moved) => (weight + 1, partition, moved)

/-- The picture after a transaction with the given keys. -/
def add (place : Key → PartitionId) (f : Picture W) (ks : KeySet) : Picture W where
  note k := if k ∈ ks then some (count (place k) (f.note k)) else f.note k
  tie k k' :=
    if k ∈ ks ∧ k' ∈ ks ∧ k' ≠ k then some ((f.tie k k').getD 0 + 1) else f.tie k k'

/-- Two transactions may change places. -/
theorem add_comm (place : Key → PartitionId) (f : Picture W) (ks ks' : KeySet) :
    (f.add place ks).add place ks' = (f.add place ks').add place ks := by
  ext1
  · funext k
    by_cases hk : k ∈ ks <;> by_cases hk' : k ∈ ks' <;> simp [add, hk, hk']
  · funext k k'
    by_cases h : k ∈ ks ∧ k' ∈ ks ∧ k' ≠ k <;>
      by_cases h' : k ∈ ks' ∧ k' ∈ ks' ∧ k' ≠ k <;>
      simp only [add, h, h', if_false]

end Picture

namespace Graph

section

variable {W : Type}

/-- What a graph tells of a vertex, apart from its key and its edges. -/
def noteOf? (g : Graph W) (a : VertexId) : Option (W × PartitionId × Bool) :=
  (g.vertex? a).map fun v => (v.weight, v.partition, v.moved)

def picture (g : Graph W) : Picture W where
  note k := (g.idOf? k).bind g.noteOf?
  tie k k' := (g.idOf? k).bind fun a => (g.idOf? k').bind fun b => g.edge? a b

theorem note_picture_of_id {g : Graph W} {k : Key} {a : VertexId} (ha : g.idOf? k = some a) :
    g.picture.note k = g.noteOf? a := by
  simp [picture, ha]

theorem note_picture_of_none {g : Graph W} {k : Key} (hk : g.idOf? k = none) :
    g.picture.note k = none := by
  simp [picture, hk]

theorem tie_picture_of_ids {g : Graph W} {k k' : Key} {a b : VertexId} (ha : g.idOf? k = some a)
    (hb : g.idOf? k' = some b) : g.picture.tie k k' = g.edge? a b := by
  simp [picture, ha, hb]

/-- A key has a vertex if anything is noted of it. -/
theorem Sound.idOf?_eq_none_iff {g : Graph W} (hg : g.Sound) {k : Key} :
    g.idOf? k = none ↔ g.picture.note k = none := by
  refine ⟨note_picture_of_none, fun hnote => ?_⟩
  rw [Option.eq_none_iff_forall_ne_some]
  intro a ha
  obtain ⟨v, hv⟩ := exists_vertex (hg.idOf_lt ha)
  rw [note_picture_of_id ha, noteOf?, hv] at hnote
  nomatch hnote

theorem Sound.id_inj {g : Graph W} (hg : g.Sound) {k k' : Key} {a : VertexId}
    (h : g.idOf? k = some a) (h' : g.idOf? k' = some a) : k = k' :=
  Option.some.inj ((hg.key_of_idOf h).symm.trans (hg.key_of_idOf h'))

end

/-! ## Accesses -/

section

variable {W : Type} [Weight W] {g : Graph W}

theorem noteOf?_extend (g : Graph W) (k : Key) (p : PartitionId) (a : VertexId) :
    (g.extend k p).noteOf? a = if a = g.size then some (0 + 1, p, false) else g.noteOf? a := by
  simp only [noteOf?, vertex?, extend, Array.getElem?_push, size]
  by_cases h : a = g.vertices.size <;> simp [h]

/-- A new key gets its note. -/
theorem note_extend (hg : g.Sound) {k : Key} (hk : g.idOf? k = none) (p : PartitionId) (k' : Key) :
    (g.extend k p).picture.note k' =
      if k' = k then some (0 + 1, p, false) else g.picture.note k' := by
  have hids := g.idOf?_extend k p k'
  rcases eq_or_ne k' k with rfl | hne
  · rw [if_pos rfl] at hids
    rw [note_picture_of_id hids, noteOf?_extend, if_pos rfl, if_pos rfl]
  · rw [if_neg hne.symm] at hids
    rw [if_neg hne]
    cases hid : g.idOf? k' with
    | none => rw [note_picture_of_none (hids.trans hid), note_picture_of_none hid]
    | some a =>
      have hold : a ≠ g.size := Nat.ne_of_lt (hg.idOf_lt hid)
      rw [note_picture_of_id (hids.trans hid), note_picture_of_id hid, noteOf?_extend,
        if_neg hold]

/-- A known key weighs more, and the notes of the others are what they were. -/
theorem note_weigh (hg : g.Sound) {k : Key} {id : VertexId} (hk : g.idOf? k = some id) (k' : Key) :
    (g.modify id fun v => { v with weight := v.weight + 1 }).picture.note k' =
      if k' = k then (g.picture.note k).map fun n => (n.1 + 1, n.2) else g.picture.note k' := by
  have hids : ∀ k, (g.modify id fun v => { v with weight := v.weight + 1 }).idOf? k =
      g.idOf? k := fun _ => rfl
  rcases eq_or_ne k' k with rfl | hne
  · rw [if_pos rfl, note_picture_of_id ((hids k').trans hk), note_picture_of_id hk, noteOf?,
      noteOf?, vertex?_modify, if_pos rfl, Option.map_map, Option.map_map]
    rfl
  · rw [if_neg hne]
    cases hid : g.idOf? k' with
    | none => rw [note_picture_of_none ((hids k').trans hid), note_picture_of_none hid]
    | some a =>
      have hother : id ≠ a := fun heq => hne (hg.id_inj hid (heq ▸ hk))
      rw [note_picture_of_id ((hids k').trans hid), note_picture_of_id hid, noteOf?, noteOf?,
        vertex?_modify, if_neg hother]

theorem note_access (hg : g.Sound) (k : Key) (p : PartitionId) (k' : Key) :
    (g.access k p).1.picture.note k' =
      if k' = k then some (Picture.count p (g.picture.note k)) else g.picture.note k' := by
  cases hid : g.idOf? k with
  | none =>
    rw [access_of_new hid, note_extend hg hid, note_picture_of_none hid]
    rfl
  | some id =>
    have hknown : g.picture.note k ≠ none := by
      rw [ne_eq, ← hg.idOf?_eq_none_iff, hid]
      exact Option.some_ne_none id
    obtain ⟨n, hn⟩ := Option.ne_none_iff_exists'.mp hknown
    rw [access_of_known hid, note_weigh hg hid, hn]
    rfl

theorem tie_access (hg : g.Sound) (k : Key) (p : PartitionId) :
    (g.access k p).1.picture.tie = g.picture.tie := by
  funext k₁ k₂
  cases hid : g.idOf? k with
  | none =>
    rw [access_of_new hid]
    -- The new vertex has no edges yet.
    have hsize : ∀ a, g.edge? g.size a = none := edge?_eq_none_of_size_le (Nat.le_refl _)
    have hsize' : ∀ a, g.edge? a g.size = none := fun a => (hg.edge_symm _ _).trans (hsize a)
    simp only [picture, idOf?_extend, edge?_extend]
    by_cases h₁ : k = k₁ <;> by_cases h₂ : k = k₂ <;> simp_all
  | some id =>
    rw [access_of_known hid]
    have hedges : ∀ a b, (g.modify id fun v => { v with weight := v.weight + 1 }).edge? a b =
        g.edge? a b := g.edge?_modify id fun _ => rfl
    simp only [picture, hedges]
    rfl

/-- The accesses of a transaction. -/
def accesses (g : Graph W) (place : Key → PartitionId) (ks : List Key) : Graph W :=
  ks.foldl (fun g k => (g.access k (place k)).1) g

theorem Sound.accesses (hg : g.Sound) (place : Key → PartitionId) (ks : List Key) :
    (g.accesses place ks).Sound := by
  induction ks generalizing g with
  | nil => exact hg
  | cons k rest ih => exact ih (hg.access k (place k))

theorem note_accesses (hg : g.Sound) (place : Key → PartitionId) {ks : List Key} (hks : ks.Nodup)
    (k : Key) :
    (g.accesses place ks).picture.note k =
      if k ∈ ks then some (Picture.count (place k) (g.picture.note k)) else g.picture.note k := by
  induction ks generalizing g with
  | nil => simp [Graph.accesses]
  | cons k' rest ih =>
    obtain ⟨hnot, hrest⟩ := List.nodup_cons.mp hks
    have hfirst := note_access hg k' (place k') k
    rw [Graph.accesses, List.foldl_cons, ← Graph.accesses, ih (hg.access k' (place k')) hrest,
      hfirst]
    rcases eq_or_ne k k' with rfl | hne
    · simp [hnot]
    · simp [hne]

theorem tie_accesses (hg : g.Sound) (place : Key → PartitionId) (ks : List Key) :
    (g.accesses place ks).picture.tie = g.picture.tie := by
  induction ks generalizing g with
  | nil => rfl
  | cons k rest ih =>
    rw [Graph.accesses, List.foldl_cons, ← Graph.accesses, ih (hg.access k (place k)),
      tie_access hg]

/-! ## Co-accesses -/

omit [Weight W] in
/-- The vertices of keys that have been accessed. -/
theorem exists_idsOf {ks : List Key} (hks : ∀ k ∈ ks, g.idOf? k ≠ none) :
    ∃ ids, g.idsOf ks = .ok ids ∧ ∀ a, a ∈ ids ↔ ∃ k ∈ ks, g.idOf? k = some a := by
  induction ks with
  | nil => exact ⟨[], rfl, by simp⟩
  | cons k rest ih =>
    obtain ⟨ids, hids, hmem⟩ := ih fun k' hk' => hks k' (List.mem_cons_of_mem _ hk')
    obtain ⟨id, hid⟩ := Option.ne_none_iff_exists'.mp (hks k List.mem_cons_self)
    refine ⟨id :: ids, ?_, ?_⟩
    · rw [idsOf, hid, hids]
      rfl
    · intro a
      simp only [List.mem_cons, hmem, exists_eq_or_imp, hid, Option.some.injEq, eq_comm (a := a)]

theorem exists_edges_addEdges (v : Vertex W) (ids : List VertexId) :
    ∃ edges, v.addEdges ids = { v with edges } := by
  induction ids generalizing v with
  | nil => exact ⟨v.edges, rfl⟩
  | cons id rest ih => exact ih (v.addEdge id)

theorem noteOf?_tie (g : Graph W) (ids : List VertexId) (id a : VertexId) :
    (g.tie ids id).noteOf? a = g.noteOf? a := by
  rw [noteOf?, noteOf?, tie, vertex?_modify]
  split
  · cases g.vertex? a with
    | none => rfl
    | some v =>
      obtain ⟨edges, hedges⟩ := exists_edges_addEdges v (ids.filter (· ≠ id))
      rw [Option.map_some, Option.map_some, Option.map_some, hedges]
  · rfl

theorem noteOf?_foldl_tie (ids todo : List VertexId) (g : Graph W) (a : VertexId) :
    (todo.foldl (fun g id => g.tie ids id) g).noteOf? a = g.noteOf? a := by
  induction todo generalizing g with
  | nil => rfl
  | cons id rest ih => rw [List.foldl_cons, ih, noteOf?_tie]

/-- A co-access of known keys changes nothing but their ties. -/
theorem picture_coAccess (hg : g.Sound) {ks : List Key} (hks : ∀ k ∈ ks, g.idOf? k ≠ none) :
    ∃ h, g.coAccess ks = .ok h ∧ h.Sound ∧ h.picture.note = g.picture.note ∧
      ∀ k k', h.picture.tie k k' = if k ∈ ks ∧ k' ∈ ks ∧ k' ≠ k then
        some ((g.picture.tie k k').getD 0 + 1) else g.picture.tie k k' := by
  obtain ⟨ids, hids, hmem⟩ := exists_idsOf hks
  have hok : g.coAccess ks = .ok (g.link (Std.ExtTreeSet.ofList ids).toList) := by
    rw [coAccess, hids]
    rfl
  have hmem' : ∀ {a k}, g.idOf? k = some a →
      (a ∈ (Std.ExtTreeSet.ofList ids).toList ↔ k ∈ ks) := by
    intro a k hk
    simp only [Std.ExtTreeSet.mem_toList, Std.ExtTreeSet.mem_ofList, List.contains_iff_mem, hmem]
    constructor
    · rintro ⟨k', hk', hid'⟩
      exact hg.id_inj hk hid' ▸ hk'
    · intro hk'
      exact ⟨k, hk', hk⟩
  have hlt : ∀ a ∈ (Std.ExtTreeSet.ofList ids).toList, a < g.size := by
    intro a ha
    exact idsOf_lt hg hids a (by simpa using ha)
  have hindex : ∀ k, (g.link (Std.ExtTreeSet.ofList ids).toList).idOf? k = g.idOf? k :=
    fun k => congrArg (·[k]?) (index_foldl_tie _ _ g)
  refine ⟨_, hok, hg.coAccess hok, ?_, fun k k' => ?_⟩
  · have hnotes : (g.link (Std.ExtTreeSet.ofList ids).toList).noteOf? = g.noteOf? :=
      funext (noteOf?_foldl_tie _ _ g)
    simp only [picture, hindex, hnotes]
  · cases hk : g.idOf? k with
    | none =>
      have hnot : k ∉ ks := fun hmem => hks k hmem hk
      simp [picture, hindex, hk, hnot]
    | some a =>
      cases hk' : g.idOf? k' with
      | none =>
        have hnot : k' ∉ ks := fun hmem => hks k' hmem hk'
        simp [picture, hindex, hk, hk', hnot]
      | some b =>
        have hne : b ≠ a ↔ k' ≠ k := by
          refine not_congr ⟨fun heq => hg.id_inj hk' (heq ▸ hk), fun heq => ?_⟩
          rw [heq, hk] at hk'
          exact (Option.some.inj hk').symm
        rw [tie_picture_of_ids ((hindex k).trans hk) ((hindex k').trans hk'),
          tie_picture_of_ids hk hk', edge?_link (Collections.nodup_toList _) hlt]
        simp only [hmem' hk, hmem' hk', hne]

/-- What a transaction adds to a graph depends on the set of its keys only. -/
theorem picture_observe (hg : g.Sound) (place : Key → PartitionId) (ks : KeySet) :
    ∃ h, (g.accesses place ks.toList).coAccess ks.toList = .ok h ∧ h.Sound ∧
      h.picture = g.picture.add place ks := by
  have hsound := hg.accesses place ks.toList
  have hnote := note_accesses hg place (Collections.nodup_toList ks)
  have hknown : ∀ k ∈ ks.toList, (g.accesses place ks.toList).idOf? k ≠ none := by
    intro k hk
    rw [ne_eq, hsound.idOf?_eq_none_iff, hnote, if_pos hk]
    exact Option.some_ne_none _
  obtain ⟨h, hok, hh, hnote', htie⟩ := picture_coAccess hsound hknown
  refine ⟨h, hok, hh, ?_⟩
  ext1
  · funext k
    rw [hnote', hnote]
    simp only [Std.ExtTreeSet.mem_toList, Picture.add]
  · funext k k'
    rw [htie, tie_accesses hg]
    simp only [Std.ExtTreeSet.mem_toList, Picture.add]

end

/-! ## Pictures and renamings -/

section

variable {W : Type} {g h : Graph W}

/-- The vertex of another graph that has the same key. -/
def counterpart (g h : Graph W) (a : VertexId) : VertexId :=
  ((g.keyOf? a).bind h.idOf?).getD a

theorem counterpart_of_key {a b : VertexId} {k : Key} (hk : g.keyOf? a = some k)
    (hb : h.idOf? k = some b) : g.counterpart h a = b := by
  rw [counterpart, hk, Option.bind_some, hb]
  rfl

/-- Every vertex has its counterpart, if both graphs tell of the same keys. -/
theorem Sound.counterpart_of_lt (hg : g.Sound) (hh : h.Sound) (heq : g.picture = h.picture)
    {a : VertexId} (ha : a < g.size) :
    ∃ k, g.idOf? k = some a ∧ h.idOf? k = some (g.counterpart h a) := by
  obtain ⟨v, hv⟩ := exists_vertex ha
  have hkey : g.keyOf? a = some v.key := by simp [keyOf?, hv]
  have hid := hg.idOf_of_key hkey
  have hknown : h.idOf? v.key ≠ none := by
    rw [ne_eq, hh.idOf?_eq_none_iff, ← heq, ← hg.idOf?_eq_none_iff, hid]
    exact Option.some_ne_none a
  obtain ⟨b, hb⟩ := Option.ne_none_iff_exists'.mp hknown
  refine ⟨v.key, hid, ?_⟩
  rw [counterpart_of_key hkey hb]
  exact hb

theorem counterpart_of_size_le {a : VertexId} (ha : g.size ≤ a) : g.counterpart h a = a := by
  rw [counterpart, keyOf?_eq_none_iff.mpr ha]
  rfl

theorem Sound.size_le (hg : g.Sound) (hh : h.Sound) (heq : g.picture = h.picture) :
    g.size ≤ h.size := by
  have hcard : (Finset.range g.size).card ≤ (Finset.range h.size).card := by
    refine Finset.card_le_card_of_injOn (g.counterpart h) ?_ ?_
    · intro a ha
      obtain ⟨k, -, hb⟩ := hg.counterpart_of_lt hh heq (Finset.mem_range.mp ha)
      exact Finset.mem_coe.mpr (Finset.mem_range.mpr (hh.idOf_lt hb))
    · intro a ha a' ha' hsame
      obtain ⟨k, hk, hb⟩ := hg.counterpart_of_lt hh heq (Finset.mem_range.mp ha)
      obtain ⟨k', hk', hb'⟩ := hg.counterpart_of_lt hh heq (Finset.mem_range.mp ha')
      rw [← hsame] at hb'
      rw [hh.id_inj hb' hb, hk] at hk'
      exact Option.some.inj hk'
  simpa using hcard

theorem Sound.size_eq (hg : g.Sound) (hh : h.Sound) (heq : g.picture = h.picture) :
    g.size = h.size :=
  Nat.le_antisymm (hg.size_le hh heq) (hh.size_le hg heq.symm)

theorem Sound.counterpart_counterpart (hg : g.Sound) (hh : h.Sound) (heq : g.picture = h.picture)
    (a : VertexId) : h.counterpart g (g.counterpart h a) = a := by
  rcases Nat.lt_or_ge a g.size with hlt | hge
  · obtain ⟨k, hk, hb⟩ := hg.counterpart_of_lt hh heq hlt
    exact counterpart_of_key (hh.key_of_idOf hb) hk
  · rw [counterpart_of_size_le hge, counterpart_of_size_le]
    rw [← hg.size_eq hh heq]
    exact hge

theorem map_note_eq {a b : VertexId} (hkey : h.keyOf? b = g.keyOf? a)
    (hnote : h.noteOf? b = g.noteOf? a) :
    (h.vertex? b).map Vertex.note = (g.vertex? a).map Vertex.note := by
  cases hv : g.vertex? a <;> cases hv' : h.vertex? b <;>
    simp_all [keyOf?, noteOf?, Vertex.note]

/-- Graphs with the same picture differ in the numbers of their vertices only. -/
theorem exists_renames (hg : g.Sound) (hh : h.Sound) (heq : g.picture = h.picture) :
    ∃ σ, Renames σ g h := by
  -- A vertex becomes the one of the same key, and numbers that no vertex has stay as they are.
  let σ : Equiv.Perm VertexId :=
    ⟨g.counterpart h, h.counterpart g, hg.counterpart_counterpart hh heq,
      hh.counterpart_counterpart hg heq.symm⟩
  have hsize := hg.size_eq hh heq
  have habove : ∀ a, g.size ≤ a → h.size ≤ σ a := by
    intro a ha
    show h.size ≤ g.counterpart h a
    rw [counterpart_of_size_le ha, ← hsize]
    exact ha
  refine ⟨σ, fun a => ?_, fun a b => ?_⟩
  · rcases Nat.lt_or_ge a g.size with ha | ha
    · obtain ⟨k, hk, hk'⟩ := hg.counterpart_of_lt hh heq ha
      refine map_note_eq ((hh.key_of_idOf hk').trans (hg.key_of_idOf hk).symm) ?_
      calc h.noteOf? (σ a) = h.picture.note k := (note_picture_of_id hk').symm
        _ = g.picture.note k := by rw [heq]
        _ = g.noteOf? a := note_picture_of_id hk
    · rw [vertex?_eq_none_iff.mpr ha, vertex?_eq_none_iff.mpr (habove a ha)]
  · rcases Nat.lt_or_ge a g.size with ha | ha
    · rcases Nat.lt_or_ge b g.size with hb | hb
      · obtain ⟨k, hk, hk'⟩ := hg.counterpart_of_lt hh heq ha
        obtain ⟨l, hl, hl'⟩ := hg.counterpart_of_lt hh heq hb
        calc h.edge? (σ a) (σ b) = h.picture.tie k l := (tie_picture_of_ids hk' hl').symm
          _ = g.picture.tie k l := by rw [heq]
          _ = g.edge? a b := tie_picture_of_ids hk hl
      · rw [hh.edge_symm, hg.edge_symm, edge?_eq_none_of_size_le (habove b hb),
          edge?_eq_none_of_size_le hb]
    · rw [edge?_eq_none_of_size_le (habove a ha), edge?_eq_none_of_size_le ha]

namespace Renames

variable {σ : Equiv.Perm VertexId}

theorem idOf?_eq (hr : Renames σ g h) (hg : g.Sound) (hh : h.Sound) (k : Key) :
    h.idOf? k = (g.idOf? k).map σ := by
  cases hk : g.idOf? k with
  | some a =>
    exact hh.idOf_of_key ((hr.keyOf?_eq a).trans (hg.key_of_idOf hk))
  | none =>
    rw [Option.map_none, Option.eq_none_iff_forall_ne_some]
    intro b hb
    have hkey : g.keyOf? (σ.symm b) = some k := by
      rw [← hr.keyOf?_eq, Equiv.apply_symm_apply]
      exact hh.key_of_idOf hb
    rw [hg.idOf_of_key hkey] at hk
    nomatch hk

/-- Graphs that differ in the numbers of their vertices only have the same picture. -/
theorem picture_eq (hr : Renames σ g h) (hg : g.Sound) (hh : h.Sound) :
    g.picture = h.picture := by
  have hnote : ∀ a, h.noteOf? (σ a) = g.noteOf? a :=
    hr.map_eq fun _ _ hnote => congrArg (·.2) hnote
  ext1
  · funext k
    simp only [picture, hr.idOf?_eq hg hh, Option.bind_map, Function.comp_def, hnote]
  · funext k k'
    simp only [picture, hr.idOf?_eq hg hh, Option.bind_map, Function.comp_def, hr.edge]

end Renames

end

end Graph

end Reshard
