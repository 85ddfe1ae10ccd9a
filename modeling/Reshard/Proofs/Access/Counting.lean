import Mathlib.Data.List.Induction
import Reshard.Proofs.Exact
import Reshard.Proofs.Access.Picture

/-!
What a graph counts. However accesses, co-accesses and moves follow each other, the weight of a
vertex is the number of accesses to its key, and the weight of an edge the number of co-accesses
that name both of its keys and succeed (`tallies_run`). With this the numbering of the vertices and
the symmetry of the edges are said of any history (`counted_run`).
-/

namespace Reshard

namespace Graph

/-- What can be done with a graph. -/
inductive Act
  | access (k : Key) (p : PartitionId)
  | coAccess (ks : List Key)
  | setPartition (id : VertexId) (p : PartitionId)
  | markMoved (id : VertexId)

/-- The act is an access to `k`. -/
def Act.accesses (k : Key) : Act → Bool
  | .access k' _ => k' = k
  | _ => false

section

variable {W : Type} [Weight W]

def step (g : Graph W) : Act → Except Failure (Graph W)
  | .access k p => .ok (g.access k p).1
  | .coAccess ks => g.coAccess ks
  | .setPartition id p => g.setPartition id p
  | .markMoved id => g.markMoved id

/-- An act that fails leaves the graph as it was. -/
def after (g : Graph W) (a : Act) : Graph W := (g.step a).toOption.getD g

/-- The graph after a history of acts, from the empty graph on. -/
def run (acts : List Act) : Graph W := acts.foldl after ∅

/-- The act is a co-access that names both keys, and succeeds. -/
def joins (g : Graph W) (k k' : Key) : Act → Bool
  | .coAccess ks => (g.coAccess ks).isOk && k ∈ ks && k' ∈ ks
  | _ => false

/-- How many acts of the history, which begins with `g`, join the two keys. -/
def together (k k' : Key) : Graph W → List Act → Nat
  | _, [] => 0
  | g, a :: rest => (if g.joins k k' a then 1 else 0) + together k k' (g.after a) rest

theorem run_concat (acts : List Act) (a : Act) :
    (run (acts ++ [a]) : Graph W) = (run acts).after a := by
  rw [run, List.foldl_append]
  rfl

theorem together_concat (k k' : Key) (g : Graph W) (acts : List Act) (a : Act) :
    together k k' g (acts ++ [a]) =
      together k k' g acts + if (acts.foldl after g).joins k k' a then 1 else 0 := by
  induction acts generalizing g with
  | nil => exact Nat.add_comm _ _
  | cons b rest ih => rw [List.cons_append, together, ih, together, List.foldl_cons, Nat.add_assoc]

theorem after_of_ok {g h : Graph W} {a : Act} (ha : g.step a = .ok h) : g.after a = h := by
  rw [after, ha]
  rfl

theorem after_of_error {g : Graph W} {a : Act} {e : Failure} (ha : g.step a = .error e) :
    g.after a = g := by
  rw [after, ha]
  rfl

/-- Every graph has a history. -/
theorem exists_run {g : Graph W} (h : g.Reachable) : ∃ acts, g = run acts := by
  suffices hnext : ∀ {acts : List Act} {h : Graph W} (a : Act), (run acts).step a = .ok h →
      ∃ acts', h = run acts' by
    induction h with
    | empty => exact ⟨[], rfl⟩
    | access k p _ ih =>
      obtain ⟨acts, rfl⟩ := ih
      exact hnext (.access k p) rfl
    | coAccess ks _ hk ih =>
      obtain ⟨acts, rfl⟩ := ih
      exact hnext (.coAccess ks) hk
    | setPartition id p _ hp ih =>
      obtain ⟨acts, rfl⟩ := ih
      exact hnext (.setPartition id p) hp
    | markMoved id _ hm ih =>
      obtain ⟨acts, rfl⟩ := ih
      exact hnext (.markMoved id) hm
  intro acts h a ha
  exact ⟨acts ++ [a], by rw [run_concat, after_of_ok ha]⟩

/-! ## Co-accesses that fail -/

/-- The first key without a vertex is named. -/
theorem coAccess_of_unknown {g : Graph W} {ks : List Key} (h : ∃ k ∈ ks, g.idOf? k = none) :
    ∃ k ∈ ks, g.idOf? k = none ∧ g.coAccess ks = .error (.unmonitoredKey k) := by
  suffices hids : ∃ k ∈ ks, g.idOf? k = none ∧ g.idsOf ks = .error (.unmonitoredKey k) by
    obtain ⟨k, hk, hnone, hids⟩ := hids
    refine ⟨k, hk, hnone, ?_⟩
    rw [coAccess, hids]
    rfl
  induction ks with
  | nil =>
    obtain ⟨k, hk, -⟩ := h
    cases hk
  | cons first rest ih =>
    cases hfirst : g.idOf? first with
    | none =>
      refine ⟨first, List.mem_cons_self, hfirst, ?_⟩
      rw [idsOf, hfirst]
    | some id =>
      obtain ⟨k, hk, hnone⟩ := h
      have hrest : k ∈ rest := by
        rcases List.mem_cons.mp hk with rfl | hk
        · rw [hfirst] at hnone
          cases hnone
        · exact hk
      obtain ⟨k, hk, hnone, hids⟩ := ih ⟨k, hrest, hnone⟩
      refine ⟨k, List.mem_cons_of_mem _ hk, hnone, ?_⟩
      rw [idsOf, hfirst, hids]
      rfl

end

/-! ## Tallies -/

theorem Sound.idOf?_eq_some_iff {W : Type} {g : Graph W} (hg : g.Sound) {k : Key} {id : VertexId} :
    g.idOf? k = some id ↔ ∃ v, g.vertex? id = some v ∧ v.key = k := by
  rw [← Option.map_eq_some_iff, ← keyOf?]
  exact ⟨hg.key_of_idOf, hg.idOf_of_key⟩

/-- A weight that counts. What was not counted yet is not there. -/
def tally (n : Nat) : Option ℚ := if n = 0 then none else some (n : ℚ)

theorem tally_succ (n : Nat) : some ((tally n).getD 0 + 1) = tally (n + 1) := by
  unfold tally
  by_cases hn : n = 0 <;> simp [hn]

theorem eq_of_tally {n : Nat} {w : ℚ} (h : some w = tally n) : w = n := by
  rw [tally] at h
  split at h
  · nomatch h
  · exact Option.some.inj h

theorem tally_eq_none_iff {n : Nat} : tally n = none ↔ n = 0 := by
  simp [tally]

/-- The graph is sound, its keys have been accessed `n` times each, and every two of them together
`m` times. -/
structure Tallies (g : Graph ℚ) (n : Key → Nat) (m : Key → Key → Nat) : Prop where
  sound : g.Sound
  note : ∀ k, (g.picture.note k).map (·.1) = tally (n k)
  tie : ∀ k k', k' ≠ k → g.picture.tie k k' = tally (m k k')

namespace Tallies

variable {g h : Graph ℚ} {n : Key → Nat} {m : Key → Key → Nat}

theorem idOf?_eq_none_iff (hg : g.Tallies n m) {k : Key} : g.idOf? k = none ↔ n k = 0 := by
  rw [hg.sound.idOf?_eq_none_iff, ← tally_eq_none_iff, ← hg.note, Option.map_eq_none_iff]

theorem empty : Tallies ∅ (fun _ => 0) fun _ _ => 0 where
  sound := .empty
  note _ := rfl
  tie _ _ _ := rfl

theorem access (hg : g.Tallies n m) (k : Key) (p : PartitionId) :
    (g.access k p).1.Tallies (fun k' => n k' + if k = k' then 1 else 0) m where
  sound := hg.sound.access k p
  note k' := by
    rw [note_access hg.sound]
    rcases eq_or_ne k' k with rfl | hne
    · rw [if_pos rfl, if_pos rfl, ← tally_succ, ← hg.note]
      cases g.picture.note k' <;> rfl
    · rw [if_neg hne, if_neg hne.symm, hg.note, Nat.add_zero]
  tie k₁ k₂ hne := by
    rw [tie_access hg.sound, hg.tie k₁ k₂ hne]

/-- Changing the place of a vertex changes no tally. -/
theorem modify (hg : g.Tallies n m) (id : VertexId) {f : Vertex ℚ → Vertex ℚ}
    (hrecord : ∀ v, (f v).record = v.record) : (g.modify id f).Tallies n m where
  sound := hg.sound.modify id (fun v => congrArg (·.1) (hrecord v))
    (fun v => congrArg (·.2.2) (hrecord v))
  note k := by
    have hweight : ∀ a, ((g.modify id f).noteOf? a).map (·.1) = (g.noteOf? a).map (·.1) := by
      intro a
      rw [noteOf?, noteOf?, vertex?_modify]
      split
      · cases g.vertex? a with
        | none => rfl
        | some v => exact congrArg (fun r => some r.2.1) (hrecord v)
      · rfl
    rw [← hg.note]
    simp only [picture, Option.map_bind, Function.comp_def, hweight]
    rfl
  tie k k' hne := by
    rw [← hg.tie k k' hne]
    simp only [picture, edge?_modify g id fun v => congrArg (·.2.2) (hrecord v)]
    rfl

theorem coAccess (hg : g.Tallies n m) {ks : List Key} (hks : ∀ k ∈ ks, g.idOf? k ≠ none) :
    ∃ h, g.coAccess ks = .ok h ∧
      h.Tallies n fun k k' => m k k' + if k ∈ ks ∧ k' ∈ ks then 1 else 0 := by
  obtain ⟨h, hok, hsound, hnote, htie⟩ := picture_coAccess hg.sound hks
  refine ⟨h, hok, hsound, fun k => ?_, fun k k' hne => ?_⟩
  · rw [hnote, hg.note]
  · rw [htie, hg.tie k k' hne]
    by_cases hboth : k ∈ ks ∧ k' ∈ ks
    · rw [if_pos ⟨hboth.1, hboth.2, hne⟩, if_pos hboth, tally_succ]
    · rw [if_neg fun hall => hboth ⟨hall.1, hall.2.1⟩, if_neg hboth, Nat.add_zero]

theorem weight (hg : g.Tallies n m) {id : VertexId} {v : Vertex ℚ} (hv : g.vertex? id = some v) :
    some v.weight = tally (n v.key) := by
  have hid := hg.sound.idOf?_eq_some_iff.mpr ⟨v, hv, rfl⟩
  rw [← hg.note v.key, note_picture_of_id hid, noteOf?, hv]
  rfl

theorem edge (hg : g.Tallies n m) {k k' : Key} {a b : VertexId} (hne : k' ≠ k)
    (ha : g.idOf? k = some a) (hb : g.idOf? k' = some b) : g.edge? a b = tally (m k k') := by
  rw [← tie_picture_of_ids ha hb]
  exact hg.tie k k' hne

/-- An act is counted if it accesses keys, or joins them. -/
theorem after (hg : g.Tallies n m) (a : Act) :
    (g.after a).Tallies (fun k => n k + if a.accesses k then 1 else 0)
      fun k k' => m k k' + if g.joins k k' a then 1 else 0 := by
  cases a with
  | access k p =>
    have hstep : g.step (.access k p) = .ok (g.access k p).1 := rfl
    rw [after_of_ok hstep]
    simpa [Act.accesses, joins] using hg.access k p
  | coAccess ks =>
    by_cases hknown : ∀ k ∈ ks, g.idOf? k ≠ none
    · obtain ⟨h, hok, hh⟩ := hg.coAccess hknown
      have hstep : g.step (.coAccess ks) = .ok h := hok
      rw [after_of_ok hstep]
      simpa [Act.accesses, joins, hok, Except.isOk, Except.toBool] using hh
    · simp only [not_forall, not_not] at hknown
      obtain ⟨k, hk, hnone⟩ := hknown
      obtain ⟨k, -, -, herror⟩ := coAccess_of_unknown ⟨k, hk, hnone⟩
      have hstep : g.step (.coAccess ks) = .error (.unmonitoredKey k) := herror
      rw [after_of_error hstep]
      simpa [Act.accesses, joins, herror, Except.isOk, Except.toBool] using hg
  | setPartition id p =>
    suffices hafter : (g.after (.setPartition id p)).Tallies n m by
      simpa [Act.accesses, joins] using hafter
    cases hstep : g.step (.setPartition id p) with
    | error e =>
      rw [after_of_error hstep]
      exact hg
    | ok h =>
      obtain ⟨_, -, hh⟩ := Outcome.bind_eq_ok.mp hstep
      rw [after_of_ok hstep, ← Except.ok.inj hh]
      exact hg.modify id fun _ => rfl
  | markMoved id =>
    suffices hafter : (g.after (.markMoved id)).Tallies n m by
      simpa [Act.accesses, joins] using hafter
    cases hstep : g.step (.markMoved id) with
    | error e =>
      rw [after_of_error hstep]
      exact hg
    | ok h =>
      obtain ⟨_, -, hh⟩ := Outcome.bind_eq_ok.mp hstep
      rw [after_of_ok hstep, ← Except.ok.inj hh]
      exact hg.modify id fun _ => rfl

end Tallies

theorem tallies_run (acts : List Act) :
    (run acts).Tallies (fun k => acts.countP (·.accesses k)) fun k k' =>
      together k k' (∅ : Graph ℚ) acts := by
  induction acts using List.reverseRecOn with
  | nil => exact .empty
  | append_singleton acts a ih =>
    simp only [run_concat, List.countP_append, List.countP_singleton, together_concat]
    exact ih.after a

/-! ## Histories -/

/-- What a graph tells of its history. -/
structure Counted (acts : List Act) (g : Graph ℚ) : Prop where
  /-- Keys that have been accessed have vertices, each its own, and there are no other vertices. -/
  known_iff : ∀ k, (∃ id, g.idOf? k = some id) ↔ ∃ a ∈ acts, a.accesses k = true
  idOf?_iff : ∀ k id, g.idOf? k = some id ↔ ∃ v, g.vertex? id = some v ∧ v.key = k
  id_inj : ∀ k k' id, g.idOf? k = some id → g.idOf? k' = some id → k = k'
  lt_size_iff : ∀ id, id < g.size ↔ ∃ k, g.idOf? k = some id
  weight : ∀ id v, g.vertex? id = some v → v.weight = acts.countP (·.accesses v.key)
  edge_symm : ∀ a b, g.edge? a b = g.edge? b a
  edge_irrefl : ∀ a, g.edge? a a = none
  edge_lt : ∀ a b w, g.edge? a b = some w → a < g.size ∧ b < g.size
  /-- There is no edge between keys that were never joined. -/
  edge : ∀ k k' a b, k' ≠ k → g.idOf? k = some a → g.idOf? k' = some b →
    let joined := together k k' (∅ : Graph ℚ) acts
    g.edge? a b = if joined = 0 then none else some (joined : ℚ)
  /-- A co-access of keys that have been accessed succeeds. Any other names a key that has not, and
  changes nothing. -/
  coAccess : ∀ ks, (∀ k ∈ ks, ∃ id, g.idOf? k = some id) → ∃ h, g.coAccess ks = .ok h
  unknown : ∀ ks, (∃ k ∈ ks, g.idOf? k = none) →
    (∃ k ∈ ks, g.idOf? k = none ∧ g.coAccess ks = .error (.unmonitoredKey k)) ∧
      g.after (.coAccess ks) = g

/-- After any history the graph has one vertex for each key that was accessed, weighs it by its
accesses and its edges by the co-accesses, and takes no co-access of a key that was not. -/
theorem counted_run (acts : List Act) : Counted acts (run acts) := by
  have hg := tallies_run acts
  have hknown : ∀ k, (∃ id, (run acts : Graph ℚ).idOf? k = some id) ↔
      (run acts : Graph ℚ).idOf? k ≠ none := fun k => Option.ne_none_iff_exists'.symm
  constructor
  · intro k
    rw [hknown, ne_eq, hg.idOf?_eq_none_iff, ← ne_eq, ← Nat.pos_iff_ne_zero,
      List.countP_pos_iff]
  · exact fun k id => hg.sound.idOf?_eq_some_iff
  · exact fun k k' id => hg.sound.id_inj
  · intro id
    constructor
    · intro hid
      obtain ⟨v, hv⟩ := exists_vertex hid
      exact ⟨v.key, hg.sound.idOf?_eq_some_iff.mpr ⟨v, hv, rfl⟩⟩
    · rintro ⟨k, hk⟩
      exact hg.sound.idOf_lt hk
  · intro id v hv
    exact eq_of_tally (hg.weight hv)
  · exact hg.sound.edge_symm
  · exact hg.sound.edge_irrefl
  · intro a b w hw
    refine ⟨hg.sound.edge_lt (a := b) (w := w) ?_, hg.sound.edge_lt hw⟩
    rw [hg.sound.edge_symm, hw]
  · intro k k' a b hne ha hb
    exact hg.edge hne ha hb
  · intro ks hks
    obtain ⟨h, hok, -⟩ := hg.coAccess fun k hk => (hknown k).mp (hks k hk)
    exact ⟨h, hok⟩
  · intro ks hks
    obtain ⟨k, hk, hnone, herror⟩ := coAccess_of_unknown hks
    exact ⟨⟨k, hk, hnone, herror⟩, after_of_error herror⟩

end Graph

end Reshard
