import Reshard.Proofs.Outcome
import Reshard.Proofs.Push.Tables
import Reshard.Push.Pool

/-!
What a batch takes out of the pool. The keys that it takes and those that are left are the keys that
there were (`Draft.Splits`). It ends when the budget is used up or no key is left, and it fails only
if the cost of its keys overflows (`Draft.yields_fill`).
-/

namespace Reshard

namespace BatchRule

theorem cost_pos (r : BatchRule) (n : Nat) : 0 < r.cost n := by
  unfold cost
  split
  · exact Nat.one_pos
  · exact Nat.lt_of_lt_of_le Nat.one_pos (Nat.le_max_right n 1)

/-- What keys use of the budget. -/
def costOf (r : BatchRule) (size : String → Nat) : List Key → Nat
  | [] => 0
  | k :: rest => r.cost (size k.table) + r.costOf size rest

section

variable {r : BatchRule} {size : String → Nat} {ks ks' : List Key}

theorem costOf_cons (k : Key) :
    r.costOf size (k :: ks) = r.cost (size k.table) + r.costOf size ks := rfl

theorem costOf_append : r.costOf size (ks ++ ks') = r.costOf size ks + r.costOf size ks' := by
  induction ks with
  | nil => exact (Nat.zero_add _).symm
  | cons k rest ih => rw [List.cons_append, costOf_cons, costOf_cons, ih, Nat.add_assoc]

theorem costOf_perm (h : ks.Perm ks') : r.costOf size ks = r.costOf size ks' := by
  induction h with
  | nil => rfl
  | cons k _ ih => rw [costOf_cons, costOf_cons, ih]
  | swap k k' rest => simp only [costOf_cons, Nat.add_left_comm]
  | trans _ _ ih ih' => rw [ih, ih']

theorem eq_nil_of_costOf (h : r.costOf size ks = 0) : ks = [] := by
  cases ks with
  | nil => rfl
  | cons k rest =>
    rw [costOf_cons] at h
    have hpos := r.cost_pos (size k.table)
    omega

end

/-- No sum of costs that filling a batch from these keys can meet overflows. -/
def Roomy (r : BatchRule) (size : String → Nat) (ks : List Key) : Prop :=
  ∀ k ∈ ks, ∀ used < r.limit, used + r.cost (size k.table) ≤ r.costOf size ks →
    used + r.cost (size k.table) < Word.limit

end BatchRule

namespace Draft

variable {r : BatchRule} {size : String → Nat} {t : Tables} {ks : List Key} {d d' d'' : Draft}
  {name : String} {names : List String}

/-- The keys are those taken and those left, and the budget was used for those taken. -/
structure Splits (r : BatchRule) (size : String → Nat) (ks : List Key) (d : Draft) : Prop where
  perm : (d.taken ++ d.left.keys).Perm ks
  used_eq : d.used = r.costOf size d.taken

theorem splits_start (t : Tables) : Splits r size t.keys (start t) :=
  ⟨.refl _, rfl⟩

theorem Splits.size_le (h : Splits r size ks d) : d.left.size ≤ ks.length := by
  rw [Tables.size_eq_length, ← h.perm.length_eq, List.length_append]
  exact Nat.le_add_left _ _

/-! ## One sweep -/

/-- A sweep over tables takes keys, unless the budget is used up or none of the tables has any. -/
structure Swept (r : BatchRule) (names : List String) (d d' : Draft) : Prop where
  tables : ∀ name, d'.left.hasTable name = true → d.left.hasTable name = true
  moves : d' = d ∨ d'.left.size < d.left.size
  stuck : d' = d → d.isFull r = true ∨ ∀ name ∈ names, d.left.hasTable name = false

theorem Swept.nil : Swept r [] d d :=
  ⟨fun _ h => h, .inl rfl, fun _ => .inr (by simp)⟩

theorem Swept.cons (h : Swept r [name] d d') (h' : Swept r names d' d'') :
    Swept r (name :: names) d d'' := by
  constructor
  · exact fun name hname => h.tables name (h'.tables name hname)
  · rcases h.moves with rfl | hless
    · exact h'.moves
    · rcases h'.moves with rfl | hless'
      · exact .inr hless
      · exact .inr (Nat.lt_trans hless' hless)
  · rintro rfl
    -- A key that was taken would be missing in the end.
    have hfirst : d' = d'' := by
      rcases h.moves with hsame | hless
      · exact hsame
      · rcases h'.moves with hsame | hless'
        · exact hsame.symm
        · exact absurd (Nat.lt_trans hless' hless) (Nat.lt_irrefl _)
    subst hfirst
    rcases h.stuck rfl with hfull | hnone
    · exact .inl hfull
    · exact (h'.stuck rfl).imp_right fun hrest => List.forall_mem_cons.mpr
        ⟨hnone name (List.mem_singleton_self name), hrest⟩

theorem Swept.of_first {k : Key} (hk : d.left.contains k = true) (cost : Nat) :
    Swept r [name] d ⟨k :: d.taken, cost, d.left.erase k⟩ := by
  have hless : (d.left.erase k).size < d.left.size := by
    rw [Tables.size_eq_length, Tables.size_eq_length, ← (Tables.perm_keys_erase hk).length_eq]
    exact Nat.lt_succ_self _
  constructor
  · intro name hname
    obtain ⟨a, ha, rfl⟩ := Tables.hasTable_iff.mp hname
    exact Tables.hasTable_iff.mpr ⟨a, (Tables.contains_erase.mp ha).2, rfl⟩
  · exact .inr hless
  · intro hsame
    exact absurd (congrArg (·.left.size) hsame) (Nat.ne_of_lt hless)

/-- Taking a key keeps the split. -/
theorem yields_take (h : Splits r size ks d) (name : String) :
    Outcome.Yields (fun d' => Splits r size ks d' ∧ Swept r [name] d d') (¬ r.Roomy size ks)
      (d.take r size name) := by
  unfold take
  split
  · next hfull => exact .ok ⟨h, fun _ hname => hname, .inl rfl, fun _ => .inl hfull⟩
  · next hfull =>
    have hroom : d.used < r.limit := by simpa [isFull] using hfull
    split
    · next hnone =>
      refine .ok ⟨h, fun _ hname => hname, .inl rfl, fun _ => .inr fun a ha => ?_⟩
      rw [List.mem_singleton.mp ha, ← Bool.not_eq_true]
      intro hname
      obtain ⟨k, hk⟩ := Tables.exists_first? hname
      rw [hnone] at hk
      nomatch hk
    · next k hfirst =>
      obtain ⟨hk, rfl⟩ := Tables.contains_of_first? hfirst
      have hperm : (k :: d.taken ++ (d.left.erase k).keys).Perm ks :=
        List.perm_middle.symm.trans
          (((Tables.perm_keys_erase hk).append_left d.taken).trans h.perm)
      have hcost : d.used + r.cost (size k.table) = r.costOf size (k :: d.taken) := by
        rw [BatchRule.costOf_cons, h.used_eq, Nat.add_comm]
      have hle : d.used + r.cost (size k.table) ≤ r.costOf size ks := by
        rw [← BatchRule.costOf_perm hperm, BatchRule.costOf_append, ← hcost]
        exact Nat.le_add_right _ _
      unfold Word.add Word.check
      split
      · exact .ok ⟨⟨hperm, hcost⟩, .of_first hk _⟩
      · next hoverflow =>
        refine .error fun hroomy => hoverflow (hroomy k ?_ _ hroom hle)
        exact hperm.subset List.mem_cons_self

theorem yields_foldlM_take (h : Splits r size ks d) (names : List String) :
    Outcome.Yields (fun d' => Splits r size ks d' ∧ Swept r names d d') (¬ r.Roomy size ks)
      (names.foldlM (take r size) d) := by
  induction names generalizing d with
  | nil => exact .ok ⟨h, .nil⟩
  | cons name rest ih =>
    rw [List.foldlM_cons]
    refine (yields_take h name).bind fun d' ⟨hsplits, hfirst⟩ => ?_
    exact (ih hsplits).imp fun d'' ⟨hsplits', hrest⟩ => ⟨hsplits', hfirst.cons hrest⟩

/-! ## Sweep after sweep -/

/-- The tables are drained, unless the budget is used up. -/
structure Drained (r : BatchRule) (names : List String) (d d' : Draft) : Prop where
  tables : ∀ name, d'.left.hasTable name = true → d.left.hasTable name = true
  full : d.isFull r = true → d' = d
  ended : d'.isFull r = true ∨ ∀ name ∈ names, d'.left.hasTable name = false

theorem Drained.append {names' : List String} (h : Drained r names d d')
    (h' : Drained r names' d' d'') : Drained r (names ++ names') d d'' := by
  constructor
  · exact fun name hname => h.tables name (h'.tables name hname)
  · intro hfull
    have hsame := h.full hfull
    subst hsame
    exact h'.full hfull
  · rcases h.ended with hfull | hnone
    · rw [h'.full hfull]
      exact .inl hfull
    · refine h'.ended.imp_right fun hnone' =>
        List.forall_mem_append.mpr ⟨fun name hname => ?_, hnone'⟩
      rw [← Bool.not_eq_true]
      intro hkept
      have hbefore := h'.tables name hkept
      rw [hnone name hname] at hbefore
      nomatch hbefore

theorem sweeps_nil (n : Nat) (d : Draft) : d.sweeps r size n [] = .ok d := by
  cases n with
  | zero => rfl
  | succ n =>
    rw [sweeps, if_pos]
    simp

/-- Each sweep takes a key, so that there are enough sweeps. -/
theorem yields_sweeps (h : Splits r size ks d) (n : Nat) (hn : d.left.size ≤ n)
    (names : List String) :
    Outcome.Yields (fun d' => Splits r size ks d' ∧ Drained r names d d') (¬ r.Roomy size ks)
      (d.sweeps r size n names) := by
  induction n generalizing d names with
  | zero =>
    refine .ok ⟨h, fun _ hname => hname, fun _ => rfl, .inr fun name _ => ?_⟩
    rw [Tables.size_eq_length, Nat.le_zero, List.length_eq_zero_iff] at hn
    rw [← Bool.not_eq_true]
    intro hname
    obtain ⟨k, hk, -⟩ := Tables.hasTable_iff.mp hname
    rw [← Tables.mem_keys, hn] at hk
    nomatch hk
  | succ n ih =>
    unfold sweeps
    split
    · next hend =>
      refine .ok ⟨h, fun _ hname => hname, fun _ => rfl, ?_⟩
      rw [Bool.or_eq_true, List.isEmpty_iff] at hend
      exact hend.imp_right fun hnil => by simp [hnil]
    · next hgoes =>
      have hfull : ¬ d.isFull r = true := fun hfull => hgoes (by simp [hfull])
      refine (yields_foldlM_take h names).bind fun d' ⟨hsplits, hswept⟩ => ?_
      have hgone : ∀ name ∈ names, name ∉ names.filter d'.left.hasTable →
          d'.left.hasTable name = false := by
        intro name hname hnot
        simpa [hname] using hnot
      rcases hswept.moves with rfl | hless
      · have hnil : names.filter d'.left.hasTable = [] := by
          rw [List.filter_eq_nil_iff]
          intro name hname
          simp [(hswept.stuck rfl).resolve_left hfull name hname]
        rw [hnil, sweeps_nil]
        exact .ok ⟨hsplits, fun _ hname => hname, fun _ => rfl,
          .inr ((hswept.stuck rfl).resolve_left hfull)⟩
      · refine (ih hsplits (by omega) (names.filter d'.left.hasTable)).imp
          fun d'' ⟨hsplits', hdrained⟩ =>
            ⟨hsplits', ?_, fun hbefore => absurd hbefore hfull, ?_⟩
        · exact fun name hname => hswept.tables name (hdrained.tables name hname)
        · refine hdrained.ended.imp_right fun hnone name hname => ?_
          by_cases hkept : name ∈ names.filter d'.left.hasTable
          · exact hnone name hkept
          · rw [← Bool.not_eq_true]
            intro hlater
            have hbefore := hdrained.tables name hlater
            rw [hgone name hname hkept] at hbefore
            nomatch hbefore

theorem yields_groups (h : Splits r size t.keys d) (groups : List (List String)) :
    Outcome.Yields (fun d' => Splits r size t.keys d' ∧ Drained r groups.flatten d d')
      (¬ r.Roomy size t.keys)
      (groups.foldlM (fun d names => d.sweeps r size t.size names) d) := by
  induction groups generalizing d with
  | nil => exact .ok ⟨h, fun _ hname => hname, fun _ => rfl, .inr (by simp)⟩
  | cons names rest ih =>
    have hn : d.left.size ≤ t.size := by
      rw [t.size_eq_length]
      exact h.size_le
    rw [List.foldlM_cons]
    refine (yields_sweeps h t.size hn names).bind fun d' ⟨hsplits, hfirst⟩ => ?_
    exact (ih hsplits).imp fun d'' ⟨hsplits', hrest⟩ => ⟨hsplits', hfirst.append hrest⟩

theorem mem_flatten_groups (s : Selection) (t : Tables) :
    name ∈ (s.groups t).flatten ↔ t.hasTable name = true := by
  cases s with
  | roundRobin => simp [Selection.groups, Tables.mem_names]
  | largestTableFirst => simp [Selection.groups, Tables.mem_namesBySize]

/-- A batch ends when the budget is used up or no key is left. -/
theorem yields_fill (r : BatchRule) (size : String → Nat) (t : Tables) :
    Outcome.Yields (fun d => Splits r size t.keys d ∧ (r.limit ≤ d.used ∨ d.left.keys = []))
      (¬ r.Roomy size t.keys) (fill r size t) := by
  refine (yields_groups (splits_start t) (r.selection.groups t)).imp
    fun d ⟨hsplits, hdrained⟩ => ⟨hsplits, ?_⟩
  refine hdrained.ended.imp (by simp [isFull]) fun hnone => ?_
  rw [List.eq_nil_iff_forall_not_mem]
  intro k hk
  have htable : d.left.hasTable k.table = true :=
    Tables.hasTable_iff.mpr ⟨k, Tables.mem_keys.mp hk, rfl⟩
  have hgroup := (mem_flatten_groups r.selection t).mpr (hdrained.tables _ htable)
  rw [hnone _ hgroup] at htable
  nomatch htable

end Draft

namespace Pool

variable {p next : Pool} {r : BatchRule} {size : String → Nat} {batch : List Key}

/-- What a batch makes of a pool. -/
structure Batched (r : BatchRule) (size : String → Nat) (p : Pool) (batch : List Key)
    (next : Pool) : Prop where
  skips : next.skips = []
  perm : (batch ++ next.waiting.keys).Perm p.drain.waiting.keys
  ended : r.limit ≤ r.costOf size batch ∨ next.waiting.keys = []

theorem yields_takeBatch (p : Pool) (r : BatchRule) (size : String → Nat) :
    Outcome.Yields (fun b => p.Batched r size b.1 b.2) (¬ r.Roomy size p.drain.waiting.keys)
      (p.takeBatch r size) := by
  refine (Draft.yields_fill r size p.drain.waiting).bind fun d ⟨hsplits, hended⟩ => ?_
  refine .ok ⟨rfl, ?_, ?_⟩
  · exact (d.taken.reverse_perm.append_right _).trans hsplits.perm
  · rw [BatchRule.costOf_perm d.taken.reverse_perm, ← hsplits.used_eq]
    exact hended

theorem Batched.nodup (h : p.Batched r size batch next) : batch.Nodup :=
  ((h.perm.nodup_iff.mpr (Tables.nodup_keys _)).of_append_left)

/-- A key is left if it waits, is not reported as pushed and is not taken. -/
theorem Batched.contains_iff (h : p.Batched r size batch next) {k : Key} :
    next.waiting.contains k = true ↔
      p.waiting.contains k = true ∧ k ∉ p.skips ∧ k ∉ batch := by
  have hmem : k ∈ batch ∨ next.waiting.contains k = true ↔
      k ∉ p.skips ∧ p.waiting.contains k = true := by
    rw [← Tables.mem_keys, ← List.mem_append, h.perm.mem_iff, Tables.mem_keys]
    exact Tables.contains_eraseMany
  have hdisjoint : k ∈ batch → next.waiting.contains k ≠ true := by
    intro hk hkept
    have hnodup := h.perm.nodup_iff.mpr (Tables.nodup_keys _)
    exact List.disjoint_of_nodup_append hnodup hk (Tables.mem_keys.mpr hkept)
  tauto

/-- A key that is taken waits, and is not reported as pushed. -/
theorem Batched.waits_of_mem (h : p.Batched r size batch next) {k : Key} (hk : k ∈ batch) :
    p.waiting.contains k = true ∧ k ∉ p.skips := by
  have hmem := h.perm.subset (List.mem_append_left _ hk)
  exact (Tables.contains_eraseMany.mp (Tables.mem_keys.mp hmem)).symm

/-- A batch with room for the whole pool takes all of it. -/
theorem exists_full_batch (hlimit : r.limit < Word.limit)
    (hfull : r.costOf size p.drain.waiting.keys ≤ r.limit) :
    ∃ batch next, p.takeBatch r size = .ok (batch, next) ∧ batch.Nodup ∧
      ∀ k, k ∈ batch ↔ p.waiting.contains k = true ∧ k ∉ p.skips := by
  have hroomy : r.Roomy size p.drain.waiting.keys := by
    intro k _ used _ hle
    omega
  obtain ⟨⟨batch, next⟩, hok, hbatched⟩ :=
    (yields_takeBatch p r size).exists_ok (not_not_intro hroomy)
  have hnone : next.waiting.keys = [] := by
    rcases hbatched.ended with hused | hnone
    · have hsum : r.costOf size batch + r.costOf size next.waiting.keys =
          r.costOf size p.drain.waiting.keys := by
        rw [← BatchRule.costOf_append, BatchRule.costOf_perm hbatched.perm]
      have hzero : r.costOf size next.waiting.keys = 0 := by
        dsimp only at hused
        omega
      exact BatchRule.eq_nil_of_costOf hzero
    · exact hnone
  refine ⟨batch, next, hok, hbatched.nodup, fun k => ?_⟩
  have hmem := hbatched.perm.mem_iff (a := k)
  rw [hnone, List.append_nil, Tables.mem_keys] at hmem
  rw [hmem, and_comm]
  exact Tables.contains_eraseMany

end Pool

end Reshard
