import Mathlib
import Reshard.Proofs.Push.Order

/-!
The batch that is taken out of a pool, key by key. Every take is of the first key, in the order of
the pool, that is left (`Draft.InOrder`): in sweeps because the keys that are left are those from
some rank on (`Draft.Level`), and else because the tables are drained from the largest one on. So
the batch is the shortest initial part of the ordered pool that uses up the budget
(`Pool.takeBatch_cuts`).
-/

namespace Reshard

open Outcome

namespace BatchRule

variable {r : BatchRule} {size : String → Nat} {ks batch : List Key}

theorem costOf_le_costOf {part : List Key} (h : part <+: ks) :
    r.costOf size part ≤ r.costOf size ks := by
  obtain ⟨rest, rfl⟩ := h
  rw [costOf_append]
  exact Nat.le_add_right _ _

/-- There is room if the largest record fits on top of a budget that is almost used up. -/
theorem roomy_of_lt (hlimit : r.limit < Word.limit)
    (hsize : ∀ k ∈ ks, r.limit - 1 + size k.table < Word.limit) : r.Roomy size ks := by
  intro k hk used hused _
  have hk' := hsize k hk
  rw [cost]
  split <;> omega

end BatchRule

namespace Draft

variable {r : BatchRule} {size : String → Nat} {t : Tables} {d d' : Draft} {name : String}
  {names : List String} {n : Nat}

/-- The keys are taken in the order of the tables `t`, and none once the budget is used up. -/
structure InOrder (r : BatchRule) (size : String → Nat) (t : Tables) (d : Draft) : Prop where
  taken : d.taken.Pairwise fun a b => r.selection.order t b a = .lt
  left : ∀ a ∈ d.taken, ∀ b, d.left.contains b = true → r.selection.order t a b = .lt
  used : d.used = r.costOf size d.taken
  short : ∀ k rest, d.taken = k :: rest → r.costOf size rest < r.limit

theorem inOrder_start (r : BatchRule) (size : String → Nat) (t : Tables) :
    InOrder r size t (start t) where
  taken := List.Pairwise.nil
  left := nofun
  used := rfl
  short := nofun

/-! ## One take -/

theorem take_eq_ok (h : d.take r size name = .ok d') :
    (d' = d ∧ (d.isFull r = true ∨ d.left.first? name = none)) ∨
    ∃ k, d.used < r.limit ∧ d.left.first? name = some k ∧
      d' = ⟨k :: d.taken, d.used + r.cost (size name), d.left.erase k⟩ := by
  rw [take] at h
  split at h
  · next hfull =>
    cases h
    exact .inl ⟨rfl, .inl hfull⟩
  · next hfull =>
    split at h
    · next hnone =>
      cases h
      exact .inl ⟨rfl, .inr hnone⟩
    · next k hk =>
      obtain ⟨used, hused, h⟩ := bind_eq_ok.mp h
      cases h
      obtain ⟨-, rfl⟩ := Word.check_eq_ok_iff.mp hused
      exact .inr ⟨k, by simpa [isFull] using hfull, hk, rfl⟩

/-- A take of what comes before all else that is left keeps the order. -/
theorem InOrder.take (h : d.InOrder r size t) (hd : d.take r size name = .ok d')
    (hfirst : ∀ k, d.left.first? name = some k → ∀ b, d.left.contains b = true → b ≠ k →
      r.selection.order t k b = .lt) : d'.InOrder r size t := by
  rcases take_eq_ok hd with ⟨rfl, -⟩ | ⟨k, hroom, hk, rfl⟩
  · exact h
  · obtain ⟨hcontains, rfl⟩ := Tables.contains_of_first? hk
    constructor
    · exact List.pairwise_cons.mpr ⟨fun a ha => h.left a ha k hcontains, h.taken⟩
    · intro a ha b hb
      obtain ⟨hne, hkept⟩ := Tables.contains_erase.mp hb
      rcases List.mem_cons.mp ha with rfl | ha
      · exact hfirst a hk b hkept hne
      · exact h.left a ha b hkept
    · rw [BatchRule.costOf_cons, h.used, Nat.add_comm]
    · intro k' rest heq
      obtain ⟨-, rfl⟩ := List.cons.inj heq
      rw [← h.used]
      exact hroom

/-- All keys that are left are in these tables. -/
def Within (names : List String) (d : Draft) : Prop :=
  ∀ k, d.left.contains k = true → k.table ∈ names

theorem Within.take (h : d.Within names) (hd : d.take r size name = .ok d') : d'.Within names := by
  rcases take_eq_ok hd with ⟨rfl, -⟩ | ⟨k, -, -, rfl⟩
  · exact h
  · exact fun b hb => h b (Tables.contains_erase.mp hb).2

theorem take_of_full (hfull : d.isFull r = true) (hd : d.take r size name = .ok d') : d' = d := by
  rw [take, if_pos hfull] at hd
  exact (Except.ok.inj hd).symm

/-! ## Sweeps over all tables -/

/-- In the sweep that takes the keys of rank `n`, the tables `todo` have not had their turn. -/
def Level (t : Tables) (n : Nat) (todo : List String) (d : Draft) : Prop :=
  ∀ k, d.left.contains k = true ↔
    t.contains k = true ∧ (if k.table ∈ todo then n else n + 1) ≤ t.rank k

/-- The first key that a table has left is the one of rank `n`. -/
theorem Level.rank_first (h : Level t n (name :: names) d) {k : Key}
    (hk : d.left.first? name = some k) : t.rank k = n := by
  obtain ⟨hcontains, htable⟩ := Tables.contains_of_first? hk
  have hge := ((h k).mp hcontains).2
  rw [if_pos (htable ▸ List.mem_cons_self)] at hge
  refine Nat.le_antisymm ?_ hge
  -- The keys before it are no longer left, so that their ranks are below `n`.
  have hnodup := (Tables.nodup_keys t).filter fun a => a.table = k.table && a.id < k.id
  refine Tables.length_le_of_rank_lt t name hnodup fun a ha => ?_
  rw [List.mem_filter, Tables.mem_keys, Bool.and_eq_true, decide_eq_true_eq,
    decide_eq_true_eq] at ha
  obtain ⟨ha, hatable, hid⟩ := ha
  refine ⟨ha, hatable.trans htable, Nat.lt_of_not_le fun hle => ?_⟩
  have hleft : d.left.contains a = true := by
    rw [h a, if_pos (hatable.trans htable ▸ List.mem_cons_self)]
    exact ⟨ha, hle⟩
  exact absurd (Tables.le_of_first? hk hleft (hatable.trans htable)) (Nat.not_le_of_lt hid)

/-- This key comes before all others that are left. -/
theorem Level.order_first (h : Level t n (name :: names) d)
    (hnames : ∀ other ∈ names, compare name other = .lt) {k b : Key}
    (hk : d.left.first? name = some k) (hb : d.left.contains b = true) (hne : b ≠ k) :
    Selection.order .roundRobin t k b = .lt := by
  obtain ⟨hcontains, rfl⟩ := Tables.contains_of_first? hk
  obtain ⟨htb, hge⟩ := (h b).mp hb
  have htk := ((h k).mp hcontains).1
  have hrank := h.rank_first hk
  rw [Selection.order_roundRobin, hrank]
  by_cases hlt : n < t.rank b
  · exact .inl hlt
  · split at hge
    · next htodo =>
      have heq : t.rank b = n := Nat.le_antisymm (Nat.not_lt.mp hlt) hge
      refine .inr ⟨heq.symm, ?_⟩
      rcases List.mem_cons.mp htodo with htable | htodo
      · exact absurd (Tables.eq_of_rank htb htk htable (heq.trans hrank.symm)) hne
      · exact hnames _ htodo
    · exact absurd hge hlt

/-- After its turn a table has the keys of the next rank on. -/
theorem Level.take (h : Level t n (name :: names) d) (hname : name ∉ names)
    (hd : d.take r size name = .ok d') : d'.isFull r = true ∨ Level t n names d' := by
  rcases take_eq_ok hd with ⟨rfl, hfull | hnone⟩ | ⟨k, -, hk, rfl⟩
  · exact .inl hfull
  · refine .inr fun k => ?_
    by_cases htable : k.table = name
    · have hnot : ¬ d'.left.contains k = true := fun hcontains => by
        have hkept := Tables.hasTable_iff.mpr ⟨k, hcontains, htable⟩
        obtain ⟨first, hfirst⟩ := Tables.exists_first? hkept
        rw [hnone] at hfirst
        nomatch hfirst
      have hk := h k
      rw [if_pos (htable ▸ List.mem_cons_self)] at hk
      rw [if_neg (htable ▸ hname)]
      refine iff_of_false hnot fun ⟨hcontains, hrank⟩ => hnot ?_
      exact hk.mpr ⟨hcontains, Nat.le_of_succ_le hrank⟩
    · rw [h k]
      simp [htable]
  · refine .inr fun b => ?_
    obtain ⟨hcontains, rfl⟩ := Tables.contains_of_first? hk
    have hrank := h.rank_first hk
    have htk := ((h k).mp hcontains).1
    rw [Tables.contains_erase, h b]
    by_cases htable : b.table = k.table
    · rw [if_pos (htable ▸ List.mem_cons_self), if_neg (htable ▸ hname)]
      constructor
      · rintro ⟨hne, htb, hge⟩
        refine ⟨htb, Nat.lt_of_le_of_ne hge fun heq => hne ?_⟩
        exact Tables.eq_of_rank htb htk htable (heq.symm.trans hrank.symm)
      · rintro ⟨htb, hgt⟩
        refine ⟨?_, htb, Nat.le_of_succ_le hgt⟩
        rintro rfl
        omega
    · have hne : b ≠ k := fun heq => htable (congrArg Key.table heq)
      simp [htable, hne]

/-- A sweep takes the keys of rank `n`, in the order of the tables, as long as the budget lasts. -/
theorem InOrder.sweep (hr : r.selection = .roundRobin) (h : d.InOrder r size t)
    (hlevel : d.isFull r = true ∨ Level t n names d)
    (hnames : names.Pairwise fun name other => compare name other = .lt)
    (hd : names.foldlM (Draft.take r size) d = .ok d') :
    d'.InOrder r size t ∧ (d'.isFull r = true ∨ Level t n [] d') := by
  induction names generalizing d with
  | nil =>
    cases hd
    exact ⟨h, hlevel⟩
  | cons name rest ih =>
    rw [List.foldlM_cons] at hd
    obtain ⟨next, hnext, hd⟩ := bind_eq_ok.mp hd
    obtain ⟨hname, hrest⟩ := List.pairwise_cons.mp hnames
    rcases hlevel with hfull | hlevel
    · rw [take_of_full hfull hnext] at hd
      exact ih h (.inl hfull) hrest hd
    · have hnot : name ∉ rest := by
        intro hmem
        have hself := hname name hmem
        rw [Std.compare_self] at hself
        nomatch hself
      refine ih (h.take hnext fun k hk b hb hne => ?_) (hlevel.take hnot hnext) hrest hd
      rw [hr]
      exact hlevel.order_first hname hk hb hne

/-- The tables that are left after a sweep have the next one before them. -/
theorem Level.next (h : Level t n [] d) (hnames : d.Within names) :
    Level t (n + 1) (names.filter d.left.hasTable) d := by
  intro k
  have hk := h k
  rw [if_neg List.not_mem_nil] at hk
  constructor
  · intro hleft
    have hmem : k.table ∈ names.filter d.left.hasTable :=
      List.mem_filter.mpr ⟨hnames k hleft, Tables.hasTable_iff.mpr ⟨k, hleft, rfl⟩⟩
    rw [if_pos hmem]
    exact hk.mp hleft
  · rintro ⟨htk, hrank⟩
    refine hk.mpr ⟨htk, Nat.le_trans ?_ hrank⟩
    split <;> omega

theorem InOrder.sweeps (hr : r.selection = .roundRobin) (count : Nat) (h : d.InOrder r size t)
    (hlevel : d.isFull r = true ∨ (Level t n names d ∧ d.Within names))
    (hnames : names.Pairwise fun name other => compare name other = .lt)
    (hd : d.sweeps r size count names = .ok d') : d'.InOrder r size t := by
  induction count generalizing d names n with
  | zero =>
    cases hd
    exact h
  | succ count ih =>
    rw [Draft.sweeps] at hd
    split at hd
    · cases hd
      exact h
    · next hgoes =>
      obtain ⟨swept, hswept, hd⟩ := bind_eq_ok.mp hd
      have hroom : ¬ d.isFull r = true := fun hfull => hgoes (by simp [hfull])
      obtain ⟨hlevel, htables⟩ := hlevel.resolve_left hroom
      obtain ⟨hinorder, hafter⟩ := h.sweep hr (.inr hlevel) hnames hswept
      refine ih (n := n + 1) hinorder (hafter.imp_right fun hafter => ?_) (hnames.filter _) hd
      have hkept : swept.Within names := by
        intro k hk
        obtain ⟨htk, hrank⟩ := (hafter k).mp hk
        rw [if_neg List.not_mem_nil] at hrank
        refine htables k ((hlevel k).mpr ⟨htk, Nat.le_trans ?_ hrank⟩)
        split <;> omega
      exact ⟨hafter.next hkept, fun k hk =>
        List.mem_filter.mpr ⟨hkept k hk, Tables.hasTable_iff.mpr ⟨k, hk, rfl⟩⟩⟩

/-! ## Table by table -/

/-- What every take keeps is true after any number of sweeps. -/
theorem of_sweeps {I : Draft → Prop}
    (hstep : ∀ name ∈ names, ∀ d d', I d → d.take r size name = .ok d' → I d')
    (count : Nat) (h : I d) (hd : d.sweeps r size count names = .ok d') : I d' := by
  induction count generalizing d names with
  | zero =>
    cases hd
    exact h
  | succ count ih =>
    rw [Draft.sweeps] at hd
    split at hd
    · cases hd
      exact h
    · obtain ⟨swept, hswept, hd⟩ := bind_eq_ok.mp hd
      exact ih (fun name hname => hstep name (List.mem_of_mem_filter hname))
        (of_foldlM hstep h hswept) hd

/-- The first key of a table comes before all others that are left if the other tables have their
turn later. -/
theorem Within.order_first (hleft : d.Within (name :: names))
    (hahead : ∀ other ∈ names, t.Ahead name other) {k b : Key}
    (hk : d.left.first? name = some k) (hb : d.left.contains b = true) (hne : b ≠ k) :
    Selection.order .largestTableFirst t k b = .lt := by
  obtain ⟨-, rfl⟩ := Tables.contains_of_first? hk
  rw [Selection.order_largestTableFirst]
  rcases List.mem_cons.mp (hleft b hb) with htable | hlater
  · refine .inr ⟨htable.symm,
      Nat.lt_of_le_of_ne (Tables.le_of_first? hk hb htable) fun hid => ?_⟩
    exact hne ((Tables.eq_iff_of_table htable.symm).mpr hid)
  · exact .inl (hahead _ hlater)

/-- So draining this table keeps the order. -/
theorem InOrder.drain (hr : r.selection = .largestTableFirst) (h : d.InOrder r size t)
    (hleft : d.Within (name :: names)) (hahead : ∀ other ∈ names, t.Ahead name other)
    (count : Nat) (hd : d.sweeps r size count [name] = .ok d') :
    d'.InOrder r size t ∧ d'.Within (name :: names) := by
  refine of_sweeps (I := fun d => d.InOrder r size t ∧ d.Within (name :: names)) ?_ count
    ⟨h, hleft⟩ hd
  rintro other hother d d' ⟨hd, hleft⟩ htake
  rw [List.mem_singleton.mp hother] at htake
  refine ⟨hd.take htake fun k hk b hb hne => ?_, hleft.take htake⟩
  rw [hr]
  exact hleft.order_first hahead hk hb hne

theorem InOrder.groups (hr : r.selection = .largestTableFirst) (h : d.InOrder r size t)
    (hsplits : Splits r size t.keys d) (hleft : d.isFull r = true ∨ d.Within names)
    (hnames : names.Pairwise t.Ahead)
    (hd : (names.map fun name => [name]).foldlM (fun d names => d.sweeps r size t.size names) d =
      .ok d') : d'.InOrder r size t := by
  induction names generalizing d with
  | nil =>
    cases hd
    exact h
  | cons name rest ih =>
    rw [List.map_cons, List.foldlM_cons] at hd
    obtain ⟨next, hnext, hd⟩ := bind_eq_ok.mp hd
    obtain ⟨hahead, hrest⟩ := List.pairwise_cons.mp hnames
    have hsize : d.left.size ≤ t.size := by
      rw [t.size_eq_length]
      exact hsplits.size_le
    obtain ⟨hsplits', hdrained⟩ := (yields_sweeps hsplits t.size hsize [name]).of_eq_ok hnext
    rcases hleft with hfull | hleft
    · rw [hdrained.full hfull] at hd
      exact ih h hsplits (.inl hfull) hrest hd
    · obtain ⟨hinorder, hkept⟩ := h.drain hr hleft hahead t.size hnext
      refine ih hinorder hsplits' (hdrained.ended.imp_right fun hnone k hk => ?_) hrest hd
      refine (List.mem_cons.mp (hkept k hk)).resolve_left fun htable => ?_
      have hgone := hnone name (List.mem_singleton_self name)
      rw [Tables.hasTable_iff.mpr ⟨k, hk, htable⟩] at hgone
      nomatch hgone

/-! ## The whole batch -/

theorem inOrder_fill (h : fill r size t = .ok d) : d.InOrder r size t := by
  have hstart := inOrder_start r size t
  rw [fill] at h
  cases hr : r.selection with
  | roundRobin =>
    rw [hr, Selection.groups, List.foldlM_cons] at h
    obtain ⟨d', hd', h⟩ := bind_eq_ok.mp h
    cases h
    have htables : ∀ k, t.contains k = true → k.table ∈ t.names := fun k hk =>
      Tables.mem_names.mpr (Tables.hasTable_iff.mpr ⟨k, hk, rfl⟩)
    refine hstart.sweeps (n := 0) hr t.size (.inr ⟨fun k => ?_, htables⟩) t.pairwise_names hd'
    constructor
    · intro hk
      rw [if_pos (htables k hk)]
      exact ⟨hk, Nat.zero_le _⟩
    · exact And.left
  | largestTableFirst =>
    rw [hr, Selection.groups] at h
    refine hstart.groups hr (splits_start t) (.inr fun k hk => ?_) t.pairwise_namesBySize h
    exact Tables.mem_namesBySize.mpr (Tables.hasTable_iff.mpr ⟨k, hk, rfl⟩)

theorem InOrder.cuts (h : d.InOrder r size t) (hsplits : Splits r size t.keys d)
    (hended : r.limit ≤ d.used ∨ d.left.keys = []) :
    r.Cuts size (r.selection.ordered t) d.taken.reverse := by
  have hperm : (d.taken.reverse ++ d.left.keys).Perm t.keys :=
    (d.taken.reverse_perm.append_right _).trans hsplits.perm
  have hinitial : d.taken.reverse <+: r.selection.ordered t :=
    Selection.initial_ordered hperm (List.pairwise_reverse.mpr h.taken) fun a ha b hb =>
      h.left a (List.mem_reverse.mp ha) b (Tables.mem_keys.mp hb)
  refine ⟨hinitial, fun part hpart hne => ?_, ?_⟩
  · cases htaken : d.taken with
    | nil =>
      rw [htaken] at hpart hne
      exact absurd (List.prefix_nil.mp hpart) hne
    | cons k rest =>
      rw [htaken, List.reverse_cons] at hpart hne
      have hpart' := (List.prefix_concat_iff.mp hpart).resolve_left hne
      refine Nat.lt_of_le_of_lt (BatchRule.costOf_le_costOf hpart') ?_
      rw [BatchRule.costOf_perm rest.reverse_perm]
      exact h.short k rest htaken
  · refine hended.imp (fun hused => ?_) fun hnone => ?_
    · rw [BatchRule.costOf_perm d.taken.reverse_perm, ← h.used]
      exact hused
    · rw [hnone, List.append_nil] at hperm
      exact hinitial.eq_of_length
        (hperm.trans (List.mergeSort_perm t.keys _).symm).length_eq

/-- In sweeps no table gives more than one key more than a table that has keys left. -/
theorem InOrder.balanced (hr : r.selection = .roundRobin) (h : d.InOrder r size t)
    (hsplits : Splits r size t.keys d) {other : String} (hother : d.left.hasTable other = true) :
    (d.taken.filter (·.table = name)).length ≤
      (d.taken.filter (·.table = other)).length + 1 := by
  obtain ⟨k, hk⟩ := Tables.exists_first? hother
  obtain ⟨hleft, rfl⟩ := Tables.contains_of_first? hk
  have hrank : t.rank k ≤ (d.taken.filter (·.table = k.table)).length := by
    refine Tables.rank_le_length fun a ha htable hid => ?_
    have hmem := hsplits.perm.mem_iff.mpr (Tables.mem_keys.mpr ha)
    refine List.mem_filter.mpr
      ⟨(List.mem_append.mp hmem).resolve_right fun hkept => ?_, by simpa⟩
    have hle := Tables.le_of_first? hk (Tables.mem_keys.mp hkept) htable
    omega
  have hnodup : d.taken.Nodup :=
    (hsplits.perm.nodup_iff.mpr (Tables.nodup_keys t)).of_append_left
  refine Tables.length_le_of_rank_lt t name (hnodup.filter _) fun a ha => ?_
  rw [List.mem_filter, decide_eq_true_eq] at ha
  refine ⟨Tables.mem_keys.mp (hsplits.perm.subset (List.mem_append_left _ ha.1)), ha.2, ?_⟩
  have horder := h.left a ha.1 k hleft
  rw [hr, Selection.order_roundRobin] at horder
  omega

end Draft

namespace Pool

variable {p : Pool} {r : BatchRule} {size : String → Nat}

/-- The batch is cut off the ordered keys of the tables `t`, and the pool that is left has the
others. In sweeps, tables that have keys left gave as many keys as each other, up to one. -/
structure Cuts (r : BatchRule) (size : String → Nat) (t : Tables) (batch : List Key)
    (next : Pool) : Prop where
  taken : r.Cuts size (r.selection.ordered t) batch
  nodup : batch.Nodup
  left : ∀ k, next.waiting.contains k = true ↔ t.contains k = true ∧ k ∉ batch
  skips : next.skips = []
  balanced : r.selection = .roundRobin → ∀ name other : String,
    next.waiting.hasTable other = true →
      (batch.filter (·.table = name)).length ≤ (batch.filter (·.table = other)).length + 1

/-- If the largest record fits on top of a budget that is almost used up, then the keys that wait
and are not reported as pushed are cut after the first ones that use up the budget. -/
theorem takeBatch_cuts (hlimit : r.limit < Word.limit)
    (hsize : ∀ k, p.drain.waiting.contains k = true →
      r.limit - 1 + size k.table < Word.limit) :
    (∀ k, p.drain.waiting.contains k = true ↔ k ∉ p.skips ∧ p.waiting.contains k = true) ∧
      ∃ batch next, p.takeBatch r size = .ok (batch, next) ∧
        Cuts r size p.drain.waiting batch next := by
  refine ⟨fun k => Tables.contains_eraseMany, ?_⟩
  have hroomy : r.Roomy size p.drain.waiting.keys :=
    BatchRule.roomy_of_lt hlimit fun k hk => hsize k (Tables.mem_keys.mp hk)
  obtain ⟨d, hd, hsplits, hended⟩ :=
    (Draft.yields_fill r size p.drain.waiting).exists_ok (not_not_intro hroomy)
  have hinorder := Draft.inOrder_fill hd
  have htake : p.takeBatch r size = .ok (d.taken.reverse, ⟨d.left, []⟩) := by
    rw [takeBatch, hd]
    rfl
  have hbatched := (yields_takeBatch p r size).of_eq_ok htake
  refine ⟨d.taken.reverse, ⟨d.left, []⟩, htake, hinorder.cuts hsplits hended, hbatched.nodup,
    fun k => ?_, rfl, fun hr name other hother => ?_⟩
  · rw [hbatched.contains_iff]
    have hdrain :
        p.drain.waiting.contains k = true ↔ k ∉ p.skips ∧ p.waiting.contains k = true :=
      Tables.contains_eraseMany
    rw [hdrain]
    tauto
  · rw [List.filter_reverse, List.filter_reverse, List.length_reverse, List.length_reverse]
    exact hinorder.balanced hr hsplits hother

/-- Keys of three tables. One of them was pushed in the foreground, and so was a key that does not
wait. -/
def mixed : Pool :=
  (((∅ : Pool).addAll
    [⟨"b", 2⟩, ⟨"a", 3⟩, ⟨"a", 1⟩, ⟨"c", 1⟩, ⟨"a", 2⟩, ⟨"b", 1⟩]).skip
    ⟨"a", 2⟩).skip ⟨"d", 9⟩

/-- The records of the table `b` are empty. -/
def mixedSize (name : String) : Nat := if name = "b" then 0 else if name = "a" then 10 else 20

def sweepingBytes : BatchRule := { BatchRule.default with budget := .bytes, maxBytes := 25 }

/-- The budget of 25 bytes is used up by the first sweep. -/
theorem takeBatch_cuts_mixed :
    (∀ k, mixed.drain.waiting.contains k = true ↔
      k ∉ mixed.skips ∧ mixed.waiting.contains k = true) ∧
    ∃ batch next, mixed.takeBatch sweepingBytes mixedSize = .ok (batch, next) ∧
      Cuts sweepingBytes mixedSize mixed.drain.waiting batch next ∧
      batch = [⟨"a", 1⟩, ⟨"b", 1⟩, ⟨"c", 1⟩] ∧
      next.waiting.keys = [⟨"a", 3⟩, ⟨"b", 2⟩] := by
  have hsize : ∀ k, mixed.drain.waiting.contains k = true →
      sweepingBytes.limit - 1 + mixedSize k.table < Word.limit := by
    intro k _
    rw [mixedSize]
    split <;> [decide; (split <;> decide)]
  obtain ⟨hdrain, batch, next, htake, hcuts⟩ := takeBatch_cuts (p := mixed) (by decide) hsize
  have hrun : (mixed.takeBatch sweepingBytes mixedSize).map (fun b => (b.1, b.2.waiting.keys)) =
      .ok ([⟨"a", 1⟩, ⟨"b", 1⟩, ⟨"c", 1⟩], [⟨"a", 3⟩, ⟨"b", 2⟩]) := by cbv
  rw [htake] at hrun
  obtain ⟨hbatch, hleft⟩ := Prod.mk.inj (Except.ok.inj hrun)
  exact ⟨hdrain, batch, next, htake, hcuts, hbatch, hleft⟩

end Pool

end Reshard
