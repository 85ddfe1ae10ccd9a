import Reshard.Proofs.Migration.Shipping
import Reshard.Proofs.Migration.Traffic

/-!
Which keys background pushers ship. Keys of the pool and of batches that may come back to it were
named since the move was put in flight, and those that were pushed in the meantime are on the skip
queue (`Traced`). So whatever the order of all steps and whatever the transport accepts, a pusher
ships keys of its own move, and none that was pushed and not named again (`ships_own_keys`).
-/

namespace Reshard

namespace Entry

variable {W : Type}

/-- The key is inserted, or the analysis names it. -/
def Names (k : Key) (e : Entry W) : Prop := e.Inserts k ∨ e.Analyzes k

/-- A tag of the key turns from pending to pushed. -/
def Flips (k : Key) (e : Entry W) : Prop :=
  (e.before.inserted[k]? = some false ∧ e.turn.next.inserted[k]? = some true) ∨
  (e.before.analyzed[k]? = some false ∧ e.turn.next.analyzed[k]? = some true)

end Entry

/-! ## What a call does to the keys -/

namespace Coordinator

section

variable {W : Type} {c : Coordinator W}

/-- A key whose tags change is put on the skip queue. -/
theorem mem_skips_or_tags_markPushed (c : Coordinator W) (a k : Key) :
    k ∈ (c.markPushed a).pool.skips ∨ ((c.markPushed a).inserted[k]? = c.inserted[k]? ∧
      (c.markPushed a).analyzed[k]? = c.analyzed[k]?) := by
  unfold markPushed
  rcases eq_or_ne a k with rfl | hne
  · split
    · exact .inl List.mem_cons_self
    · split
      · exact .inl List.mem_cons_self
      · exact .inr ⟨rfl, rfl⟩
  · right
    split
    · simp [flip, Std.ExtTreeMap.getElem?_insert, hne]
    · split
      · simp [flip, Std.ExtTreeMap.getElem?_insert, hne]
      · exact ⟨rfl, rfl⟩

theorem mem_skips_or_tags_markAllPushed (c : Coordinator W) (ks : List Key) (k : Key) :
    k ∈ (c.markAllPushed ks).pool.skips ∨
      ((c.markAllPushed ks).inserted[k]? = c.inserted[k]? ∧
        (c.markAllPushed ks).analyzed[k]? = c.analyzed[k]?) := by
  induction ks generalizing c with
  | nil => exact .inr ⟨rfl, rfl⟩
  | cons a rest ih =>
    rcases c.mem_skips_or_tags_markPushed a k with hskip | ⟨hinserted, hanalyzed⟩
    · exact .inl (mem_skips_markAllPushed_of_mem (c := c.markPushed a) hskip)
    · exact (ih (c.markPushed a)).imp_right fun ⟨hi, ha⟩ =>
        ⟨hi.trans hinserted, ha.trans hanalyzed⟩

/-- What a call at the source does to the keys that may be shipped: only named ones are added, and
those with a tag that flips are put on the skip queue, which no call drains. -/
structure Feeds (e : Entry W) : Prop where
  waiting : ∀ k, e.turn.next.pool.waiting.contains k = true →
    e.before.pool.waiting.contains k = true ∨ e.Names k
  skips : ∀ k ∈ e.before.pool.skips, k ∈ e.turn.next.pool.skips
  flips : ∀ k, e.Flips k → k ∈ e.turn.next.pool.skips

theorem not_flips {e : Entry W} {k : Key}
    (hinserted : e.turn.next.inserted[k]? = e.before.inserted[k]? ∨
      e.turn.next.inserted[k]? = some false)
    (hanalyzed : e.before.analyzed[k]? = some false → e.turn.next.analyzed[k]? = some false) :
    ¬ e.Flips k := by
  rintro (⟨hbefore, hnext⟩ | ⟨hbefore, hnext⟩)
  · rcases hinserted with hsame | hpending
    · rw [hsame, hbefore] at hnext
      nomatch hnext
    · rw [hpending] at hnext
      nomatch hnext
  · rw [hanalyzed hbefore] at hnext
    nomatch hnext

theorem Feeds.of_same {e : Entry W} (h : e.turn.next = e.before) : Feeds e where
  waiting k hk := .inl (h ▸ hk)
  skips k hk := h ▸ hk
  flips k hflips := absurd hflips (not_flips (.inl (by rw [h])) (by rw [h]; exact id))

theorem Feeds.of_pushed {e : Entry W} {ks : List Key} {locations : Locations}
    (h : e.turn.next = { e.before.markAllPushed ks with locations }) : Feeds e where
  waiting k hk := by
    rw [h] at hk
    exact .inl (by simpa only [waiting_markAllPushed] using hk)
  skips k hk := by
    rw [h]
    exact mem_skips_markAllPushed_of_mem hk
  flips k hflips := by
    rw [h]
    refine (e.before.mem_skips_or_tags_markAllPushed ks k).resolve_right ?_
    rintro ⟨hinserted, hanalyzed⟩
    refine not_flips (e := e) (.inl ?_) (fun hpending => ?_) hflips
    · rw [h]
      exact hinserted
    · rw [h]
      exact hanalyzed.trans hpending

end

section

variable {W : Type} [Weight W] {setup : Setup W} {c : Coordinator W} {submit : Executor}
  {turn : Turn W Answer}

omit [Weight W] in
/-- A round that goes on has a move in flight only if one is handed over, of which nothing is
known. -/
theorem GoesOn.sent_of_active {α : Type} {l : Locations} {ms : List Move} {t : Turn W α}
    (h : GoesOn l ms t) (hactive : t.next.active.isSome = true) :
    t.submissions.any (·.2) = true ∧ t.next.forgetKeys = t.next := by
  cases h with
  | finished _ hnone => simp [hnone] at hactive
  | sent hsent _ _ _ hnew => exact ⟨by simp [hsent], hnew⟩
  | refused _ _ hnone => simp [hnone] at hactive

/-- After a call the move in flight is that of before, or has just been handed over. -/
theorem kept_or_sent_of_call (hc : c.Consistent setup) {op : Call}
    (hcall : c.call submit op = .ok turn) (hactive : turn.next.active.isSome = true) :
    (turn.submissions = [] ∧ turn.next.active = c.active ∧
      ∀ now, op = .commit now → c.active = none) ∨
    (turn.submissions.any (·.2) = true ∧ turn.next.forgetKeys = turn.next) := by
  cases fate_of_call hc hcall with
  | quiet hnone hsame _ hcommit => exact .inl ⟨hnone, hsame, hcommit⟩
  | halted _ hhalt => simp [hhalt, halt] at hactive
  | committed _ _ _ _ hgoes => exact .inr (hgoes.sent_of_active hactive)
  | planned _ _ hgoes => exact .inr (hgoes.sent_of_active hactive)

theorem feeds_launch (hc : c.Consistent setup) (hphase : c.phase = .migrating) {now : Nat}
    (hcall : c.call submit (.launch now) = .ok turn) :
    Feeds ⟨c, submit, .launch now, turn⟩ := by
  cases hcall
  rw [Coordinator.launch, guarded_of_running (by simp [hphase]),
    if_pos (hc.operating_iff.mpr (.inr hphase))]
  exact .of_same rfl

theorem feeds_observe (hphase : c.phase = .migrating) {ks : List Key} {now : Nat}
    (hcall : c.call submit (.observe ks now) = .ok turn) :
    Feeds ⟨c, submit, .observe ks now, turn⟩ := by
  obtain ⟨seen, hobserve, hanswer⟩ := Outcome.bind_eq_ok.mp hcall
  cases hanswer
  rcases observe_cases hobserve with ⟨haborted, -⟩ | ⟨-, -, rfl⟩ | ⟨e, hwatching, -⟩ |
    ⟨planner, hwatching, -⟩
  · simp [hphase] at haborted
  · exact .of_same rfl
  · simp [hphase] at hwatching
  · simp [hphase] at hwatching

theorem feeds_relocated (hs : c.isSource = true) (hphase : c.phase = .migrating) {m : Move}
    (hm : c.active = some m) {ks : List Key} (hcall : c.call submit (.relocated ks) = .ok turn) :
    Feeds ⟨c, submit, .relocated ks, turn⟩ := by
  cases hcall
  rw [Coordinator.relocated, guarded_of_running (by simp [hphase]), hm]
  dsimp only
  rw [if_pos hs]
  exact .of_pushed rfl

theorem feeds_shipped (hs : c.isSource = true) (hphase : c.phase = .migrating) {ks : List Key}
    (hcall : c.call submit (.shipped ks) = .ok turn) :
    Feeds ⟨c, submit, .shipped ks, turn⟩ := by
  cases hcall
  rw [Coordinator.shipped, guarded_of_running (by simp [hphase]), if_pos hs]
  exact .of_pushed rfl

/-- A key at neither end of the move ends it. -/
theorem feeds_checkMigrated (hphase : c.phase = .migrating) {k : Key}
    (hcall : c.call submit (.checkMigrated k) = .ok turn)
    (hactive : turn.next.active.isSome = true) : Feeds ⟨c, submit, .checkMigrated k, turn⟩ := by
  cases hcall
  revert hactive
  rw [Coordinator.checkMigrated, guarded_of_running (by simp [hphase])]
  split
  · exact fun _ => .of_same rfl
  · exact fun _ => .of_same rfl
  · intro hactive
    cases hactive

/-- The inserted key is added, and its tag is pending. -/
theorem feeds_insert (hs : c.isSource = true) (hphase : c.phase = .migrating) {k : Key}
    (hcall : c.call submit (.insert k) = .ok turn) : Feeds ⟨c, submit, .insert k, turn⟩ := by
  cases hcall
  rw [Coordinator.insert, guarded_of_running (by simp [hphase]), if_pos hs]
  refine ⟨fun a ha => ?_, fun a ha => ha, fun a hflips => ?_⟩
  · rcases Tables.contains_insert.mp ha with rfl | hbefore
    · exact .inr (.inl ⟨rfl, rfl⟩)
    · exact .inl hbefore
  · refine absurd hflips (not_flips ?_ id)
    rcases eq_or_ne k a with rfl | hne
    · exact .inr (by simp [done, Turn.mapAnswer])
    · exact .inl (by simp [done, Turn.mapAnswer, Std.ExtTreeMap.getElem?_insert, hne])

/-- The named keys are added, and a tag that is pending stays so. -/
theorem feeds_analyze (hs : c.isSource = true) (hphase : c.phase = .migrating) {ks : List Key}
    (hcall : c.call submit (.analyze ks) = .ok turn) :
    Feeds ⟨c, submit, .analyze ks, turn⟩ := by
  cases hcall
  rw [Coordinator.analyze, guarded_of_running (by simp [hphase]), if_pos hs]
  refine ⟨fun a ha => ?_, fun a ha => ?_, fun a hflips => ?_⟩
  · have hpool : (c.pool.addAll ks).waiting.contains a = true := c.pool_tagAll ks ▸ ha
    rcases Tables.contains_insertMany.mp hpool with hnamed | hbefore
    · exact .inr (.inr ⟨ks, rfl, hnamed⟩)
    · exact .inl hbefore
  · change a ∈ (ks.foldl tagAnalyzed c).pool.skips
    rw [pool_tagAll]
    exact ha
  · refine absurd hflips (not_flips (.inl ?_) fun hpending => ?_)
    · exact congrArg (·[a]?) (inserted_tagAll c ks)
    · change (ks.foldl tagAnalyzed c).analyzed[a]? = some false
      rw [analyzed_tagAll]
      simp_all

/-- While a move is in flight, a call at its source feeds the pool. -/
theorem feeds_of_call (hc : c.Consistent setup) (hs : c.isSource = true) {op : Call}
    (hop : op.isRegular = true) (hcall : c.call submit op = .ok turn)
    (hactive : turn.next.active.isSome = true)
    (hcommit : ∀ now, op = .commit now → c.active = none) :
    Feeds ⟨c, submit, op, turn⟩ := by
  obtain ⟨m, hm⟩ : ∃ m, c.active = some m := by
    cases hm : c.active with
    | none => simp [isSource, hm] at hs
    | some m => exact ⟨m, rfl⟩
  have hphase : c.phase = .migrating := hc.active_iff.mp (by simp [hm])
  cases op with
  | startMonitoring now => cases hop
  | launch now => exact feeds_launch hc hphase hcall
  | observe ks now => exact feeds_observe hphase hcall
  | commit now =>
    rw [hcommit now rfl] at hm
    cases hm
  | relocated ks => exact feeds_relocated hs hphase hm hcall
  | shipped ks => exact feeds_shipped hs hphase hcall
  | checkMigrated k => exact feeds_checkMigrated hphase hcall hactive
  | insert k => exact feeds_insert hs hphase hcall
  | analyze ks => exact feeds_analyze hs hphase hcall

end

end Coordinator

/-! ## Keys that may be shipped -/

namespace Traffic

open Coordinator

variable {W : Type} {s s' : Traffic W} {es : List (Entry W)} {k : Key}

/-- The key is in the pool, or in a batch that may come back to it. -/
def Holds (s : Traffic W) (k : Key) : Prop :=
  s.node.coordinator.pool.waiting.contains k = true ∨
    ∃ (number : Nat) (batch : List Key), s.underway[number]? = some batch ∧ k ∈ batch

/-- What the calls since dispatch tell of the keys that may be shipped. -/
structure Traced (es : List (Entry W)) (s : Traffic W) : Prop where
  named : ∀ k, s.Holds k → ∃ e ∈ es, e.Names k
  /-- A key that was pushed and not named again is on the skip queue, or was dropped. -/
  pushed : ∀ k, Since (Entry.Flips k) (fun e => ¬ e.Names k) es →
    k ∈ s.node.coordinator.pool.skips ∨ ¬ s.Holds k

theorem Traced.call {submit : Executor} {op : Call} {turn : Turn W Answer} (h : Traced es s)
    (hfeeds : Feeds ⟨s.node.coordinator, submit, op, turn⟩) :
    Traced (es ++ [⟨s.node.coordinator, submit, op, turn⟩]) (s.settle turn) := by
  have hholds : ∀ k, (s.settle turn).Holds k →
      s.Holds k ∨ Entry.Names k ⟨s.node.coordinator, submit, op, turn⟩ := by
    rintro k (hwaiting | ⟨number, batch, hbatch, hk⟩)
    · rw [coordinator_settle] at hwaiting
      exact (hfeeds.waiting k hwaiting).imp_left .inl
    · exact .inl (.inr ⟨number, batch, (getElem?_underway_settle.mp hbatch).1, hk⟩)
  constructor
  · intro k hk
    rcases hholds k hk with hbefore | hnames
    · obtain ⟨e, he, hnames⟩ := h.named k hbefore
      exact ⟨e, List.mem_append_left _ he, hnames⟩
    · exact ⟨_, List.mem_append_right _ (List.mem_singleton_self _), hnames⟩
  · intro k hsince
    rw [coordinator_settle]
    rcases since_concat.mp hsince with hflips | ⟨hsince, hnot⟩
    · exact .inl (hfeeds.flips k hflips)
    · rcases h.pushed k hsince with hskip | hnone
      · exact .inl (hfeeds.skips k hskip)
      · exact .inr fun hk => (hholds k hk).elim hnone hnot

/-- A batch that comes back is held before as well as after. -/
theorem Traced.hear (h : Traced es s) {number : Nat} {batch : List Key}
    (hbatch : s.underway[number]? = some batch) (accepted : Bool) :
    Traced es (s.hear number batch accepted) := by
  have hskips : (s.hear number batch accepted).node.coordinator.pool.skips =
      s.node.coordinator.pool.skips := by
    cases accepted <;> rfl
  have hholds : ∀ k, (s.hear number batch accepted).Holds k → s.Holds k := by
    rintro k (hwaiting | ⟨other, batch', hother, hk⟩)
    · cases accepted with
      | true => exact .inl hwaiting
      | false =>
        rcases Tables.contains_insertMany.mp hwaiting with hk | hbefore
        · exact .inr ⟨number, batch, hbatch, hk⟩
        · exact .inl hbefore
    · exact .inr ⟨other, batch', underway_of_hear hother, hk⟩
  refine ⟨fun k hk => h.named k (hholds k hk), fun k hsince => ?_⟩
  rw [hskips]
  exact (h.pushed k hsince).imp_right fun hnone hk => hnone (hholds k hk)

/-- When nothing is known of keys, none is held. -/
theorem Traced.of_nothing (hnew : s.node.coordinator.forgetKeys = s.node.coordinator)
    (hfree : ∀ number : Nat, s.underway[number]? = none) : Traced [] s := by
  have hpool : s.node.coordinator.pool = ∅ := (congrArg (·.pool) hnew).symm
  have hholds : ∀ k, ¬ s.Holds k := by
    rintro k (hwaiting | ⟨number, batch, hbatch, -⟩)
    · rw [hpool] at hwaiting
      exact absurd hwaiting (Bool.not_eq_true _ ▸ Tables.contains_empty k)
    · rw [hfree number] at hbatch
      nomatch hbatch
  exact ⟨fun k hk => absurd hk (hholds k), fun k _ => .inr (hholds k)⟩

/-- What is held after a batch was in the pool before, and not on the skip queue. So no key is held
that was pushed and not named again. -/
theorem Traced.of_batched (h : Traced es s) {size : String → Nat} {batch : List Key}
    (hbatched : s.node.coordinator.pool.Batched s.node.coordinator.setup.batches size batch
      s'.node.coordinator.pool)
    (hunderway : ∀ (number : Nat) (b : List Key), s'.underway[number]? = some b → b = batch) :
    Traced es s' := by
  have hholds : ∀ k, s'.Holds k → s.node.coordinator.pool.waiting.contains k = true ∧
      k ∉ s.node.coordinator.pool.skips := by
    rintro k (hwaiting | ⟨number, b, hb, hk⟩)
    · obtain ⟨hbefore, hskip, -⟩ := hbatched.contains_iff.mp hwaiting
      exact ⟨hbefore, hskip⟩
    · rw [hunderway number b hb] at hk
      exact hbatched.waits_of_mem hk
  refine ⟨fun k hk => h.named k (.inl (hholds k hk).1), fun k hsince => .inr fun hk => ?_⟩
  obtain ⟨hbefore, hskip⟩ := hholds k hk
  exact (h.pushed k hsince).elim hskip fun hnone => hnone (.inl hbefore)

theorem Traced.round (h : Traced es s) {p : Pusher} {r : Round}
    (hnone : ∀ number : Nat, s.underway[number]? = none) (hround : s.Takes p r s') :
    Traced es s' := by
  cases hround with
  | ended => exact ⟨h.named, h.pushed⟩
  | idle pool _ hbatched =>
    refine h.of_batched hbatched fun number b hb => ?_
    rw [hnone number] at hb
    nomatch hb
  | sent batch pool _ hbatched =>
    exact h.of_batched hbatched fun number b hb => (eq_of_underway_insert hnone hb).2

/-! ## Whole runs -/

section

variable [Weight W] {setup : Setup W} {placement : Placement} {plans : Option ScalingPlans}
  {transport : Option Transport}

/-- At the source, the calls since dispatch tell of the keys that may be shipped. -/
theorem traced_of_run (h : Run (start (make setup placement plans) transport) es s)
    (hregular : ∀ e ∈ es, e.op.isRegular = true) (hs : s.node.coordinator.isSource = true) :
    Traced (sinceDispatch es) s := by
  induction h with
  | nil => nomatch hs
  | @call es s turn submit op hrun hcall ih =>
    obtain ⟨hbefore, hop⟩ := List.forall_mem_append.mp hregular
    have hc := consistent_of_run hrun.calls hbefore
    have hregular' := hop _ (List.mem_singleton_self _)
    rw [coordinator_settle] at hs
    have hactive : turn.next.active.isSome = true := by
      cases hm : turn.next.active with
      | none => simp [isSource, hm] at hs
      | some m => rfl
    rw [sinceDispatch, List.rtakeWhile_concat]
    rcases kept_or_sent_of_call hc hcall hactive with
      ⟨hnone, hsame, hcommit⟩ | ⟨hsent, hnew⟩
    · have hsetup := (hc.call hregular' hcall).setup_eq.trans hc.setup_eq.symm
      have hsource := (isSource_congr hsetup hsame).symm.trans hs
      rw [if_pos (by simp [Entry.dispatches, hnone])]
      exact (ih hbefore hsource).call (feeds_of_call hc hsource hregular' hcall hactive hcommit)
    · rw [if_neg (by simp [Entry.dispatches, hsent])]
      obtain ⟨p?, hmanned⟩ := manned_of_run hrun hbefore
      -- A call that leaves the pusher as it is hands nothing over.
      cases hmanned.call hc hregular' hcall with
      | same hnone _ => simp [hnone] at hsent
      | anew _ hfree => exact .of_nothing (by rw [coordinator_settle]; exact hnew) hfree
  | @round es s s' p r size hrun hp hfree hround ih =>
    obtain ⟨p?, hmanned⟩ := manned_of_run hrun hregular
    obtain rfl := hmanned.staff.mem_iff.mp hp
    have htakes := takes_of_round hround
    have hsource : s.node.coordinator.isSource = true := by
      cases htakes <;> exact hs
    exact (ih hregular hsource).round (hmanned.free rfl hfree) htakes
  | @hear es s number batch accepted hrun hbatch ih =>
    have hsource : s.node.coordinator.isSource = true := by
      cases accepted <;> exact hs
    exact (ih hregular hsource).hear hbatch accepted

/-- While a move is in flight, the history goes back to its dispatch. -/
theorem exists_dispatch_of_run {c : Coordinator W}
    (h : Coordinator.Run (make setup placement plans) es c) {m : Move} (hm : c.active = some m) :
    ∃ earlier d, es = earlier ++ d :: sinceDispatch es ∧ d.dispatches = true ∧
      d.turn.next.active = some m := by
  induction h with
  | nil => cases hm
  | push pool _ ih => exact ih hm
  | @call es c turn submit op hrun hcall ih =>
    rw [sinceDispatch, List.rtakeWhile_concat]
    cases flight_of_call (knows_of_run hrun default).1 hcall with
    | sent hsent _ _ =>
      rw [if_neg (by simp [hsent])]
      exact ⟨es, _, rfl, hsent, hm⟩
    | ended hnone _ =>
      have hidle : turn.next.active = none := hnone
      rw [hm] at hidle
      cases hidle
    | kept hnone htells _ =>
      obtain ⟨earlier, d, hes, hsent, hd⟩ := ih (htells.active_eq.symm.trans hm)
      rw [if_pos (by simp [Entry.dispatches, hnone])]
      refine ⟨earlier, d, ?_, hsent, hd⟩
      rw [← List.cons_append, ← List.append_assoc]
      exact congrArg (· ++ _) hes

/-- A batch that a pusher hands to the transport after the calls `es`. -/
structure Rightful (setup : Setup W) (es : List (Entry W)) (c : Coordinator W) (p : Pusher)
    (batch : List Key) (m : Move) : Prop where
  /-- The move in flight is one of this node, and the way of the pusher is that of the move. -/
  active : c.active = some m
  source : m.source = setup.localPartition
  route : p.source = m.source ∧ p.dest = m.dest
  dispatched : ∃ earlier d, es = earlier ++ d :: sinceDispatch es ∧ d.dispatches = true ∧
    d.turn.next.active = some m
  named : ∀ k ∈ batch, ∃ e ∈ sinceDispatch es, e.Names k
  /-- No key was pushed since dispatch and not named again afterwards. -/
  not_pushed : ∀ k ∈ batch, ¬ Since (Entry.Flips k) (fun e => ¬ e.Names k) (sinceDispatch es)

/-- In whatever order pushers and coordinator take their steps, and whatever the transport accepts,
a pusher ships keys of the move in flight that it was started for, and none that was pushed
already. -/
theorem ships_own_keys (h : Run (start (make setup placement plans) transport) es s)
    (hregular : ∀ e ∈ es, e.op.isRegular = true) {p : Pusher} (hp : p ∈ s.node.pushers)
    {size : String → Nat} {batch : List Key} (hround : s.round size p = .ok (.sent batch, s')) :
    ∃ m, Rightful setup es s.node.coordinator p batch m := by
  obtain ⟨p?, hmanned⟩ := manned_of_run h hregular
  have hc := consistent_of_run h.calls hregular
  have hemploys := hmanned.employs p (hmanned.staff.mem_iff.mp hp)
  cases takes_of_round hround with
  | sent batch pool hmigrating hbatched =>
    have hphase : s.node.coordinator.phase = .migrating := hc.migrating_iff.mp hmigrating
    obtain ⟨m, hm, hs, hsource, hdest⟩ := hemploys.resolve_left (by simp [hphase])
    have htraced := traced_of_run h hregular (by simp [isSource, hm, hs])
    refine ⟨m, hm, hs.trans (by rw [hc.setup_eq]), ⟨hsource, hdest⟩,
      exists_dispatch_of_run h.calls hm, fun k hk => ?_, fun k hk hsince => ?_⟩
    · exact htraced.named k (.inl (hbatched.waits_of_mem hk).1)
    · obtain ⟨hwaiting, hskip⟩ := hbatched.waits_of_mem hk
      exact (htraced.pushed k hsince).elim hskip fun hnone => hnone (.inl hwaiting)

end

/-- The node of the joining move, which has a transport. -/
def joiningStart : Traffic ℚ :=
  start (make joining joiningPlacement (some joiningPlans)) (some ⟨unsized, fun _ => true⟩)

def joiningSteps : List (Executor × Call) :=
  [(accepting, .launch 0), (accepting, .observe [] 5),
    (accepting, .analyze [⟨"t", 1⟩, ⟨"t", 2⟩]), (accepting, .shipped [⟨"t", 1⟩])]

/-- Of two keys that the analysis found, one is pushed in the foreground, and the pusher ships the
other one. -/
theorem ships_own_keys_joining : ∃ es s s' p batch m, Run joiningStart es s ∧
    (∀ e ∈ es, e.op.isRegular = true) ∧ p ∈ s.node.pushers ∧
    s.round unsized p = .ok (.sent batch, s') ∧
    ⟨"t", 1⟩ ∉ batch ∧ ⟨"t", 2⟩ ∈ batch ∧
    Rightful joining es s.node.coordinator p batch m := by
  have hend : (joiningStart.node.coordinator.play joiningSteps).toOption.map (fun r =>
      let s := r.1.foldl (fun s e => s.settle e.turn) joiningStart
      let c := s.node.coordinator
      r.1.all (·.op.isRegular) && !s.node.pushers.isEmpty && c.flags.migrating &&
        decide (c.setup.batches = .default) && c.hasRoom &&
        decide (⟨"t", 1⟩ ∈ c.pool.skips) && c.pool.waiting.contains ⟨"t", 2⟩ &&
        decide (⟨"t", 2⟩ ∉ c.pool.skips)) = some true := by
    decide +kernel
  match hplay : joiningStart.node.coordinator.play joiningSteps with
  | .error e =>
    rw [hplay] at hend
    nomatch hend
  | .ok (es, last) =>
    have hrun := Run.nil.play hplay
    rw [hplay] at hend
    generalize hs : es.foldl (fun s e => s.settle e.turn) joiningStart = s at hrun
    simp only [Except.toOption, Option.map_some, Option.some.injEq, hs, Bool.and_eq_true,
      List.all_eq_true, Bool.not_eq_true', List.isEmpty_eq_false_iff, decide_eq_true_eq,
      hasRoom] at hend
    obtain ⟨⟨⟨⟨⟨⟨⟨hregular, hpushers⟩, hmigrating⟩, hrule⟩, -, hfull⟩,
      hskipped⟩, hwaiting⟩, hskip⟩ := hend
    obtain ⟨p, hp⟩ := List.exists_mem_of_ne_nil _ hpushers
    obtain ⟨batch, pool, hpool, -, hmem⟩ :=
      Pool.exists_full_batch (r := .default) (by decide) (Nat.le_of_lt hfull)
    have hships : ⟨"t", 2⟩ ∈ batch := (hmem _).mpr ⟨hwaiting, hskip⟩
    obtain ⟨s', hround⟩ :=
      s.exists_round p hmigrating (hrule ▸ hpool) (List.ne_nil_of_mem hships)
    obtain ⟨m, hm⟩ := ships_own_keys hrun hregular hp hround
    exact ⟨es, s, s', p, batch, m, hrun, hregular, hp, hround,
      fun hk => ((hmem _).mp hk).2 hskipped, hships, hm⟩

end Traffic

end Reshard
