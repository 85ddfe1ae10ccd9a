import Reshard.Proofs.Migration.Verdicts
import Reshard.Proofs.Push.Batch

/-!
Which keys background batches ship from the source of a move. Insertions and analyses put keys into
the pool, and pushes in the foreground put them on the skip queue, where they stay until the next
batch. So a batch with room for the whole pool takes the keys that were added while no skip of them
was queued (`full_batch_of_trail`). It misses a key that is inserted again before a skip of it is
dropped, and it takes one again that an analysis names after it was pushed
(`full_batch_misses_and_repeats`).
-/

namespace Reshard

/-- What is done with the keys of a move at its source. -/
inductive Step
  | insert (k : Key)
  | analyze (ks : List Key)
  | shipped (ks : List Key)
  | relocated (ks : List Key)
  | takeBatch (r : BatchRule) (size : String → Nat)

namespace Step

/-- Whether the analysis names the key. -/
def analyzes (k : Key) : Step → Bool
  | .analyze ks => k ∈ ks
  | _ => false

/-- Whether the key is put into the pool. -/
def adds (k : Key) : Step → Bool
  | .insert a => a = k
  | s => s.analyzes k

theorem adds_of_analyzes {s : Step} {k : Key} (h : s.analyzes k = true) : s.adds k = true := by
  cases s with
  | insert a => nomatch h
  | _ => exact h

end Step

/-- A step in a history, with the states before and after it. -/
structure Event (W : Type) where
  before : Coordinator W
  step : Step
  /-- The keys that a batch takes. -/
  taken : List Key
  next : Coordinator W

namespace Coordinator

variable {W : Type} {c next first last : Coordinator W} {k a : Key} {ks taken : List Key}
  {s : Step}

/-- Makes a step, and answers the keys that a batch takes. -/
def perform (c : Coordinator W) : Step → Except Overflow (Turn W (List Key))
  | .insert k => .ok ((c.insert k).mapAnswer fun _ => [])
  | .analyze ks => .ok ((c.analyze ks).mapAnswer fun _ => [])
  | .shipped ks => .ok ((c.shipped ks).mapAnswer fun _ => [])
  | .relocated ks => .ok ((c.relocated ks).mapAnswer fun _ => [])
  | .takeBatch r size => do
    let (batch, next) ← c.takeBatch r size
    return next.done batch

/-- Steps that succeed, one after the other. -/
inductive Trail (first : Coordinator W) : List (Event W) → Coordinator W → Prop
  | nil : Trail first [] first
  | step {es : List (Event W)} {c : Coordinator W} {turn : Turn W (List Key)} (s : Step)
      {taken : List Key} : Trail first es c → c.perform s = .ok turn →
      turn.answer = .ok taken → Trail first (es ++ [⟨c, s, taken, turn.next⟩]) turn.next

theorem Trail.cons {es : List (Event W)} {turn : Turn W (List Key)} {taken : List Key}
    (hturn : c.perform s = .ok turn) (hanswer : turn.answer = .ok taken)
    (h : Trail turn.next es last) : Trail c (⟨c, s, taken, turn.next⟩ :: es) last := by
  induction h with
  | nil => exact Trail.nil.step s hturn hanswer
  | step s' _ hturn' hanswer' ih => exact ih.step s' hturn' hanswer'

/-- Makes steps one after the other as long as they succeed. -/
def follow (c : Coordinator W) : List Step → Option (List (Event W) × Coordinator W)
  | [] => some ([], c)
  | s :: rest =>
    match c.perform s with
    | .error _ => none
    | .ok turn =>
      match turn.answer with
      | .error _ => none
      | .ok taken =>
        (turn.next.follow rest).map fun r => (⟨c, s, taken, turn.next⟩ :: r.1, r.2)

theorem trail_of_follow {steps : List Step} {es : List (Event W)}
    (h : c.follow steps = some (es, last)) : Trail c es last := by
  induction steps generalizing c es with
  | nil =>
    cases h
    exact .nil
  | cons s rest ih =>
    unfold follow at h
    split at h
    · nomatch h
    · next turn hturn =>
      split at h
      · nomatch h
      · next taken hanswer =>
        obtain ⟨⟨later, _⟩, hrest, heq⟩ := Option.map_eq_some_iff.mp h
        cases heq
        exact .cons hturn hanswer (ih hrest)

/-- A move is in flight from this node, and nothing is known of its keys. -/
structure Fresh (c : Coordinator W) : Prop where
  source : c.isSource = true
  forgotten : c.forgetKeys = c

/-- So it is when a move of this node has just been put in flight. -/
theorem fresh_of_dispatches [Weight W] {setup : Setup W} {placement : Placement}
    {plans : Option ScalingPlans} {es : List (Entry W)} {e : Entry W}
    (h : Run (make setup placement plans) es e.before)
    (hcall : e.before.call e.submit e.op = .ok e.turn) (hsent : e.dispatches = true)
    (hs : e.turn.next.isSource = true) : e.turn.next.Fresh := by
  cases flight_of_call (knows_of_run h default).1 hcall with
  | sent _ hnew _ => exact ⟨hs, hnew⟩
  | ended hnone _ =>
    have hidle : e.turn.next.active = none := hnone
    simp [isSource, hidle] at hs
  | kept hnone _ _ => simp [Entry.dispatches, hnone] at hsent

/-! ## Tags, pool and skip queue -/

/-- The tags of the key say that it waits to be shipped. -/
def Waits (c : Coordinator W) (k : Key) : Prop :=
  c.inserted[k]? = some false ∨ (c.inserted[k]? = none ∧ c.analyzed[k]? = some false)

theorem isMigrated_of_source (hs : c.isSource = true) : c.isMigrated k = false ↔ c.Waits k := by
  cases hm : c.active with
  | none => simp [isSource, hm] at hs
  | some m => exact isMigrated_at_source hm ((isSource_eq_true_iff hm).mp hs)

theorem isMigrated_iff_of_source (hs : c.isSource = true) :
    c.isMigrated k = true ↔ ¬ c.Waits k := by
  rw [← isMigrated_of_source hs, Bool.not_eq_false]

theorem waits_tagAll : (ks.foldl tagAnalyzed c).Waits k ↔
    c.Waits k ∨ (k ∈ ks ∧ c.inserted[k]? = none ∧ c.analyzed[k]? = none) := by
  rw [Waits, Waits, inserted_tagAll, analyzed_tagAll]
  by_cases hk : k ∈ ks <;> rcases c.inserted[k]? with _ | _ | _ <;>
    rcases c.analyzed[k]? with _ | _ | _ <;> simp [hk]

theorem waits_markAllPushed : (c.markAllPushed ks).Waits k ↔ c.Waits k ∧ k ∉ ks := by
  rw [Waits, Waits, inserted_markAllPushed]
  cases hi : c.inserted[k]? with
  | some tag => by_cases hk : k ∈ ks <;> simp [hk]
  | none =>
    rw [analyzed_markAllPushed hi]
    by_cases hk : k ∈ ks <;> simp [hk]

theorem pool_tagAll (c : Coordinator W) (ks : List Key) :
    (ks.foldl tagAnalyzed c).pool = c.pool.addAll ks := by
  induction ks generalizing c with
  | nil => rfl
  | cons k rest ih =>
    rw [List.foldl_cons, ih]
    rfl

theorem pool_markPushed (c : Coordinator W) (k : Key) :
    (c.markPushed k).pool = c.pool ∨ (c.markPushed k).pool = c.pool.skip k := by
  unfold markPushed
  split
  · exact .inr rfl
  · split
    · exact .inr rfl
    · exact .inl rfl

theorem pool_markPushed_of_waits (h : c.Waits k) : (c.markPushed k).pool = c.pool.skip k := by
  unfold markPushed
  rcases h with hi | ⟨hi, ha⟩
  · rw [if_pos hi]
  · rw [if_neg (by simp [hi]), if_pos ha]

theorem waiting_markAllPushed (c : Coordinator W) (ks : List Key) :
    (c.markAllPushed ks).pool.waiting = c.pool.waiting := by
  induction ks generalizing c with
  | nil => rfl
  | cons k rest ih =>
    refine (ih (c.markPushed k)).trans ?_
    rcases c.pool_markPushed k with hpool | hpool <;>
      exact congrArg (·.waiting) hpool

theorem mem_skips_markAllPushed_of_mem (h : k ∈ c.pool.skips) :
    k ∈ (c.markAllPushed ks).pool.skips := by
  induction ks generalizing c with
  | nil => exact h
  | cons a rest ih =>
    refine ih (c := c.markPushed a) ?_
    rcases c.pool_markPushed a with hpool | hpool <;> rw [hpool]
    · exact h
    · exact List.mem_cons_of_mem a h

/-- A key that waits is put on the skip queue when it is pushed. -/
theorem mem_skips_markAllPushed_of_waits (h : c.Waits k) (hk : k ∈ ks) :
    k ∈ (c.markAllPushed ks).pool.skips := by
  induction ks generalizing c with
  | nil => nomatch hk
  | cons a rest ih =>
    rcases eq_or_ne k a with rfl | hne
    · have hfirst : k ∈ (c.markPushed k).pool.skips := by
        rw [pool_markPushed_of_waits h]
        exact List.mem_cons_self
      change k ∈ ((c.markPushed k).markAllPushed rest).pool.skips
      exact mem_skips_markAllPushed_of_mem hfirst
    · have hstill : (c.markAllPushed [a]).Waits k :=
        waits_markAllPushed.mpr ⟨h, by simpa using hne⟩
      exact ih hstill ((List.mem_cons.mp hk).resolve_left hne)

theorem mem_of_skips_markAllPushed (h : k ∈ (c.markAllPushed ks).pool.skips) :
    k ∈ c.pool.skips ∨ k ∈ ks := by
  induction ks generalizing c with
  | nil => exact .inl h
  | cons a rest ih =>
    rcases ih (c := c.markPushed a) h with hbefore | hrest
    · rcases c.pool_markPushed a with hpool | hpool <;> rw [hpool] at hbefore
      · exact .inl hbefore
      · rcases List.mem_cons.mp hbefore with rfl | hbefore
        · exact .inr List.mem_cons_self
        · exact .inl hbefore
    · exact .inr (List.mem_cons_of_mem a hrest)

/-! ## What a step does -/

/-- A step that succeeds at the source. -/
inductive Does (c : Coordinator W) : Step → List Key → Coordinator W → Prop
  | insert (k : Key) : Does c (.insert k) []
      { c with inserted := c.inserted.insert k false, pool := c.pool.add k }
  | analyze (ks : List Key) (flags : Flags) : Does c (.analyze ks) []
      { ks.foldl tagAnalyzed c with flags }
  | push (s : Step) (ks : List Key) (locations : Locations) :
      s = .shipped ks ∨ s = .relocated ks → Does c s []
      { c.markAllPushed ks with locations }
  | takeBatch (r : BatchRule) (size : String → Nat) (batch : List Key) (pool : Pool) :
      c.pool.Batched r size batch pool → Does c (.takeBatch r size) batch { c with pool }

theorem does_of_perform (hs : c.isSource = true) {turn : Turn W (List Key)}
    (h : c.perform s = .ok turn) (hanswer : turn.answer = .ok taken) :
    Does c s taken turn.next := by
  cases s with
  | insert k =>
    cases h
    revert hanswer
    unfold Coordinator.insert guarded
    rw [if_pos hs]
    split <;> intro hanswer <;> cases hanswer
    exact .insert k
  | analyze ks =>
    cases h
    revert hanswer
    unfold Coordinator.analyze guarded
    rw [if_pos hs]
    split <;> intro hanswer <;> cases hanswer
    exact .analyze ks _
  | shipped ks =>
    cases h
    revert hanswer
    unfold Coordinator.shipped guarded
    rw [if_pos hs]
    split <;> intro hanswer <;> cases hanswer
    exact .push _ ks (c.markAllPushed ks).locations (.inl rfl)
  | relocated ks =>
    cases h
    revert hanswer
    unfold Coordinator.relocated guarded
    rw [if_pos hs]
    split
    · intro hanswer
      nomatch hanswer
    · split <;> intro hanswer <;> cases hanswer
      exact .push _ ks _ (.inr rfl)
  | takeBatch r size =>
    obtain ⟨⟨batch, next⟩, hbatch, hdone⟩ := Outcome.bind_eq_ok.mp h
    obtain ⟨⟨batch, pool⟩, hpool, heq⟩ := Outcome.bind_eq_ok.mp hbatch
    cases heq
    cases hdone
    cases hanswer
    exact .takeBatch r size _ pool ((Pool.yields_takeBatch c.pool r size).of_eq_ok hpool)

theorem Does.isSource_eq (h : Does c s taken next) : next.isSource = c.isSource := by
  cases h with
  | insert k => rfl
  | analyze ks flags =>
    obtain ⟨_, _, heq⟩ := c.exists_tagAll ks
    rw [heq]
    rfl
  | push s ks locations _ =>
    obtain ⟨_, _, _, heq⟩ := c.exists_markAllPushed ks
    rw [heq]
    rfl
  | takeBatch => rfl

/-- The key is in the pool, and no skip of it is queued. -/
def Ready (c : Coordinator W) (k : Key) : Prop :=
  c.pool.waiting.contains k = true ∧ k ∉ c.pool.skips

theorem Does.ready_iff (h : Does c s taken next) (k : Key) :
    next.Ready k ↔ (s.adds k = true ∧ k ∉ c.pool.skips) ∨
      (c.Ready k ∧ k ∉ taken ∧ k ∉ next.pool.skips) := by
  cases h with
  | insert a =>
    simp only [Ready, Step.adds, Pool.add, Tables.contains_insert, decide_eq_true_eq,
      eq_comm (a := a)]
    tauto
  | analyze ks flags =>
    simp only [Ready, Step.adds, Step.analyzes, pool_tagAll, Pool.addAll,
      Tables.contains_insertMany, decide_eq_true_eq]
    tauto
  | push s ks locations hop =>
    have hnever : s.adds k = false := by rcases hop with rfl | rfl <;> rfl
    have hkept : k ∈ c.pool.skips → k ∈ (c.markAllPushed ks).pool.skips :=
      mem_skips_markAllPushed_of_mem
    simp only [Ready, hnever, waiting_markAllPushed]
    tauto
  | takeBatch r size batch pool hbatched =>
    simp only [Ready, Step.adds, Step.analyzes, hbatched.contains_iff, hbatched.skips]
    simp
    tauto

/-- A key stops waiting only when a skip of it is queued. -/
theorem Does.waits_of_waits (h : Does c s taken next) (hwaits : c.Waits k)
    (hskips : k ∉ next.pool.skips) : next.Waits k := by
  cases h with
  | insert a =>
    rcases eq_or_ne a k with rfl | hne
    · exact .inl (by simp)
    · simpa [Waits, Std.ExtTreeMap.getElem?_insert, hne] using hwaits
  | analyze ks flags => exact waits_tagAll.mpr (.inl hwaits)
  | push s ks locations _ =>
    refine waits_markAllPushed.mpr ⟨hwaits, fun hk => hskips ?_⟩
    exact mem_skips_markAllPushed_of_waits hwaits hk
  | takeBatch => exact hwaits

/-- While a key waits, no skip of it is queued anew. -/
theorem Does.mem_skips_of_waits (h : Does c s taken next) (hwaits : next.Waits k)
    (hskips : k ∈ next.pool.skips) : k ∈ c.pool.skips := by
  cases h with
  | insert a => exact hskips
  | analyze ks flags =>
    have hpool : k ∈ (ks.foldl tagAnalyzed c).pool.skips := hskips
    rwa [pool_tagAll] at hpool
  | push s ks locations _ =>
    obtain ⟨-, hnot⟩ := waits_markAllPushed.mp hwaits
    exact (mem_of_skips_markAllPushed hskips).resolve_right hnot
  | takeBatch r size batch pool hbatched =>
    have hnil : k ∈ pool.skips := hskips
    rw [hbatched.skips] at hnil
    nomatch hnil

/-- A key waits anew when it is added. -/
theorem Does.adds_of_waits (h : Does c s taken next) (hbefore : ¬ c.Waits k)
    (hwaits : next.Waits k) : s.adds k = true := by
  cases h with
  | insert a =>
    rcases eq_or_ne a k with rfl | hne
    · simp [Step.adds]
    · have hsame : c.Waits k := by
        simpa [Waits, Std.ExtTreeMap.getElem?_insert, hne] using hwaits
      exact absurd hsame hbefore
  | analyze ks flags =>
    have hfound := (waits_tagAll.mp hwaits).resolve_left hbefore
    simpa [Step.adds, Step.analyzes] using hfound.1
  | push s ks locations _ => exact absurd (waits_markAllPushed.mp hwaits).1 hbefore
  | takeBatch => exact absurd hwaits hbefore

/-- A key that is inserted waits. -/
theorem Does.analyzes_of_adds (h : Does c s taken next) (hadds : s.adds k = true)
    (hwaits : ¬ next.Waits k) : s.analyzes k = true := by
  cases h with
  | insert a =>
    rw [Step.adds, decide_eq_true_iff] at hadds
    subst hadds
    exact absurd (.inl (by simp)) hwaits
  | analyze ks flags => exact hadds
  | push s ks locations hop => rcases hop with rfl | rfl <;> nomatch hadds
  | takeBatch => nomatch hadds

end Coordinator

/-! ## Histories -/

namespace Event

variable {W : Type}

/-- The key is added to the pool when no skip of it is queued. -/
def Enters (k : Key) (e : Event W) : Prop := e.step.adds k = true ∧ k ∉ e.before.pool.skips

/-- If the key is added to the pool, then no skip of it is queued, and it waits to be shipped. -/
def Orderly (k : Key) (e : Event W) : Prop :=
  e.step.adds k = true → k ∉ e.before.pool.skips ∧ e.next.isMigrated k = false

/-- The key, which was not to be shipped or had been shipped, waits to be shipped from now on. -/
def Awakens (k : Key) (e : Event W) : Prop :=
  e.before.isMigrated k = true ∧ e.next.isMigrated k = false

/-- The key still waits to be shipped, and no batch takes it. -/
def Waits (k : Key) (e : Event W) : Prop := k ∉ e.taken ∧ e.next.isMigrated k = false

/-- The analysis names the key when it is pushed already, and no skip of it is queued. -/
def Repeats (k : Key) (e : Event W) : Prop :=
  e.step.analyzes k = true ∧ k ∉ e.before.pool.skips ∧ e.next.isMigrated k = true

/-- The key stays pushed, no skip of it is queued, and no batch takes it. -/
def StaysPushed (k : Key) (e : Event W) : Prop :=
  k ∉ e.taken ∧ k ∉ e.next.pool.skips ∧ e.next.isMigrated k = true

instance (k : Key) (e : Event W) : Decidable (e.Awakens k) :=
  inferInstanceAs (Decidable (_ ∧ _))

instance (k : Key) (e : Event W) : Decidable (e.Waits k) :=
  inferInstanceAs (Decidable (_ ∧ _))

instance (k : Key) (e : Event W) : Decidable (e.Repeats k) :=
  inferInstanceAs (Decidable (_ ∧ _))

instance (k : Key) (e : Event W) : Decidable (e.StaysPushed k) :=
  inferInstanceAs (Decidable (_ ∧ _))

end Event

namespace Coordinator

section

variable {W : Type} {first c : Coordinator W} {es : List (Event W)} {k : Key}

theorem Trail.isSource (h : Trail first es c) (hfirst : first.Fresh) : c.isSource = true := by
  induction h with
  | nil => exact hfirst.source
  | step s _ hturn hanswer ih => rw [(does_of_perform ih hturn hanswer).isSource_eq, ih]

theorem Fresh.not_ready (h : first.Fresh) (k : Key) : ¬ first.Ready k := by
  have hpool : first.pool = ∅ := (congrArg (·.pool) h.forgotten).symm
  rintro ⟨hwaiting, -⟩
  rw [hpool] at hwaiting
  exact absurd hwaiting (by rw [Bool.not_eq_true]; exact Tables.contains_empty k)

/-- A key that waits to be shipped is ready for the next batch if it was added when no skip of it
was queued, and no batch took it since. -/
theorem Trail.ready_waiting_iff (h : Trail first es c) (hfirst : first.Fresh) (k : Key) :
    c.Ready k ∧ c.isMigrated k = false ↔
      Since (fun e => e.Enters k ∧ e.next.isMigrated k = false) (Event.Waits k) es := by
  induction h with
  | nil => exact iff_of_false (fun h => hfirst.not_ready k h.1) not_since_nil
  | @step es c turn s taken htrail hturn hanswer ih =>
    have hs := htrail.isSource hfirst
    have hdoes := does_of_perform hs hturn hanswer
    have hs' : turn.next.isSource = true := hdoes.isSource_eq.trans hs
    rw [since_concat, ← ih, hdoes.ready_iff]
    simp only [Event.Enters, Event.Waits, isMigrated_of_source hs, isMigrated_of_source hs']
    constructor
    · rintro ⟨hadded | ⟨hready, htaken, -⟩, hwaits⟩
      · exact .inl ⟨hadded, hwaits⟩
      · by_cases hbefore : c.Waits k
        · exact .inr ⟨⟨hready, hbefore⟩, htaken, hwaits⟩
        · exact .inl ⟨⟨hdoes.adds_of_waits hbefore hwaits, hready.2⟩, hwaits⟩
    · rintro (⟨hadded, hwaits⟩ | ⟨⟨hready, -⟩, htaken, hwaits⟩)
      · exact ⟨.inl hadded, hwaits⟩
      · refine ⟨.inr ⟨hready, htaken, fun hskip => ?_⟩, hwaits⟩
        exact hready.2 (hdoes.mem_skips_of_waits hwaits hskip)

/-- A key that was pushed is ready for the next batch if an analysis named it afterwards. -/
theorem Trail.ready_pushed_iff (h : Trail first es c) (hfirst : first.Fresh) (k : Key) :
    c.Ready k ∧ c.isMigrated k = true ↔
      Since (Event.Repeats k) (Event.StaysPushed k) es := by
  induction h with
  | nil => exact iff_of_false (fun h => hfirst.not_ready k h.1) not_since_nil
  | @step es c turn s taken htrail hturn hanswer ih =>
    have hs := htrail.isSource hfirst
    have hdoes := does_of_perform hs hturn hanswer
    have hs' : turn.next.isSource = true := hdoes.isSource_eq.trans hs
    rw [since_concat, ← ih, hdoes.ready_iff]
    simp only [Event.Repeats, Event.StaysPushed, isMigrated_iff_of_source hs,
      isMigrated_iff_of_source hs']
    constructor
    · rintro ⟨⟨hadds, hskip⟩ | ⟨hready, htaken, hskip⟩, hpushed⟩
      · exact .inl ⟨hdoes.analyzes_of_adds hadds hpushed, hskip, hpushed⟩
      · have hbefore : ¬ c.Waits k := fun hwaits => hpushed (hdoes.waits_of_waits hwaits hskip)
        exact .inr ⟨⟨hready, hbefore⟩, htaken, hskip, hpushed⟩
    · rintro (⟨hanalyzes, hskip, hpushed⟩ | ⟨⟨hready, -⟩, htaken, hskip, hpushed⟩)
      · exact ⟨.inl ⟨Step.adds_of_analyzes hanalyzes, hskip⟩, hpushed⟩
      · exact ⟨.inr ⟨hready, htaken, hskip⟩, hpushed⟩

/-- Which keys a batch takes after some steps, if it has room for the whole pool. -/
structure TakesPool (k : Key) (es : List (Event W)) (c : Coordinator W) (batch : List Key) :
    Prop where
  /-- Of the keys that wait to be shipped, it takes those that were added when no skip of them was
  queued, and not taken since. -/
  waiting : k ∈ batch ∧ c.isMigrated k = false ↔
    Since (fun e => e.Enters k ∧ e.next.isMigrated k = false) (Event.Waits k) es
  /-- So it takes a key that no batch took since it began to wait, if no skip was queued then. -/
  awakened : Since (fun e => e.Awakens k ∧ k ∉ e.before.pool.skips) (Event.Waits k) es →
    k ∈ batch
  /-- Of the keys that were pushed, it takes those that an analysis named again. -/
  pushed : k ∈ batch ∧ c.isMigrated k = true ↔
    Since (Event.Repeats k) (Event.StaysPushed k) es
  /-- A key that was only added in order is taken if no batch took it since it began to wait, and
  is not taken if it does not wait. -/
  orderly : (∀ e ∈ es, e.Orderly k) →
    (Since (Event.Awakens k) (Event.Waits k) es → k ∈ batch) ∧
      (c.isMigrated k = true → k ∉ batch)

/-- A key that begins to wait is added to the pool. -/
theorem Trail.adds_of_awakens (h : Trail first es c) (hfirst : first.Fresh) {e : Event W}
    (he : e ∈ es) (hawakens : e.Awakens k) : e.step.adds k = true := by
  induction h with
  | nil => nomatch he
  | @step es c turn s taken htrail hturn hanswer ih =>
    rcases List.mem_append.mp he with he | he
    · exact ih he
    · rw [List.mem_singleton] at he
      subst he
      have hs := htrail.isSource hfirst
      have hdoes := does_of_perform hs hturn hanswer
      have hs' : turn.next.isSource = true := hdoes.isSource_eq.trans hs
      obtain ⟨hbefore, hwaits⟩ := hawakens
      exact hdoes.adds_of_waits ((isMigrated_iff_of_source hs).mp hbefore)
        ((isMigrated_of_source hs').mp hwaits)

/-- A batch with room for the whole pool succeeds. It takes the keys that wait to be shipped and
were added when no skip of them was queued, and the pushed ones that an analysis named again. -/
theorem full_batch_of_trail (hfirst : first.Fresh) (h : Trail first es c) {r : BatchRule}
    {size : String → Nat} (hlimit : r.limit < Word.limit)
    (hfull : r.costOf size c.pool.drain.waiting.keys ≤ r.limit) :
    ∃ batch next, c.takeBatch r size = .ok (batch, next) ∧ batch.Nodup ∧
      ∀ k, TakesPool k es c batch := by
  obtain ⟨batch, pool, hok, hnodup, hmem⟩ := Pool.exists_full_batch hlimit hfull
  refine ⟨batch, { c with pool }, ?_, hnodup, fun k => ?_⟩
  · rw [takeBatch, hok]
    rfl
  · have hready : k ∈ batch ↔ c.Ready k := hmem k
    have hwaiting := h.ready_waiting_iff hfirst k
    have hpushed := h.ready_pushed_iff hfirst k
    rw [← hready] at hwaiting hpushed
    have hawakened :
        Since (fun e => e.Awakens k ∧ k ∉ e.before.pool.skips) (Event.Waits k) es →
          k ∈ batch := by
      intro hsince
      refine (hwaiting.mpr (hsince.imp (fun e he ⟨hawakens, hskip⟩ => ?_) fun _ _ h => h)).1
      exact ⟨⟨h.adds_of_awakens hfirst he hawakens, hskip⟩, hawakens.2⟩
    refine ⟨hwaiting, hawakened, hpushed,
      fun horderly => ⟨fun hsince => ?_, fun hpush hk => ?_⟩⟩
    · refine hawakened (hsince.imp (fun e he hawakens => ⟨hawakens, ?_⟩) fun _ _ h => h)
      exact (horderly e he (h.adds_of_awakens hfirst he hawakens)).1
    · obtain ⟨xs, e, ys, rfl, ⟨hanalyzes, -, hstill⟩, -⟩ := hpushed.mp ⟨hk, hpush⟩
      have hwaits := (horderly e (by simp) (Step.adds_of_analyzes hanalyzes)).2
      rw [hstill] at hwaits
      nomatch hwaits

end

/-! ## Steps of a move to a joining partition -/

/-- The sizes of records do not matter for a budget that counts them. -/
def unsized : String → Nat := fun _ => 0

/-- A batch has more room than the pool needs, before and after the skips are dropped. -/
def hasRoom (c : Coordinator ℚ) : Bool :=
  BatchRule.default.costOf unsized c.pool.waiting.keys < BatchRule.default.limit &&
    BatchRule.default.costOf unsized c.pool.drain.waiting.keys < BatchRule.default.limit

/-- A batch is taken with room for the whole pool, after some steps at the source of the move. -/
structure Emptied (es : List (Event ℚ)) (c : Coordinator ℚ) (batch : List Key) : Prop where
  trail : ∃ first, Reached joining joiningPlacement (some joiningPlans) first ∧ first.Fresh ∧
    Trail first es c
  taken : ∃ next, c.takeBatch .default unsized = .ok (batch, next)
  room : c.hasRoom = true

/-- The move is in flight, and the steps are made. -/
theorem trail_of_joining {α : Type} {steps : List Step} {a : α}
    {f : List (Event ℚ) × Coordinator ℚ → α}
    (h : (joiningRun.toOption.bind fun turn => turn.next.follow steps).map f = some a) :
    ∃ first es c, Reached joining joiningPlacement (some joiningPlans) first ∧ first.Fresh ∧
      Trail first es c ∧ f (es, c) = a := by
  obtain ⟨⟨es, c⟩, hr, hresult⟩ := Option.map_eq_some_iff.mp h
  obtain ⟨turn, hturn, hfollow⟩ := Option.bind_eq_some_iff.mp hr
  have hjoined : joiningRun = .ok turn := by
    cases hrun : joiningRun with
    | error e =>
      rw [hrun] at hturn
      nomatch hturn
    | ok t =>
      rw [hrun] at hturn
      rw [Option.some.inj hturn]
  have hstart : joiningRun.toOption.map (fun turn => (turn.submissions.any (·.2),
      turn.next.isSource)) = some (true, true) := by decide +kernel
  rw [hjoined] at hstart
  obtain ⟨hsent, hsource⟩ := Prod.mk.inj (Option.some.inj hstart)
  have hlaunched : Run (make joining joiningPlacement (some joiningPlans)) _ _ :=
    Run.nil.call accepting (.launch 0) rfl
  have hfresh := fresh_of_dispatches (e := ⟨_, accepting, .observe [] 5, turn⟩) hlaunched
    hjoined hsent hsource
  exact ⟨turn.next, es, c, reached_joiningRun hjoined, hfresh, trail_of_follow hfollow, hresult⟩

/-- Of two keys that the analysis found, one is pushed in the foreground. The next batch takes the
other one only. -/
theorem full_batch_of_trail_joining : ∃ first es c batch next,
    Reached joining joiningPlacement (some joiningPlans) first ∧ Trail first es c ∧
    c.takeBatch .default unsized = .ok (batch, next) ∧ batch.Nodup ∧
    (∀ k, TakesPool k es c batch) ∧ ⟨"t", 1⟩ ∉ batch ∧ ⟨"t", 2⟩ ∈ batch := by
  have hend : (joiningRun.toOption.bind fun turn => turn.next.follow
      [.analyze [⟨"t", 1⟩, ⟨"t", 2⟩], .shipped [⟨"t", 1⟩]]).map (fun r =>
        (r.2.hasRoom, r.2.isMigrated ⟨"t", 1⟩,
          decide (Since (Event.Repeats ⟨"t", 1⟩) (Event.StaysPushed ⟨"t", 1⟩) r.1),
          decide (Since
            (fun e : Event ℚ => e.Awakens ⟨"t", 2⟩ ∧ ⟨"t", 2⟩ ∉ e.before.pool.skips)
            (Event.Waits ⟨"t", 2⟩) r.1))) =
      some (true, true, false, true) := by decide +kernel
  obtain ⟨first, es, c, hreached, hfresh, htrail, hresult⟩ := trail_of_joining hend
  simp only [Prod.mk.injEq, decide_eq_true_eq, decide_eq_false_iff_not, hasRoom,
    Bool.and_eq_true] at hresult
  obtain ⟨⟨-, hfull⟩, hpushed, hnot, hawakened⟩ := hresult
  obtain ⟨batch, next, hok, hnodup, hall⟩ :=
    full_batch_of_trail hfresh htrail (r := .default) (by decide) (Nat.le_of_lt hfull)
  exact ⟨first, es, c, batch, next, hreached, htrail, hok, hnodup, hall,
    fun hmem => hnot ((hall _).pushed.mp ⟨hmem, hpushed⟩), (hall _).awakened hawakened⟩

theorem emptied_of_joining {α : Type} {steps : List Step} {a : α}
    {f : List (Event ℚ) × Coordinator ℚ → α}
    (h : (joiningRun.toOption.bind fun turn => turn.next.follow steps).map
      (fun r => (r.2.hasRoom, f r)) = some (true, a)) :
    ∃ es c batch,
      Emptied es c batch ∧ (∀ k, k ∈ batch ↔ c.Ready k) ∧ f (es, c) = a := by
  obtain ⟨first, es, c, hreached, hfresh, htrail, hresult⟩ := trail_of_joining h
  obtain ⟨hroom, hresult⟩ := Prod.mk.inj hresult
  have hfull := hroom
  simp only [hasRoom, Bool.and_eq_true, decide_eq_true_eq] at hfull
  have hlimit : BatchRule.default.limit < Word.limit := by decide
  obtain ⟨batch, pool, hok, -, hmem⟩ := Pool.exists_full_batch hlimit (Nat.le_of_lt hfull.2)
  have htaken : c.takeBatch .default unsized = .ok (batch, { c with pool }) := by
    rw [takeBatch, hok]
    rfl
  exact ⟨es, c, batch, ⟨⟨first, hreached, hfresh, htrail⟩, ⟨_, htaken⟩, hroom⟩, hmem,
    hresult⟩

/-- A key that is pushed and inserted again waits to be shipped, but the next batch drops it for the
skip that is still queued. One that is pushed, and found by another analysis after the next batch,
is taken although it counts as migrated. -/
theorem full_batch_misses_and_repeats :
    (∃ es c batch, Emptied es c batch ∧ c.isMigrated ⟨"t", 1⟩ = false ∧
      Since (Event.Awakens ⟨"t", 1⟩) (Event.Waits ⟨"t", 1⟩) es ∧
      ⟨"t", 1⟩ ∉ batch) ∧
    ∃ es c batch,
      Emptied es c batch ∧ c.isMigrated ⟨"t", 2⟩ = true ∧ ⟨"t", 2⟩ ∈ batch := by
  constructor
  · have hend : (joiningRun.toOption.bind fun turn => turn.next.follow
        [.analyze [⟨"t", 1⟩], .shipped [⟨"t", 1⟩], .insert ⟨"t", 1⟩]).map (fun r =>
          (r.2.hasRoom, r.2.isMigrated ⟨"t", 1⟩,
            decide (Since (Event.Awakens ⟨"t", 1⟩) (Event.Waits ⟨"t", 1⟩) r.1),
            decide (⟨"t", 1⟩ ∈ r.2.pool.skips))) =
        some (true, false, true, true) := by decide +kernel
    obtain ⟨es, c, batch, hemptied, hmem, hresult⟩ := emptied_of_joining hend
    simp only [Prod.mk.injEq, decide_eq_true_eq] at hresult
    obtain ⟨hwaits, hsince, hskip⟩ := hresult
    exact ⟨es, c, batch, hemptied, hwaits, hsince, fun hk => ((hmem _).mp hk).2 hskip⟩
  · have hend : (joiningRun.toOption.bind fun turn => turn.next.follow
        [.analyze [⟨"t", 2⟩], .shipped [⟨"t", 2⟩], .takeBatch .default unsized,
          .analyze [⟨"t", 2⟩]]).map (fun r =>
            (r.2.hasRoom, r.2.isMigrated ⟨"t", 2⟩, r.2.pool.waiting.contains ⟨"t", 2⟩,
              decide (⟨"t", 2⟩ ∉ r.2.pool.skips))) =
        some (true, true, true, true) := by decide +kernel
    obtain ⟨es, c, batch, hemptied, hmem, hresult⟩ := emptied_of_joining hend
    simp only [Prod.mk.injEq, decide_eq_true_eq] at hresult
    obtain ⟨hpushed, hwaiting, hskip⟩ := hresult
    exact ⟨es, c, batch, hemptied, hpushed, (hmem _).mpr ⟨hwaiting, hskip⟩⟩

end Coordinator

end Reshard
