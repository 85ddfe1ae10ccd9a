import Mathlib
import Reshard.Migration.Pusher
import Reshard.Proofs.Push.Batch

/-!
What becomes of the keys of a pool from round to round. A round takes a batch out of the pool; until
it is known whether the batch was sent, keys may be added, reported as pushed or cleared. A batch
that could not be sent is put back. So no key is lost, and a key is sent twice only if it was added
again (`Outbox.conserved_of_run`). The rounds of a background pusher are of this kind
(`Outbox.step_of_pushRound`, `Outbox.step_settle`).
-/

namespace Reshard

namespace Tables

variable {t t' : Tables}

theorem getElem?_ids (t : Tables) (name : String) :
    t.ids[name]? = if t.idsOf name = ∅ then none else some (t.idsOf name) := by
  rw [idsOf]
  cases hids : t.ids[name]? with
  | none => simp
  | some kept => simp [t.nonempty name kept hids]

/-- Tables with the same keys are equal. -/
theorem eq_of_contains (h : ∀ k, t.contains k = t'.contains k) : t = t' := by
  have hidsOf (name : String) : t.idsOf name = t'.idsOf name := by
    refine Std.ExtTreeSet.ext_mem fun id => ?_
    rw [← Std.ExtTreeSet.contains_iff_mem, ← Std.ExtTreeSet.contains_iff_mem]
    exact Bool.eq_iff_iff.mp (h ⟨name, id⟩)
  have hids : t.ids = t'.ids := by
    refine Std.ExtTreeMap.ext_getElem? fun name => ?_
    rw [getElem?_ids, getElem?_ids, hidsOf]
  cases t
  cases t'
  cases hids
  rfl

end Tables

namespace BatchRule

/-- Where all keys have room, some of them have it. -/
theorem Roomy.of_append {r : BatchRule} {size : String → Nat} {ks ks' all : List Key}
    (h : r.Roomy size all) (hperm : (ks ++ ks').Perm all) : r.Roomy size ks' := by
  intro k hk used hused hle
  refine h k (hperm.subset (List.mem_append_right ks hk)) used hused (Nat.le_trans hle ?_)
  rw [← costOf_perm hperm, costOf_append]
  exact Nat.le_add_left _ _

end BatchRule

namespace Pool

variable {p next : Pool} {r : BatchRule} {size : String → Nat} {batch : List Key}

theorem drain_of_skips (h : p.skips = []) : p.drain = p := by
  cases p
  cases h
  rfl

theorem size_drain_le (p : Pool) : p.drain.size ≤ p.size := by
  rw [Pool.size, Pool.size, Tables.size_eq_length, Tables.size_eq_length]
  refine ((Tables.nodup_keys _).subperm fun k hk => ?_).length_le
  rw [Tables.mem_keys] at hk ⊢
  exact (Tables.contains_eraseMany.mp hk).2

/-- A batch that is put back at once leaves the pool without the keys that were reported, and
otherwise as it was. -/
theorem Batched.restore_eq (h : p.Batched r size batch next) : next.restore batch = p.drain := by
  have hwaiting : (next.restore batch).waiting = p.drain.waiting := by
    refine Tables.eq_of_contains fun k => Bool.eq_iff_iff.mpr ?_
    change (next.waiting.insertMany batch).contains k = true ↔ _
    rw [Tables.contains_insertMany, ← Tables.mem_keys, ← List.mem_append, h.perm.mem_iff,
      Tables.mem_keys]
  calc next.restore batch = ⟨(next.restore batch).waiting, next.skips⟩ := rfl
    _ = p.drain := by
      rw [hwaiting, h.skips]
      rfl

/-- A batch takes a key, if there is one. -/
theorem Batched.size_lt (h : p.Batched r size batch next) (hlimit : 1 ≤ r.limit) :
    next.size = 0 ∨ next.size < p.size := by
  have hsum : batch.length + next.size = p.drain.size := by
    rw [Pool.size, Pool.size, Tables.size_eq_length, Tables.size_eq_length, ← List.length_append,
      h.perm.length_eq]
  have hle := p.size_drain_le
  rcases h.ended with hused | hnone
  · cases batch with
    | nil => exact absurd (Nat.le_trans hlimit hused) (Nat.not_succ_le_zero 0)
    | cons k rest =>
      rw [List.length_cons] at hsum
      omega
  · left
    rw [Pool.size, Tables.size_eq_length, hnone, List.length_nil]

/-- Rounds one after the other, each by a rule of its own, whose batches are all sent. -/
def sendAll (p : Pool) (rounds : List (BatchRule × (String → Nat))) : Except Overflow Pool :=
  rounds.foldlM (fun p round => do
    let (_, next) ← p.takeBatch round.1 round.2
    return next) p

/-- As many rounds as there are keys empty the pool, unless the cost of the keys overflows. -/
theorem yields_sendAll {rounds : List (BatchRule × (String → Nat))}
    (hlimit : ∀ round ∈ rounds, 1 ≤ round.1.limit) (hsize : p.size ≤ rounds.length) :
    Outcome.Yields (fun last => last.isEmpty = true)
      (∃ round ∈ rounds, ¬ round.1.Roomy round.2 p.drain.waiting.keys) (p.sendAll rounds) := by
  induction rounds generalizing p with
  | nil => exact .ok (by simpa [isEmpty] using hsize)
  | cons round rest ih =>
    obtain ⟨hround, hrest⟩ := List.forall_mem_cons.mp hlimit
    rw [sendAll, List.foldlM_cons, bind_assoc]
    refine ((yields_takeBatch p round.1 round.2).weaken fun hnot =>
      ⟨round, List.mem_cons_self, hnot⟩).bind fun ⟨batch, next⟩ hbatched => ?_
    have hnext : next.size ≤ rest.length := by
      rw [List.length_cons] at hsize
      have hless := hbatched.size_lt hround
      dsimp only at hless
      omega
    refine (ih hrest hnext).weaken ?_
    rintro ⟨other, hother, hnot⟩
    refine ⟨other, List.mem_cons_of_mem round hother, fun hroomy => hnot ?_⟩
    rw [drain_of_skips hbatched.skips]
    exact hroomy.of_append hbatched.perm

end Pool

/-! ## Rounds of which nothing is known -/

/-- A pool, and the batch that was taken out of it and of which nothing is known yet. -/
structure Outbox where
  pool : Pool
  underway : Option (List Key)

namespace Outbox

/-- What happens to the keys of an outbox. A round that finds nothing to send takes an empty
batch. -/
inductive Event
  | add (k : Key)
  | skip (k : Key)
  | clear
  | taken (batch : List Key)
  | sent (batch : List Key)
  | returned (batch : List Key)
  deriving DecidableEq

/-- Whether it is something that may happen while a batch is under way. -/
def Event.isUse : Event → Bool
  | .add _ | .skip _ | .clear => true
  | .taken _ | .sent _ | .returned _ => false

/-- What an event makes of an outbox. A round begins when nothing is under way. -/
inductive Step : Outbox → Event → Outbox → Prop
  | add (o : Outbox) (k : Key) : Step o (.add k) { o with pool := o.pool.add k }
  | skip (o : Outbox) (k : Key) : Step o (.skip k) { o with pool := o.pool.skip k }
  | clear (o : Outbox) : Step o .clear { o with pool := ∅ }
  | taken {p next : Pool} {r : BatchRule} {size : String → Nat} {batch : List Key} :
      p.takeBatch r size = .ok (batch, next) →
      Step ⟨p, none⟩ (.taken batch) ⟨next, some batch⟩
  | sent (p : Pool) (batch : List Key) : Step ⟨p, some batch⟩ (.sent batch) ⟨p, none⟩
  | returned (p : Pool) (batch : List Key) :
      Step ⟨p, some batch⟩ (.returned batch) ⟨p.restore batch, none⟩

/-- Events one after the other, in any order that the rounds allow. -/
inductive Run (first : Outbox) : List Event → Outbox → Prop
  | nil : Run first [] first
  | step {es : List Event} {e : Event} {o o' : Outbox} : Run first es o → Step o e o' →
      Run first (es ++ [e]) o'

def start : Outbox := ⟨∅, none⟩

/-- What happened since the pool was last cleared. -/
def sinceClear (es : List Event) : List Event := es.rtakeWhile (· ≠ .clear)

theorem sinceClear_concat (es : List Event) (e : Event) :
    sinceClear (es ++ [e]) = if e = .clear then [] else sinceClear es ++ [e] := by
  unfold sinceClear
  split
  · next h => rw [List.rtakeWhile_concat_neg _ _ _ (by simpa using h)]
  · next h => rw [List.rtakeWhile_concat_pos _ _ _ (by simpa using h)]

/-- The key waits for a batch. -/
def Waits (o : Outbox) (k : Key) : Prop := o.pool.waiting.contains k = true

/-- The key waits, or it was taken since then by a batch that is under way or was sent. -/
def Keeps (o : Outbox) (k : Key) (since : List Event) : Prop :=
  o.Waits k ∨ ∃ (us : List Event) (b : List Key) (vs : List Event),
    since = us ++ .taken b :: vs ∧ k ∈ b ∧ (o.underway = some b ∨ .sent b ∈ vs)

variable {first o o' : Outbox} {e : Event} {es xs ys zs : List Event} {k : Key}
  {batch : List Key}

/-! ## What one event does to a key -/

theorem batched_of_takeBatch {p next : Pool} {r : BatchRule} {size : String → Nat}
    (h : p.takeBatch r size = .ok (batch, next)) : p.Batched r size batch next :=
  (Pool.yields_takeBatch p r size).of_eq_ok h

theorem waits_restore {p : Pool} {underway : Option (List Key)} :
    Waits ⟨p.restore batch, underway⟩ k ↔ k ∈ batch ∨ p.waiting.contains k = true :=
  Tables.contains_insertMany

/-- A key that waits goes on waiting or is taken. -/
theorem Step.waits_or_taken (h : Step o e o') (hclear : e ≠ .clear) (hk : o.Waits k)
    (hskip : k ∉ o.pool.skips) :
    o'.Waits k ∨ ∃ b, e = .taken b ∧ k ∈ b ∧ o'.underway = some b := by
  cases h with
  | add a => exact .inl (Tables.contains_insert.mpr (.inr hk))
  | skip a => exact .inl hk
  | clear => exact absurd rfl hclear
  | @taken p next r size b htake =>
    by_cases hb : k ∈ b
    · exact .inr ⟨b, rfl, hb, rfl⟩
    · exact .inl ((batched_of_takeBatch htake).contains_iff.mpr ⟨hk, hskip, hb⟩)
  | sent p b => exact .inl hk
  | returned p b => exact .inl (waits_restore.mpr (.inr hk))

/-- A batch that is under way stays so until it is sent or its keys wait again. -/
theorem Step.underway_or_settled (h : Step o e o') (hb : o.underway = some batch) :
    o'.underway = some batch ∨ e = .sent batch ∨ ∀ k ∈ batch, o'.Waits k := by
  cases h with
  | add a => exact .inl hb
  | skip a => exact .inl hb
  | clear => exact .inl hb
  | taken htake => nomatch hb
  | sent p b =>
    cases hb
    exact .inr (.inl rfl)
  | returned p b =>
    cases hb
    exact .inr (.inr fun k hk => waits_restore.mpr (.inl hk))

theorem Step.skip_or_mem_skips (h : Step o e o') (hk : k ∈ o'.pool.skips) :
    e = .skip k ∨ e ≠ .clear ∧ k ∈ o.pool.skips := by
  cases h with
  | add a => exact .inr ⟨nofun, hk⟩
  | skip a =>
    rcases List.mem_cons.mp hk with rfl | hk
    · exact .inl rfl
    · exact .inr ⟨nofun, hk⟩
  | clear => nomatch hk
  | taken htake =>
    rw [(batched_of_takeBatch htake).skips] at hk
    nomatch hk
  | sent p b => exact .inr ⟨nofun, hk⟩
  | returned p b => exact .inr ⟨nofun, hk⟩

/-- A key comes to wait only if it is added or put back. -/
theorem Step.not_waits (h : Step o e o') (hadd : e ≠ .add k)
    (hreturned : ∀ b, e = .returned b → k ∉ b) (hk : ¬ o.Waits k) : ¬ o'.Waits k := by
  cases h with
  | add a =>
    intro hwaits
    rcases Tables.contains_insert.mp hwaits with rfl | hwaits
    · exact hadd rfl
    · exact hk hwaits
  | skip a => exact hk
  | clear =>
    intro hwaits
    rw [Waits] at hwaits
    nomatch (Tables.contains_empty k).symm.trans hwaits
  | taken htake =>
    intro hwaits
    exact hk ((batched_of_takeBatch htake).contains_iff.mp hwaits).1
  | sent p b => exact hk
  | returned p b =>
    intro hwaits
    rcases waits_restore.mp hwaits with hb | hwaits
    · exact hreturned b rfl hb
    · exact hk hwaits

/-- The key neither waits nor is under way. -/
def Lacks (o : Outbox) (k : Key) : Prop := ¬ o.Waits k ∧ ∀ b, o.underway = some b → k ∉ b

theorem Step.lacks (h : Step o e o') (hadd : e ≠ .add k) (hk : o.Lacks k) : o'.Lacks k := by
  constructor
  · refine h.not_waits hadd (fun b he => ?_) hk.1
    subst he
    cases h
    exact hk.2 b rfl
  · cases h with
    | add a => exact hk.2
    | skip a => exact hk.2
    | clear => exact hk.2
    | taken htake =>
      rintro b ⟨⟩ hb
      exact hk.1 ((batched_of_takeBatch htake).waits_of_mem hb).1
    | sent p b => exact nofun
    | returned p b => exact nofun

/-! ## What a run does to a key -/

/-- The states before and after an event of a run. -/
theorem Run.at_event (h : Run first (xs ++ e :: ys) o) :
    ∃ before after, Run first xs before ∧ Step before e after ∧ Run after ys o := by
  generalize hall : xs ++ e :: ys = all at h
  induction h generalizing ys with
  | nil => simp at hall
  | @step es e' middle last hrun hstep ih =>
    rcases List.eq_nil_or_concat ys with rfl | ⟨init, e'', rfl⟩
    · obtain ⟨rfl, he⟩ := List.append_inj' hall rfl
      cases he
      exact ⟨middle, last, hrun, hstep, .nil⟩
    · rw [List.concat_eq_append, ← List.cons_append, ← List.append_assoc] at hall
      obtain ⟨hinit, he⟩ := List.append_inj' hall rfl
      cases he
      obtain ⟨before, after, hbefore, hat, hafter⟩ := ih hinit
      rw [List.concat_eq_append]
      exact ⟨before, after, hbefore, hat, hafter.step hstep⟩

/-- A key on the skip queue was reported since the pool was last cleared. -/
theorem Run.mem_sinceClear (h : Run start es o) (hk : k ∈ o.pool.skips) :
    .skip k ∈ sinceClear es := by
  induction h with
  | nil => nomatch hk
  | @step es e o o' hrun hstep ih =>
    rw [sinceClear_concat]
    rcases hstep.skip_or_mem_skips hk with rfl | ⟨hclear, hbefore⟩
    · rw [if_neg nofun]
      exact List.mem_append_right _ (List.mem_singleton_self _)
    · rw [if_neg hclear]
      exact List.mem_append_left _ (ih hbefore)

theorem Step.keeps (h : Step o e o') (hclear : e ≠ .clear) (hskip : k ∉ o.pool.skips)
    (hk : o.Keeps k ys) : o'.Keeps k (ys ++ [e]) := by
  rcases hk with hwaits | ⟨us, b, vs, rfl, hb, hlater⟩
  · refine (h.waits_or_taken hclear hwaits hskip).imp_right ?_
    rintro ⟨b, rfl, hb, hunderway⟩
    exact ⟨ys, b, [], rfl, hb, .inl hunderway⟩
  · have hsplit : us ++ .taken b :: vs ++ [e] = us ++ .taken b :: (vs ++ [e]) := by simp
    rcases hlater with hunderway | hsent
    · rcases h.underway_or_settled hunderway with hstill | rfl | hwaits
      · exact .inr ⟨us, b, vs ++ [e], hsplit, hb, .inl hstill⟩
      · exact .inr ⟨us, b, _, hsplit, hb, .inr (by simp)⟩
      · exact .inl (hwaits k hb)
    · exact .inr ⟨us, b, vs ++ [e], hsplit, hb, .inr (List.mem_append_left _ hsent)⟩

/-- A key that is added and is not reported as pushed is not lost. -/
theorem Run.keeps (h : Run start es o) (hskip : .skip k ∉ sinceClear es)
    (hadd : sinceClear es = xs ++ .add k :: ys) : o.Keeps k ys := by
  induction h generalizing ys with
  | nil => simp [sinceClear] at hadd
  | @step es e o o' hrun hstep ih =>
    rw [sinceClear_concat] at hskip hadd
    split at hadd
    · simp at hadd
    · next hclear =>
      rw [if_neg hclear, List.mem_append, not_or] at hskip
      rcases List.eq_nil_or_concat ys with rfl | ⟨init, e', rfl⟩
      · obtain ⟨-, he⟩ := List.append_inj' hadd rfl
        cases he
        cases hstep
        exact .inl (Tables.contains_insert.mpr (.inl rfl))
      · rw [List.concat_eq_append, ← List.cons_append, ← List.append_assoc] at hadd
        obtain ⟨hinit, he⟩ := List.append_inj' hadd rfl
        cases he
        rw [List.concat_eq_append]
        exact hstep.keeps hclear (fun hk => hskip.1 (hrun.mem_sinceClear hk)) (ih hskip.1 hinit)

/-- A batch that is under way was taken, and since then no other round began or ended. -/
theorem Run.exists_taken (h : Run first es o) (hfirst : first.underway = none)
    (hb : o.underway = some batch) :
    ∃ us vs : List Event, es = us ++ .taken batch :: vs ∧ ∀ e ∈ vs, e.isUse = true := by
  induction h with
  | nil => nomatch hfirst.symm.trans hb
  | @step es e o o' hrun hstep ih =>
    have hlater (he : e.isUse = true) (hsame : o.underway = some batch) :
        ∃ us vs : List Event, es ++ [e] = us ++ .taken batch :: vs ∧
          ∀ e ∈ vs, e.isUse = true := by
      obtain ⟨us, vs, rfl, hvs⟩ := ih hsame
      exact ⟨us, vs ++ [e], by simp, List.forall_mem_append.mpr ⟨hvs, by simpa using he⟩⟩
    cases hstep with
    | add a => exact hlater rfl hb
    | skip a => exact hlater rfl hb
    | clear => exact hlater rfl hb
    | taken htake =>
      cases hb
      exact ⟨es, [], rfl, nofun⟩
    | sent p b => nomatch hb
    | returned p b => nomatch hb

/-- While a batch is under way, a key comes to wait only if it is added. -/
theorem Run.not_waits (h : Run first es o) (huse : ∀ e ∈ es, e.isUse = true)
    (hadd : .add k ∉ es) (hk : ¬ first.Waits k) : ¬ o.Waits k := by
  induction h with
  | nil => exact hk
  | @step es e o o' hrun hstep ih =>
    rw [List.mem_append, not_or, List.mem_singleton] at hadd
    obtain ⟨hbefore, he⟩ := List.forall_mem_append.mp huse
    refine hstep.not_waits (Ne.symm hadd.2) (fun b hreturned => ?_) (ih hbefore hadd.1)
    subst hreturned
    nomatch he _ (List.mem_singleton_self _)

theorem Run.lacks (h : Run first es o) (hadd : .add k ∉ es) (hk : first.Lacks k) : o.Lacks k := by
  induction h with
  | nil => exact hk
  | step hrun hstep ih =>
    rw [List.mem_append, not_or, List.mem_singleton] at hadd
    exact hstep.lacks (Ne.symm hadd.2) (ih hadd.1)

/-- A key that is sent twice was taken twice, and added between. -/
theorem Run.added_between {b b' : List Key}
    (h : Run start (xs ++ .sent b :: (ys ++ .sent b' :: zs)) o) (hk : k ∈ b) (hk' : k ∈ b') :
    ∃ us vs ps qs : List Event, xs = us ++ .taken b :: vs ∧ ys = ps ++ .taken b' :: qs ∧
      (∀ e ∈ vs ++ qs, e.isUse = true) ∧ .add k ∈ vs ++ ps := by
  obtain ⟨before, after, hxs, hsent, hrest⟩ := h.at_event
  obtain ⟨before', after', hys, hsent', -⟩ := hrest.at_event
  cases hsent
  cases hsent'
  obtain ⟨us, vs, rfl, hvs⟩ := hxs.exists_taken rfl rfl
  obtain ⟨ps, qs, rfl, hqs⟩ := hys.exists_taken rfl rfl
  refine ⟨us, vs, ps, qs, rfl, rfl, List.forall_mem_append.mpr ⟨hvs, hqs⟩, ?_⟩
  by_contra hadd
  rw [List.mem_append, not_or] at hadd
  -- Without an addition the key is absent from the first taking to the second one.
  obtain ⟨found, left, -, htaken, hunderway⟩ := hxs.at_event
  obtain ⟨found', left', hnext, htaken', -⟩ := hys.at_event
  have hleft : ¬ left.Waits k := by
    cases htaken with
    | taken htake =>
      exact fun hwaits => ((batched_of_takeBatch htake).contains_iff.mp hwaits).2.2 hk
  have hlacks := hnext.lacks hadd.2 ⟨hunderway.not_waits hvs hadd.1 hleft, nofun⟩
  cases htaken' with
  | taken htake => exact hlacks.1 ((batched_of_takeBatch htake).waits_of_mem hk').1

/-! ## No key is lost -/

/-- What is true of a pool, after all that happened to it. -/
structure Conserved (es : List Event) (o : Outbox) : Prop where
  /-- A key that was added since the pool was last cleared, and was not reported as pushed, waits or
  was taken after that by a batch that is under way or was sent. -/
  kept : ∀ k : Key, .skip k ∉ sinceClear es →
    ∀ xs ys : List Event, sinceClear es = xs ++ .add k :: ys → o.Keeps k ys
  /-- A key of two batches that were sent was added between the takings of the two. -/
  added : ∀ (k : Key) (b b' : List Key) (xs ys zs : List Event),
    es = xs ++ .sent b :: (ys ++ .sent b' :: zs) → k ∈ b → k ∈ b' →
    ∃ us vs ps qs : List Event, xs = us ++ .taken b :: vs ∧ ys = ps ++ .taken b' :: qs ∧
      (∀ e ∈ vs ++ qs, e.isUse = true) ∧ .add k ∈ vs ++ ps
  /-- A round that fails at once leaves the pool without the keys that were reported, and otherwise
  as it was. -/
  restored : ∀ (b : List Key) (middle last : Outbox),
    Step o (.taken b) middle → Step middle (.returned b) last → last = ⟨o.pool.drain, none⟩
  /-- As many rounds as there are keys empty the pool if all of them are sent, unless the cost of
  the keys overflows. -/
  emptied : ∀ rounds : List (BatchRule × (String → Nat)),
    (∀ round ∈ rounds, 1 ≤ round.1.limit) →
    o.pool.size ≤ rounds.length →
    Outcome.Yields (fun last => last.isEmpty = true)
      (∃ round ∈ rounds, ¬ round.1.Roomy round.2 o.pool.drain.waiting.keys)
      (o.pool.sendAll rounds)

/-- Whatever fails and whatever happens during a round, no key is lost. -/
theorem conserved_of_run (h : Run start es o) : Conserved es o where
  kept _ hskip _ _ hadd := h.keeps hskip hadd
  added _ _ _ _ _ _ hes hk hk' := by
    subst hes
    exact h.added_between hk hk'
  restored b middle last htaken hreturned := by
    cases htaken with
    | taken htake =>
      cases hreturned
      rw [(batched_of_takeBatch htake).restore_eq]
  emptied _ hlimit hsize := Pool.yields_sendAll hlimit hsize

/-- A key that is added again while it is under way, and is sent twice. Then it comes back. -/
def resent (k : Key) : List Event :=
  [.add k, .taken [k], .add k, .sent [k], .taken [k], .sent [k], .add k, .taken [k], .returned [k]]

theorem conserved_resent : ∃ o, Run start (resent ⟨"t", 1⟩) o ∧
    Conserved (resent ⟨"t", 1⟩) o ∧
    o.Keeps ⟨"t", 1⟩ [.taken [⟨"t", 1⟩], .returned [⟨"t", 1⟩]] ∧
    (∃ us vs ps qs : List Event,
      (resent ⟨"t", 1⟩).take 3 = us ++ .taken [⟨"t", 1⟩] :: vs ∧
      [.taken [⟨"t", 1⟩]] = ps ++ .taken [⟨"t", 1⟩] :: qs ∧
      (∀ e ∈ vs ++ qs, e.isUse = true) ∧ .add ⟨"t", 1⟩ ∈ vs ++ ps) ∧
    (o.pool.sendAll [(.default, fun _ => 1)]).map (·.isEmpty) = .ok true := by
  have htake : ((∅ : Pool).add ⟨"t", 1⟩).takeBatch .default (fun _ => 1) =
      .ok ([⟨"t", 1⟩], ∅) := by cbv
  have htwice : Run start ((resent ⟨"t", 1⟩).take 6) ⟨∅, none⟩ :=
    (((((Run.nil.step (.add _ _)).step (.taken htake)).step (.add _ _)).step (.sent _ _)).step
      (.taken htake)).step (.sent _ _)
  have hrun : Run start (resent ⟨"t", 1⟩) ⟨(∅ : Pool).add ⟨"t", 1⟩, none⟩ :=
    ((htwice.step (.add _ _)).step (.taken htake)).step (.returned _ _)
  have hconserved := conserved_of_run hrun
  refine ⟨_, hrun, hconserved, ?_, ?_, ?_⟩
  · exact hconserved.kept ⟨"t", 1⟩ (by decide) ((resent ⟨"t", 1⟩).take 6) _ (by decide)
  · exact hconserved.added ⟨"t", 1⟩ [⟨"t", 1⟩] [⟨"t", 1⟩] _ _
      ((resent ⟨"t", 1⟩).drop 6) rfl (by decide) (by decide)
  · have hroomy (ks : List Key) : BatchRule.default.Roomy (fun _ => 1) ks := by
      intro k _ used hused _
      have hlimit : BatchRule.default.limit < Word.limit := by decide
      exact Nat.lt_of_le_of_lt (Nat.succ_le_of_lt hused) hlimit
    have hyields := hconserved.emptied [(.default, fun _ => 1)] (by decide) (by cbv)
    obtain ⟨last, hlast, hempty⟩ := hyields.exists_ok (by simp [hroomy])
    rw [hlast, Except.map, hempty]

/-! ## Rounds of a background pusher -/

section

variable {W : Type} {c next : Coordinator W} {size : String → Nat} {round : Round}

/-- While a move is in flight, the round of a pusher takes a batch out of the pool. -/
theorem step_of_pushRound (h : c.pushRound size = .ok (round, next)) :
    (round = .ended ∧ next = c) ∨
      ∃ batch, round = (if batch.isEmpty then .idle else .sent batch) ∧
      Step ⟨c.pool, none⟩ (.taken batch) ⟨next.pool, some batch⟩ := by
  rw [Coordinator.pushRound] at h
  split at h
  · obtain ⟨⟨batch, taken⟩, hbatch, hround⟩ := Outcome.bind_eq_ok.mp h
    obtain ⟨⟨batch', pool⟩, hpool, htaken⟩ := Outcome.bind_eq_ok.mp hbatch
    cases htaken
    cases hround
    exact .inr ⟨batch, rfl, .taken hpool⟩
  · cases h
    exact .inl ⟨rfl, rfl⟩

/-- Its batch is put back unless the transport accepts it. -/
theorem step_settle (c : Coordinator W) (batch : List Key) (accepted : Bool) :
    Step ⟨c.pool, some batch⟩ (if accepted then .sent batch else .returned batch)
      ⟨(c.settle batch accepted).pool, none⟩ := by
  cases accepted with
  | true => exact .sent c.pool batch
  | false => exact .returned c.pool batch

end

end Outbox

end Reshard
