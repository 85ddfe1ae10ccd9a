import Mathlib.Data.List.DropRight
import Reshard.Proofs.Migration.Histories

/-!
What a coordinator knows of the keys of the move in flight, told by the calls since the move was put
in flight (`knows_of_run`). A key is tagged at the source exactly if the calls leave it `Awaited`,
and it is confirmed exactly if one of them named it as shipped.
-/

namespace Reshard

/-! ## The last and the first of some events -/

section

variable {α : Type} {p q : α → Prop} {es : List α} {e : α}

/-- After the last event with `p` there is none with `q`. -/
def LastSince (p q : α → Prop) (es : List α) : Prop :=
  ∃ xs e ys, es = xs ++ e :: ys ∧ p e ∧ (∀ y ∈ ys, ¬ p y) ∧ ∀ y ∈ ys, ¬ q y

/-- After the first event with `p` there is none with `q`. -/
def FirstSince (p q : α → Prop) (es : List α) : Prop :=
  ∃ xs e ys, es = xs ++ e :: ys ∧ p e ∧ (∀ x ∈ xs, ¬ p x) ∧ ∀ y ∈ ys, ¬ q y

/-- After some event with `p` all events have `q`. -/
def Since (p q : α → Prop) (es : List α) : Prop :=
  ∃ xs e ys, es = xs ++ e :: ys ∧ p e ∧ ∀ y ∈ ys, q y

theorem since_concat : Since p q (es ++ [e]) ↔ p e ∨ (Since p q es ∧ q e) := by
  constructor
  · rintro ⟨xs, a, ys, hsplit, ha, hq⟩
    rcases List.eq_nil_or_concat ys with rfl | ⟨ys, y, rfl⟩
    · obtain ⟨-, hlast⟩ := List.append_inj' hsplit rfl
      cases hlast
      exact .inl ha
    · rw [List.concat_eq_append, ← List.cons_append, ← List.append_assoc] at hsplit
      obtain ⟨hinit, hlast⟩ := List.append_inj' hsplit rfl
      cases hlast
      simp only [List.concat_eq_append, List.forall_mem_append, List.forall_mem_singleton] at hq
      exact .inr ⟨⟨xs, a, ys, hinit, ha, hq.1⟩, hq.2⟩
  · rintro (he | ⟨⟨xs, a, ys, rfl, ha, hq⟩, he⟩)
    · exact ⟨es, e, [], rfl, he, by simp⟩
    · refine ⟨xs, a, ys ++ [e], by simp, ha, ?_⟩
      exact List.forall_mem_append.mpr ⟨hq, by simpa using he⟩

theorem not_since_nil : ¬ Since p q [] := by
  rintro ⟨xs, e, ys, h, -⟩
  simp at h

theorem since_cons : Since p q (e :: es) ↔ Since p q es ∨ (p e ∧ ∀ y ∈ es, q y) := by
  constructor
  · rintro ⟨xs, a, ys, hsplit, ha, hq⟩
    cases xs with
    | nil =>
      cases hsplit
      exact .inr ⟨ha, hq⟩
    | cons x xs =>
      cases hsplit
      exact .inl ⟨xs, a, ys, rfl, ha, hq⟩
  · rintro (⟨xs, a, ys, rfl, ha, hq⟩ | ⟨he, hq⟩)
    · exact ⟨e :: xs, a, ys, rfl, ha, hq⟩
    · exact ⟨[], e, es, rfl, he, hq⟩

instance decidableSince [DecidablePred p] [DecidablePred q] :
    (es : List α) → Decidable (Since p q es)
  | [] => .isFalse not_since_nil
  | _ :: es =>
    have := decidableSince es
    decidable_of_iff _ since_cons.symm

theorem Since.imp {p' q' : α → Prop} (h : Since p q es) (hp : ∀ x ∈ es, p x → p' x)
    (hq : ∀ x ∈ es, q x → q' x) : Since p' q' es := by
  obtain ⟨xs, a, ys, rfl, ha, hall⟩ := h
  refine ⟨xs, a, ys, rfl, hp a (by simp) ha, fun y hy => ?_⟩
  exact hq y (by simp [hy]) (hall y hy)

theorem lastSince_concat_self (he : p e) : LastSince p q (es ++ [e]) :=
  ⟨es, e, [], rfl, he, by simp, by simp⟩

theorem lastSince_concat (he : ¬ p e) :
    LastSince p q (es ++ [e]) ↔ LastSince p q es ∧ ¬ q e := by
  constructor
  · rintro ⟨xs, a, ys, hsplit, ha, hp, hq⟩
    rcases List.eq_nil_or_concat ys with rfl | ⟨ys, y, rfl⟩
    · obtain ⟨-, hlast⟩ := List.append_inj' hsplit rfl
      cases hlast
      exact absurd ha he
    · rw [List.concat_eq_append, ← List.cons_append, ← List.append_assoc] at hsplit
      obtain ⟨hinit, hlast⟩ := List.append_inj' hsplit rfl
      cases hlast
      simp only [List.concat_eq_append, List.forall_mem_append, List.forall_mem_singleton] at hp hq
      exact ⟨⟨xs, a, ys, hinit, ha, hp.1, hq.1⟩, hq.2⟩
  · rintro ⟨⟨xs, a, ys, rfl, ha, hp, hq⟩, hqe⟩
    refine ⟨xs, a, ys ++ [e], by simp, ha, ?_, ?_⟩
    · exact List.forall_mem_append.mpr ⟨hp, by simpa using he⟩
    · exact List.forall_mem_append.mpr ⟨hq, by simpa using hqe⟩

theorem firstSince_concat :
    FirstSince p q (es ++ [e]) ↔
      (FirstSince p q es ∧ ¬ q e) ∨ (p e ∧ ∀ x ∈ es, ¬ p x) := by
  constructor
  · rintro ⟨xs, a, ys, hsplit, ha, hp, hq⟩
    rcases List.eq_nil_or_concat ys with rfl | ⟨ys, y, rfl⟩
    · obtain ⟨rfl, hlast⟩ := List.append_inj' hsplit rfl
      cases hlast
      exact .inr ⟨ha, hp⟩
    · rw [List.concat_eq_append, ← List.cons_append, ← List.append_assoc] at hsplit
      obtain ⟨hinit, hlast⟩ := List.append_inj' hsplit rfl
      cases hlast
      simp only [List.concat_eq_append, List.forall_mem_append, List.forall_mem_singleton] at hq
      exact .inl ⟨⟨xs, a, ys, hinit, ha, hp, hq.1⟩, hq.2⟩
  · rintro (⟨⟨xs, a, ys, rfl, ha, hp, hq⟩, hqe⟩ | ⟨hpe, hnone⟩)
    · refine ⟨xs, a, ys ++ [e], by simp, ha, hp, ?_⟩
      exact List.forall_mem_append.mpr ⟨hq, by simpa using hqe⟩
    · exact ⟨es, e, [], rfl, hpe, hnone, by simp⟩

theorem not_lastSince_nil : ¬ LastSince p q [] := by
  rintro ⟨xs, e, ys, h, -⟩
  simp at h

theorem not_firstSince_nil : ¬ FirstSince p q [] := by
  rintro ⟨xs, e, ys, h, -⟩
  simp at h

theorem forall_not_concat :
    (∀ x ∈ es ++ [e], ¬ p x) ↔ (∀ x ∈ es, ¬ p x) ∧ ¬ p e := by
  rw [List.forall_mem_append, List.forall_mem_singleton]

end

/-! ## What calls tell of a key -/

/-- The call names no key to be inserted, found, shipped or relocated. -/
def Call.isSilent : Call → Bool
  | .insert _ => false
  | .analyze _ => false
  | .shipped _ => false
  | .relocated _ => false
  | _ => true

namespace Entry

variable {W : Type}

/-- A move is put in flight. -/
def dispatches (e : Entry W) : Bool := e.turn.submissions.any (·.2)

/-- The key is inserted at the source. -/
def Inserts (k : Key) (e : Entry W) : Prop := e.op = .insert k ∧ e.turn.answer = .ok .done

/-- The analysis names the key. -/
def Analyzes (k : Key) (e : Entry W) : Prop := ∃ ks, e.op = .analyze ks ∧ k ∈ ks

/-- The key is named as shipped in the foreground. -/
def Ships (k : Key) (e : Entry W) : Prop := ∃ ks, e.op = .shipped ks ∧ k ∈ ks

/-- The key is named as shipped, or as living on the destination. -/
def Pushes (k : Key) (e : Entry W) : Prop :=
  e.Ships k ∨ ∃ ks, e.op = .relocated ks ∧ k ∈ ks

theorem not_pushes_of_analyzes {e : Entry W} {k : Key} (h : e.Analyzes k) :
    ¬ e.Pushes k := by
  obtain ⟨ks, hop, -⟩ := h
  simp [Entry.Pushes, Entry.Ships, hop]

end Entry

/-- The calls since a move was put in flight for the last time. -/
def sinceDispatch {W : Type} (es : List (Entry W)) : List (Entry W) :=
  es.rtakeWhile fun e => !e.dispatches

/-- At the source, the key still has to be shipped: it was inserted and not pushed since then, or it
was never inserted, and not pushed since the analysis found it. -/
def Awaited {W : Type} (k : Key) (es : List (Entry W)) : Prop :=
  LastSince (Entry.Inserts k) (Entry.Pushes k) es ∨
  ((∀ e ∈ es, ¬ e.Inserts k) ∧ FirstSince (Entry.Analyzes k) (Entry.Pushes k) es)

namespace Coordinator

variable {W : Type}

/-! ## Tags of a key -/

/-- Pushed keys lose nothing but the wait that a tag stands for. -/
theorem inserted_markPushed (c : Coordinator W) (k a : Key) :
    (c.markPushed k).inserted[a]? =
      if a = k then (c.inserted[a]?).map fun _ => true else c.inserted[a]? := by
  by_cases ha : a = k
  · subst ha
    rw [if_pos rfl, markPushed]
    split
    · next h => simp [flip, h]
    · next h =>
      have hsame : c.inserted[a]? = (c.inserted[a]?).map fun _ => true := by
        rcases hi : c.inserted[a]? with _ | _ | _ <;> simp_all
      split <;> exact hsame
  · rw [if_neg ha, markPushed]
    split
    · simp [flip, Std.ExtTreeMap.getElem?_insert, Ne.symm ha]
    · split <;> rfl

theorem inserted_markAllPushed (c : Coordinator W) (ks : List Key) (a : Key) :
    (c.markAllPushed ks).inserted[a]? =
      if a ∈ ks then (c.inserted[a]?).map fun _ => true else c.inserted[a]? := by
  induction ks generalizing c with
  | nil => simp [markAllPushed]
  | cons k rest ih =>
    change ((c.markPushed k).markAllPushed rest).inserted[a]? = _
    rw [ih, inserted_markPushed]
    by_cases ha : a = k <;> by_cases hrest : a ∈ rest <;> simp [ha, hrest]

/-- The tag of the analysis counts for keys that were not inserted. -/
theorem analyzed_markPushed {c : Coordinator W} {a : Key} (hnew : c.inserted[a]? = none) (k : Key) :
    (c.markPushed k).analyzed[a]? =
      if a = k then (c.analyzed[a]?).map fun _ => true else c.analyzed[a]? := by
  by_cases ha : a = k
  · subst ha
    rw [if_pos rfl, markPushed, if_neg (by simp [hnew])]
    split
    · next h => simp [flip, h]
    · next h => rcases hi : c.analyzed[a]? with _ | _ | _ <;> simp_all
  · rw [if_neg ha, markPushed]
    split
    · rfl
    · split
      · simp [flip, Std.ExtTreeMap.getElem?_insert, Ne.symm ha]
      · rfl

theorem analyzed_markAllPushed {c : Coordinator W} {a : Key} (hnew : c.inserted[a]? = none)
    (ks : List Key) :
    (c.markAllPushed ks).analyzed[a]? =
      if a ∈ ks then (c.analyzed[a]?).map fun _ => true else c.analyzed[a]? := by
  induction ks generalizing c with
  | nil => simp [markAllPushed]
  | cons k rest ih =>
    have hnew' : (c.markPushed k).inserted[a]? = none := by simp [inserted_markPushed, hnew]
    change ((c.markPushed k).markAllPushed rest).analyzed[a]? = _
    rw [ih hnew', analyzed_markPushed hnew]
    by_cases ha : a = k <;> by_cases hrest : a ∈ rest <;> simp [ha, hrest]

theorem inserted_tagAll (c : Coordinator W) (ks : List Key) :
    (ks.foldl tagAnalyzed c).inserted = c.inserted := by
  obtain ⟨_, _, heq⟩ := c.exists_tagAll ks
  rw [heq]

theorem analyzed_tagAll (c : Coordinator W) (ks : List Key) (a : Key) :
    (ks.foldl tagAnalyzed c).analyzed[a]? =
      if a ∈ ks then some ((c.analyzed[a]?).getD false) else c.analyzed[a]? := by
  induction ks generalizing c with
  | nil => simp
  | cons k rest ih =>
    rw [List.foldl_cons, ih, tagAnalyzed, Std.ExtTreeMap.getElem?_alter]
    rcases eq_or_ne a k with rfl | ha
    · by_cases hrest : a ∈ rest <;> simp [hrest]
    · simp [ha, ha.symm]

/-! ## What a call makes of the move in flight -/

open scoped Classical in
/-- What a call that leaves the move in flight tells of keys. -/
structure Tells (e : Entry W) : Prop where
  setup_eq : e.turn.next.setup = e.before.setup
  active_eq : e.turn.next.active = e.before.active
  inserted : e.before.isSource = true → ∀ k, e.turn.next.inserted[k]? =
    if e.Inserts k then some false
    else if e.Pushes k then (e.before.inserted[k]?).map fun _ => true
    else e.before.inserted[k]?
  analyzed : e.before.isSource = true → ∀ k, e.before.inserted[k]? = none →
    e.turn.next.analyzed[k]? =
      if e.Analyzes k then some ((e.before.analyzed[k]?).getD false)
      else if e.Pushes k then (e.before.analyzed[k]?).map fun _ => true
      else e.before.analyzed[k]?
  confirmed : e.before.isSource = false → ∀ k,
    k ∈ e.turn.next.confirmed ↔ k ∈ e.before.confirmed ∨ e.Ships k

/-- What is known of keys, and the move that it is known for. -/
def known (c : Coordinator W) :
    Setup W × Option Move × Std.ExtTreeMap Key Bool × Std.ExtTreeMap Key Bool × KeySet :=
  (c.setup, c.active, c.inserted, c.analyzed, c.confirmed)

/-- A call that names no key, or does so in vain. -/
theorem Tells.of_known {e : Entry W} (hknown : e.turn.next.known = e.before.known)
    (hships : ∀ k, ¬ e.Ships k)
    (hsource : e.before.isSource = true →
      ∀ k, ¬ e.Inserts k ∧ ¬ e.Analyzes k ∧ ¬ e.Pushes k) : Tells e := by
  simp only [known, Prod.mk.injEq] at hknown
  obtain ⟨hsetup, hactive, hinserted, hanalyzed, hconfirmed⟩ := hknown
  constructor
  · exact hsetup
  · exact hactive
  · intro hs k
    obtain ⟨hi, -, hp⟩ := hsource hs k
    rw [if_neg hi, if_neg hp, hinserted]
  · intro hs k _
    obtain ⟨-, ha, hp⟩ := hsource hs k
    rw [if_neg ha, if_neg hp, hanalyzed]
  · intro _ k
    simp [hconfirmed, hships k]

/-- A call that names keys as pushed, at the source. -/
theorem Tells.of_pushed {e : Entry W} {ks : List Key}
    (hknown : e.turn.next.known = (e.before.markAllPushed ks).known)
    (hs : e.before.isSource = true) (hpushes : ∀ k, e.Pushes k ↔ k ∈ ks)
    (hnever : ∀ k, ¬ e.Inserts k ∧ ¬ e.Analyzes k) : Tells e := by
  simp only [known, Prod.mk.injEq] at hknown
  obtain ⟨hsetup, hactive, hinserted, hanalyzed, -⟩ := hknown
  obtain ⟨_, _, _, heq⟩ := e.before.exists_markAllPushed ks
  constructor
  · rw [hsetup, heq]
  · rw [hactive, heq]
  · intro _ k
    rw [if_neg (hnever k).1, hinserted, inserted_markAllPushed]
    simp only [hpushes]
  · intro _ k hnew
    rw [if_neg (hnever k).2, hanalyzed, analyzed_markAllPushed hnew]
    simp only [hpushes]
  · intro hnot
    rw [hs] at hnot
    nomatch hnot

theorem phase_markAllPushed {c : Coordinator W} (hphase : c.phase ≠ .aborted) (ks : List Key) :
    (c.markAllPushed ks).phase ≠ .aborted := by
  obtain ⟨_, _, _, heq⟩ := c.exists_markAllPushed ks
  rw [heq]
  exact hphase

/-- What becomes of the move in flight. -/
inductive Flight (e : Entry W) : Prop
  /-- A move is put in flight, and nothing is known of its keys. -/
  | sent : e.dispatches = true → e.turn.next.forgetKeys = e.turn.next →
      e.turn.next.phase ≠ .aborted → Flight e
  /-- No move is in flight, because none was, or it was committed, another one was refused, or the
  coordinator aborts. -/
  | ended : e.turn.next.active = none →
      (e.before.active = none ∨ e.turn.next.phase = .aborted ∨ (∃ now, e.op = .commit now) ∨
        e.turn.submissions ≠ []) → Flight e
  | kept : e.turn.submissions = [] → Tells e → e.turn.next.phase ≠ .aborted → Flight e

/-- A call that does not speak of keys, with the move in flight left alone. -/
theorem Flight.of_silent {e : Entry W} (hop : e.op.isSilent = true)
    (hnone : e.turn.submissions = []) (hknown : e.turn.next.known = e.before.known)
    (hphase : e.turn.next.phase ≠ .aborted) : Flight e := by
  have hnever : ∀ k, ¬ e.Inserts k ∧ ¬ e.Analyzes k ∧ ¬ e.Pushes k ∧ ¬ e.Ships k := by
    intro k
    cases h : e.op <;> simp_all [Call.isSilent, Entry.Inserts, Entry.Analyzes, Entry.Pushes,
      Entry.Ships]
  refine .kept hnone (.of_known hknown (fun k => (hnever k).2.2.2) fun _ k => ?_) hphase
  obtain ⟨hi, ha, hp, -⟩ := hnever k
  exact ⟨hi, ha, hp⟩

theorem known_wrapUp (c : Coordinator W) (now : Nat) : (c.wrapUp now).known = c.known := by
  unfold wrapUp
  split
  · rfl
  · split
    · rfl
    · split <;> rfl

/-- Moves are gone on with when they are planned, or when one is committed. -/
theorem Flight.of_goesOn {l : Locations} {ms : List Move} {e : Entry W} (h : GoesOn l ms e.turn)
    (hphase : e.turn.next.phase ≠ .aborted) (hend : ms = [] → ∃ now, e.op = .commit now) :
    Flight e := by
  cases h with
  | finished _ hactive _ _ => exact .ended hactive (.inr (.inr (.inl (hend rfl))))
  | sent hsent _ _ _ hnew => exact .sent (by simp [Entry.dispatches, hsent]) hnew hphase
  | refused _ hrefused hactive _ _ _ =>
    exact .ended hactive (.inr (.inr (.inr (by simp [hrefused]))))

section

variable [Weight W] {c : Coordinator W} {submit : Executor} {op : Call} {turn : Turn W Answer}

theorem flight_observe {ks : List Key} {now : Nat} (hphase : c.phase ≠ .aborted)
    (hcall : c.call submit (.observe ks now) = .ok turn) :
    Flight ⟨c, submit, .observe ks now, turn⟩ := by
  obtain ⟨seen, hseen, hanswer⟩ := Outcome.bind_eq_ok.mp hcall
  cases hanswer
  rcases observe_cases hseen with ⟨haborted, -⟩ | ⟨-, -, rfl⟩ | ⟨e, -, -, rfl⟩ |
    ⟨planner, -, -, rfl | hstop⟩
  · exact absurd haborted hphase
  · exact .of_silent rfl rfl rfl hphase
  · cases e with
    | violation cause => exact .ended rfl (.inr (.inl rfl))
    | _ => exact .of_silent rfl rfl rfl hphase
  · exact .of_silent rfl rfl rfl hphase
  · rcases stopMonitoring_cases hstop with ⟨e, -, rfl⟩ | ⟨ms, left, -, rfl⟩
    · exact .of_silent rfl (submissions_reports _) rfl (phase_finish _)
    · let planned := (Coordinator.stopped { c with planner }).loaded ms left
      cases ms with
      | nil =>
        have hnone : (Coordinator.reports { c with planner } ++ []).filterMap
            Effect.submission? = [] := by
          rw [List.append_nil, submissions_reports]
        exact .of_silent rfl hnone (planned.known_wrapUp now) (planned.phase_wrapUp now)
      | cons m rest =>
        have hgoes := dispatch_goesOn { planned with queued := rest } submit m
        exact .of_goesOn (hgoes.mapAnswer (submissions_reports _) _)
          (planned.phase_proceed submit now) (by simp)

theorem flight_commit {now : Nat} (hphase : c.phase ≠ .aborted)
    (hcall : c.call submit (.commit now) = .ok turn) :
    Flight ⟨c, submit, .commit now, turn⟩ := by
  cases hcall
  cases hm : c.active with
  | none =>
    rw [commit_of_none hphase hm]
    exact .ended hm (.inl hm)
  | some m =>
    rw [commit_of_active hphase hm]
    have hgoes := proceed_goesOn (c := c.committed) rfl submit now
    have hstop : [(Effect.stopPusher : Effect W)].filterMap Effect.submission? = [] := rfl
    exact .of_goesOn (hgoes.mapAnswer hstop _) (c.committed.phase_proceed submit now)
      fun _ => ⟨now, rfl⟩

theorem flight_relocated {ks : List Key} (hphase : c.phase ≠ .aborted)
    (hcall : c.call submit (.relocated ks) = .ok turn) :
    Flight ⟨c, submit, .relocated ks, turn⟩ := by
  cases hcall
  rw [relocated, guarded_of_running hphase]
  cases hm : c.active with
  | none => exact .ended hm (.inl hm)
  | some m =>
    dsimp only
    by_cases hs : c.isSource = true
    · rw [if_pos hs]
      refine .kept rfl (.of_pushed rfl hs ?_ ?_) (phase_markAllPushed hphase ks)
      · simp [Entry.Pushes, Entry.Ships]
      · simp [Entry.Inserts, Entry.Analyzes]
    · rw [if_neg hs]
      refine .kept rfl (.of_known rfl ?_ fun hsource => absurd hsource hs) hphase
      simp [Entry.Ships]

theorem flight_shipped {ks : List Key} (hphase : c.phase ≠ .aborted)
    (hcall : c.call submit (.shipped ks) = .ok turn) :
    Flight ⟨c, submit, .shipped ks, turn⟩ := by
  cases hcall
  rw [shipped, guarded_of_running hphase]
  by_cases hs : c.isSource = true
  · rw [if_pos hs]
    refine .kept rfl (.of_pushed rfl hs ?_ ?_) (phase_markAllPushed hphase ks)
    · simp [Entry.Pushes, Entry.Ships]
    · simp [Entry.Inserts, Entry.Analyzes]
  · rw [if_neg hs]
    refine .kept rfl ⟨rfl, rfl, fun hsource => absurd hsource hs,
      fun hsource => absurd hsource hs, fun _ k => ?_⟩ hphase
    simp [Entry.Ships, done, Turn.mapAnswer, Std.ExtTreeSet.mem_insertMany_list]

theorem flight_insert {k : Key} (hphase : c.phase ≠ .aborted)
    (hcall : c.call submit (.insert k) = .ok turn) : Flight ⟨c, submit, .insert k, turn⟩ := by
  cases hcall
  rw [Coordinator.insert, guarded_of_running hphase]
  by_cases hs : c.isSource = true
  · rw [if_pos hs]
    refine .kept rfl ⟨rfl, rfl, fun _ a => ?_, fun _ a hnew => ?_, fun hnot => ?_⟩ hphase
    · simp [Entry.Inserts, Entry.Pushes, Entry.Ships, done, Turn.mapAnswer,
        Std.ExtTreeMap.getElem?_insert, Except.map]
    · simp [Entry.Analyzes, Entry.Pushes, Entry.Ships, done, Turn.mapAnswer]
    · simp [hs] at hnot
  · rw [if_neg hs]
    refine .kept rfl (.of_known rfl ?_ fun hsource => absurd hsource hs) hphase
    simp [Entry.Ships]

theorem flight_analyze {ks : List Key} (hphase : c.phase ≠ .aborted)
    (hcall : c.call submit (.analyze ks) = .ok turn) :
    Flight ⟨c, submit, .analyze ks, turn⟩ := by
  cases hcall
  rw [analyze, guarded_of_running hphase]
  by_cases hs : c.isSource = true
  · rw [if_pos hs]
    obtain ⟨_, _, heq⟩ := c.exists_tagAll ks
    refine .kept rfl ⟨?_, ?_, fun _ k => ?_, fun _ k hnew => ?_, fun hnot => ?_⟩ ?_
    · exact congrArg (·.setup) heq
    · exact congrArg (·.active) heq
    · simp [Entry.Inserts, Entry.Pushes, Entry.Ships, inserted_tagAll, done, Turn.mapAnswer]
    · simp [Entry.Analyzes, Entry.Pushes, Entry.Ships, analyzed_tagAll, done, Turn.mapAnswer]
    · simp [hs] at hnot
    · exact (congrArg (·.phase) heq).trans_ne hphase
  · rw [if_neg hs]
    refine .kept rfl (.of_known rfl ?_ fun hsource => absurd hsource hs) hphase
    simp [Entry.Ships]

/-- A call puts a move in flight, or leaves none in flight, or leaves the move where it is. -/
theorem flight_of_call (hlive : c.phase = .aborted → c.active = none)
    (hcall : c.call submit op = .ok turn) : Flight ⟨c, submit, op, turn⟩ := by
  by_cases haborted : c.phase = .aborted
  · have hnone := hlive haborted
    cases op with
    | startMonitoring now =>
      cases hcall
      exact .ended hnone (.inl hnone)
    | _ =>
      rw [call_of_aborted haborted submit rfl] at hcall
      cases hcall
      exact .ended hnone (.inl hnone)
  · cases op with
    | startMonitoring now =>
      cases hcall
      exact .of_silent rfl rfl rfl (by simp [done, Coordinator.startMonitoring])
    | launch now =>
      cases hcall
      rw [Coordinator.launch, guarded_of_running haborted]
      split
      · exact .of_silent rfl rfl rfl haborted
      · exact .of_silent rfl rfl rfl
          (by simp [done, Turn.mapAnswer, Coordinator.startMonitoring])
    | checkMigrated k =>
      cases hcall
      rw [Coordinator.checkMigrated, guarded_of_running haborted]
      split
      · exact .of_silent rfl rfl rfl haborted
      · exact .of_silent rfl rfl rfl haborted
      · exact .ended rfl (.inr (.inl rfl))
    | observe ks now => exact flight_observe haborted hcall
    | commit now => exact flight_commit haborted hcall
    | relocated ks => exact flight_relocated haborted hcall
    | shipped ks => exact flight_shipped haborted hcall
    | insert k => exact flight_insert haborted hcall
    | analyze ks => exact flight_analyze haborted hcall

end

/-! ## Tags and calls -/

/-- The tags of a key are those that the calls `es` since dispatch leave. -/
structure Tagged (k : Key) (es : List (Entry W)) (c : Coordinator W) : Prop where
  inserted_none : c.inserted[k]? = none ↔ ∀ e ∈ es, ¬ e.Inserts k
  inserted_waits : c.inserted[k]? = some false ↔ LastSince (Entry.Inserts k) (Entry.Pushes k) es
  analyzed_none : c.inserted[k]? = none →
    (c.analyzed[k]? = none ↔ ∀ e ∈ es, ¬ e.Analyzes k)
  analyzed_waits : c.inserted[k]? = none →
    (c.analyzed[k]? = some false ↔ FirstSince (Entry.Analyzes k) (Entry.Pushes k) es)

theorem tagged_of_forgotten {c : Coordinator W} (h : c.forgetKeys = c) (k : Key) :
    Tagged k [] c := by
  have hinserted : c.inserted = ∅ := (congrArg (·.inserted) h).symm
  have hanalyzed : c.analyzed = ∅ := (congrArg (·.analyzed) h).symm
  constructor <;> simp [hinserted, hanalyzed, not_lastSince_nil, not_firstSince_nil]

/-- A call of the source turns the tags as its history tells. -/
theorem Tagged.tells {k : Key} {es : List (Entry W)} {e : Entry W} (h : Tagged k es e.before)
    (hs : e.before.isSource = true) (htells : Tells e) : Tagged k (es ++ [e]) e.turn.next := by
  have hinserted := htells.inserted hs k
  have hanalyzed := htells.analyzed hs k
  by_cases hi : e.Inserts k
  · rw [if_pos hi] at hinserted
    constructor
    · simp [hinserted, hi]
    · simp [hinserted, lastSince_concat_self hi]
    · simp [hinserted]
    · simp [hinserted]
  · rw [if_neg hi] at hinserted
    have hnone : e.turn.next.inserted[k]? = none ↔ e.before.inserted[k]? = none := by
      rw [hinserted]
      split <;> simp
    constructor
    · rw [hnone, h.inserted_none, forall_not_concat]
      exact ⟨fun hall => ⟨hall, hi⟩, fun hall => hall.1⟩
    · rw [lastSince_concat hi, ← h.inserted_waits, hinserted]
      split <;> simp [*]
    · intro hnew
      rw [hanalyzed (hnone.mp hnew), forall_not_concat, ← h.analyzed_none (hnone.mp hnew)]
      split
      · simp [*]
      · split <;> simp [*]
    · intro hnew
      have hbefore := hnone.mp hnew
      rw [hanalyzed hbefore, firstSince_concat, ← h.analyzed_none hbefore,
        ← h.analyzed_waits hbefore]
      by_cases ha : e.Analyzes k
      · have hp : ¬ e.Pushes k := Entry.not_pushes_of_analyzes ha
        rcases e.before.analyzed[k]? with _ | _ | _ <;> simp [ha, hp]
      · by_cases hp : e.Pushes k <;> simp [ha, hp]

section

variable [Weight W] {setup : Setup W} {placement : Placement} {plans : Option ScalingPlans}
  {es : List (Entry W)} {c : Coordinator W}

omit [Weight W] in
theorem isSource_congr {c c' : Coordinator W} (hsetup : c'.setup = c.setup)
    (hactive : c'.active = c.active) : c'.isSource = c.isSource := by
  rw [isSource, isSource, hsetup, hactive]

/-- What is known of a key, told by the calls since the move in flight was dispatched. -/
structure Knows (k : Key) (es : List (Entry W)) (c : Coordinator W) : Prop where
  source : c.isSource = true → Tagged k es c
  elsewhere : c.isSource = false → (k ∈ c.confirmed ↔ ∃ e ∈ es, e.Ships k)

omit [Weight W] in
theorem knows_of_forgotten {c : Coordinator W} (h : c.forgetKeys = c) (k : Key) :
    Knows k [] c := by
  have hconfirmed : c.confirmed = ∅ := (congrArg (·.confirmed) h).symm
  exact ⟨fun _ => tagged_of_forgotten h k, fun _ => by simp [hconfirmed]⟩

omit [Weight W] in
theorem Knows.tells {k : Key} {e : Entry W} (h : Knows k es e.before) (htells : Tells e) :
    Knows k (es ++ [e]) e.turn.next := by
  have hsame := isSource_congr htells.setup_eq htells.active_eq
  constructor
  · intro hs
    rw [hsame] at hs
    exact (h.source hs).tells hs htells
  · intro hs
    rw [hsame] at hs
    rw [htells.confirmed hs, h.elsewhere hs]
    simp [or_and_right, exists_or]

/-- While a move is in flight, the calls since its dispatch tell what is known of its keys. -/
theorem knows_of_run (h : Run (make setup placement plans) es c) (k : Key) :
    (c.phase = .aborted → c.active = none) ∧
      (c.active.isSome = true → Knows k (sinceDispatch es) c) := by
  induction h with
  | nil => exact ⟨fun _ => rfl, fun hnone => nomatch hnone⟩
  | push pool _ ih =>
    obtain ⟨hlive, hknows⟩ := ih
    refine ⟨hlive, fun hsome => ?_⟩
    obtain ⟨hsource, helsewhere⟩ := hknows hsome
    exact ⟨fun hs => { hsource hs with }, helsewhere⟩
  | @call es c turn submit op hrun hcall ih =>
    obtain ⟨hlive, hknows⟩ := ih
    cases flight_of_call hlive hcall with
    | sent hsent hnew hphase =>
      refine ⟨fun haborted => absurd haborted hphase, fun _ => ?_⟩
      rw [sinceDispatch, List.rtakeWhile_concat, if_neg (by simp [hsent])]
      exact knows_of_forgotten hnew k
    | ended hnone _ =>
      refine ⟨fun _ => hnone, fun hsome => ?_⟩
      exact absurd hnone (Option.isSome_iff_ne_none.mp hsome)
    | kept hnone htells hphase =>
      refine ⟨fun haborted => absurd haborted hphase, fun hsome => ?_⟩
      have hsent : Entry.dispatches ⟨c, submit, op, turn⟩ = false := by
        simp [Entry.dispatches, hnone]
      rw [sinceDispatch, List.rtakeWhile_concat, if_pos (by simp [hsent])]
      exact (hknows (htells.active_eq ▸ hsome)).tells htells

end

end Coordinator

end Reshard
