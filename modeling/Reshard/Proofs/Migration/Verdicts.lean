import Reshard.Proofs.Migration.Rounds
import Reshard.Proofs.Migration.Tags

/-!
What a coordinator says of a key while a move is in flight (`judged_of_run`). At the source the
answer follows from the calls since dispatch alone. Elsewhere it also depends on where the key is
recorded to be, and a key that has moved stays so.
-/

namespace Reshard

/-- The move covers the key, or the key that stands for it. -/
def Move.Concerns (m : Move) (placement : Placement) (k : Key) : Prop :=
  m.covers k = true ∨ m.covers (placement.representative k) = true

namespace Coordinator

variable {W : Type} {c : Coordinator W} {m : Move} {k : Key}

/-! ## Answers of one state -/

theorem inFlight_iff (hm : c.active = some m) :
    c.inFlight k = true ↔ m.Concerns c.locations.placement k := by
  rw [inFlight, hm, Move.Concerns, Bool.or_eq_true]

theorem isMigrated_at_source (hm : c.active = some m) (hs : m.source = c.setup.localPartition) :
    c.isMigrated k = false ↔ c.inserted[k]? = some false ∨
      (c.inserted[k]? = none ∧ c.analyzed[k]? = some false) := by
  rw [isMigrated, keyState, hm]
  simp only [hs, if_true, sourceKeyState]
  rcases c.inserted[k]? with _ | _ | _ <;> rcases c.analyzed[k]? with _ | _ | _ <;> simp

theorem keyState_elsewhere (hm : c.active = some m) (hs : m.source ≠ c.setup.localPartition) :
    c.keyState k = c.remoteKeyState m k := by
  rw [keyState, hm]
  exact if_neg hs

theorem isMigrated_elsewhere (hm : c.active = some m) (hs : m.source ≠ c.setup.localPartition) :
    c.isMigrated k = true ↔ k ∈ c.confirmed ∨
      (m.Concerns c.locations.placement k ∧ c.locations.current k = m.dest) := by
  rw [isMigrated, decide_eq_true_iff, keyState_elsewhere hm hs, remoteKeyState,
    ← inFlight_iff hm]
  by_cases hconfirmed : k ∈ c.confirmed
  · simp [hconfirmed]
  · cases hflight : c.inFlight k
    · simp [hconfirmed]
    · by_cases hdest : c.locations.current k = m.dest
      · simp [hconfirmed, hdest]
      · by_cases hsource : c.locations.current k = m.source <;> simp [hconfirmed, hdest, hsource]

/-- A node other than the source finds the key at neither end of the move that concerns it, and the
calls `es` since dispatch do not name it as shipped. -/
structure Strayed (m : Move) (k : Key) (es : List (Entry W)) (c : Coordinator W) : Prop where
  elsewhere : m.source ≠ c.setup.localPartition
  unconfirmed : ∀ e ∈ es, ¬ e.Ships k
  concerns : m.Concerns c.locations.placement k
  not_source : c.locations.current k ≠ m.source
  not_dest : c.locations.current k ≠ m.dest

section

variable {es : List (Entry W)}

theorem isSource_eq_true_iff (hm : c.active = some m) :
    c.isSource = true ↔ m.source = c.setup.localPartition := by
  simp [isSource, hm]

theorem Knows.confirmed_iff (h : Knows k es c) (hm : c.active = some m)
    (hs : m.source ≠ c.setup.localPartition) : k ∈ c.confirmed ↔ ∃ e ∈ es, e.Ships k := by
  refine h.elsewhere ?_
  rw [← Bool.not_eq_true, isSource_eq_true_iff hm]
  exact hs

theorem Knows.keyState_of_strayed (h : Knows k es c) (hm : c.active = some m)
    (hstrayed : c.Strayed m k es) :
    c.keyState k = .diverged (c.locations.current k) m.source m.dest := by
  have hconfirmed : k ∉ c.confirmed := by
    rw [h.confirmed_iff hm hstrayed.elsewhere]
    rintro ⟨e, he, hships⟩
    exact hstrayed.unconfirmed e he hships
  have hflight : c.inFlight k = true := (inFlight_iff hm).mpr hstrayed.concerns
  rw [keyState_elsewhere hm hstrayed.elsewhere, remoteKeyState, if_neg hconfirmed,
    if_neg (by simp [hflight])]
  dsimp only
  rw [if_neg hstrayed.not_dest, if_neg hstrayed.not_source]

theorem Knows.strayed_of_diverged (h : Knows k es c) (hm : c.active = some m)
    {found source dest : PartitionId} (hstate : c.keyState k = .diverged found source dest) :
    c.Strayed m k es := by
  by_cases hs : m.source = c.setup.localPartition
  · rw [keyState, hm] at hstate
    simp only [hs, if_true, sourceKeyState] at hstate
    split at hstate <;> nomatch hstate
  · rw [keyState_elsewhere hm hs, remoteKeyState] at hstate
    split at hstate
    · nomatch hstate
    · next hconfirmed =>
      split at hstate
      · nomatch hstate
      · next hflight =>
        dsimp only at hstate
        split at hstate
        · nomatch hstate
        · next hdest =>
          split at hstate
          · nomatch hstate
          · next hsource =>
            rw [h.confirmed_iff hm hs] at hconfirmed
            have hconcerns : m.Concerns c.locations.placement k :=
              (inFlight_iff hm).mp (by simpa using hflight)
            exact ⟨hs, fun e he hships => hconfirmed ⟨e, he, hships⟩, hconcerns, hsource,
              hdest⟩

end

/-! ## Answers in a run -/

section

variable [Weight W] {setup : Setup W} {placement : Placement} {plans : Option ScalingPlans}
  {es es' : List (Entry W)} {c' : Coordinator W} {e : Entry W}

/-- A call that puts no move in flight, commits none and does not abort leaves the move in flight
where it is. -/
theorem tells_of_call (h : Run (make setup placement plans) es e.before)
    (hcall : e.before.call e.submit e.op = .ok e.turn) (hm : e.before.active = some m)
    (hcommit : ∀ now, e.op ≠ .commit now) (hnone : e.turn.submissions = [])
    (hphase : e.turn.next.phase ≠ .aborted) : Tells e := by
  cases flight_of_call (knows_of_run h default).1 hcall with
  | sent hsent _ _ => simp [Entry.dispatches, hnone] at hsent
  | ended _ hwhy =>
    rcases hwhy with hbefore | haborted | ⟨now, hop⟩ | hsome
    · simp [hm] at hbefore
    · exact absurd haborted hphase
    · exact absurd hop (hcommit now)
    · exact absurd hnone hsome
  | kept _ htells _ => exact htells

/-- While a move is in flight, the operations themselves put no other in its place. -/
theorem submissions_of_regular (h : Run (make setup placement plans) es e.before)
    (hregular : ∀ x ∈ es, x.op.isRegular = true)
    (hcall : e.before.call e.submit e.op = .ok e.turn) (hm : e.before.active = some m)
    (hcommit : ∀ now, e.op ≠ .commit now) : e.turn.submissions = [] := by
  have hconsistent := consistent_of_run h hregular
  cases fate_of_call hconsistent hcall with
  | quiet hnone _ _ _ => exact hnone
  | halted hnone _ _ => exact hnone
  | committed now _ heq _ _ => exact absurd heq (hcommit now)
  | planned ms hplans _ =>
    have hmigrating := hconsistent.active_iff.mp (by simp [hm])
    rw [hplans.phase_eq] at hmigrating
    nomatch hmigrating

/-- Elsewhere than at the source, a key that has moved stays so in a call that leaves the move in
flight. -/
theorem isMigrated_call (hkept : e.before.locations.Kept) (hm : e.before.active = some m)
    (hs : m.source ≠ e.before.setup.localPartition)
    (hcall : e.before.call e.submit e.op = .ok e.turn) (htells : Tells e)
    (h : e.before.isMigrated k = true) : e.turn.next.isMigrated k = true := by
  have hm' : e.turn.next.active = some m := htells.active_eq.trans hm
  have hs' : m.source ≠ e.turn.next.setup.localPartition := by
    rw [htells.setup_eq]
    exact hs
  rw [isMigrated_elsewhere hm hs] at h
  rw [isMigrated_elsewhere hm' hs']
  rcases h with hconfirmed | ⟨hconcerns, hdest⟩
  · left
    rw [htells.confirmed (by rw [← Bool.not_eq_true, isSource_eq_true_iff hm]; exact hs)]
    exact .inl hconfirmed
  · right
    rcases locations_call hcall with hsame | ⟨ks, m', -, hm', hmoved⟩
    · rw [hsame]
      exact ⟨hconcerns, hdest⟩
    · rw [hm] at hm'
      cases hm'
      rw [hmoved, Locations.placement_relocateAll, Locations.current_relocateAll hkept, hdest]
      exact ⟨hconcerns, ite_self _⟩

/-- Elsewhere than at the source, a key that has moved stays so until the move is committed or the
coordinator aborts. -/
theorem isMigrated_run (h : Run (make setup placement plans) es c) (hm : c.active = some m)
    (hs : m.source ≠ c.setup.localPartition) (hmigrated : c.isMigrated k = true)
    (hrun : Run c es' c') (hcommit : ∀ e ∈ es', ∀ now, e.op ≠ .commit now)
    (hphase : ∀ e ∈ es', e.turn.next.phase ≠ .aborted)
    (hown : (∀ e ∈ es ++ es', e.op.isRegular = true) ∨ submissions es' = []) :
    c'.active = some m ∧ m.source ≠ c'.setup.localPartition ∧ c'.isMigrated k = true := by
  induction hrun with
  | nil => exact ⟨hm, hs, hmigrated⟩
  | push pool _ ih => exact ih hcommit hphase hown
  | @call es' c' turn submit op hrun hcall ih =>
    obtain ⟨hcommits, hcommit⟩ := List.forall_mem_append.mp hcommit
    obtain ⟨hphases, hphase⟩ := List.forall_mem_append.mp hphase
    rw [List.forall_mem_singleton] at hcommit hphase
    have hown' : (∀ e ∈ es ++ es', e.op.isRegular = true) ∨ submissions es' = [] := by
      refine hown.imp ?_ ?_
      · intro hall
        rw [← List.append_assoc] at hall
        exact (List.forall_mem_append.mp hall).1
      · intro hnone
        rw [submissions, List.flatMap_append] at hnone
        exact (List.append_eq_nil_iff.mp hnone).1
    obtain ⟨hm', hs', hbefore⟩ := ih hcommits hphases hown'
    have hwhole := h.append hrun
    have hnone : turn.submissions = [] := by
      rcases hown with hall | hnone
      · rw [← List.append_assoc, List.forall_mem_append, List.forall_mem_singleton] at hall
        exact submissions_of_regular (e := ⟨c', submit, op, turn⟩) hwhole hall.1 hcall hm'
          hcommit
      · rw [submissions, List.flatMap_append] at hnone
        simpa using (List.append_eq_nil_iff.mp hnone).2
    have htells := tells_of_call (e := ⟨c', submit, op, turn⟩) hwhole hcall hm' hcommit hnone
      hphase
    refine ⟨htells.active_eq.trans hm', ?_, ?_⟩
    · rw [show turn.next.setup = c'.setup from htells.setup_eq]
      exact hs'
    · exact isMigrated_call (kept_of_run hwhole) hm' hs' hcall htells hbefore

omit [Weight W] in
theorem checkMigrated_of_answer (hphase : c.phase ≠ .aborted)
    (h : ∀ found source dest, c.keyState k ≠ .diverged found source dest) :
    c.checkMigrated k = ⟨.ok (c.isMigrated k), [], c⟩ := by
  rw [Coordinator.checkMigrated, guarded_of_running hphase, isMigrated]
  cases hstate : c.keyState k with
  | migrated => rfl
  | pending => rfl
  | diverged found source dest => exact absurd hstate (h found source dest)

/-- What the coordinator says of a key while the move `m` is in flight, after the calls `es`. -/
structure Judged (m : Move) (k : Key) (es : List (Entry W)) (c : Coordinator W) : Prop where
  source : m.source = c.setup.localPartition →
    (c.isMigrated k = false ↔ Awaited k (sinceDispatch es))
  elsewhere : m.source ≠ c.setup.localPartition →
    (c.isMigrated k = true ↔ (∃ e ∈ sinceDispatch es, e.Ships k) ∨
      (m.Concerns c.locations.placement k ∧ c.locations.current k = m.dest))
  /-- Until the move is committed or the coordinator aborts. Only a window that is started from
  outside can put another move in its place before. -/
  lasting : m.source ≠ c.setup.localPartition → c.isMigrated k = true →
    ∀ es' c', Run c es' c' → (∀ e ∈ es', ∀ now, e.op ≠ .commit now) →
      (∀ e ∈ es', e.turn.next.phase ≠ .aborted) →
      ((∀ e ∈ es ++ es', e.op.isRegular = true) ∨ submissions es' = []) →
      c'.isMigrated k = true
  diverges : c.Strayed m k (sinceDispatch es) → c.checkMigrated k =
    ⟨.error (.violation (.locationDiverged k (c.locations.current k) m.source m.dest)), [],
      c.halt⟩
  answers : ¬ c.Strayed m k (sinceDispatch es) →
    c.checkMigrated k = ⟨.ok (c.isMigrated k), [], c⟩

/-- What a coordinator says of a key follows from the calls since the move in flight was dispatched,
and elsewhere than at its source from where the key is. -/
theorem judged_of_run (h : Run (make setup placement plans) es c) (hm : c.active = some m)
    (k : Key) : Judged m k es c := by
  obtain ⟨hlive, hknows⟩ := knows_of_run h k
  have hknown : Knows k (sinceDispatch es) c := hknows (by simp [hm])
  have hphase : c.phase ≠ .aborted := by
    intro haborted
    rw [hlive haborted] at hm
    nomatch hm
  constructor
  · intro hs
    have htagged := hknown.source ((isSource_eq_true_iff hm).mpr hs)
    rw [isMigrated_at_source hm hs, htagged.inserted_waits, Awaited]
    refine or_congr_right ?_
    rw [← htagged.inserted_none]
    exact and_congr_right htagged.analyzed_waits
  · intro hs
    rw [isMigrated_elsewhere hm hs, hknown.confirmed_iff hm hs]
  · intro hs hmigrated es' c' hrun hcommit hphase hown
    exact (isMigrated_run h hm hs hmigrated hrun hcommit hphase hown).2.2
  · intro hstrayed
    rw [Coordinator.checkMigrated, guarded_of_running hphase,
      hknown.keyState_of_strayed hm hstrayed]
    rfl
  · intro hnot
    refine checkMigrated_of_answer hphase fun found source dest hstate => ?_
    exact hnot (hknown.strayed_of_diverged hm hstate)

end

/-- The first move of the round is in flight to the node, and one of its keys is judged. -/
theorem judged_of_run_draining : ∃ es c,
    Run (make draining joiningPlacement (some drainingPlans)) es c ∧
    c.active = some (.ofRange 2 0 ⟨0, 5⟩) ∧ c.isMigrated ⟨"t", 3⟩ = true ∧
    Judged (.ofRange 2 0 ⟨0, 5⟩) ⟨"t", 3⟩ es c := by
  have hend : ((drainingWindow.call accepting (.observe [] 5)).toOption.map fun turn =>
      (turn.next.active, turn.next.isMigrated ⟨"t", 3⟩)) =
      some (some (.ofRange 2 0 ⟨0, 5⟩), true) := by
    decide +kernel
  cases h : drainingWindow.call accepting (.observe [] 5) with
  | error e =>
    rw [h] at hend
    nomatch hend
  | ok turn =>
    rw [h] at hend
    simp only [Except.toOption, Option.map_some, Option.some.injEq, Prod.mk.injEq] at hend
    obtain ⟨hactive, hmigrated⟩ := hend
    have hstart : Run (make draining joiningPlacement (some drainingPlans)) [] _ := .nil
    have hlaunched := hstart.call accepting (.launch 0) rfl
    have hrun := hlaunched.call accepting (.observe [] 5) h
    exact ⟨_, _, hrun, hactive, hmigrated, judged_of_run hrun hactive ⟨"t", 3⟩⟩

end Coordinator

end Reshard
