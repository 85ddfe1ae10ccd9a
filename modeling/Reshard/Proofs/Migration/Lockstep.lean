import Reshard.Migration.Pusher
import Reshard.Proofs.Migration.Histories

/-!
Nodes of one cluster. Their coordinators differ in the partition that they serve, in the capacity of
their directories, in how they push and in what they report, and so in what they know of keys. None
of this tells on the moves (`Twins.lockstep`).
-/

namespace Reshard

variable {W : Type}

/-- The setup without what may differ between the nodes of a cluster. -/
def Setup.common (s : Setup W) : Setup W :=
  { s with localPartition := 0, capacity := 0, batches := .default, reportDir := none }

namespace Coordinator

/-- The coordinator without what may differ between the nodes of a cluster. -/
def common (c : Coordinator W) : Coordinator W :=
  { c with
    setup := c.setup.common
    flags := { c.flags with analyzing := false }
    locations := { c.locations with directory := .empty 0 }
    inserted := ∅
    analyzed := ∅
    confirmed := ∅
    pool := ∅ }

end Coordinator

/-- What a call does on all nodes of a cluster alike. -/
def Turn.common {α : Type} (t : Turn W α) :
    Except Failure α × List (Request × Bool) × Coordinator W :=
  (t.answer, t.submissions, t.next.common)

theorem Turn.common_mapAnswer {α β : Type} {t u : Turn W α} (h : t.common = u.common)
    (f : α → β) : (t.mapAnswer f).common = (u.mapAnswer f).common := by
  simp only [Turn.common, Prod.mk.injEq] at h ⊢
  exact ⟨congrArg (Except.map f) h.1, h.2⟩

theorem Turn.map_common_mapAnswer {α β : Type} {x y : Except Overflow (Turn W α)}
    (h : x.map Turn.common = y.map Turn.common) (f : α → β) :
    (x >>= fun t => pure (t.mapAnswer f)).map Turn.common =
      (y >>= fun t => pure (t.mapAnswer f)).map Turn.common := by
  cases x with
  | error e =>
    cases y with
    | error e' => cases h; rfl
    | ok u => nomatch h
  | ok t =>
    cases y with
    | error e' => nomatch h
    | ok u => exact congrArg Except.ok (Turn.common_mapAnswer (Except.ok.inj h) f)

/-- The calls that all nodes of a cluster make. -/
def Call.isShared : Call → Bool
  | .checkMigrated _ => false
  | .insert _ => false
  | .analyze _ => false
  | _ => true

/-! ## Accesses -/

namespace Planner

variable {l l' : Locations}

theorem representatives_congr (h : l.placement = l'.placement) (ks : List Key) :
    representatives l ks = representatives l' ks := by
  induction ks with
  | nil => rfl
  | cons k rest ih => rw [representatives, representatives, h, ih]

/-- What is noted of a transaction depends on where its keys are, not on how that is known. -/
theorem monitor_congr [Weight W] (p : Planner W) (hplacement : l.placement = l'.placement)
    (hcurrent : ∀ k, l.current k = l'.current k) (ks : List Key) :
    p.monitor l ks = p.monitor l' ks := by
  have hsame : l.current = l'.current := funext hcurrent
  rw [monitor, monitor, representatives_congr hplacement, hsame]

end Planner

namespace Coordinator

/-! ## Operations and what is common -/

section

variable [Weight W] {α : Type}

omit [Weight W] in
/-- The request is handed over whatever the role of the node. -/
theorem submissions_dispatch (c : Coordinator W) (submit : Executor) (m : Move) :
    (c.dispatch submit m).submissions = [(m.request, (submit m.request).isOk)] := by
  unfold dispatch
  cases submit m.request with
  | ok _ =>
    by_cases hs : m.source = c.setup.localPartition <;>
      simp [Turn.submissions, Effect.submission?, done, hs, Except.isOk, Except.toBool]
  | error reason => rfl

omit [Weight W] in
theorem common_dispatch (c : Coordinator W) (submit : Executor) (m : Move) :
    (c.dispatch submit m).common = (c.common.dispatch submit m).common := by
  have hnext : (c.dispatch submit m).answer = (c.common.dispatch submit m).answer ∧
      (c.dispatch submit m).next.common = (c.common.dispatch submit m).next.common := by
    unfold dispatch
    cases submit m.request <;> exact ⟨rfl, rfl⟩
  rw [Turn.common, Turn.common, submissions_dispatch, submissions_dispatch, hnext.1, hnext.2]

omit [Weight W] in
theorem common_wrapUp (c : Coordinator W) (now : Nat) :
    (c.wrapUp now).common = (c.common.wrapUp now).common := by
  have hscaling : c.common.setup.scaling = c.setup.scaling := rfl
  unfold wrapUp
  rw [hscaling]
  split
  · rfl
  · next scaling _ =>
    by_cases hahead : (c.setup.predefined && !c.predefinedDone) = true
    · have hahead' : (c.common.setup.predefined && !c.common.predefinedDone) = true := hahead
      rw [if_pos hahead, if_pos hahead']
      rfl
    · have hahead' : ¬ (c.common.setup.predefined && !c.common.predefinedDone) = true := hahead
      rw [if_neg hahead, if_neg hahead', apply_ite Coordinator.common, apply_ite Coordinator.common]
      rfl

omit [Weight W] in
theorem common_proceed (c : Coordinator W) (submit : Executor) (now : Nat) :
    (c.proceed submit now).common = (c.common.proceed submit now).common := by
  have hqueued : c.common.queued = c.queued := rfl
  unfold proceed
  rw [hqueued]
  split
  · next m rest _ => exact common_dispatch { c with queued := rest } submit m
  · exact congrArg (fun next => (Except.ok (), [], next)) (c.common_wrapUp now)

theorem common_stopMonitoring (c : Coordinator W) (submit : Executor) (now : Nat) :
    (c.stopMonitoring submit now).map Turn.common =
      (c.common.stopMonitoring submit now).map Turn.common := by
  have hmoves : c.common.stopped.roundMoves = c.stopped.roundMoves := rfl
  rw [stopMonitoring_eq, stopMonitoring_eq, hmoves]
  cases c.stopped.roundMoves with
  | error e => rfl
  | ok result =>
    refine congrArg Except.ok ?_
    cases result with
    | error e => simp [Turn.common, Turn.submissions, submissions_reports]; rfl
    | ok chosen =>
      have hproceed := common_proceed (c.stopped.loaded chosen.1 chosen.2) submit now
      simp only [Turn.common, Turn.submissions, Prod.mk.injEq] at hproceed
      simp only [Turn.common, Turn.submissions, List.filterMap_append, submissions_reports,
        List.nil_append, Prod.mk.injEq]
      exact hproceed

omit [Weight W] in
theorem common_guarded (c : Coordinator W) {turn turn' : Turn W α}
    (h : turn.common = turn'.common) :
    (c.guarded turn).common = (c.common.guarded turn').common := by
  by_cases haborted : c.phase = .aborted
  · rw [guarded_of_aborted haborted, guarded_of_aborted (c := c.common) haborted]
    rfl
  · rw [guarded_of_running haborted, guarded_of_running (c := c.common) haborted]
    exact h

omit [Weight W] in
theorem common_launch (c : Coordinator W) (now : Nat) :
    (c.launch now).common = (c.common.launch now).common := by
  refine c.common_guarded ?_
  by_cases hop : c.flags.operating = true
  · rw [if_pos hop, if_pos (show c.common.flags.operating = true from hop)]
    rfl
  · rw [if_neg hop, if_neg (show ¬ c.common.flags.operating = true from hop)]
    rfl

omit [Weight W] in
theorem common_commit (c : Coordinator W) (submit : Executor) (now : Nat) :
    (c.commit submit now).common = (c.common.commit submit now).common := by
  refine c.common_guarded ?_
  have hactive : c.common.active = c.active := rfl
  rw [hactive]
  cases c.active with
  | none => rfl
  | some m =>
    exact common_proceed c.committed submit now

omit [Weight W] in
theorem common_markAllPushed (c : Coordinator W) (ks : List Key) :
    (c.markAllPushed ks).common = c.common := by
  obtain ⟨_, _, _, heq⟩ := c.exists_markAllPushed ks
  rw [heq]
  rfl

omit [Weight W] in
theorem common_relocateAll (c : Coordinator W) (ks : List Key) (p : PartitionId) :
    ({ c with locations := c.locations.relocateAll ks p } : Coordinator W).common = c.common := by
  simp only [common, Locations.placement_relocateAll]

omit [Weight W] in
theorem common_done {c d : Coordinator W} (h : c.common = d.common) (a : α) :
    (c.done a).common = (d.done a).common :=
  congrArg (fun next => (Except.ok a, [], next)) h

omit [Weight W] in
theorem common_fail {c d : Coordinator W} (h : c.common = d.common) (e : Failure) :
    (c.fail e : Turn W α).common = (d.fail e).common :=
  congrArg (fun next => (Except.error e, [], next)) h

omit [Weight W] in
theorem common_failOrHalt {c d : Coordinator W} (h : c.common = d.common) (e : Failure) :
    (c.failOrHalt e : Turn W α).common = (d.failOrHalt e).common := by
  cases e with
  | violation cause =>
    refine common_fail ?_ (.violation cause)
    exact congrArg (fun c => c.halt.common) h
  | _ => exact common_fail h _

omit [Weight W] in
theorem common_relocated (c : Coordinator W) (ks : List Key) :
    (c.relocated ks).common = (c.common.relocated ks).common := by
  refine c.common_guarded ?_
  have hactive : c.common.active = c.active := rfl
  rw [hactive]
  cases c.active with
  | none => rfl
  | some m =>
    have hnext : ∀ d : Coordinator W,
        ((fun marked : Coordinator W =>
          { marked with locations := marked.locations.relocateAll ks m.dest })
          (if d.isSource then d.markAllPushed ks else d)).common = d.common := by
      intro d
      refine (common_relocateAll _ ks m.dest).trans ?_
      split
      · exact d.common_markAllPushed ks
      · rfl
    exact common_done ((hnext c).trans (hnext c.common).symm) ()

omit [Weight W] in
theorem common_shipped (c : Coordinator W) (ks : List Key) :
    (c.shipped ks).common = (c.common.shipped ks).common := by
  refine c.common_guarded ?_
  have hdone : ∀ d : Coordinator W,
      (if d.isSource then (d.markAllPushed ks).done ()
      else { d with confirmed := d.confirmed.insertMany ks }.done ()).common =
        (d.done ()).common := by
    intro d
    split
    · exact common_done (d.common_markAllPushed ks) ()
    · rfl
  exact (hdone c).trans (hdone c.common).symm

end

/-! ## Two nodes -/

/-- Two coordinators of one cluster after the same calls. -/
structure Lockstep (c d : Coordinator W) : Prop where
  common : c.common = d.common
  kept : c.locations.Kept
  kept' : d.locations.Kept
  current : ∀ k, c.locations.current k = d.locations.current k

section

variable [Weight W] {c d : Coordinator W}

omit [Weight W] in
/-- What does alike for a coordinator and for what is common of it does so on both nodes. -/
theorem Lockstep.lift {β : Type} (h : Lockstep c d) {f : Coordinator W → β}
    (hf : ∀ c, f c = f c.common) : f c = f d := by
  rw [hf c, hf d, h.common]

/-- Both nodes see the same accesses. -/
theorem Lockstep.monitor_eq (h : Lockstep c d) (ks : List Key) :
    c.planner.monitor c.locations ks = d.planner.monitor d.locations ks := by
  have hplanner : c.planner = d.planner := h.lift (f := fun c => c.planner) fun _ => rfl
  have hplacement : c.locations.placement = d.locations.placement :=
    h.lift (f := fun c => c.locations.placement) fun _ => rfl
  rw [hplanner]
  exact Planner.monitor_congr _ hplacement h.current ks

theorem Lockstep.observe (h : Lockstep c d) (submit : Executor) (ks : List Key) (now : Nat) :
    (c.observe submit ks now).map Turn.common = (d.observe submit ks now).map Turn.common := by
  have hphase : d.phase = c.phase := (h.lift (f := fun c => c.phase) fun _ => rfl).symm
  by_cases haborted : c.phase = .aborted
  · rw [Coordinator.observe, Coordinator.observe, if_pos haborted, if_pos (hphase.trans haborted)]
    exact congrArg Except.ok (common_fail h.common .aborted)
  · by_cases hmonitoring : c.phase = .monitoring
    · cases hm : c.planner.monitor c.locations ks with
      | error e =>
        have hm' := (h.monitor_eq ks).symm.trans hm
        rw [observe_of_failure hmonitoring hm,
          observe_of_failure (hphase.trans hmonitoring) hm']
        exact congrArg Except.ok (common_failOrHalt h.common e)
      | ok planner =>
        have hm' := (h.monitor_eq ks).symm.trans hm
        have hover : Coordinator.windowOver { c with planner } now =
            Coordinator.windowOver { d with planner } now :=
          h.lift (f := fun c => Coordinator.windowOver { c with planner } now) fun _ => rfl
        rw [observe_of_monitor hmonitoring hm, observe_of_monitor (hphase.trans hmonitoring) hm',
          hover]
        split
        · exact h.lift (f := fun c : Coordinator W =>
            (Coordinator.stopMonitoring { c with planner } submit now).map Turn.common)
            fun c => common_stopMonitoring { c with planner } submit now
        · exact h.lift (f := fun c : Coordinator W =>
            Except.ok (Turn.common (Coordinator.done { c with planner } ()))) fun _ => rfl
    · have hquiet : c.phase ≠ .monitoring := hmonitoring
      rw [Coordinator.observe, Coordinator.observe, if_neg haborted, if_pos hquiet,
        if_neg (hphase ▸ haborted), if_pos (hphase ▸ hquiet)]
      exact congrArg Except.ok (common_done h.common ())

/-- A call that both nodes make does alike on both. -/
theorem Lockstep.call_common (h : Lockstep c d) (submit : Executor) {op : Call}
    (hop : op.isShared = true) :
    (c.call submit op).map Turn.common = (d.call submit op).map Turn.common := by
  cases op with
  | startMonitoring now =>
    exact h.lift (f := fun c => Except.ok (Turn.common ((c.startMonitoring now).done Answer.done)))
      fun _ => rfl
  | launch now =>
    have hturn := h.lift (f := fun c => (c.launch now).common) fun c => c.common_launch now
    exact congrArg Except.ok (Turn.common_mapAnswer hturn _)
  | commit now =>
    have hturn := h.lift (f := fun c => (c.commit submit now).common)
      fun c => c.common_commit submit now
    exact congrArg Except.ok (Turn.common_mapAnswer hturn _)
  | relocated ks =>
    have hturn := h.lift (f := fun c => (c.relocated ks).common) fun c => c.common_relocated ks
    exact congrArg Except.ok (Turn.common_mapAnswer hturn _)
  | shipped ks =>
    have hturn := h.lift (f := fun c => (c.shipped ks).common) fun c => c.common_shipped ks
    exact congrArg Except.ok (Turn.common_mapAnswer hturn _)
  | observe ks now =>
    exact Turn.map_common_mapAnswer (h.observe submit ks now) fun _ => Answer.done
  | checkMigrated k => nomatch hop
  | insert k => nomatch hop
  | analyze ks => nomatch hop

omit [Weight W] in
theorem Lockstep.current_relocated (h : Lockstep c d) (ks : List Key) (k : Key) :
    (c.relocated ks).next.locations.current k = (d.relocated ks).next.locations.current k := by
  have hphase : d.phase = c.phase := (h.lift (f := fun c => c.phase) fun _ => rfl).symm
  have hactive : d.active = c.active := (h.lift (f := fun c => c.active) fun _ => rfl).symm
  by_cases hidle : c.phase = .aborted ∨ c.active = none
  · have hidle' : d.phase = .aborted ∨ d.active = none := by
      rw [hphase, hactive]
      exact hidle
    rw [relocated_of_idle hidle, relocated_of_idle hidle']
    exact h.current k
  · obtain ⟨hrunning, hsome⟩ := not_or.mp hidle
    obtain ⟨m, hm⟩ := Option.ne_none_iff_exists'.mp hsome
    rw [locations_relocated hrunning hm,
      locations_relocated (hphase ▸ hrunning) (hactive.trans hm),
      Locations.current_relocateAll h.kept, Locations.current_relocateAll h.kept', h.current k]

/-- A call that both nodes make keeps them in step. -/
theorem Lockstep.call (h : Lockstep c d) {submit : Executor} {op : Call}
    {turn turn' : Turn W Answer} (hop : op.isShared = true) (hc : c.call submit op = .ok turn)
    (hd : d.call submit op = .ok turn') : Lockstep turn.next turn'.next := by
  have hturns := h.call_common submit hop
  rw [hc, hd] at hturns
  constructor
  · exact congrArg (·.2.2) (Except.ok.inj hturns)
  · exact kept_call h.kept hc
  · exact kept_call h.kept' hd
  · intro k
    by_cases hrelocated : ∃ ks, op = .relocated ks
    · obtain ⟨ks, rfl⟩ := hrelocated
      cases hc
      cases hd
      exact h.current_relocated ks k
    · have hstill : ∀ {c : Coordinator W} {turn : Turn W Answer}, c.call submit op = .ok turn →
          turn.next.locations = c.locations := by
        intro c turn hcall
        rcases locations_call hcall with hsame | ⟨ks, m, hop', -⟩
        · exact hsame
        · exact absurd ⟨ks, hop'⟩ hrelocated
      rw [hstill hc, hstill hd]
      exact h.current k

/-! ## Runs of two nodes -/

/-- What a node does on its own: it notes what its source has to ship, or its pushers take batches
out of the pool and put back what could not be sent. -/
inductive Own (c : Coordinator W) : Coordinator W → Prop
  | insert (k : Key) : Own c (c.insert k).next
  | analyze (ks : List Key) : Own c (c.analyze ks).next
  | takeBatch (r : BatchRule) (size : String → Nat) {batch : List Key} {c' : Coordinator W} :
      c.takeBatch r size = .ok (batch, c') → Own c c'
  | settle (batch : List Key) (accepted : Bool) : Own c (c.settle batch accepted)

/-- Two nodes make the same calls, and in between each does what it likes on its own. -/
inductive Twins (s t : Setup W) (placement : Placement) (plans : Option ScalingPlans) :
    Coordinator W → Coordinator W → Prop
  | start : Twins s t placement plans (make s placement plans) (make t placement plans)
  | both {c d : Coordinator W} {turn turn' : Turn W Answer} (submit : Executor) (op : Call) :
      Twins s t placement plans c d → op.isShared = true → c.call submit op = .ok turn →
      d.call submit op = .ok turn' → Twins s t placement plans turn.next turn'.next
  | first {c d c' : Coordinator W} : Twins s t placement plans c d → Own c c' →
      Twins s t placement plans c' d
  | second {c d d' : Coordinator W} : Twins s t placement plans c d → Own d d' →
      Twins s t placement plans c d'

omit [Weight W] in
theorem common_tagAll (c : Coordinator W) (ks : List Key) :
    (ks.foldl tagAnalyzed c).common = c.common := by
  obtain ⟨_, _, heq⟩ := c.exists_tagAll ks
  rw [heq]
  rfl

omit [Weight W] in
theorem Own.common_eq {c c' : Coordinator W} (h : Own c c') :
    c'.common = c.common ∧ c'.locations = c.locations := by
  cases h with
  | insert k =>
    unfold Coordinator.insert guarded
    split
    · exact ⟨rfl, rfl⟩
    · split <;> exact ⟨rfl, rfl⟩
  | analyze ks =>
    unfold Coordinator.analyze guarded
    split
    · exact ⟨rfl, rfl⟩
    · split
      · exact ⟨c.common_tagAll ks, c.locations_tagAll ks⟩
      · exact ⟨rfl, rfl⟩
  | takeBatch r size hbatch =>
    obtain ⟨taken, -, hnext⟩ := Outcome.bind_eq_ok.mp hbatch
    cases hnext
    exact ⟨rfl, rfl⟩
  | settle batch accepted =>
    unfold Coordinator.settle
    split <;> exact ⟨rfl, rfl⟩

omit [Weight W] in
theorem Lockstep.own {c' : Coordinator W} (h : Lockstep c d) (hown : Own c c') : Lockstep c' d := by
  obtain ⟨hcommon, hlocations⟩ := hown.common_eq
  exact ⟨hcommon.trans h.common, hlocations ▸ h.kept, h.kept', hlocations ▸ h.current⟩

omit [Weight W] in
theorem Lockstep.symm (h : Lockstep c d) : Lockstep d c :=
  ⟨h.common.symm, h.kept', h.kept, fun k => (h.current k).symm⟩

variable {s t : Setup W} {placement : Placement} {plans : Option ScalingPlans}

theorem Twins.lockstep (h : Twins s t placement plans c d) (hsetup : s.common = t.common) :
    Lockstep c d := by
  induction h with
  | start =>
    have hcommon : (make s placement plans).common = (make t placement plans).common := by
      have htuning : s.tuning = t.tuning := congrArg (·.tuning) hsetup
      simp only [common, make, hsetup, htuning]
      rfl
    exact ⟨hcommon, Locations.kept_make placement s.capacity,
      Locations.kept_make placement t.capacity, fun _ => rfl⟩
  | both submit op _ hop hc hd ih => exact ih.call hop hc hd
  | first _ hown ih => exact ih.own hown
  | second _ hown ih => exact (ih.symm.own hown).symm

/-- What all nodes of a cluster agree on. -/
structure Agrees (c d : Coordinator W) : Prop where
  phase : c.phase = d.phase
  active : c.active = d.active
  queued : c.queued = d.queued
  graph : c.planner.graph = d.planner.graph
  retired : c.planner.retired = d.planner.retired
  current : ∀ k, c.locations.current k = d.locations.current k
  monitoring : c.flags.monitoring = d.flags.monitoring
  migrating : c.flags.migrating = d.flags.migrating
  migrated : c.flags.migrated = d.flags.migrated
  operating : c.flags.operating = d.flags.operating
  scaled : c.flags.scaled = d.flags.scaled

omit [Weight W] in
theorem Lockstep.agrees (h : Lockstep c d) : Agrees c d where
  phase := h.lift (f := fun c => c.phase) fun _ => rfl
  active := h.lift (f := fun c => c.active) fun _ => rfl
  queued := h.lift (f := fun c => c.queued) fun _ => rfl
  graph := h.lift (f := fun c => c.planner.graph) fun _ => rfl
  retired := h.lift (f := fun c => c.planner.retired) fun _ => rfl
  current := h.current
  monitoring := h.lift (f := fun c => c.flags.monitoring) fun _ => rfl
  migrating := h.lift (f := fun c => c.flags.migrating) fun _ => rfl
  migrated := h.lift (f := fun c => c.flags.migrated) fun _ => rfl
  operating := h.lift (f := fun c => c.flags.operating) fun _ => rfl
  scaled := h.lift (f := fun c => c.flags.scaled) fun _ => rfl

/-- Nodes that make the same calls agree, whatever each of them does on its own, and the next call
that both make answers alike and hands over the same requests. -/
theorem agrees_of_twins (hsetup : s.common = t.common) (h : Twins s t placement plans c d) :
    Agrees c d ∧ ∀ (submit : Executor) (op : Call), op.isShared = true →
      (c.call submit op).map (fun turn => (turn.answer, turn.submissions)) =
        (d.call submit op).map fun turn => (turn.answer, turn.submissions) := by
  have hlockstep := h.lockstep hsetup
  refine ⟨hlockstep.agrees, fun submit op hop => ?_⟩
  have hturns := congrArg (Except.map fun shown => (shown.1, shown.2.1))
    (hlockstep.call_common submit hop)
  cases hc : c.call submit op <;> cases hd : d.call submit op <;> rw [hc, hd] at hturns <;>
    exact hturns

end

/-- The node that joins, in the cluster of the one that is joined. -/
def joiningPeer : Setup ℚ :=
  { joining with localPartition := 1, capacity := 4, reportDir := some "reports" }

/-- The node in the first window. -/
def joiningWindow (setup : Setup ℚ) : Coordinator ℚ :=
  ((make setup joiningPlacement (some joiningPlans)).launch 0).next

/-- Both nodes put the same move in flight, which only its source has to analyze. -/
theorem agrees_of_twins_joining : ∃ c d : Coordinator ℚ,
    Twins joining joiningPeer joiningPlacement (some joiningPlans) c d ∧
    c.flags.analyzing = true ∧ d.flags.analyzing = false ∧
    Agrees c d ∧ ∀ (submit : Executor) (op : Call), op.isShared = true →
      (c.call submit op).map (fun turn => (turn.answer, turn.submissions)) =
        (d.call submit op).map fun turn => (turn.answer, turn.submissions) := by
  have hends : [joining, joiningPeer].map (fun setup =>
      ((joiningWindow setup).call (fun _ => .ok ()) (.observe [] 5)).toOption.map
        (·.next.flags.analyzing)) = [some true, some false] := by
    decide +kernel
  cases hc : (joiningWindow joining).call (fun _ => .ok ()) (.observe [] 5) with
  | error e =>
    simp [hc, Except.toOption] at hends
  | ok turn =>
    cases hd : (joiningWindow joiningPeer).call (fun _ => .ok ()) (.observe [] 5) with
    | error e =>
      simp [hd, Except.toOption] at hends
    | ok turn' =>
      have hstart : Twins joining joiningPeer joiningPlacement (some joiningPlans) _ _ := .start
      have hlaunched := hstart.both (fun _ => .ok ()) (.launch 0) rfl rfl rfl
      have htwins := (hlaunched.both _ (.observe [] 5) rfl hc hd).first (.insert ⟨"t", 3⟩)
      have hflags : (turn.next.insert ⟨"t", 3⟩).next.flags = turn.next.flags := by
        unfold Coordinator.insert guarded
        split
        · rfl
        · split <;> rfl
      simp only [List.map_cons, List.map_nil, hc, hd, Except.toOption, Option.map_some,
        List.cons.injEq, Option.some.injEq, and_true] at hends
      have hsetup : joining.common = joiningPeer.common := rfl
      exact ⟨_, _, htwins, (congrArg (·.analyzing) hflags).trans hends.1, hends.2,
        agrees_of_twins hsetup htwins⟩

end Coordinator

end Reshard
