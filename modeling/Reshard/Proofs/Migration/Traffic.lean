import Reshard.Migration.Node
import Reshard.Proofs.Migration.Histories
import Reshard.Proofs.Push.Batch

/-!
Background pushers beside the coordinator. A pusher takes a batch in one step and learns its outcome
in a later one, and calls of the coordinator come in between in any order (`Traffic.Run`). At every
moment one pusher runs at most, and it is that of the move in flight (`manned_of_run`).
-/

namespace Reshard

/-- The pusher of this number is running. -/
def Node.runs {W : Type} (n : Node W) (number : Nat) : Bool := n.pushers.any (·.number = number)

/-- A node whose pushers wait for the transport. -/
structure Traffic (W : Type) where
  node : Node W
  /-- The batches whose outcome is open, each under the number of the pusher that waits for it. -/
  underway : Std.ExtTreeMap Nat (List Key)

namespace Traffic

variable {W : Type} [Weight W]

def start (c : Coordinator W) (transport : Option Transport) : Traffic W :=
  ⟨.make c transport, ∅⟩

/-- An operation of the coordinator is done. A pusher that it stops waits no longer. -/
def settle {α : Type} (s : Traffic W) (turn : Turn W α) : Traffic W where
  node := s.node.settle turn
  underway := s.underway.filter fun number _ => (s.node.settle turn).runs number

/-- A round of a pusher, up to the hand-over of a batch to the transport. -/
def round (s : Traffic W) (size : String → Nat) (p : Pusher) :
    Except Overflow (Round × Traffic W) := do
  match ← s.node.coordinator.pushRound size with
  | (.ended, _) => return (.ended, { s with node := s.node.endPusher p.number })
  | (.idle, c) =>
    return (.idle, { s with node := Node.postpone { s.node with coordinator := c } p.number })
  | (.sent batch, c) =>
    let sent := { s.node with coordinator := c, delivered := s.node.delivered + 1 }
    return (.sent batch, ⟨sent.postpone p.number, s.underway.insert p.number batch⟩)

/-- A pusher learns whether the transport accepted its batch. -/
def hear (s : Traffic W) (number : Nat) (batch : List Key) (accepted : Bool) : Traffic W where
  node := { s.node with coordinator := s.node.coordinator.settle batch accepted }
  underway := s.underway.erase number

/-- What happens beside the coordinator and by its calls, one after the other. A pusher may take its
next round at any time unless it waits for the transport, and the transport may accept or fail at
any time. The history has the calls only. -/
inductive Run (first : Traffic W) : List (Entry W) → Traffic W → Prop
  | nil : Run first [] first
  | call {es : List (Entry W)} {s : Traffic W} {turn : Turn W Answer} (submit : Executor)
      (op : Call) : Run first es s → s.node.coordinator.call submit op = .ok turn →
      Run first (es ++ [⟨s.node.coordinator, submit, op, turn⟩]) (s.settle turn)
  | round {es : List (Entry W)} {s s' : Traffic W} {p : Pusher} {r : Round}
      (size : String → Nat) : Run first es s → p ∈ s.node.pushers →
      s.underway[p.number]? = none → s.round size p = .ok (r, s') → Run first es s'
  | hear {es : List (Entry W)} {s : Traffic W} {number : Nat} {batch : List Key}
      (accepted : Bool) : Run first es s → s.underway[number]? = some batch →
      Run first es (s.hear number batch accepted)

omit [Weight W] in
/-- A node that moves its clock lets a pusher hear of a batch within the turn that hands it over. -/
theorem pushOnce_eq {n : Node W} (hinterval : n.coordinator.setup.batches.interval ≠ 0)
    (t : Transport) (p : Pusher) :
    n.pushOnce t p = (round ⟨n, ∅⟩ t.size p).map fun
      | (.sent batch, s) =>
        let accepted := t.accepts n.delivered
        ([⟨p.source, p.dest, batch, accepted⟩], (s.hear p.number batch accepted).node)
      | (_, s) => ([], s.node) := by
  rw [Node.pushOnce, if_neg hinterval, round]
  cases n.coordinator.pushRound t.size with
  | error e => rfl
  | ok result =>
    obtain ⟨r, c⟩ := result
    cases r with
    | ended => rfl
    | idle => rfl
    | sent batch =>
      -- The setup, which tells the interval, is the same whatever the outcome.
      simp only [bind, Except.bind, pure, Except.pure, Except.map]
      cases t.accepts n.delivered <;> rfl

end Traffic

/-! ## Which pushers run -/

namespace Coordinator

/-- The pusher is that of the move in flight, unless the coordinator is aborted. -/
def Employs {W : Type} (c : Coordinator W) (p : Pusher) : Prop :=
  c.phase = .aborted ∨ ∃ m, c.active = some m ∧ m.source = c.setup.localPartition ∧
    p.source = m.source ∧ p.dest = m.dest

end Coordinator

namespace Node

variable {W : Type} {n : Node W} {p? : Option Pusher}

/-- No pusher runs, or the one that was started last. -/
inductive Staff (n : Node W) : Option Pusher → Prop
  | nobody : n.pushers = [] → Staff n none
  | one {p : Pusher} : n.pushers = [p] → n.latest = some p.number → p.number < n.started →
      Staff n (some p)

theorem Staff.mem_iff (h : n.Staff p?) {p : Pusher} : p ∈ n.pushers ↔ p? = some p := by
  cases h with
  | nobody hnone => simp [hnone]
  | one hone => simp [hone, eq_comm]

theorem Staff.runs_iff (h : n.Staff p?) {number : Nat} :
    n.runs number = true ↔ ∃ p, p? = some p ∧ p.number = number := by
  simp [runs, h.mem_iff]

theorem Staff.lt_started (h : n.Staff p?) {p : Pusher} (hp : p? = some p) :
    p.number < n.started := by
  cases h with
  | nobody => nomatch hp
  | one _ _ hlt =>
    cases hp
    exact hlt

theorem Staff.endPusher (h : n.Staff p?) (number : Nat) :
    (n.endPusher number).Staff (p?.filter (·.number ≠ number)) := by
  cases h with
  | nobody hnone => exact .nobody (by simp [Node.endPusher, hnone])
  | @one p hone hlatest hlt =>
    by_cases hsame : p.number = number
    · rw [Option.filter_some_neg (by simp [hsame])]
      exact .nobody (by simp [Node.endPusher, hone, hsame])
    · rw [Option.filter_some_pos (by simp [hsame])]
      exact .one (by simp [Node.endPusher, hone, hsame]) hlatest hlt

/-- A pusher that is put off stays the same but for the time of its next round. -/
theorem Staff.postpone {p : Pusher} (h : n.Staff (some p)) (number : Nat) :
    ∃ p', (n.postpone number).Staff (some p') ∧ p'.number = p.number ∧
      p'.source = p.source ∧ p'.dest = p.dest := by
  cases h with
  | one hone hlatest hlt =>
    have hput : ∃ p', (n.postpone number).pushers = [p'] ∧ p'.number = p.number ∧
        p'.source = p.source ∧ p'.dest = p.dest := by
      rw [Node.postpone, hone, List.map_singleton]
      refine ⟨_, rfl, ?_⟩
      split <;> exact ⟨rfl, rfl, rfl⟩
    obtain ⟨p', hone', hnumber, hroute⟩ := hput
    exact ⟨p', .one hone' (hnumber ▸ hlatest) (hnumber ▸ hlt), hnumber, hroute⟩

theorem Staff.stopPusher (h : n.Staff p?) : n.stopPusher.Staff none := by
  cases h with
  | nobody hnone =>
    refine .nobody ?_
    unfold Node.stopPusher
    split
    · exact hnone
    · simp [Node.endPusher, hnone]
  | one hone hlatest => exact .nobody (by simp [Node.stopPusher, hlatest, Node.endPusher, hone])

theorem Staff.startPusher (h : n.Staff none) (source dest : PartitionId) :
    ∃ p?, (n.startPusher source dest).Staff p? ∧ ∀ p, p? = some p →
      p.number = n.started ∧ p.source = source ∧ p.dest = dest := by
  unfold Node.startPusher
  split
  · exact ⟨none, h, nofun⟩
  · cases h with
    | nobody hnone =>
      refine ⟨_, .one (by rw [hnone]; rfl) rfl (Nat.lt_succ_self _), fun p hp => ?_⟩
      cases hp
      exact ⟨rfl, rfl, rfl⟩

theorem Staff.congr (h : n.Staff p?) {n' : Node W} (hpushers : n'.pushers = n.pushers)
    (hlatest : n'.latest = n.latest) (hstarted : n'.started = n.started) : n'.Staff p? := by
  cases h with
  | nobody hnone => exact .nobody (hpushers.trans hnone)
  | one hone hlast hlt =>
    exact .one (hpushers.trans hone) (hlatest.trans hlast) (hstarted ▸ hlt)

end Node

/-! ## What a call does to pushers -/

namespace Turn

variable {W α : Type}

/-- What a turn does to the pushers: none is started, or that of the move put in flight. -/
inductive Hires (t : Turn W α) : Prop
  | nobody : (∀ n : Node W, t.effects.foldl Node.perform n = n) → Hires t
  | pusher (m : Move) :
      (∀ n : Node W, t.effects.foldl Node.perform n = n.startPusher m.source m.dest) →
      t.next.active = some m → m.source = t.next.setup.localPartition → Hires t

end Turn

namespace Coordinator

variable {W : Type} {c : Coordinator W}

theorem hires_dispatch (c : Coordinator W) (submit : Executor) (m : Move) :
    (c.dispatch submit m).Hires := by
  unfold dispatch
  split
  · by_cases hs : m.source = c.setup.localPartition
    · refine .pusher m (fun n => ?_) rfl hs
      simp [done, hs, Node.perform]
    · refine .nobody fun n => ?_
      simp [done, hs, Node.perform]
  · exact .nobody fun n => rfl

theorem hires_proceed (c : Coordinator W) (submit : Executor) (now : Nat) :
    (c.proceed submit now).Hires := by
  unfold proceed
  split
  · exact hires_dispatch _ submit _
  · exact .nobody fun n => rfl

/-- The end of a window starts a pusher if it puts a move of this node in flight. -/
theorem hires_stopMonitoring [Weight W] {submit : Executor} {now : Nat} {turn : Turn W Unit}
    (h : c.stopMonitoring submit now = .ok turn) : turn.Hires := by
  have hreports : ∀ n : Node W, c.reports.foldl Node.perform n = n := by
    intro n
    unfold reports
    split <;> rfl
  rcases stopMonitoring_cases h with ⟨e, -, rfl⟩ | ⟨moves, planner, -, rfl⟩
  · exact .nobody hreports
  · cases hires_proceed (c.stopped.loaded moves planner) submit now with
    | nobody hsame =>
      refine .nobody fun n => ?_
      rw [List.foldl_append, hreports, hsame]
    | pusher m hone hm hs =>
      refine .pusher m (fun n => ?_) hm hs
      rw [List.foldl_append, hreports, hone]

end Coordinator

namespace Traffic

open Coordinator

variable {W : Type} {s s' : Traffic W}

/-- The pusher that runs, if any, is that of the move in flight, and no other waits for the
transport. -/
structure Manned (s : Traffic W) (p? : Option Pusher) : Prop where
  staff : s.node.Staff p?
  employs : ∀ p, p? = some p → s.node.coordinator.Employs p
  underway : ∀ number batch, s.underway[number]? = some batch →
    ∃ p, p? = some p ∧ p.number = number

theorem coordinator_foldl (effects : List (Effect W)) (n : Node W) :
    (effects.foldl Node.perform n).coordinator = n.coordinator := by
  induction effects generalizing n with
  | nil => rfl
  | cons e rest ih =>
    rw [List.foldl_cons, ih]
    cases e with
    | startPusher source dest =>
      rw [Node.perform, Node.startPusher]
      split <;> rfl
    | stopPusher =>
      rw [Node.perform, Node.stopPusher]
      split <;> rfl
    | _ => rfl

theorem coordinator_settle {α : Type} (s : Traffic W) (turn : Turn W α) :
    (s.settle turn).node.coordinator = turn.next :=
  coordinator_foldl turn.effects _

theorem getElem?_underway_settle {α : Type} {turn : Turn W α} {number : Nat} {batch : List Key} :
    (s.settle turn).underway[number]? = some batch ↔
      s.underway[number]? = some batch ∧ (s.settle turn).node.runs number = true := by
  simp [settle, Std.ExtTreeMap.getElem?_filter]

/-- Nobody but the pusher that runs after a turn waits for the transport then. -/
theorem Manned.of_settle {α : Type} {turn : Turn W α} {p? : Option Pusher}
    (hstaff : (s.settle turn).node.Staff p?)
    (hemploys : ∀ p, p? = some p → turn.next.Employs p) :
    (s.settle turn).Manned p? where
  staff := hstaff
  employs p hp := by
    rw [coordinator_settle]
    exact hemploys p hp
  underway number batch hbatch := hstaff.runs_iff.mp (getElem?_underway_settle.mp hbatch).2

/-- What a turn does to the pusher `p?`: it stays as it is, and nothing is handed over, or no batch
is underway after the turn. -/
inductive Mans {α : Type} (s : Traffic W) (p? : Option Pusher) (turn : Turn W α) : Prop
  | same : turn.submissions = [] → (s.settle turn).Manned p? → Mans s p? turn
  | anew {p?' : Option Pusher} : (s.settle turn).Manned p?' →
      (∀ number : Nat, (s.settle turn).underway[number]? = none) → Mans s p? turn

/-- A turn that neither stops nor starts a pusher. -/
theorem Manned.keep {α : Type} {turn : Turn W α} {p? : Option Pusher} (h : s.Manned p?)
    (hnone : turn.submissions = [])
    (heffects : ∀ n : Node W, turn.effects.foldl Node.perform n = n)
    (hemploys : ∀ p, s.node.coordinator.Employs p → turn.next.Employs p) : s.Mans p? turn := by
  refine .same hnone (.of_settle ?_ fun p hp => hemploys p (h.employs p hp))
  rw [settle, Node.settle, heffects]
  exact h.staff.congr rfl rfl rfl

/-- A turn that starts at most one pusher, when no pusher is left. A batch that was underway before
is forgotten with its pusher. -/
theorem Manned.hire {α β : Type} {turn : Turn W α} {t : Turn W β} {p? : Option Pusher}
    (h : s.Manned p?) (ht : t.Hires) (hnext : turn.next = t.next) {n : Node W}
    (hidle : n.Staff none) (hstarted : n.started = s.node.started)
    (hnode : (s.settle turn).node = t.effects.foldl Node.perform n) : s.Mans p? turn := by
  have hstaff : ∃ p?', (s.settle turn).node.Staff p?' ∧ ∀ p, p?' = some p →
      p.number = s.node.started ∧ turn.next.Employs p := by
    cases ht with
    | nobody hsame =>
      rw [hnode, hsame]
      exact ⟨none, hidle, nofun⟩
    | pusher m hone hm hs =>
      obtain ⟨p?', hstaff, hp⟩ := hidle.startPusher m.source m.dest
      rw [hnode, hone]
      refine ⟨p?', hstaff, fun p hsome => ?_⟩
      obtain ⟨hnumber, hsource, hdest⟩ := hp p hsome
      exact ⟨hnumber.trans hstarted, .inr ⟨m, hnext ▸ hm, hnext ▸ hs, hsource, hdest⟩⟩
  obtain ⟨p?', hstaff, hp⟩ := hstaff
  refine .anew (.of_settle hstaff fun p hsome => (hp p hsome).2) fun number => ?_
  rw [Option.eq_none_iff_forall_ne_some]
  intro batch hbatch
  obtain ⟨hbefore, hruns⟩ := getElem?_underway_settle.mp hbatch
  obtain ⟨old, hold, rfl⟩ := h.underway number batch hbefore
  obtain ⟨new, hnew, hnumber⟩ := hstaff.runs_iff.mp hruns
  have hlt := h.staff.lt_started hold
  rw [← hnumber, (hp new hnew).1] at hlt
  exact Nat.lt_irrefl _ hlt

theorem started_stopPusher (n : Node W) : n.stopPusher.started = n.started := by
  unfold Node.stopPusher
  split <;> rfl

/-- Outside a move no pusher runs. -/
theorem Manned.eq_none {p? : Option Pusher} (h : s.Manned p?)
    (hphase : s.node.coordinator.phase ≠ .aborted) (hactive : s.node.coordinator.active = none) :
    p? = none := by
  rw [Option.eq_none_iff_forall_ne_some]
  intro p hp
  rcases h.employs p hp with haborted | ⟨m, hm, -⟩
  · exact hphase haborted
  · rw [hactive] at hm
    nomatch hm

/-! ## Rounds of a pusher -/

/-- A round of a pusher, taken apart. -/
inductive Takes (s : Traffic W) (p : Pusher) : Round → Traffic W → Prop
  | ended : Takes s p .ended { s with node := s.node.endPusher p.number }
  | idle {size : String → Nat} (pool : Pool) :
      s.node.coordinator.flags.migrating = true →
      s.node.coordinator.pool.Batched s.node.coordinator.setup.batches size [] pool →
      Takes s p .idle
        { s with
          node := Node.postpone
            { s.node with coordinator := { s.node.coordinator with pool } } p.number }
  | sent {size : String → Nat} (batch : List Key) (pool : Pool) :
      s.node.coordinator.flags.migrating = true →
      s.node.coordinator.pool.Batched s.node.coordinator.setup.batches size batch pool →
      Takes s p (.sent batch)
        { node := Node.postpone
            { s.node with
              coordinator := { s.node.coordinator with pool }
              delivered := s.node.delivered + 1 } p.number
          underway := s.underway.insert p.number batch }

theorem takes_of_round {size : String → Nat} {p : Pusher} {r : Round}
    (h : s.round size p = .ok (r, s')) : s.Takes p r s' := by
  obtain ⟨⟨r', c⟩, hround, h⟩ := Outcome.bind_eq_ok.mp h
  rw [pushRound] at hround
  split at hround
  · next hmigrating =>
    obtain ⟨⟨batch, next⟩, hbatch, hround⟩ := Outcome.bind_eq_ok.mp hround
    obtain ⟨⟨batch', pool⟩, hpool, hnext⟩ := Outcome.bind_eq_ok.mp hbatch
    have hbatched := (Pool.yields_takeBatch _ _ _).of_eq_ok hpool
    cases hnext
    dsimp only at hround
    cases batch with
    | nil =>
      cases hround
      cases h
      exact .idle pool hmigrating hbatched
    | cons k rest =>
      cases hround
      cases h
      exact .sent _ pool hmigrating hbatched
  · cases hround
    cases h
    exact .ended

/-- What is underway after an outcome was underway before. -/
theorem underway_of_hear {number other : Nat} {batch batch' : List Key} {accepted : Bool}
    (h : (s.hear number batch accepted).underway[other]? = some batch') :
    s.underway[other]? = some batch' := by
  rw [Traffic.hear, Std.ExtTreeMap.getElem?_erase] at h
  split at h
  · nomatch h
  · exact h

/-- When nothing was underway before, a batch that is sent is the only one. -/
theorem eq_of_underway_insert (hnone : ∀ number : Nat, s.underway[number]? = none)
    {number other : Nat} {batch batch' : List Key}
    (h : (s.underway.insert number batch)[other]? = some batch') :
    other = number ∧ batch' = batch := by
  rw [Std.ExtTreeMap.getElem?_insert, hnone other] at h
  split at h
  · next heq => exact ⟨(Std.compare_eq_iff_eq.mp heq).symm, (Option.some.inj h).symm⟩
  · nomatch h

theorem Manned.hear {p? : Option Pusher} (h : s.Manned p?) {number : Nat} {batch : List Key}
    (accepted : Bool) : (s.hear number batch accepted).Manned p? := by
  refine ⟨h.staff.congr rfl rfl rfl, fun p hp => ?_, fun other batch' hother => ?_⟩
  · cases accepted <;> exact h.employs p hp
  · exact h.underway other batch' (underway_of_hear hother)

theorem Manned.free {p? : Option Pusher} (h : s.Manned p?) {p : Pusher} (hp : p? = some p)
    (hfree : s.underway[p.number]? = none) (number : Nat) : s.underway[number]? = none := by
  rw [Option.eq_none_iff_forall_ne_some]
  intro batch hbatch
  obtain ⟨q, hq, rfl⟩ := h.underway number batch hbatch
  cases hp.symm.trans hq
  rw [hfree] at hbatch
  nomatch hbatch

/-- A pusher that is put off is still that of the move in flight, and may wait for the transport. -/
theorem Manned.of_postpone {n : Node W} {p : Pusher} (hnode : s'.node = n.postpone p.number)
    (hstaff : n.Staff (some p)) (hemploys : n.coordinator.Employs p)
    (hunderway : ∀ (number : Nat) (batch : List Key),
      s'.underway[number]? = some batch → number = p.number) : ∃ p?', s'.Manned p?' := by
  obtain ⟨p', hstaff', hnumber, hsource, hdest⟩ := hstaff.postpone p.number
  rw [← hnode] at hstaff'
  refine ⟨some p', hstaff', fun q hq => ?_, fun number batch hbatch => ?_⟩
  · cases hq
    rw [hnode]
    refine hemploys.imp_right ?_
    rintro ⟨m, hm, hs, hsource', hdest'⟩
    exact ⟨m, hm, hs, hsource.trans hsource', hdest.trans hdest'⟩
  · exact ⟨p', rfl, hnumber.trans (hunderway number batch hbatch).symm⟩

/-- The pusher that takes a round goes on, or ends. -/
theorem Manned.round {p : Pusher} (h : s.Manned (some p)) {r : Round}
    (hfree : s.underway[p.number]? = none) (hround : s.Takes p r s') : ∃ p?', s'.Manned p?' := by
  have hnone := h.free rfl hfree
  cases hround with
  | ended =>
    refine ⟨none, ?_, nofun, fun number batch hbatch => ?_⟩
    · have hended := h.staff.endPusher p.number
      rwa [Option.filter_some_neg (by simp)] at hended
    · rw [hnone number] at hbatch
      nomatch hbatch
  | idle pool _ _ =>
    refine Manned.of_postpone rfl (h.staff.congr rfl rfl rfl) (h.employs p rfl)
      fun number batch hbatch => ?_
    rw [hnone number] at hbatch
    nomatch hbatch
  | sent batch pool _ _ =>
    exact Manned.of_postpone rfl (h.staff.congr rfl rfl rfl) (h.employs p rfl)
      fun number batch hbatch => (eq_of_underway_insert hnone hbatch).1

/-- A round hands a batch over if there is one to take. -/
theorem exists_round {size : String → Nat} {batch : List Key} {pool : Pool} (s : Traffic W)
    (p : Pusher) (hmigrating : s.node.coordinator.flags.migrating = true)
    (hpool : s.node.coordinator.pool.takeBatch s.node.coordinator.setup.batches size =
      .ok (batch, pool)) (hbatch : batch ≠ []) :
    ∃ s', s.round size p = .ok (.sent batch, s') := by
  have hround : s.node.coordinator.pushRound size =
      .ok (.sent batch, { s.node.coordinator with pool }) := by
    rw [pushRound, if_pos hmigrating, takeBatch, hpool]
    cases batch with
    | nil => exact absurd rfl hbatch
    | cons k rest => rfl
  rw [round, hround]
  exact ⟨_, rfl⟩

/-! ## Whole runs -/

section

variable [Weight W] {setup : Setup W} {submit : Executor} {es : List (Entry W)}
  {turn : Turn W Answer} {p? : Option Pusher}

theorem Manned.launch (h : s.Manned p?) {now : Nat}
    (hcall : s.node.coordinator.call submit (.launch now) = .ok turn) : s.Mans p? turn := by
  cases hcall
  unfold Coordinator.launch guarded
  split
  · exact h.keep rfl (fun n => rfl) fun p hp => hp
  · next hphase =>
    split
    · exact h.keep rfl (fun n => rfl) fun p hp => hp
    · exact h.keep rfl (fun n => rfl) fun p hp => .inr (hp.resolve_left hphase)

/-- An observation may end the window, and before that no pusher runs. -/
theorem Manned.observe (h : s.Manned p?) (hc : s.node.coordinator.Consistent setup)
    {ks : List Key} {now : Nat}
    (hcall : s.node.coordinator.call submit (.observe ks now) = .ok turn) : s.Mans p? turn := by
  obtain ⟨seen, hobserve, hanswer⟩ := Outcome.bind_eq_ok.mp hcall
  cases hanswer
  rcases observe_cases hobserve with ⟨-, rfl⟩ | ⟨-, -, rfl⟩ | ⟨e, -, -, rfl⟩ |
    ⟨planner, hphase, -, rfl | hstop⟩
  · exact h.keep rfl (fun n => rfl) fun p hp => hp
  · exact h.keep rfl (fun n => rfl) fun p hp => hp
  · cases e with
    | violation cause => exact h.keep rfl (fun n => rfl) fun p _ => .inl rfl
    | _ => exact h.keep rfl (fun n => rfl) fun p hp => hp
  · exact h.keep rfl (fun n => rfl) fun p hp => hp
  · obtain rfl := h.eq_none (by simp [hphase]) (hc.of_not_migrating (by simp [hphase])).2.2.1
    have hidle : Node.Staff { s.node with coordinator := seen.next } none :=
      h.staff.congr rfl rfl rfl
    exact h.hire (hires_stopMonitoring hstop) rfl hidle rfl rfl

/-- A commit stops the pusher of the move that was in flight. -/
theorem Manned.commit (h : s.Manned p?) {now : Nat}
    (hcall : s.node.coordinator.call submit (.commit now) = .ok turn) : s.Mans p? turn := by
  cases hcall
  by_cases hphase : s.node.coordinator.phase = .aborted
  · rw [Coordinator.commit, guarded_of_aborted hphase]
    exact h.keep rfl (fun n => rfl) fun p hp => hp
  · cases hm : s.node.coordinator.active with
    | none =>
      rw [commit_of_none hphase hm]
      exact h.keep rfl (fun n => rfl) fun p hp => hp
    | some m =>
      rw [commit_of_active hphase hm]
      have hbefore : Node.Staff { s.node with
          coordinator := (s.node.coordinator.committed.proceed submit now).next } p? :=
        h.staff.congr rfl rfl rfl
      exact h.hire (hires_proceed _ submit now) rfl hbefore.stopPusher (started_stopPusher _) rfl

omit [Weight W] in
theorem Manned.notes (h : s.Manned p?) {op : Call}
    (hnotes : s.node.coordinator.Notes op turn) : s.Mans p? turn := by
  cases hnotes with
  | noted => exact h.keep rfl (fun n => rfl) fun p hp => hp
  | halted => exact h.keep rfl (fun n => rfl) fun p _ => .inl rfl

theorem Manned.call (h : s.Manned p?) (hc : s.node.coordinator.Consistent setup) {op : Call}
    (hop : op.isRegular = true) (hcall : s.node.coordinator.call submit op = .ok turn) :
    s.Mans p? turn := by
  cases op with
  | startMonitoring now => nomatch hop
  | launch now => exact h.launch hcall
  | observe ks now => exact h.observe hc hcall
  | commit now => exact h.commit hcall
  | _ => exact h.notes (notes_of_call rfl hcall)

/-- The calls of a run make a run of the coordinator, in which the pushers change the pool. -/
theorem Run.calls {first : Traffic W} (h : Run first es s) :
    Coordinator.Run first.node.coordinator es s.node.coordinator := by
  induction h with
  | nil => exact .nil
  | call submit op _ hcall ih =>
    rw [coordinator_settle]
    exact ih.call submit op hcall
  | round size _ _ _ hround ih =>
    cases takes_of_round hround with
    | ended => exact ih
    | idle pool => exact ih.push pool
    | sent batch pool => exact ih.push pool
  | @hear es s number batch accepted _ _ ih =>
    cases accepted with
    | true => exact ih
    | false => exact ih.push (s.node.coordinator.pool.restore batch)

/-- Whatever happens, the pusher that runs is that of the move in flight. -/
theorem manned_of_run {placement : Placement} {plans : Option ScalingPlans}
    {transport : Option Transport} (h : Run (start (make setup placement plans) transport) es s)
    (hregular : ∀ e ∈ es, e.op.isRegular = true) : ∃ p?, s.Manned p? := by
  induction h with
  | nil =>
    refine ⟨none, .nobody rfl, nofun, fun number batch hbatch => ?_⟩
    simp [start] at hbatch
  | @call es s turn submit op hrun hcall ih =>
    obtain ⟨hbefore, hop⟩ := List.forall_mem_append.mp hregular
    obtain ⟨p?, hmanned⟩ := ih hbefore
    have hc := consistent_of_run hrun.calls hbefore
    cases hmanned.call hc (hop _ (List.mem_singleton_self _)) hcall with
    | same _ hkept => exact ⟨p?, hkept⟩
    | anew hnew _ => exact ⟨_, hnew⟩
  | round size _ hp hfree hround ih =>
    obtain ⟨p?, hmanned⟩ := ih hregular
    obtain rfl := hmanned.staff.mem_iff.mp hp
    exact hmanned.round hfree (takes_of_round hround)
  | hear accepted _ _ ih =>
    obtain ⟨p?, hmanned⟩ := ih hregular
    exact ⟨p?, hmanned.hear accepted⟩

/-- Calls in a row, between which the pushers do nothing. -/
theorem Run.play {first : Traffic W} {es' : List (Entry W)} {last : Coordinator W}
    {calls : List (Executor × Call)} (h : Run first es s)
    (hplay : s.node.coordinator.play calls = .ok (es', last)) :
    Run first (es ++ es') (es'.foldl (fun s e => s.settle e.turn) s) := by
  induction calls generalizing s es es' with
  | nil =>
    cases hplay
    rwa [List.append_nil]
  | cons call rest ih =>
    obtain ⟨turn, hcall, hplay⟩ := Outcome.bind_eq_ok.mp hplay
    obtain ⟨⟨later, _⟩, hrest, heq⟩ := Outcome.bind_eq_ok.mp hplay
    cases heq
    rw [← coordinator_settle s turn] at hrest
    rw [List.append_cons]
    exact ih (h.call call.1 call.2 hcall) hrest

end

end Traffic

end Reshard
