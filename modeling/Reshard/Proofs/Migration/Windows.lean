import Mathlib.Data.List.DropRight
import Reshard.Proofs.Balance.Order
import Reshard.Proofs.Migration.Rounds

/-!
What the access graph tells while a monitoring window is open. It is empty when the window opens,
and then takes in each transaction, at places that do not change before the window ends
(`seen_of_run`). So it is the histogram of the transactions of this window, at the current places of
their keys, also when planning starts from it (`histogram_of_run`).
-/

namespace Reshard

/-- The keys of the transaction that a call observes. -/
def Call.observed? : Call → Option (List Key)
  | .observe ks _ => some ks
  | _ => none

/-- The call opens a monitoring window, which begins a new round. -/
def Entry.opensWindow {W : Type} (e : Entry W) : Bool := e.turn.next.round ≠ e.before.round

/-- The transactions observed since a window was opened for the last time. -/
def windowOf {W : Type} (es : List (Entry W)) : List (List Key) :=
  (es.rtakeWhile fun e => !e.opensWindow).filterMap (·.op.observed?)

section

variable {W : Type} {es : List (Entry W)} {e : Entry W}

theorem windowOf_of_opens (he : e.opensWindow = true) : windowOf (es ++ [e]) = [] := by
  rw [windowOf, List.rtakeWhile_concat_neg _ _ _ (by simp [he])]
  rfl

theorem windowOf_of_not_opens (he : e.opensWindow = false) :
    windowOf (es ++ [e]) = windowOf es ++ e.op.observed?.toList := by
  rw [windowOf, List.rtakeWhile_concat_pos _ _ _ (by simp [he]), List.filterMap_append,
    ← windowOf]
  cases ho : e.op.observed? <;> simp [ho]

end

/-! ## Histograms -/

/-- Whether a key of the transaction is represented by `r`. -/
def Locations.touches (l : Locations) (r : Key) (t : List Key) : Bool :=
  t.any fun k => l.placement.representative k = r

/-- What a graph is to tell of transactions: which keys they accessed, how often, together with
which others, and where these keys are. -/
structure Graph.Histogram (l : Locations) (ts : List (List Key)) (g : Graph ℚ) : Prop where
  sound : g.Sound
  vertex_iff : ∀ r, (∃ a v, g.vertex? a = some v ∧ v.key = r) ↔
    ∃ t ∈ ts, ∃ k ∈ t, l.placement.representative k = r
  vertex : ∀ a v, g.vertex? a = some v →
    v.weight = ts.countP (l.touches v.key) ∧ v.partition = l.current v.key ∧ v.moved = false
  /-- There is no edge of weight zero. -/
  edge : ∀ a b v v', g.vertex? a = some v → g.vertex? b = some v' → a ≠ b →
    let together := ts.countP fun t => l.touches v.key t && l.touches v'.key t
    g.edge? a b = if together = 0 then none else some (together : ℚ)

namespace Picture

variable {place : Key → PartitionId} {f : Picture ℚ}

def blank : Picture ℚ where
  note _ := none
  tie _ _ := none

theorem note_blank_foldl (ts : List KeySet) (k : Key) :
    (ts.foldl (add place) blank).note k = if ts.countP (k ∈ ·) = 0 then none
      else some ((ts.countP (k ∈ ·) : ℚ), place k, false) := by
  induction ts using List.reverseRecOn with
  | nil => rfl
  | append_singleton ts t ih =>
    rw [List.foldl_append, List.countP_append, List.countP_singleton]
    simp only [List.foldl_cons, List.foldl_nil, add, ih]
    by_cases hk : k ∈ t
    · cases ts.countP (k ∈ ·) <;> simp [hk, count]
    · simp only [hk, decide_false, Bool.false_eq_true, if_false, Nat.add_zero]

theorem tie_blank_foldl (ts : List KeySet) {k k' : Key} (hne : k' ≠ k) :
    (ts.foldl (add place) blank).tie k k' =
      if ts.countP (fun t => k ∈ t ∧ k' ∈ t) = 0 then none
      else some (ts.countP (fun t => k ∈ t ∧ k' ∈ t) : ℚ) := by
  induction ts using List.reverseRecOn with
  | nil => rfl
  | append_singleton ts t ih =>
    rw [List.foldl_append, List.countP_append, List.countP_singleton]
    simp only [List.foldl_cons, List.foldl_nil, add, ih, and_iff_left hne, ← and_assoc]
    by_cases hk : k ∈ t ∧ k' ∈ t
    · cases ts.countP (fun t => k ∈ t ∧ k' ∈ t) <;> simp [hk]
    · simp only [hk, decide_false, Bool.false_eq_true, if_false, Nat.add_zero]

end Picture

theorem Graph.picture_empty : (∅ : Graph ℚ).picture = Picture.blank := by
  have hid : ∀ k, (∅ : Graph ℚ).idOf? k = none := fun _ => Std.ExtTreeMap.getElem?_empty
  ext1 <;> funext <;> simp [Graph.picture, Picture.blank, hid]

theorem Planner.mem_groups_iff {l : Locations} {t : List Key} {r : Key} :
    r ∈ groups l t ↔ l.touches r t = true := by
  simp [groups, Locations.touches]

namespace Graph

variable {g : Graph ℚ} {l : Locations} {ts : List (List Key)}

/-- What the transactions leave in an empty graph. -/
def Shows (l : Locations) (ts : List (List Key)) (g : Graph ℚ) : Prop :=
  g.Sound ∧ g.picture = (ts.map (Planner.groups l)).foldl (Picture.add l.current) .blank

theorem Shows.note (h : g.Shows l ts) (r : Key) :
    g.picture.note r = if ts.countP (l.touches r) = 0 then none
      else some ((ts.countP (l.touches r) : ℚ), l.current r, false) := by
  rw [h.2, Picture.note_blank_foldl, List.countP_map]
  simp only [Function.comp_def, Planner.mem_groups_iff, Bool.decide_eq_true]

theorem Shows.tie (h : g.Shows l ts) {r r' : Key} (hne : r' ≠ r) :
    let together := ts.countP fun t => l.touches r t && l.touches r' t
    g.picture.tie r r' = if together = 0 then none else some (together : ℚ) := by
  rw [h.2, Picture.tie_blank_foldl _ hne, List.countP_map]
  simp only [Function.comp_def, Planner.mem_groups_iff, ← Bool.and_eq_true, Bool.decide_eq_true]

theorem Shows.histogram (h : g.Shows l ts) : g.Histogram l ts := by
  have hid : ∀ {a v}, g.vertex? a = some v → g.idOf? v.key = some a := by
    intro a v hv
    exact h.1.idOf_of_key (by rw [keyOf?, hv, Option.map_some])
  constructor
  · exact h.1
  · intro r
    have htouched : (∃ t ∈ ts, ∃ k ∈ t, l.placement.representative k = r) ↔
        g.idOf? r ≠ none := by
      rw [ne_eq, h.1.idOf?_eq_none_iff, h.note]
      simp [Locations.touches]
    rw [htouched]
    constructor
    · rintro ⟨a, v, hv, rfl⟩
      rw [hid hv]
      exact Option.some_ne_none a
    · intro hknown
      obtain ⟨a, ha⟩ := Option.ne_none_iff_exists'.mp hknown
      obtain ⟨v, hv, hkey⟩ := Option.map_eq_some_iff.mp (h.1.key_of_idOf ha)
      exact ⟨a, v, hv, hkey⟩
  · intro a v hv
    have hnote := h.note v.key
    rw [note_picture_of_id (hid hv), noteOf?, hv, Option.map_some] at hnote
    split at hnote
    · cases hnote
    · simpa using hnote
  · intro a b v v' hv hv' hab
    have hne : v'.key ≠ v.key := by
      intro hsame
      have hb := hid hv'
      rw [hsame, hid hv] at hb
      exact hab (Option.some.inj hb)
    rw [← tie_picture_of_ids (hid hv) (hid hv')]
    exact h.tie hne

theorem Shows.empty (l : Locations) : (∅ : Graph ℚ).Shows l [] :=
  ⟨.empty, picture_empty⟩

end Graph

/-! ## Observing a transaction -/

namespace Planner

variable {W : Type} [Weight W] {p : Planner W} {l : Locations} {ks : List Key}

omit [Weight W] in
theorem representatives_of_replicated (h : ∃ k ∈ ks, l.placement.replicated k = true) :
    ∃ k ∈ ks, l.placement.replicated k = true ∧
      representatives l ks = .error (.violation (.fullyReplicatedKey k)) := by
  induction ks with
  | nil =>
    obtain ⟨k, hk, -⟩ := h
    nomatch hk
  | cons k rest ih =>
    by_cases hk : l.placement.replicated k = true
    · refine ⟨k, List.mem_cons_self, hk, ?_⟩
      rw [representatives, if_pos hk]
    · have hrest : ∃ k ∈ rest, l.placement.replicated k = true := by
        obtain ⟨a, ha, hreplicated⟩ := h
        rcases List.mem_cons.mp ha with rfl | ha
        · exact absurd hreplicated hk
        · exact ⟨a, ha, hreplicated⟩
      obtain ⟨a, ha, hreplicated, herror⟩ := ih hrest
      refine ⟨a, List.mem_cons_of_mem _ ha, hreplicated, ?_⟩
      rw [representatives, if_neg hk, herror]
      rfl

/-- A fully replicated key fails the observation, and any other transaction is taken in. -/
theorem monitor_cases (p : Planner ℚ) {ts : List (List Key)} (hp : p.graph.Shows l ts)
    (ks : List Key) :
    (∃ k ∈ ks, l.placement.replicated k = true ∧
      p.monitor l ks = .error (.violation (.fullyReplicatedKey k))) ∨
    ∃ q, p.monitor l ks = .ok q ∧ q.graph.Shows l (ts ++ [ks]) := by
  by_cases h : ∃ k ∈ ks, l.placement.replicated k = true
  · obtain ⟨k, hk, hreplicated, herror⟩ := representatives_of_replicated h
    refine .inl ⟨k, hk, hreplicated, ?_⟩
    rw [monitor, herror]
    rfl
  · have hregular : ∀ k ∈ ks, l.placement.replicated k = false := by simpa using h
    obtain ⟨g, hok, hsound, hpicture⟩ := picture_monitor hp.1 hregular
    refine .inr ⟨_, hok, hsound, ?_⟩
    rw [hpicture, hp.2, List.map_append, List.foldl_append]
    rfl

end Planner

/-! ## Calls and runs -/

namespace Coordinator

section

variable {W : Type} [Weight W] {c : Coordinator W} {submit : Executor}

/-- A window has just been opened. -/
def Opened (c next : Coordinator W) : Prop :=
  ∃ (before : Coordinator W) (now : Nat), before.round = c.round ∧
    next = before.startMonitoring now

omit [Weight W] in
theorem Opened.round_ne {next : Coordinator W} (h : c.Opened next) : next.round ≠ c.round := by
  obtain ⟨before, now, hround, rfl⟩ := h
  rw [← hround]
  exact Nat.succ_ne_self before.round

omit [Weight W] in
theorem Opened.graph_eq {next : Coordinator W} (h : c.Opened next) : next.planner.graph = ∅ := by
  obtain ⟨before, now, -, rfl⟩ := h
  rfl

/-- A call that leaves a window open: it opened this window, or it is one of its calls. -/
inductive Within (c : Coordinator W) (op : Call) (next : Coordinator W) : Prop
  | opened : c.Opened next → Within c op next
  | kept : c.phase = .monitoring → op.observed? = none → next.round = c.round →
      next.planner = c.planner → Within c op next
  | noted (ks : List Key) : c.phase = .monitoring → op.observed? = some ks →
      next.round = c.round → c.planner.monitor c.locations ks = .ok next.planner →
      Within c op next
  /-- The call fails on a transaction, but not for a violation. -/
  | missed (ks : List Key) (e : Failure) : c.phase = .monitoring → op.observed? = some ks →
      c.planner.monitor c.locations ks = .error e → (∀ v, e ≠ .violation v) →
      Within c op next

omit [Weight W] in
theorem not_monitoring_finish (c : Coordinator W) : c.finish.phase ≠ .monitoring := by
  unfold Coordinator.finish
  cases c.setup.scaling.isOn <;> simp

omit [Weight W] in
theorem opened_of_wrapUp {now : Nat} (hphase : (c.wrapUp now).phase = .monitoring) :
    c.Opened (c.wrapUp now) := by
  revert hphase
  unfold wrapUp
  split
  · exact fun hphase => absurd hphase (not_monitoring_finish c)
  · split
    · exact fun hphase => absurd hphase (not_monitoring_finish _)
    · split
      · exact fun _ => ⟨Coordinator.finish { c with consolidated := true }, now, rfl, rfl⟩
      · exact fun hphase => absurd hphase (not_monitoring_finish c)

omit [Weight W] in
/-- Going on with the moves ends in a window if it opens one. -/
theorem opened_of_proceed {now : Nat}
    (hphase : (c.proceed submit now).next.phase = .monitoring) :
    c.Opened (c.proceed submit now).next := by
  revert hphase
  unfold proceed
  split
  · unfold dispatch
    split
    · intro hphase
      nomatch hphase
    · exact fun hphase => absurd hphase (not_monitoring_finish _)
  · exact opened_of_wrapUp

theorem within_observe {ks : List Key} {now : Nat} {turn : Turn W Unit}
    (hseen : c.observe submit ks now = .ok turn) (hphase : turn.next.phase = .monitoring) :
    Within c (.observe ks now) turn.next := by
  rcases observe_cases hseen with ⟨haborted, rfl⟩ | ⟨-, hnot, rfl⟩ |
    ⟨e, hopen, herror, rfl⟩ | ⟨planner, hopen, hm, rfl | hstop⟩
  · rw [show c.phase = .monitoring from hphase] at haborted
    nomatch haborted
  · exact absurd hphase hnot
  · cases e with
    | violation _ => nomatch hphase
    | _ => exact .missed ks _ hopen rfl herror (by simp)
  · exact .noted ks hopen rfl rfl hm
  · rcases stopMonitoring_cases hstop with ⟨e, -, rfl⟩ | ⟨moves, left, -, rfl⟩
    · exact absurd hphase (not_monitoring_finish _)
    · obtain ⟨before, now', hround, heq⟩ := opened_of_proceed hphase
      exact .opened ⟨before, now', hround, heq⟩

/-- A call that only changes what is known of keys is one of the window. -/
theorem Within.of_same {op : Call} {next : Coordinator W} (hop : op.observed? = none)
    (hphase : next.phase = .monitoring)
    (hsame : (next.phase, next.round, next.planner) = (c.phase, c.round, c.planner)) :
    Within c op next := by
  simp only [Prod.mk.injEq] at hsame
  exact .kept (hsame.1 ▸ hphase) hop hsame.2.1 hsame.2.2

theorem within_of_call {op : Call} {turn : Turn W Answer} (hop : op.isRegular = true)
    (hcall : c.call submit op = .ok turn) (hphase : turn.next.phase = .monitoring) :
    Within c op turn.next := by
  cases op with
  | startMonitoring now => cases hop
  | launch now =>
    cases hcall
    revert hphase
    unfold Coordinator.launch guarded
    split
    · exact fun hphase => .of_same rfl hphase rfl
    · split
      · exact fun hphase => .of_same rfl hphase rfl
      · exact fun _ => .opened ⟨c, now, rfl, rfl⟩
  | observe ks now =>
    obtain ⟨seen, hseen, hanswer⟩ := Outcome.bind_eq_ok.mp hcall
    cases hanswer
    exact within_observe hseen hphase
  | commit now =>
    cases hcall
    by_cases haborted : c.phase = .aborted
    · rw [Coordinator.commit, guarded_of_aborted haborted] at hphase ⊢
      exact .of_same rfl hphase rfl
    · cases hm : c.active with
      | none =>
        rw [commit_of_none haborted hm] at hphase ⊢
        exact .of_same rfl hphase rfl
      | some m =>
        rw [commit_of_active haborted hm] at hphase ⊢
        obtain ⟨before, now', hround, heq⟩ := opened_of_proceed hphase
        exact .opened ⟨before, now', hround, heq⟩
  | _ =>
    cases notes_of_call rfl hcall with
    | noted => exact .kept hphase rfl rfl rfl
    | halted => cases hphase

end

section

variable {setup : Setup ℚ} {placement : Placement} {plans : Option ScalingPlans}
  {es : List (Entry ℚ)} {c : Coordinator ℚ}

/-- No key changes its place while a window is open. -/
theorem Consistent.locations_call (hc : c.Consistent setup) (hphase : c.phase = .monitoring)
    {submit : Executor} {op : Call} {turn : Turn ℚ Answer} (hcall : c.call submit op = .ok turn) :
    turn.next.locations = c.locations := by
  have hactive : c.active = none := (hc.of_not_migrating (by simp [hphase])).2.2.1
  rcases Coordinator.locations_call hcall with hsame | ⟨ks, m, -, hm, -⟩
  · exact hsame
  · rw [hactive] at hm
    nomatch hm

theorem placement_of_run (h : Run (make setup placement plans) es c) :
    c.locations.placement = placement := by
  induction h with
  | nil => rfl
  | push pool _ ih => exact ih
  | call submit op _ hcall ih =>
    rcases Coordinator.locations_call hcall with hsame | ⟨ks, m, -, -, hmoved⟩
    · rw [hsame, ih]
    · rw [hmoved, Locations.placement_relocateAll, ih]

/-- While a window is open, the graph shows its transactions. -/
theorem seen_of_run (h : Run (make setup placement plans) es c)
    (hregular : ∀ e ∈ es, e.op.isRegular = true) (hphase : c.phase = .monitoring) :
    c.planner.graph.Shows c.locations (windowOf es) := by
  induction h with
  | nil => nomatch hphase
  | push pool _ ih => exact ih hregular hphase
  | @call es c turn submit op hrun hcall ih =>
    obtain ⟨hbefore, hop⟩ := List.forall_mem_append.mp hregular
    have hc := consistent_of_run hrun hbefore
    cases within_of_call (hop _ (List.mem_singleton_self _)) hcall hphase with
    | opened hopened =>
      rw [windowOf_of_opens (by simpa [Entry.opensWindow] using hopened.round_ne),
        hopened.graph_eq]
      exact .empty _
    | kept hopen hnone hround hplanner =>
      rw [windowOf_of_not_opens (by simp [Entry.opensWindow, hround]), hnone, hplanner,
        hc.locations_call hopen hcall, Option.toList_none, List.append_nil]
      exact ih hbefore hopen
    | noted ks hopen hsome hround hm =>
      rw [windowOf_of_not_opens (by simp [Entry.opensWindow, hround]), hsome,
        hc.locations_call hopen hcall]
      rcases c.planner.monitor_cases (ih hbefore hopen) ks with
        ⟨k, -, -, herror⟩ | ⟨q, hq, hshows⟩
      · rw [herror] at hm
        nomatch hm
      · rw [hq] at hm
        cases hm
        exact hshows
    | missed ks e hopen hsome herror hnot =>
      rcases c.planner.monitor_cases (ih hbefore hopen) ks with ⟨k, -, -, heq⟩ | ⟨q, hq, -⟩
      · rw [heq] at herror
        cases herror
        exact absurd rfl (hnot _)
      · rw [hq] at herror
        nomatch herror

/-- While a window is open, the graph is the histogram of the transactions observed since it was
opened. The next transaction aborts the coordinator if it names a fully replicated key. Any other
one is taken in first, so that planning starts from the histogram if this ends the window. -/
theorem histogram_of_run (h : Run (make setup placement plans) es c)
    (hregular : ∀ e ∈ es, e.op.isRegular = true) (hphase : c.phase = .monitoring) :
    c.planner.graph.Histogram c.locations (windowOf es) ∧
    ∀ (submit : Executor) (ks : List Key) (now : Nat),
      (∃ k ∈ ks, placement.replicated k = true ∧ c.observe submit ks now =
        .ok (c.halt.fail (.violation (.fullyReplicatedKey k)))) ∨
      ∃ planner : Planner ℚ,
        planner.graph.Histogram c.locations (windowOf es ++ [ks]) ∧
        c.observe submit ks now =
          if Coordinator.windowOver { c with planner } now then
            Coordinator.stopMonitoring { c with planner } submit now
          else .ok (Coordinator.done { c with planner } ()) := by
  have hshows := seen_of_run h hregular hphase
  refine ⟨hshows.histogram, fun submit ks now => ?_⟩
  rcases c.planner.monitor_cases hshows ks with
    ⟨k, hk, hreplicated, herror⟩ | ⟨q, hq, hnext⟩
  · rw [placement_of_run h] at hreplicated
    exact .inl ⟨k, hk, hreplicated, observe_of_failure hphase herror submit now⟩
  · exact .inr ⟨q, hnext.histogram, observe_of_monitor hphase hq submit now⟩

end

/-- Two partitions, with keys in groups of ten. -/
def watchingStart : Coordinator ℚ :=
  let placement : Placement :=
    { home := fun k => k.id / 10 % 2, representative := fun k => ⟨k.table, k.id / 10 * 10⟩ }
  make { joining with scaling := .disabled, window := 10 } placement none

/-- A first window has ended, and the transactions of the second one are counted. One more ends it,
and planning starts from a graph that counts this one, too. -/
theorem histogram_of_run_second : ∃ es c, Run watchingStart es c ∧ c.phase = .monitoring ∧
    windowOf es = [[⟨"t", 1⟩, ⟨"t", 12⟩, ⟨"t", 3⟩], [⟨"t", 14⟩]] ∧
    c.planner.graph.Histogram c.locations (windowOf es) ∧
    ∃ planner : Planner ℚ,
      planner.graph.Histogram c.locations (windowOf es ++ [[⟨"t", 5⟩]]) ∧
      c.observe accepting [⟨"t", 5⟩] 40 =
        Coordinator.stopMonitoring { c with planner } accepting 40 := by
  have hend : (watchingStart.play [(accepting, .launch 0), (accepting, .observe [⟨"t", 1⟩] 20),
      (accepting, .observe [⟨"t", 1⟩] 21), (accepting, .launch 30),
      (accepting, .observe [⟨"t", 1⟩, ⟨"t", 12⟩, ⟨"t", 3⟩] 31),
      (accepting, .observe [⟨"t", 14⟩] 32)]).toOption.map (fun r =>
        (r.1.all (·.op.isRegular), r.2.phase, r.2.windowOver 40, windowOf r.1)) =
      some (true, .monitoring, true,
        [[⟨"t", 1⟩, ⟨"t", 12⟩, ⟨"t", 3⟩], [⟨"t", 14⟩]]) := by
    decide +kernel
  obtain ⟨es, c, hrun, hresult⟩ := run_of_play_map hend
  simp only [Prod.mk.injEq, List.all_eq_true] at hresult
  obtain ⟨hregular, hphase, hover, hwindow⟩ := hresult
  obtain ⟨hnow, hnext⟩ := histogram_of_run hrun hregular hphase
  refine ⟨es, c, hrun, hphase, hwindow, hnow, ?_⟩
  rcases hnext accepting [⟨"t", 5⟩] 40 with
    ⟨k, -, hreplicated, -⟩ | ⟨planner, hplanner, heq⟩
  · nomatch hreplicated
  · exact ⟨planner, hplanner, heq.trans (if_pos hover)⟩

end Coordinator

end Reshard
