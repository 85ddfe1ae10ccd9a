import Reshard.Proofs.Access.Picture
import Reshard.Proofs.Balance.Renaming

/-!
The order of observations. Planners that are shown the same transactions in another order have the
same picture of the keys, make the same plan and have the same picture after it
(`plan_of_reordered`), although the vertices of their graphs are numbered in another way.
-/

namespace Reshard

/-- The same transactions in another order, where the keys of each may be reordered and repeated. -/
def Reordered (ts us : List (List Key)) : Prop :=
  ∃ vs, ts.Perm vs ∧ List.Forall₂ (fun t u => ∀ k, k ∈ t ↔ k ∈ u) vs us

namespace Planner

/-! ## Observing transactions -/

section

variable {W : Type} {l : Locations}

/-- The keys that stand for those of a transaction. -/
def groups (l : Locations) (ks : List Key) : KeySet :=
  Std.ExtTreeSet.ofList (ks.map l.placement.representative)

theorem groups_congr {ks ks' : List Key} (h : ∀ k, k ∈ ks ↔ k ∈ ks') :
    groups l ks = groups l ks' := by
  refine Std.ExtTreeSet.ext_mem fun k => ?_
  simp [groups, h]

theorem representatives_of_regular {ks : List Key}
    (hks : ∀ k ∈ ks, l.placement.replicated k = false) :
    representatives l ks = .ok (groups l ks) := by
  induction ks with
  | nil => rfl
  | cons k rest ih =>
    have hk : ¬ l.placement.replicated k = true := by simp [hks k List.mem_cons_self]
    have hgroups : (groups l rest).insert (l.placement.representative k) =
        groups l (k :: rest) := by
      refine Std.ExtTreeSet.ext_mem fun k' => ?_
      simp [groups, eq_comm (a := k')]
    rw [representatives, if_neg hk,
      ih fun k' hk' => hks k' (List.mem_cons_of_mem _ hk'), ← hgroups]
    rfl

variable [Weight W]

theorem picture_monitor {p : Planner W} (hp : p.graph.Sound) {ks : List Key}
    (hks : ∀ k ∈ ks, l.placement.replicated k = false) :
    ∃ g, p.monitor l ks = .ok { p with graph := g } ∧ g.Sound ∧
      g.picture = p.graph.picture.add l.current (groups l ks) := by
  obtain ⟨g, hok, hsound, hpicture⟩ := Graph.picture_observe hp l.current (groups l ks)
  refine ⟨g, ?_, hsound, hpicture⟩
  rw [monitor, representatives_of_regular hks]
  show ((p.graph.accesses l.current (groups l ks).toList).coAccess (groups l ks).toList >>= _) = _
  rw [hok]
  rfl

/-- Transactions without replicated keys are all taken in. -/
theorem picture_monitorAll {p : Planner W} (hp : p.graph.Sound) {ts : List (List Key)}
    (hts : ∀ t ∈ ts, ∀ k ∈ t, l.placement.replicated k = false) :
    ∃ g, p.monitorAll l ts = .ok { p with graph := g } ∧ g.Sound ∧
      g.picture = (ts.map (groups l)).foldl (Picture.add l.current) p.graph.picture := by
  induction ts generalizing p with
  | nil => exact ⟨p.graph, rfl, hp, rfl⟩
  | cons t rest ih =>
    obtain ⟨g, hok, hg, hpicture⟩ := picture_monitor hp (hts t List.mem_cons_self)
    obtain ⟨g', hok', hg', hpicture'⟩ :=
      ih (p := { p with graph := g }) hg fun u hu => hts u (List.mem_cons_of_mem _ hu)
    refine ⟨g', ?_, hg', ?_⟩
    · rw [monitorAll, List.foldlM_cons, hok]
      exact hok'
    · rw [hpicture', hpicture]
      rfl

end

/-! ## Another order -/

section

variable {ts us : List (List Key)} {l : Locations}

theorem perm_groups (h : Reordered ts us) : (ts.map (groups l)).Perm (us.map (groups l)) := by
  obtain ⟨vs, hperm, hsame⟩ := h
  have hmap : vs.map (groups l) = us.map (groups l) := by
    rw [← List.forall₂_eq_eq_eq, List.forall₂_map_left_iff, List.forall₂_map_right_iff]
    exact hsame.imp fun _ _ => groups_congr
  rw [← hmap]
  exact hperm.map (groups l)

/-- Every transaction of the one list is one of the other, up to the order of its keys. -/
theorem exists_of_reordered (h : Reordered ts us) {u : List Key} (hu : u ∈ us) :
    ∃ t ∈ ts, ∀ k, k ∈ t ↔ k ∈ u := by
  obtain ⟨vs, hperm, hsame⟩ := h
  obtain ⟨v, hv, hkeys⟩ : ∃ v ∈ vs, ∀ k, k ∈ v ↔ k ∈ u := by
    clear hperm
    induction hsame with
    | nil => nomatch hu
    | cons hkeys _ ih =>
      rcases List.mem_cons.mp hu with rfl | hu
      · exact ⟨_, List.mem_cons_self, hkeys⟩
      · obtain ⟨v, hv, hkeys⟩ := ih hu
        exact ⟨v, List.mem_cons_of_mem _ hv, hkeys⟩
  exact ⟨v, hperm.mem_iff.mpr hv, hkeys⟩

/-- The graphs that two planners see tell the same of the keys. -/
theorem picture_of_reordered (p : Planner ℚ) (hp : p.graph.Sound) (h : Reordered ts us)
    (hts : ∀ t ∈ ts, ∀ k ∈ t, l.placement.replicated k = false) :
    ∃ g g', p.monitorAll l ts = .ok { p with graph := g } ∧
      p.monitorAll l us = .ok { p with graph := g' } ∧ g.Sound ∧ g'.Sound ∧
      g.picture = g'.picture := by
  have hus : ∀ u ∈ us, ∀ k ∈ u, l.placement.replicated k = false := by
    intro u hu k hk
    obtain ⟨t, ht, hkeys⟩ := exists_of_reordered h hu
    exact hts t ht k ((hkeys k).mpr hk)
  obtain ⟨g, hok, hg, hpicture⟩ := picture_monitorAll hp hts
  obtain ⟨g', hok', hg', hpicture'⟩ := picture_monitorAll hp hus
  refine ⟨g, g', hok, hok', hg, hg', ?_⟩
  rw [hpicture, hpicture']
  exact (perm_groups h).foldl_eq' (fun s _ t _ f => Picture.add_comm _ f s t) _

/-- The plan does not depend on the order in which transactions were observed, and neither does
what the graph tells of the keys, before planning and after it. -/
theorem plan_of_reordered (l : Locations) (tuning : Tuning ℚ)
    (retired : Std.ExtTreeSet PartitionId) (n : Nat) (h : Reordered ts us)
    (hts : ∀ t ∈ ts, ∀ k ∈ t, l.placement.replicated k = false) :
    ∃ p q plan p' q', { make tuning with retired }.monitorAll l ts = .ok p ∧
      { make tuning with retired }.monitorAll l us = .ok q ∧
      p.graph.picture = q.graph.picture ∧
      p.plan n = .ok (plan, p') ∧ q.plan n = .ok (plan, q') ∧
      p'.graph.picture = q'.graph.picture := by
  obtain ⟨g, g', hok, hok', hg, hg', hpicture⟩ :=
    picture_of_reordered { make tuning with retired } .empty h hts
  obtain ⟨σ, hσ⟩ := Graph.exists_renames hg hg' hpicture
  have hrenames : Renames σ ⟨tuning, g, retired⟩ ⟨tuning, g', retired⟩ :=
    ⟨rfl, rfl, hσ, hg, hg'⟩
  obtain ⟨⟨plan, p'⟩, ⟨plan', q'⟩, hplan, hplan', hsame, hlater⟩ := hrenames.plan n
  cases hsame
  exact ⟨_, _, plan, p', q', hok, hok', hpicture, hplan, hplan',
    hlater.graph.picture_eq hlater.sound hlater.sound'⟩

/-- Three records on partition 0 are accessed equally often. In either order the lowest of them,
which has the first number in one of the graphs only, is moved to its neighbour. -/
theorem plan_of_reordered_pairs :
    let tuning : Tuning ℚ :=
      { crossCost := 1, overload := 1, lookAhead := 5, clumpMaxSize := 3, maxClumps := 2 }
    let l : Locations := .make { home := fun k => k.id % 3 } 16
    ∃ p q plan p' q',
      { make tuning with retired := ∅ }.monitorAll l
        [[⟨"t", 0⟩, ⟨"t", 4⟩], [⟨"t", 6⟩, ⟨"t", 3⟩]] = .ok p ∧
      { make tuning with retired := ∅ }.monitorAll l
        [[⟨"t", 3⟩, ⟨"t", 6⟩, ⟨"t", 3⟩], [⟨"t", 0⟩, ⟨"t", 4⟩]] = .ok q ∧
      p.graph.picture = q.graph.picture ∧
      p.plan 3 = .ok (plan, p') ∧ q.plan 3 = .ok (plan, q') ∧
      p'.graph.picture = q'.graph.picture ∧
      p.graph.idOf? ⟨"t", 0⟩ = some 0 ∧ q.graph.idOf? ⟨"t", 0⟩ = some 2 ∧
      plan = some ⟨[.ofKeys 0 1 [⟨"t", 0⟩]]⟩ := by
  intro tuning l
  have hreordered : Reordered [[⟨"t", 0⟩, ⟨"t", 4⟩], [⟨"t", 6⟩, ⟨"t", 3⟩]]
      [[⟨"t", 3⟩, ⟨"t", 6⟩, ⟨"t", 3⟩], [⟨"t", 0⟩, ⟨"t", 4⟩]] := by
    refine ⟨[[⟨"t", 6⟩, ⟨"t", 3⟩], [⟨"t", 0⟩, ⟨"t", 4⟩]], .swap _ _ _, ?_⟩
    refine .cons (fun k => ?_) (.cons (fun k => Iff.rfl) .nil)
    simp only [List.mem_cons, List.not_mem_nil]
    tauto
  obtain ⟨p, q, plan, p', q', hp, hq, hpicture, hplan, hplan', hlater⟩ :=
    plan_of_reordered l tuning ∅ 3 hreordered fun _ _ _ _ => rfl
  have hfirst : ({ make tuning with retired := ∅ }.monitorAll l
      [[⟨"t", 0⟩, ⟨"t", 4⟩], [⟨"t", 6⟩, ⟨"t", 3⟩]]).toOption.bind
      (fun p : Planner ℚ =>
        (p.plan 3).toOption.map fun r : Option Plan × Planner ℚ =>
          (p.graph.idOf? ⟨"t", 0⟩, r.1)) =
      some (some 0, some ⟨[.ofKeys 0 1 [⟨"t", 0⟩]]⟩) := by decide +kernel
  have hsecond : ({ make tuning with retired := ∅ }.monitorAll l
      [[⟨"t", 3⟩, ⟨"t", 6⟩, ⟨"t", 3⟩], [⟨"t", 0⟩, ⟨"t", 4⟩]]).toOption.bind
        (fun q : Planner ℚ => q.graph.idOf? ⟨"t", 0⟩) = some 2 := by decide +kernel
  rw [hp] at hfirst
  rw [hq] at hsecond
  simp only [Except.toOption, Option.bind_some, hplan, Option.map_some, Option.some.injEq,
    Prod.mk.injEq] at hfirst hsecond
  exact ⟨p, q, plan, p', q', hp, hq, hpicture, hplan, hplan', hlater, hfirst.1, hsecond,
    hfirst.2⟩

end

end Planner

end Reshard
