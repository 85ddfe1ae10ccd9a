import Mathlib.Data.List.Induction
import Mathlib.Data.List.Nodup
import Reshard.Proofs.Collections
import Reshard.Proofs.Plan.Execution

/-!
What is left of moves when they are merged into a plan. Every key keeps the routes along which it
is moved, but a route stands where it was used first, by whatever key, and only once:
`routesOf_ofMoves`.
-/

namespace Reshard

namespace Move

def IsList (m : Move) : Prop := m.scope.isRange = false

theorem sameRoute_iff {a b : Move} :
    a.sameRoute b = true ↔ a.route = b.route ∧ a.IsList ∧ b.IsList := by
  simp [sameRoute, route, IsList, and_assoc]

theorem route_absorb (m : Move) (s : Scope) : (m.absorb s).route = m.route := by
  unfold absorb
  split <;> rfl

theorem isList_absorb {m : Move} (h : m.IsList) (s : Scope) : (m.absorb s).IsList := by
  unfold absorb
  split
  · rfl
  · exact h

theorem covers_absorb {a b : Move} (ha : a.IsList) (hb : b.IsList) (k : Key) :
    (a.absorb b.scope).covers k = true ↔ a.covers k = true ∨ b.covers k = true := by
  obtain ⟨_, _, mine | _⟩ := a
  · obtain ⟨_, _, theirs | _⟩ := b
    · simp [absorb, covers, Scope.covers]
    · exact Bool.noConfusion hb
  · exact Bool.noConfusion ha

theorem keyCount_ne_zero {m : Move} {k : Key} (h : m.covers k = true) : m.keyCount ≠ 0 := by
  intro hcount
  obtain ⟨source, dest, members | ids⟩ := m
  · have hmem : k ∈ members := of_decide_eq_true h
    have hempty : members = ∅ := Std.ExtTreeSet.eq_empty_iff_size_eq_zero.mpr hcount
    rw [hempty] at hmem
    exact Std.ExtTreeSet.not_mem_empty hmem
  · simp only [covers, Scope.covers, IdRange.contains, Bool.and_eq_true, decide_eq_true_eq] at h
    simp only [keyCount, Scope.count, IdRange.width] at hcount
    omega

end Move

/-- The routes of the moves, each where it is used first. -/
def firstUses (ms : List Move) : List (PartitionId × PartitionId) :=
  (ms.map Move.route).eraseDups

theorem firstUses_concat (ms : List Move) (m : Move) :
    firstUses (ms ++ [m]) =
      if m.route ∈ ms.map Move.route then firstUses ms else firstUses ms ++ [m.route] := by
  rw [firstUses, List.map_append, List.eraseDups_append, ← firstUses]
  by_cases h : m.route ∈ ms.map Move.route
  · rw [if_pos h]
    simp_all [List.removeAll]
  · rw [if_neg h]
    simp_all [List.removeAll, List.eraseDups_cons]

namespace Plan

/-! ## Adding a move -/

/-- Wherever a move is placed, it takes the same keys along the same route. -/
theorem mem_routesOf_placeMove (k : Key) (m : Move) (ms : List Move)
    (r : PartitionId × PartitionId) :
    r ∈ routesOf k (placeMove m ms) ↔
      r ∈ routesOf k ms ∨ (m.covers k = true ∧ m.route = r) := by
  induction ms with
  | nil => simp [placeMove, mem_routesOf]
  | cons first rest ih =>
    unfold placeMove
    split
    · next hsame =>
      obtain ⟨hroute, hfirst, hm⟩ := Move.sameRoute_iff.mp hsame
      simp only [mem_routesOf, List.mem_cons, exists_eq_or_imp, Move.route_absorb,
        Move.covers_absorb hfirst hm, hroute]
      rw [or_and_right, or_right_comm]
    · simp only [mem_routesOf, List.mem_cons, exists_eq_or_imp] at ih ⊢
      rw [ih, or_assoc]

theorem isList_placeMove {m : Move} (hm : m.IsList) {ms : List Move}
    (h : ∀ x ∈ ms, x.IsList) : ∀ x ∈ placeMove m ms, x.IsList := by
  induction ms with
  | nil => simpa [placeMove] using hm
  | cons first rest ih =>
    obtain ⟨hfirst, hrest⟩ := List.forall_mem_cons.mp h
    unfold placeMove
    split
    · exact List.forall_mem_cons.mpr ⟨Move.isList_absorb hfirst _, hrest⟩
    · exact List.forall_mem_cons.mpr ⟨hfirst, ih hrest⟩

/-- Among key lists, a move finds its route or brings a new one to the end. -/
theorem routes_placeMove {m : Move} (hm : m.IsList) {ms : List Move}
    (h : ∀ x ∈ ms, x.IsList) :
    (placeMove m ms).map Move.route =
      if m.route ∈ ms.map Move.route then ms.map Move.route
      else ms.map Move.route ++ [m.route] := by
  induction ms with
  | nil => simp [placeMove]
  | cons first rest ih =>
    obtain ⟨hfirst, hrest⟩ := List.forall_mem_cons.mp h
    unfold placeMove
    by_cases hroute : first.route = m.route
    · rw [if_pos (Move.sameRoute_iff.mpr ⟨hroute, hfirst, hm⟩)]
      simp [Move.route_absorb, hroute]
    · rw [if_neg fun hsame => hroute (Move.sameRoute_iff.mp hsame).1, List.map_cons, ih hrest]
      by_cases hmem : m.route ∈ rest.map Move.route
      · simp [hmem]
      · simp [hmem, Ne.symm hroute]

theorem placeMove_of_new {m : Move} {ms : List Move} (h : ∀ x ∈ ms, x.route ≠ m.route) :
    placeMove m ms = ms ++ [m] := by
  induction ms with
  | nil => rfl
  | cons first rest ih =>
    obtain ⟨hfirst, hrest⟩ := List.forall_mem_cons.mp h
    rw [placeMove, if_neg fun hsame => hfirst (Move.sameRoute_iff.mp hsame).1, ih hrest]
    rfl

theorem mem_routesOf_add (k : Key) (p : Plan) (m : Move) (r : PartitionId × PartitionId) :
    r ∈ routesOf k (p.add m).moves ↔
      r ∈ routesOf k p.moves ∨ (m.covers k = true ∧ m.route = r) := by
  unfold add
  split
  · next hcount =>
    have hnone : m.covers k ≠ true := fun hk => Move.keyCount_ne_zero hk hcount
    simp [hnone]
  · exact mem_routesOf_placeMove k m p.moves r

/-! ## Plans made of moves -/

theorem ofMoves_concat (ms : List Move) (m : Move) : ofMoves (ms ++ [m]) = (ofMoves ms).add m := by
  rw [ofMoves, List.foldl_append]
  rfl

theorem mem_routesOf_ofMoves (k : Key) (ms : List Move) (r : PartitionId × PartitionId) :
    r ∈ routesOf k (ofMoves ms).moves ↔ r ∈ routesOf k ms := by
  induction ms using List.reverseRecOn with
  | nil => rfl
  | append_singleton ms m ih =>
    rw [ofMoves_concat, mem_routesOf_add, ih, routesOf_append, List.mem_append]
    simp [mem_routesOf]

/-- What a move covers is still covered along its route. -/
theorem exists_merged {ms : List Move} {m : Move} (hm : m ∈ ms) {k : Key}
    (hk : m.covers k = true) :
    ∃ m' ∈ (ofMoves ms).moves, m'.covers k = true ∧ m'.route = m.route := by
  have hroute : m.route ∈ routesOf k (ofMoves ms).moves :=
    (mem_routesOf_ofMoves k ms _).mpr (mem_routesOf.mpr ⟨m, hm, hk, rfl⟩)
  exact mem_routesOf.mp hroute

/-- Merging leaves no moves only where there are none. -/
theorem eq_nil_of_ofMoves {ms : List Move} (hfull : ∀ m ∈ ms, ∃ k, m.covers k = true)
    (h : (ofMoves ms).moves = []) : ms = [] := by
  rw [List.eq_nil_iff_forall_not_mem]
  intro m hm
  obtain ⟨k, hk⟩ := hfull m hm
  obtain ⟨m', hm', -⟩ := exists_merged hm hk
  rw [h] at hm'
  nomatch hm'

/-- The moves of the plan, if all are key lists, stand in the order in which their routes are used
first. -/
theorem routes_ofMoves {ms : List Move} (hlist : ∀ m ∈ ms, m.IsList)
    (hfull : ∀ m ∈ ms, ∃ k, m.covers k = true) :
    (∀ m ∈ (ofMoves ms).moves, m.IsList) ∧
    (ofMoves ms).moves.map Move.route = firstUses ms := by
  induction ms using List.reverseRecOn with
  | nil => exact ⟨List.forall_mem_nil _, rfl⟩
  | append_singleton ms m ih =>
    obtain ⟨hlists, hm⟩ := List.forall_mem_append.mp hlist
    obtain ⟨hfulls, hk⟩ := List.forall_mem_append.mp hfull
    obtain ⟨ihlist, ihroutes⟩ := ih hlists hfulls
    have hmlist : m.IsList := hm m (List.mem_singleton_self m)
    obtain ⟨k, hcovers⟩ := hk m (List.mem_singleton_self m)
    have hadd : ((ofMoves ms).add m).moves = placeMove m (ofMoves ms).moves := by
      rw [add, if_neg (Move.keyCount_ne_zero hcovers)]
    have hmem : m.route ∈ firstUses ms ↔ m.route ∈ ms.map Move.route := by
      rw [firstUses, List.mem_eraseDups]
    rw [ofMoves_concat, hadd]
    constructor
    · exact isList_placeMove hmlist ihlist
    · rw [routes_placeMove hmlist ihlist, ihroutes, firstUses_concat]
      simp only [hmem]

theorem nodup_firstUses (ms : List Move) : (firstUses ms).Nodup := by
  induction ms using List.reverseRecOn with
  | nil => exact List.nodup_nil
  | append_singleton ms m ih =>
    rw [firstUses_concat]
    split
    · exact ih
    · next h =>
      rw [List.nodup_append]
      refine ⟨ih, List.nodup_singleton _, ?_⟩
      intro r hr r' hr' heq
      rw [List.mem_singleton] at hr'
      subst heq hr'
      exact h (List.mem_eraseDups.mp hr)

/-- In the plan a key is moved along the routes along which the moves take it, in the order in
which the moves use the routes first. -/
theorem routesOf_ofMoves {ms : List Move} (hlist : ∀ m ∈ ms, m.IsList)
    (hfull : ∀ m ∈ ms, ∃ k, m.covers k = true) (k : Key) :
    routesOf k (ofMoves ms).moves = (firstUses ms).filter (· ∈ routesOf k ms) := by
  have hroutes := (routes_ofMoves hlist hfull).2
  -- A route stands once in the plan, so that its move covers whatever any move along it covers.
  have hinj : ∀ a ∈ (ofMoves ms).moves, ∀ b ∈ (ofMoves ms).moves,
      a.route = b.route → a = b := by
    have hnodup := nodup_firstUses ms
    rw [← hroutes] at hnodup
    exact fun a ha b hb h => List.inj_on_of_nodup_map hnodup ha hb h
  have hcovers : ∀ m ∈ (ofMoves ms).moves, m.covers k = decide (m.route ∈ routesOf k ms) := by
    intro m hm
    rw [Bool.eq_iff_iff, decide_eq_true_iff, ← mem_routesOf_ofMoves, mem_routesOf]
    constructor
    · intro hk
      exact ⟨m, hm, hk, rfl⟩
    · rintro ⟨m', hm', hk, hroute⟩
      rw [hinj m hm m' hm' hroute.symm]
      exact hk
  rw [← hroutes, List.filter_map, routesOf, List.filter_congr hcovers]
  rfl

/-- Moves on different routes are a plan as they are. -/
theorem ofMoves_of_nodup {ms : List Move} (hnodup : (ms.map Move.route).Nodup)
    (hfull : ∀ m ∈ ms, ∃ k, m.covers k = true) : (ofMoves ms).moves = ms := by
  induction ms using List.reverseRecOn with
  | nil => rfl
  | append_singleton ms m ih =>
    obtain ⟨hfulls, hk⟩ := List.forall_mem_append.mp hfull
    obtain ⟨k, hcovers⟩ := hk m (List.mem_singleton_self m)
    rw [List.map_append, List.nodup_append] at hnodup
    obtain ⟨hms, -, hdisjoint⟩ := hnodup
    have hnew : ∀ x ∈ ms, x.route ≠ m.route := by
      intro x hx
      exact hdisjoint _ (List.mem_map_of_mem hx) _ (by simp)
    rw [ofMoves_concat, add, if_neg (Move.keyCount_ne_zero hcovers), ih hms hfulls,
      placeMove_of_new hnew]

end Plan

end Reshard
