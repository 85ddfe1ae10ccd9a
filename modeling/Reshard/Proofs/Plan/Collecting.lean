import Reshard.Proofs.Plan.Merging

/-!
Collecting moves into plans. Merging two plans is the same as collecting the moves of the second
after those of the first (`merge_ofMoves`). What a plan lists and what it gives by ranges can be
told apart from the moves (`lists_ofMoves`, `ranges_ofMoves`), and collecting loses and adds nothing
(`ofMoves_append`).
-/

namespace Reshard

namespace Move

/-- A move of something covers a key. -/
theorem keyCount_ne_zero_iff {m : Move} : m.keyCount ≠ 0 ↔ ∃ k, m.covers k = true := by
  constructor
  · intro hcount
    obtain ⟨source, dest, members | ids⟩ := m
    · have hne : members.toList ≠ [] := by
        rw [← List.length_pos_iff, Std.ExtTreeSet.length_toList]
        exact Nat.pos_of_ne_zero hcount
      obtain ⟨k, hk⟩ := List.exists_mem_of_ne_nil _ hne
      exact ⟨k, decide_eq_true (Std.ExtTreeSet.mem_toList.mp hk)⟩
    · refine ⟨⟨"", ids.first⟩, ?_⟩
      simp only [keyCount, Scope.count, IdRange.width] at hcount
      simp only [covers, Scope.covers, IdRange.contains, Bool.and_eq_true, decide_eq_true_eq]
      omega
  · rintro ⟨k, hk⟩
    exact keyCount_ne_zero hk

theorem keyCount_absorb_ne_zero {m : Move} (h : m.keyCount ≠ 0) (s : Scope) :
    (m.absorb s).keyCount ≠ 0 := by
  rw [keyCount_ne_zero_iff] at h ⊢
  obtain ⟨k, hk⟩ := h
  refine ⟨k, ?_⟩
  unfold absorb
  split
  · next mine theirs hmine =>
    simp only [covers, hmine, Scope.covers, decide_eq_true_eq] at hk
    simp [covers, Scope.covers, hk]
  · exact hk

/-! ## Absorbing more than one move -/

/-- Only the route counts, and that the moves are key lists. -/
theorem sameRoute_absorb_left (m x : Move) (s : Scope) :
    (m.absorb s).sameRoute x = m.sameRoute x := by
  unfold absorb
  split
  · next hmine => simp [sameRoute, hmine, Scope.isRange]
  · rfl

theorem sameRoute_absorb_right (m x : Move) (s : Scope) :
    x.sameRoute (m.absorb s) = x.sameRoute m := by
  unfold absorb
  split
  · next hmine => simp [sameRoute, hmine, Scope.isRange]
  · rfl

theorem sameRoute_congr {a b : Move} (h : a.sameRoute b = true) (x : Move) :
    x.sameRoute a = x.sameRoute b := by
  obtain ⟨hroute, ha, hb⟩ := sameRoute_iff.mp h
  rw [Bool.eq_iff_iff, sameRoute_iff, sameRoute_iff, hroute, iff_true_intro ha, iff_true_intro hb]

/-- It makes no difference which of two key lists is taken over first. -/
theorem absorb_right_comm (m : Move) (s t : Scope) :
    (m.absorb s).absorb t = (m.absorb t).absorb s := by
  obtain ⟨source, dest, mine | ids⟩ := m
  · cases s <;> cases t <;> try rfl
    simp only [absorb, mk.injEq, Scope.keys.injEq, true_and]
    ext k
    simp [or_right_comm]
  · rfl

/-- Nor whether the second is taken over by the first before. -/
theorem absorb_assoc {u : Move} (hu : u.IsList) (m : Move) (s : Scope) :
    (m.absorb u.scope).absorb s = m.absorb (u.absorb s).scope := by
  obtain ⟨_, _, theirs | _⟩ := u
  · obtain ⟨source, dest, mine | ids⟩ := m
    · cases s
      · simp only [absorb, mk.injEq, Scope.keys.injEq, true_and]
        ext k
        simp [or_assoc]
      · rfl
    · rfl
  · exact Bool.noConfusion hu

end Move

namespace Plan

/-! ## Placing two moves -/

theorem placeMove_cons_of_same {first m : Move} (h : first.sameRoute m = true)
    (rest : List Move) : placeMove m (first :: rest) = first.absorb m.scope :: rest := if_pos h

theorem placeMove_cons_of_other {first m : Move} (h : ¬ first.sameRoute m = true)
    (rest : List Move) : placeMove m (first :: rest) = first :: placeMove m rest := if_neg h

/-- A key list that is to be folded into another one may be folded in before this is placed. -/
theorem placeMove_absorb {u m : Move} (h : u.sameRoute m = true) (ms : List Move) :
    placeMove m (placeMove u ms) = placeMove (u.absorb m.scope) ms := by
  have hu : u.IsList := (Move.sameRoute_iff.mp h).2.1
  induction ms with
  | nil => exact placeMove_cons_of_same h []
  | cons first rest ih =>
    have hjoined : first.sameRoute (u.absorb m.scope) = first.sameRoute u :=
      Move.sameRoute_absorb_right u first m.scope
    have hm : first.sameRoute m = first.sameRoute u := (Move.sameRoute_congr h first).symm
    by_cases hfirst : first.sameRoute u = true
    · have hleft : (first.absorb u.scope).sameRoute m = true := by
        rw [Move.sameRoute_absorb_left, hm, hfirst]
      rw [placeMove_cons_of_same hfirst, placeMove_cons_of_same hleft,
        placeMove_cons_of_same (hjoined.trans hfirst), Move.absorb_assoc hu]
    · rw [← hjoined] at hm
      rw [placeMove_cons_of_other hfirst, placeMove_cons_of_other (by rwa [hm, hjoined]), ih,
        placeMove_cons_of_other (by rwa [hjoined])]

/-- A move that is folded into one already there may be placed before or after another one. -/
theorem placeMove_comm {m : Move} (x : Move) {ms : List Move}
    (h : ∃ u ∈ ms, u.sameRoute m = true) :
    placeMove m (placeMove x ms) = placeMove x (placeMove m ms) := by
  induction ms with
  | nil =>
    obtain ⟨u, hu, -⟩ := h
    nomatch hu
  | cons first rest ih =>
    have habsorb : ∀ s y, (first.absorb s).sameRoute y = first.sameRoute y :=
      fun s y => Move.sameRoute_absorb_left first y s
    by_cases hm : first.sameRoute m = true
    · rw [placeMove_cons_of_same hm]
      by_cases hx : first.sameRoute x = true
      · rw [placeMove_cons_of_same hx, placeMove_cons_of_same ((habsorb _ _).trans hm),
          placeMove_cons_of_same ((habsorb _ _).trans hx), Move.absorb_right_comm]
      · rw [placeMove_cons_of_other hx, placeMove_cons_of_same hm,
          placeMove_cons_of_other (by rwa [habsorb])]
    · rw [placeMove_cons_of_other hm]
      by_cases hx : first.sameRoute x = true
      · rw [placeMove_cons_of_same hx, placeMove_cons_of_other (by rwa [habsorb]),
          placeMove_cons_of_same hx]
      · have hrest : ∃ u ∈ rest, u.sameRoute m = true := by
          obtain ⟨u, hu, hsame⟩ := h
          rcases List.mem_cons.mp hu with rfl | hu
          · exact absurd hsame hm
          · exact ⟨u, hu, hsame⟩
        rw [placeMove_cons_of_other hx, placeMove_cons_of_other hm, placeMove_cons_of_other hx,
          ih hrest]

theorem exists_sameRoute_placeMove {m : Move} (x : Move) {ms : List Move}
    (h : ∃ u ∈ ms, u.sameRoute m = true) : ∃ u ∈ placeMove x ms, u.sameRoute m = true := by
  induction ms with
  | nil =>
    obtain ⟨u, hu, -⟩ := h
    nomatch hu
  | cons first rest ih =>
    obtain ⟨u, hu, hsame⟩ := h
    unfold placeMove
    split
    · rcases List.mem_cons.mp hu with rfl | hu
      · exact ⟨_, List.mem_cons_self, (Move.sameRoute_absorb_left _ _ _).trans hsame⟩
      · exact ⟨u, List.mem_cons_of_mem _ hu, hsame⟩
    · rcases List.mem_cons.mp hu with rfl | hu
      · exact ⟨u, List.mem_cons_self, hsame⟩
      · obtain ⟨u, hu, hsame⟩ := ih ⟨u, hu, hsame⟩
        exact ⟨u, List.mem_cons_of_mem _ hu, hsame⟩

theorem exists_sameRoute_of_placed {m : Move} {u : Move} (h : u.sameRoute m = true)
    (ms : List Move) : ∃ x ∈ placeMove u ms, x.sameRoute m = true := by
  induction ms with
  | nil => exact ⟨u, List.mem_singleton_self u, h⟩
  | cons first rest ih =>
    unfold placeMove
    split
    · next hsame =>
      refine ⟨_, List.mem_cons_self, ?_⟩
      rw [Move.sameRoute_absorb_left, ← Move.sameRoute_congr h, hsame]
    · obtain ⟨x, hx, hsame⟩ := ih
      exact ⟨x, List.mem_cons_of_mem _ hx, hsame⟩

/-! ## Merging -/

/-- A plan of nothing but moves of something. -/
def Full (p : Plan) : Prop := ∀ m ∈ p.moves, m.keyCount ≠ 0

theorem moves_add {m : Move} (h : m.keyCount ≠ 0) (p : Plan) :
    (p.add m).moves = placeMove m p.moves := by
  rw [add, if_neg h]

theorem add_of_empty {m : Move} (h : m.keyCount = 0) (p : Plan) : p.add m = p := if_pos h

theorem full_placeMove {m : Move} (hm : m.keyCount ≠ 0) {ms : List Move}
    (h : ∀ x ∈ ms, x.keyCount ≠ 0) : ∀ x ∈ placeMove m ms, x.keyCount ≠ 0 := by
  induction ms with
  | nil => exact List.forall_mem_singleton.mpr hm
  | cons first rest ih =>
    obtain ⟨hfirst, hrest⟩ := List.forall_mem_cons.mp h
    unfold placeMove
    split
    · exact List.forall_mem_cons.mpr ⟨Move.keyCount_absorb_ne_zero hfirst _, hrest⟩
    · exact List.forall_mem_cons.mpr ⟨hfirst, ih hrest⟩

theorem Full.add {p : Plan} (hp : p.Full) (m : Move) : (p.add m).Full := by
  by_cases hm : m.keyCount = 0
  · rw [add_of_empty hm]
    exact hp
  · rw [Full, moves_add hm]
    exact full_placeMove hm hp

theorem full_ofMoves (ms : List Move) : (ofMoves ms).Full := by
  induction ms using List.reverseRecOn with
  | nil => exact List.forall_mem_nil _
  | append_singleton ms m ih =>
    rw [ofMoves_concat]
    exact ih.add m

/-- A move that is folded into one already there may be added before or after others. -/
theorem foldl_add_comm {m : Move} (hm : m.keyCount ≠ 0) {p : Plan}
    (h : ∃ u ∈ p.moves, u.sameRoute m = true) (ms : List Move) :
    ms.foldl add (p.add m) = (ms.foldl add p).add m := by
  induction ms generalizing p with
  | nil => rfl
  | cons x rest ih =>
    rw [List.foldl_cons, List.foldl_cons]
    by_cases hx : x.keyCount = 0
    · rw [add_of_empty hx, add_of_empty hx]
      exact ih h
    · have hcomm : (p.add m).add x = (p.add x).add m := by
        rw [add, if_neg hx, moves_add hm, add, if_neg hm, moves_add hx, placeMove_comm x h]
      rw [hcomm]
      refine ih ?_
      rw [moves_add hx]
      exact exists_sameRoute_placeMove x h

/-- Moves that one more is placed among are added as they are, and then this one. -/
theorem foldl_add_placeMove {m : Move} (hm : m.keyCount ≠ 0) {ms : List Move}
    (h : ∀ x ∈ ms, x.keyCount ≠ 0) (p : Plan) :
    (placeMove m ms).foldl add p = (ms.foldl add p).add m := by
  induction ms generalizing p with
  | nil => rfl
  | cons first rest ih =>
    obtain ⟨hfirst, hrest⟩ := List.forall_mem_cons.mp h
    rw [placeMove]
    by_cases hsame : first.sameRoute m = true
    · have hfold : p.add (first.absorb m.scope) = (p.add first).add m := by
        rw [add, if_neg (Move.keyCount_absorb_ne_zero hfirst _), add, if_neg hm, moves_add hfirst,
          placeMove_absorb hsame]
      have hthere : ∃ u ∈ (p.add first).moves, u.sameRoute m = true := by
        rw [moves_add hfirst]
        exact exists_sameRoute_of_placed hsame p.moves
      rw [if_pos hsame, List.foldl_cons, hfold, List.foldl_cons]
      exact foldl_add_comm hm hthere rest
    · rw [if_neg hsame, List.foldl_cons, List.foldl_cons]
      exact ih hrest (p.add first)

theorem merge_add {q : Plan} (hq : q.Full) (p : Plan) (m : Move) :
    p.merge (q.add m) = (p.merge q).add m := by
  by_cases hm : m.keyCount = 0
  · rw [add_of_empty hm, add_of_empty hm]
  · rw [merge, moves_add hm, merge]
    exact foldl_add_placeMove hm hq p

/-- Merging a plan of some moves is adding these moves. -/
theorem merge_ofMoves (p : Plan) (ms : List Move) : p.merge (ofMoves ms) = ms.foldl add p := by
  induction ms using List.reverseRecOn with
  | nil => rfl
  | append_singleton ms m ih =>
    rw [ofMoves_concat, merge_add (full_ofMoves ms), ih, List.foldl_append]
    rfl

/-! ## Key lists and ranges -/

/-- The moves of something. -/
def full (ms : List Move) : List Move := ms.filter (·.keyCount ≠ 0)

def lists (ms : List Move) : List Move := ms.filter (!·.scope.isRange)

def ranges (ms : List Move) : List Move := ms.filter (·.scope.isRange)

theorem mem_full {ms : List Move} {m : Move} : m ∈ full ms ↔ m ∈ ms ∧ m.keyCount ≠ 0 := by
  simp [full]

theorem mem_lists {ms : List Move} {m : Move} : m ∈ lists ms ↔ m ∈ ms ∧ m.IsList := by
  simp [lists, Move.IsList]

theorem full_append (xs ys : List Move) : full (xs ++ ys) = full xs ++ full ys :=
  List.filter_append _ _

theorem lists_append (xs ys : List Move) : lists (xs ++ ys) = lists xs ++ lists ys :=
  List.filter_append _ _

theorem ranges_append (xs ys : List Move) : ranges (xs ++ ys) = ranges xs ++ ranges ys :=
  List.filter_append _ _

theorem ofMoves_full (ms : List Move) : ofMoves (full ms) = ofMoves ms := by
  induction ms using List.reverseRecOn with
  | nil => rfl
  | append_singleton ms m ih =>
    rw [full_append, ofMoves_concat]
    by_cases hm : m.keyCount = 0
    · simp [full, hm, add_of_empty hm, ← ih]
    · simp [full, hm, ofMoves_concat, ← ih]

theorem placeMove_of_range {m : Move} (hm : m.scope.isRange = true) (ms : List Move) :
    placeMove m ms = ms ++ [m] := by
  induction ms with
  | nil => rfl
  | cons first rest ih =>
    rw [placeMove_cons_of_other (by simp [Move.sameRoute, hm]), ih]
    rfl

theorem ranges_placeMove_of_list {m : Move} (hm : m.IsList) (ms : List Move) :
    ranges (placeMove m ms) = ranges ms := by
  rw [Move.IsList] at hm
  induction ms with
  | nil => simp [placeMove, ranges, hm]
  | cons first rest ih =>
    by_cases hsame : first.sameRoute m = true
    · have hfirst : first.IsList := (Move.sameRoute_iff.mp hsame).2.1
      have hjoined : (first.absorb m.scope).IsList := Move.isList_absorb hfirst _
      rw [Move.IsList] at hfirst hjoined
      rw [placeMove_cons_of_same hsame]
      simp [ranges, hfirst, hjoined]
    · rw [placeMove_cons_of_other hsame]
      simp only [ranges, List.filter_cons] at ih ⊢
      rw [ih]

theorem lists_placeMove_of_list {m : Move} (hm : m.IsList) (ms : List Move) :
    lists (placeMove m ms) = placeMove m (lists ms) := by
  rw [Move.IsList] at hm
  induction ms with
  | nil => simp [placeMove, lists, hm]
  | cons first rest ih =>
    by_cases hsame : first.sameRoute m = true
    · have hfirst : first.IsList := (Move.sameRoute_iff.mp hsame).2.1
      have hjoined : (first.absorb m.scope).IsList := Move.isList_absorb hfirst _
      rw [Move.IsList] at hfirst hjoined
      simp [lists, placeMove, hsame, hfirst, hjoined]
    · rw [placeMove_cons_of_other hsame]
      by_cases hfirst : first.scope.isRange = true
      · simpa [lists, hfirst] using ih
      · simpa [lists, hfirst, placeMove_cons_of_other hsame] using ih

/-- A range comes to the end, and no range is touched otherwise. -/
theorem ranges_add (p : Plan) (m : Move) :
    ranges (p.add m).moves = ranges p.moves ++ ranges (full [m]) := by
  by_cases hcount : m.keyCount = 0
  · simp [add_of_empty hcount, full, ranges, hcount]
  · rw [moves_add hcount]
    by_cases hrange : m.scope.isRange = true
    · simp [placeMove_of_range hrange, full, ranges, hcount, hrange]
    · rw [ranges_placeMove_of_list (Bool.eq_false_iff.mpr hrange)]
      simp [full, ranges, hcount, hrange]

theorem ranges_ofMoves (ms : List Move) : ranges (ofMoves ms).moves = ranges (full ms) := by
  induction ms using List.reverseRecOn with
  | nil => rfl
  | append_singleton ms m ih =>
    rw [ofMoves_concat, ranges_add, ih, full_append, ranges_append]

theorem lists_add_of_range {m : Move} (hm : m.scope.isRange = true) (p : Plan) :
    lists (p.add m).moves = lists p.moves := by
  by_cases hcount : m.keyCount = 0
  · rw [add_of_empty hcount]
  · rw [moves_add hcount, placeMove_of_range hm]
    simp [lists, hm]

theorem lists_add_of_list {m : Move} (hm : m.IsList) (p : Plan) :
    lists (p.add m).moves = (add ⟨lists p.moves⟩ m).moves := by
  by_cases hcount : m.keyCount = 0
  · rw [add_of_empty hcount, add_of_empty hcount]
  · rw [moves_add hcount, moves_add hcount, lists_placeMove_of_list hm]

/-- The key lists of a plan are the plan of the key lists. -/
theorem lists_ofMoves (ms : List Move) : lists (ofMoves ms).moves = (ofMoves (lists ms)).moves := by
  induction ms using List.reverseRecOn with
  | nil => rfl
  | append_singleton ms m ih =>
    rw [ofMoves_concat, lists_append]
    by_cases hrange : m.scope.isRange = true
    · have hnone : lists [m] = [] := by simp [lists, hrange]
      rw [lists_add_of_range hrange, hnone, List.append_nil, ih]
    · have hone : lists [m] = [m] := by simp [lists, hrange]
      rw [lists_add_of_list (Bool.eq_false_iff.mpr hrange), hone, ofMoves_concat, ih]

/-! ## What is collected -/

/-- A plan has what the moves have, and nothing else. -/
structure Collected (ms : List Move) (p : Plan) : Prop where
  covers : ∀ (k : Key) (s d : PartitionId),
    (∃ m ∈ p.moves, m.source = s ∧ m.dest = d ∧ m.covers k = true) ↔
      ∃ m ∈ ms, m.source = s ∧ m.dest = d ∧ m.covers k = true
  /-- No key comes into a list that only a range has. -/
  covers_lists : ∀ (k : Key) (s d : PartitionId),
    (∃ m ∈ lists p.moves, m.source = s ∧ m.dest = d ∧ m.covers k = true) ↔
      ∃ m ∈ lists ms, m.source = s ∧ m.dest = d ∧ m.covers k = true
  exists_covered : ∀ m ∈ p.moves, ∃ k, m.covers k = true
  ranges_eq : ranges p.moves = ranges (full ms)
  routes_nodup : ((lists p.moves).map Move.route).Nodup
  /-- The key lists stand in the order in which the moves of something use their routes first. -/
  routes_eq : (lists p.moves).map Move.route = firstUses (lists (full ms))

theorem exists_route_iff (k : Key) (s d : PartitionId) (ms : List Move) :
    (∃ m ∈ ms, m.source = s ∧ m.dest = d ∧ m.covers k = true) ↔
      (s, d) ∈ routesOf k ms := by
  simp only [mem_routesOf, Move.route, Prod.mk.injEq]
  constructor
  · rintro ⟨m, hm, hs, hd, hk⟩
    exact ⟨m, hm, hk, hs, hd⟩
  · rintro ⟨m, hm, hk, hs, hd⟩
    exact ⟨m, hm, hs, hd, hk⟩

theorem routes_lists_ofMoves (ms : List Move) :
    (lists (ofMoves ms).moves).map Move.route = firstUses (lists (full ms)) := by
  have hlist : ∀ m ∈ lists (full ms), m.IsList := fun m hm => (mem_lists.mp hm).2
  have hfull : ∀ m ∈ lists (full ms), ∃ k, m.covers k = true := fun m hm =>
    Move.keyCount_ne_zero_iff.mp (mem_full.mp (mem_lists.mp hm).1).2
  rw [← ofMoves_full, lists_ofMoves]
  exact (routes_ofMoves hlist hfull).2

theorem collected_ofMoves (ms : List Move) : Collected ms (ofMoves ms) where
  covers k s d := by
    rw [exists_route_iff, exists_route_iff, mem_routesOf_ofMoves]
  covers_lists k s d := by
    rw [exists_route_iff, exists_route_iff, lists_ofMoves, mem_routesOf_ofMoves]
  exists_covered m hm := Move.keyCount_ne_zero_iff.mp (full_ofMoves ms m hm)
  ranges_eq := ranges_ofMoves ms
  routes_nodup := by
    rw [routes_lists_ofMoves]
    exact nodup_firstUses _
  routes_eq := routes_lists_ofMoves ms

/-- Collecting moves one after the other, or in two parts that are merged, makes the same plan. It
has what the moves have, and collecting its own moves makes it again. -/
theorem ofMoves_append (xs ys : List Move) :
    ofMoves (xs ++ ys) = (ofMoves xs).merge (ofMoves ys) ∧ Collected xs (ofMoves xs) ∧
      ofMoves (ofMoves xs).moves = ofMoves xs := by
  refine ⟨?_, collected_ofMoves xs, merge_ofMoves empty xs⟩
  rw [merge_ofMoves, ofMoves, List.foldl_append]
  rfl

end Plan

end Reshard
