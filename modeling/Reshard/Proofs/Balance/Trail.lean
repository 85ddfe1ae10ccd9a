import Reshard.Proofs.Access.Expansion
import Reshard.Proofs.Balance.Watched

/-!
How a clump grows, and which of the clumps on its way is answered. A growth takes in one hottest
neighbour after the other until the clump is too large, has no neighbour left or did not fit too
often in a row (`Stops`), which is the case after as many expansions as a clump may have members.
It answers the latest clump that fitted (`overloadClump_ends`). No law of weights is used:
comparisons of loads may come out in any way.
-/

namespace Reshard

open Outcome

namespace Planner

variable {W : Type} [Weight W]

/-- The clumps that a growth goes through, the latest first. The first of all has the hottest vertex
of the overloaded partition as its seed; from then on each takes in its hottest neighbour, which is
on its frontier, and settles its destination. -/
inductive Trail (p : Planner W) (o : Overload W) : List (Clump W) → Prop
  | seed {id : VertexId} {dest : PartitionId} {c : Clump W} :
      p.graph.hottest? o.partition = some id → p.initialDest? o id = some dest →
      Clump.seed p.graph id dest = .ok c → Trail p o [c]
  | expand {c next : Clump W} {earlier : List (Clump W)} {id : VertexId} :
      Trail p o (c :: earlier) → c.hottestNeighbour? p.graph = some id → id ∈ c.frontier →
      c.expand p.graph id = .ok next → Trail p o ((p.settle o next).clump :: c :: earlier)

/-- Some clump fitted, but of the latest ones none did, as many as are tolerated. Without any
tolerance the first clump is the last. -/
def Exhausted (p : Planner W) (o : Overload W) (trail : List (Clump W)) : Prop :=
  p.tuning.lookAhead = 0 ∨
    ((∃ d ∈ trail.tail, p.fits o d = true) ∧
      ∀ d ∈ trail.take p.tuning.lookAhead, p.fits o d = false)

/-- Whether a growth stops at the latest of these clumps. -/
def Stops (p : Planner W) (o : Overload W) : List (Clump W) → Prop
  | [] => False
  | c :: earlier =>
    p.tuning.clumpMaxSize < c.size ∨ c.frontier = ∅ ∨ p.Exhausted o (c :: earlier)

/-- The clumps of a whole growth: it stops at the latest one, and at none before. -/
structure Ends (p : Planner W) (o : Overload W) (trail : List (Clump W)) : Prop where
  reached : p.Trail o trail
  stops : p.Stops o trail
  first : ∀ part, part <:+ trail.tail → ¬ p.Stops o part

/-- The latest clump that fits. If none does, one that is too large is answered all the same. -/
def answer (p : Planner W) (o : Overload W) (trail : List (Clump W)) : Option (Clump W) :=
  (trail.find? (p.fits o)).or (trail.head?.filter fun c => p.tuning.clumpMaxSize < c.size)

variable {p : Planner W} {o : Overload W} {c : Clump W} {trail earlier : List (Clump W)}

/-! ## Clumps of a growth -/

theorem Trail.proper (h : p.Trail o trail) (hg : p.graph.Sound) :
    ∀ c ∈ trail, c.Proper p.graph := by
  induction h with
  | seed _ _ hc => exact List.forall_mem_singleton.mpr (Clump.proper_seed hg hc)
  | @expand c next earlier _ _ _ _ hnext ih =>
    obtain ⟨dest, hdest⟩ := p.clump_settle o next
    have hproper := (ih c List.mem_cons_self).expand hg hnext
    refine List.forall_mem_cons.mpr ⟨?_, ih⟩
    rw [hdest]
    exact ⟨hproper.members, hproper.frontier, hproper.apart⟩

/-- Every clump has one member more than the one before. -/
theorem Trail.size_eq (h : p.Trail o (c :: earlier)) (hg : p.graph.Sound) :
    c.size = earlier.length + 1 := by
  generalize htrail : c :: earlier = trail at h
  induction h generalizing c earlier with
  | seed _ _ hc =>
    cases htrail
    exact Clump.size_seed hc
  | @expand d next before _ hbefore _ _ hnext ih =>
    cases htrail
    obtain ⟨dest, hdest⟩ := p.clump_settle o next
    have hsize : next.size = d.size + 1 :=
      (hbefore.proper hg d List.mem_cons_self).size_expand hnext
    rw [hdest, List.length_cons, ← ih rfl]
    exact hsize

/-- A growth has at most as many expansions as a clump may have members. -/
theorem Ends.length_le (h : p.Ends o trail) (hg : p.graph.Sound) :
    trail.length ≤ p.tuning.clumpMaxSize + 1 := by
  match trail, h with
  | [], _ => exact Nat.zero_le _
  | [_], _ => exact Nat.le_add_left 1 _
  | c :: d :: earlier, h =>
    have hgoesOn : ¬ p.Stops o (d :: earlier) := h.first _ (List.suffix_refl _)
    have hsize : d.size = earlier.length + 1 := by
      cases h.reached with
      | expand hbefore => exact hbefore.size_eq hg
    have hle : d.size ≤ p.tuning.clumpMaxSize := Nat.not_lt.mp fun hlt => hgoesOn (.inl hlt)
    rw [hsize] at hle
    exact Nat.succ_le_succ hle

/-- There is one growth of each length. -/
theorem Trail.eq_of_length {other : List (Clump W)} (h : p.Trail o trail) (h' : p.Trail o other)
    (hlength : trail.length = other.length) : trail = other := by
  induction h generalizing other with
  | @seed id dest c hid hdest hc =>
    cases h' with
    | @seed id' dest' c' hid' hdest' hc' =>
      cases hid.symm.trans hid'
      cases hdest.symm.trans hdest'
      cases hc.symm.trans hc'
      rfl
    | expand _ _ _ _ => simp at hlength
  | @expand c next earlier id hbefore hid hfrontier hnext ih =>
    cases h' with
    | seed _ _ _ => simp at hlength
    | @expand c' next' earlier' id' hbefore' hid' hfrontier' hnext' =>
      cases ih hbefore' (Nat.succ.inj hlength)
      cases hid.symm.trans hid'
      cases hnext.symm.trans hnext'
      rfl

/-- What a growth went through before is a growth. -/
theorem Trail.of_suffix {part : List (Clump W)} (h : p.Trail o trail) (hpart : part <:+ trail)
    (hne : part ≠ []) : p.Trail o part := by
  induction h with
  | seed hid hdest hc =>
    rcases List.suffix_cons_iff.mp hpart with rfl | hnil
    · exact .seed hid hdest hc
    · exact absurd (List.suffix_nil.mp hnil) hne
  | expand hbefore hid hfrontier hnext ih =>
    rcases List.suffix_cons_iff.mp hpart with rfl | hpart
    · exact hbefore.expand hid hfrontier hnext
    · exact ih hpart

/-- A growth that stops goes no further. -/
theorem Ends.length_le_of_ends {other : List (Clump W)} (h : p.Ends o trail)
    (h' : p.Ends o other) : trail.length ≤ other.length := by
  by_contra hlonger
  have hother : other ≠ [] := by
    rintro rfl
    nomatch h'.reached
  have hpart : trail.drop (trail.length - other.length) <:+ trail := List.drop_suffix _ _
  have hlength : (trail.drop (trail.length - other.length)).length = other.length := by
    rw [List.length_drop]
    omega
  have heq : trail.drop (trail.length - other.length) = other := by
    refine (h.reached.of_suffix hpart ?_).eq_of_length h'.reached hlength
    rw [← List.length_pos_iff, hlength]
    exact List.length_pos_iff.mpr hother
  have hearlier : other <:+ trail.tail := by
    rw [heq] at hpart
    obtain ⟨c, earlier, rfl⟩ := List.exists_cons_of_ne_nil (l := trail) fun hnil => by
      rw [hnil] at hlonger
      exact hlonger (Nat.zero_le _)
    rcases List.suffix_cons_iff.mp hpart with rfl | hpart
    · exact absurd (Nat.le_refl _) hlonger
    · exact hpart
  exact h.first other hearlier h'.stops

/-- No two growths off the same partition end differently. -/
theorem Ends.eq {other : List (Clump W)} (h : p.Ends o trail) (h' : p.Ends o other) :
    trail = other :=
  h.reached.eq_of_length h'.reached
    (Nat.le_antisymm (h.length_le_of_ends h') (h'.length_le_of_ends h))

/-! ## Patience -/

/-- How many clumps did not fit since the latest one that did. -/
def misses (p : Planner W) (o : Overload W) (trail : List (Clump W)) : Nat :=
  (trail.takeWhile fun c => !p.fits o c).length

/-- The patience that is left after some clumps. -/
def patienceAfter (p : Planner W) (o : Overload W) (trail : List (Clump W)) : Nat :=
  if (trail.find? (p.fits o)).isSome then p.tuning.lookAhead - p.misses o trail
  else p.tuning.lookAhead

theorem newBest_eq {a : Growth W} (ha : a.fits = p.fits o a.clump) :
    a.newBest (earlier.find? (p.fits o)) = (a.clump :: earlier).find? (p.fits o) := by
  rw [Growth.newBest, ha, List.find?_cons]
  cases p.fits o a.clump <;> rfl

theorem newPatience_eq {a : Growth W} (ha : a.fits = p.fits o a.clump) :
    p.newPatience a (earlier.find? (p.fits o)) (p.patienceAfter o earlier) =
      p.patienceAfter o (a.clump :: earlier) := by
  rw [newPatience, ha, patienceAfter, patienceAfter, misses, misses, List.find?_cons,
    List.takeWhile_cons]
  cases p.fits o a.clump with
  | true => rfl
  | false =>
    cases (earlier.find? (p.fits o)).isSome with
    | true => exact Nat.sub_sub _ _ _
    | false => rfl

/-- If a list does not have a property throughout, it has it at the start as far as the first
element without it. -/
theorem le_length_takeWhile_iff {α : Type} {keep : α → Bool} {l : List α}
    (h : ∃ x ∈ l, keep x = false) (m : Nat) :
    m ≤ (l.takeWhile keep).length ↔ ∀ x ∈ l.take m, keep x = true := by
  induction l generalizing m with
  | nil => simp at h
  | cons x rest ih =>
    cases m with
    | zero => simp
    | succ m =>
      rw [List.takeWhile_cons, List.take_succ_cons, List.forall_mem_cons]
      cases hx : keep x with
      | false => simp
      | true =>
        have hrest : ∃ y ∈ rest, keep y = false := by
          obtain ⟨y, hy, hkeep⟩ := h
          rcases List.mem_cons.mp hy with rfl | hy
          · rw [hx] at hkeep
            nomatch hkeep
          · exact ⟨y, hy, hkeep⟩
        simpa using ih hrest m

/-- The patience is spent exactly if the growth stops for want of it. -/
theorem patienceAfter_eq_zero_iff :
    p.patienceAfter o (c :: earlier) = 0 ↔ p.Exhausted o (c :: earlier) := by
  rw [patienceAfter, Exhausted, List.tail_cons]
  cases hpatience : p.tuning.lookAhead with
  | zero => simp
  | succ patience =>
    by_cases hfit : ∃ d ∈ c :: earlier, p.fits o d = true
    · have hmisses : patience + 1 ≤ p.misses o (c :: earlier) ↔
          ∀ d ∈ (c :: earlier).take (patience + 1), p.fits o d = false := by
        rw [misses, le_length_takeWhile_iff (by simpa using hfit)]
        simp
      rw [if_pos (List.find?_isSome.mpr hfit), Nat.sub_eq_zero_iff_le, hmisses]
      constructor
      · intro hall
        obtain ⟨d, hd, hfits⟩ := hfit
        refine .inr ⟨⟨d, ?_, hfits⟩, hall⟩
        rcases List.mem_cons.mp hd with rfl | hd
        · rw [hall d List.mem_cons_self] at hfits
          nomatch hfits
        · exact hd
      · rintro (hzero | ⟨-, hall⟩)
        · nomatch hzero
        · exact hall
    · have hnone : ((c :: earlier).find? (p.fits o)).isSome ≠ true :=
        mt List.find?_isSome.mp hfit
      rw [if_neg hnone]
      refine iff_of_false (Nat.succ_ne_zero patience) ?_
      rintro (hzero | ⟨⟨d, hd, hfits⟩, -⟩)
      · nomatch hzero
      · exact hfit ⟨d, List.mem_cons_of_mem c hd, hfits⟩

/-! ## Growth -/

theorem answer_of_large (hsize : p.tuning.clumpMaxSize < c.size) :
    p.answer o (c :: earlier) = some (((c :: earlier).find? (p.fits o)).getD c) := by
  rw [answer, List.head?_cons, Option.filter_some, if_pos (by simpa using hsize)]
  cases (c :: earlier).find? (p.fits o) <;> rfl

theorem answer_of_small (hsize : ¬ p.tuning.clumpMaxSize < c.size) :
    p.answer o (c :: earlier) = (c :: earlier).find? (p.fits o) := by
  rw [answer, List.head?_cons, Option.filter_some, if_neg (by simpa using hsize), Option.or_none]

theorem growOnce_of_stuck (h : c.hottestNeighbour? p.graph = none) :
    p.growOnce o c = .ok none := by
  rw [growOnce, h]

theorem growOnce_of_expand {id : VertexId} {next : Clump W}
    (h : c.hottestNeighbour? p.graph = some id) (hnext : c.expand p.graph id = .ok next) :
    p.growOnce o c = .ok (some (p.settle o next)) := by
  rw [growOnce, h]
  dsimp only
  rw [hnext]
  rfl

/-- A growth that may go on for as long as there is room in the clump ends, and with its answer. -/
theorem grow_ends (hg : p.graph.Sound) (expansions : Nat) (earlier : List (Clump W))
    {a : Growth W} (htrail : p.Trail o (a.clump :: earlier)) (ha : a.fits = p.fits o a.clump)
    (hfirst : ∀ part, part <:+ earlier → ¬ p.Stops o part)
    (hroom : p.tuning.clumpMaxSize < a.clump.size + expansions) :
    ∃ trail, p.Ends o trail ∧
      p.grow o expansions a (earlier.find? (p.fits o)) (p.patienceAfter o earlier) =
        .ok (p.answer o trail) := by
  rw [grow_eq, newBest_eq ha, newPatience_eq ha]
  by_cases hsize : p.tuning.clumpMaxSize < a.clump.size
  · refine ⟨_, ⟨htrail, .inl hsize, hfirst⟩, ?_⟩
    rw [if_pos hsize, answer_of_large hsize]
  rw [if_neg hsize]
  by_cases hpatience : p.patienceAfter o (a.clump :: earlier) = 0
  · refine ⟨_, ⟨htrail, .inr (.inr (patienceAfter_eq_zero_iff.mp hpatience)), hfirst⟩, ?_⟩
    rw [if_pos hpatience, answer_of_small hsize]
  rw [if_neg hpatience]
  cases expansions with
  | zero =>
    -- The room would be in the clump itself, which is too large then.
    exact absurd hroom hsize
  | succ expansions =>
    have hproper := htrail.proper hg _ List.mem_cons_self
    dsimp only
    cases hid : a.clump.hottestNeighbour? p.graph with
    | none =>
      have hempty : a.clump.frontier = ∅ := Clump.hottestNeighbour?_eq_none_iff.mp hid
      refine ⟨_, ⟨htrail, .inr (.inl hempty), hfirst⟩, ?_⟩
      rw [growOnce_of_stuck hid, answer_of_small hsize]
      rfl
    | some id =>
      have hfrontier := Clump.mem_frontier_of_hottest hid
      obtain ⟨next, hnext⟩ := hproper.frontier.exists_expand hfrontier
      obtain ⟨dest, hdest⟩ := p.clump_settle o next
      have hgoesOn : ¬ p.Stops o (a.clump :: earlier) := by
        rintro (hlarge | hempty | hexhausted)
        · exact hsize hlarge
        · rw [hempty] at hfrontier
          exact Std.ExtTreeMap.not_mem_empty hfrontier
        · exact hpatience (patienceAfter_eq_zero_iff.mpr hexhausted)
      have hroom' : p.tuning.clumpMaxSize < (p.settle o next).clump.size + expansions := by
        have hgrown : next.size = a.clump.size + 1 := hproper.size_expand hnext
        have hsettled : (p.settle o next).clump.size = next.size := by
          rw [hdest]
          rfl
        omega
      rw [growOnce_of_expand hid hnext]
      refine grow_ends hg expansions (a.clump :: earlier) (htrail.expand hid hfrontier hnext)
        (settle_fits p o next) ?_ hroom'
      intro part hpart
      rcases List.suffix_cons_iff.mp hpart with rfl | hpart
      · exact hgoesOn
      · exact hfirst part hpart

/-- A clump that has a seed and a destination is grown to the end. -/
theorem overloadClump_ends (hg : p.graph.Sound) {id : VertexId} {dest : PartitionId}
    (hid : p.graph.hottest? o.partition = some id) (hdest : p.initialDest? o id = some dest) :
    ∃ trail, p.Ends o trail ∧ p.overloadClump o = .ok (p.answer o trail) := by
  obtain ⟨first, hfirst⟩ :=
    Clump.exists_seed (Graph.lt_size_of_partition (Graph.partition_of_hottest hid)) dest
  have hroom : p.tuning.clumpMaxSize < (p.sprout o first).clump.size + p.tuning.clumpMaxSize := by
    rw [sprout, Clump.size_seed hfirst]
    exact Nat.lt_add_of_pos_left Nat.one_pos
  have hnone : ∀ part, part <:+ [] → ¬ p.Stops o part := by
    intro part hpart
    rw [List.suffix_nil.mp hpart]
    exact not_false
  obtain ⟨trail, hends, hgrow⟩ := grow_ends hg p.tuning.clumpMaxSize [] (a := p.sprout o first)
    (.seed hid hdest hfirst) rfl hnone hroom
  refine ⟨trail, hends, ?_⟩
  rw [overloadClump, hid]
  dsimp only
  rw [hdest]
  dsimp only
  rw [hfirst]
  exact hgrow

/-! ## What is answered -/

theorem exists_initialDest {dest : PartitionId} (h : o.lightest = some dest) (id : VertexId) :
    ∃ dest, p.initialDest? o id = some dest := by
  rw [initialDest?]
  split
  · next dest _ _ => exact ⟨dest, rfl⟩
  · exact ⟨dest, h⟩

/-- Whatever loads and threshold are given, an overloaded partition with a vertex on it has just one
growth that ends, if there is another partition in service. Its answer is the latest clump that
fits, with the destination that it had then. -/
theorem overloadClump_eq_answer (hg : p.graph.Reachable) {n : Nat}
    {busy : Std.ExtTreeMap PartitionId (Load W)}
    (hbusy : ∀ (id : PartitionId) (l : Load W), busy[id]? = some l → l.partition = id)
    (threshold : W) {s d : PartitionId} {id : VertexId} (hs : p.graph.partitionOf? id = some s)
    (hd : p.InService n d) (hne : d ≠ s) :
    ∃ trail, p.Ends (p.overloadAt n busy threshold s) trail ∧
      (∀ other, p.Ends (p.overloadAt n busy threshold s) other → other = trail) ∧
      p.overloadClump (p.overloadAt n busy threshold s) =
        .ok (p.answer (p.overloadAt n busy threshold s) trail) := by
  obtain ⟨hottest, hhottest⟩ := Graph.exists_hottest hs
  obtain ⟨lightest, hlightest⟩ := exists_lightest hbusy hd hne threshold
  obtain ⟨dest, hdest⟩ := exists_initialDest (p := p) hlightest hottest
  obtain ⟨trail, hends, hclump⟩ :=
    overloadClump_ends (Graph.sound_of_reachable hg) hhottest hdest
  exact ⟨trail, hends, fun other hother => hother.eq hends, hclump⟩

/-- A record with two pairs hanging on it. A pair makes the clump heavier while one half of it is
inside, and lighter again when both are, so that the clump fits every other time. -/
def alternating (lookAhead : Nat) : Except Failure (Planner ℚ) :=
  let tuning : Tuning ℚ :=
    { crossCost := 1, overload := 13 / 10, lookAhead, clumpMaxSize := 20, maxClumps := 5000 }
  let root : Key := ⟨"t", 1⟩
  (make tuning).monitorAll (.make { home := fun _ => 0 } 16)
    ([[root]] ++ List.replicate 2 [root, ⟨"t", 2⟩] ++
      List.replicate 3 [root, ⟨"t", 2⟩, ⟨"t", 3⟩] ++ [[root, ⟨"t", 4⟩]] ++
      List.replicate 2 [root, ⟨"t", 4⟩, ⟨"t", 5⟩])

/-- The members of the clump that is moved off partition 0, at the threshold 23. -/
def alternatingMembers (p : Planner ℚ) : Option (List VertexId) :=
  (p.overloadClump (p.overloadAt 3 (p.graph.busyLoads 1) 23 0)).toOption.join.map
    (·.members.toList)

/-- Two misses are tolerated, but not in a row, so that the growth runs dry with a clump that
fits. -/
theorem overloadClump_eq_answer_alternating : ∃ p o, alternating 2 = .ok p ∧
    o = p.overloadAt 3 (p.graph.busyLoads 1) 23 0 ∧
    alternatingMembers p = some [0, 1, 2, 3, 4] ∧
    ∃ trail, p.Ends o trail ∧ (∀ other, p.Ends o other → other = trail) ∧
      p.overloadClump o = .ok (p.answer o trail) := by
  have hcheck : (alternating 2).toOption.map (fun p => (alternatingMembers p,
      p.graph.partitionOf? 0, p.isRetired 1)) =
      some (some [0, 1, 2, 3, 4], some 0, false) := by decide +kernel
  obtain ⟨p, hp, hcheck⟩ := Option.map_eq_some_iff.mp hcheck
  simp only [Prod.mk.injEq] at hcheck
  obtain ⟨hmembers, hs, hlive⟩ := hcheck
  have hmade : alternating 2 = .ok p := eq_ok_of_toOption hp
  have hreachable : p.Reachable := (Reachable.make _).monitorAll hmade
  exact ⟨p, _, hmade, rfl, hmembers, overloadClump_eq_answer (graph_of_reachable hreachable)
    (fun id l hl => Graph.partition_of_busyLoads hl) 23 hs ⟨by decide, hlive⟩ (by decide)⟩

end Planner

end Reshard
