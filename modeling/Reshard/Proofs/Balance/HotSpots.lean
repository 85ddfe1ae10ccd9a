import Reshard.Proofs.Access.Gain
import Reshard.Proofs.Balance.Passes
import Reshard.Proofs.Balance.Renaming

/-!
Passes that relieve one partition do not overload another. A clump is moved where it was last found
to fit, and a destination that it fits does not gain load, or stays below the threshold of the pass
(`no_new_hot_spot`). The one exception is a clump that never fitted anywhere and grew too large
(`Planner.Forced`).
-/

namespace Reshard

open Outcome

namespace Planner

variable {p : Planner ℚ} {o : Overload ℚ}

/-! ## Clumps that fit -/

/-- The destination of the clump can take it. -/
def Fits (p : Planner ℚ) (o : Overload ℚ) (c : Clump ℚ) : Prop :=
  p.feasible o (p.gainOf (c.profile p.graph)) c.dest = true

theorem fits_sprout (p : Planner ℚ) (o : Overload ℚ) (c : Clump ℚ) :
    (p.sprout o c).fits = true ↔ p.Fits o (p.sprout o c).clump := Iff.rfl

/-- Settling tells rightly whether the clump fits where it is settled. -/
theorem fits_settle (p : Planner ℚ) (o : Overload ℚ) (c : Clump ℚ) :
    (p.settle o c).fits = true ↔ p.Fits o (p.settle o c).clump := by
  rw [settle_fits, fits, Fits]

theorem size_settle (p : Planner ℚ) (o : Overload ℚ) (c : Clump ℚ) :
    (p.settle o c).clump.size = c.size := by
  obtain ⟨dest, hdest⟩ := p.clump_settle o c
  rw [hdest]
  rfl

/-! ## Growth -/

/-- The clumps that a growth goes through from its seed on, each with the destination that it was
settled on. -/
inductive Grows (p : Planner ℚ) (o : Overload ℚ) : List (Clump ℚ) → Prop
  | seed {id : VertexId} {dest : PartitionId} {c : Clump ℚ} :
      p.graph.hottest? o.partition = some id → p.initialDest? o id = some dest →
      Clump.seed p.graph id dest = .ok c → Grows p o [c]
  | expand {earlier : List (Clump ℚ)} {c next : Clump ℚ} {id : VertexId} :
      Grows p o (earlier ++ [c]) → c.hottestNeighbour? p.graph = some id →
      c.expand p.graph id = .ok next →
      Grows p o (earlier ++ [c] ++ [(p.settle o next).clump])

/-- The clump grew to one member more than a clump may have, and neither it nor any clump before it
fitted where it was to go. -/
structure Forced (p : Planner ℚ) (o : Overload ℚ) (c : Clump ℚ) : Prop where
  size : c.size = p.tuning.clumpMaxSize + 1
  unfit : ∃ earlier, p.Grows o (earlier ++ [c]) ∧ ∀ d ∈ earlier ++ [c], ¬ p.Fits o d

/-- What is known of a clump on its way, and of the last one before it that fitted. -/
structure Grown (p : Planner ℚ) (o : Overload ℚ) (a : Growth ℚ) (best : Option (Clump ℚ)) :
    Prop where
  fits : a.fits = true ↔ p.Fits o a.clump
  fits_best : ∀ b, best = some b → p.Fits o b
  unfit : ∃ earlier, p.Grows o (earlier ++ [a.clump]) ∧
    (best = none → ∀ d ∈ earlier, ¬ p.Fits o d)
  size : a.clump.size ≤ p.tuning.clumpMaxSize + 1

theorem grown_sprout {id : VertexId} {dest : PartitionId} {c : Clump ℚ}
    (hid : p.graph.hottest? o.partition = some id) (hdest : p.initialDest? o id = some dest)
    (hc : Clump.seed p.graph id dest = .ok c) : p.Grown o (p.sprout o c) none where
  fits := fits_sprout p o c
  fits_best := nofun
  unfit := ⟨[], .seed hid hdest hc, fun _ => List.forall_mem_nil _⟩
  size := by
    rw [sprout, Clump.size_seed hc]
    exact Nat.le_add_left 1 _

section

variable {a : Growth ℚ} {best : Option (Clump ℚ)}

theorem Grown.fits_newBest (h : p.Grown o a best) {b : Clump ℚ} (hb : a.newBest best = some b) :
    p.Fits o b := by
  rw [Growth.newBest] at hb
  split at hb
  · next hfits =>
    cases hb
    exact h.fits.mp hfits
  · exact h.fits_best b hb

/-- As long as no clump has fitted, the present one does not either. -/
theorem Grown.unfit_of_newBest (h : p.Grown o a best) (hnone : a.newBest best = none) :
    ∃ earlier, p.Grows o (earlier ++ [a.clump]) ∧
      ∀ d ∈ earlier ++ [a.clump], ¬ p.Fits o d := by
  rw [Growth.newBest] at hnone
  split at hnone
  · cases hnone
  · next hfits =>
    obtain ⟨earlier, hgrows, hearlier⟩ := h.unfit
    refine ⟨earlier, hgrows, List.forall_mem_append.mpr ⟨hearlier hnone, ?_⟩⟩
    rw [List.forall_mem_singleton, ← h.fits]
    exact hfits

/-- Growing once keeps what is known. -/
theorem Grown.growOnce (h : p.Grown o a best) (hsize : a.clump.size ≤ p.tuning.clumpMaxSize)
    {b : Growth ℚ} (hb : p.growOnce o a.clump = .ok (some b)) :
    p.Grown o b (a.newBest best) := by
  obtain ⟨id, next, hid, hnext, rfl⟩ := growOnce_eq_some hb
  refine ⟨fits_settle p o next, fun b => h.fits_newBest, ?_, ?_⟩
  · cases hbest : a.newBest best with
    | none =>
      obtain ⟨earlier, hgrows, hearlier⟩ := h.unfit_of_newBest hbest
      exact ⟨earlier ++ [a.clump], .expand hgrows hid hnext, fun _ => hearlier⟩
    | some b =>
      obtain ⟨earlier, hgrows, -⟩ := h.unfit
      exact ⟨earlier ++ [a.clump], .expand hgrows hid hnext,
        fun hnone => absurd hnone (Option.some_ne_none b)⟩
  · rw [size_settle]
    exact (Clump.size_expand_le hnext).trans (Nat.succ_le_succ hsize)

end

/-- A clump that is too large is answered only if none has fitted. -/
theorem Grown.fits_or_forced_getD {a : Growth ℚ} {best : Option (Clump ℚ)}
    (h : p.Grown o a best)
    (hsize : p.tuning.clumpMaxSize < a.clump.size) :
    p.Fits o ((a.newBest best).getD a.clump) ∨ p.Forced o ((a.newBest best).getD a.clump) := by
  cases hbest : a.newBest best with
  | none => exact .inr ⟨Nat.le_antisymm h.size hsize, h.unfit_of_newBest hbest⟩
  | some b => exact .inl (h.fits_newBest hbest)

/-- A growth ends with a clump that fits, or with one that grew too large. -/
theorem fits_or_forced_of_grow {c : Clump ℚ} (expansions : Nat) {a : Growth ℚ}
    {best : Option (Clump ℚ)} {patience : Nat} (h : p.Grown o a best)
    (hc : p.grow o expansions a best patience = .ok (some c)) : p.Fits o c ∨ p.Forced o c := by
  induction expansions generalizing a best patience with
  | zero =>
    rw [grow_eq] at hc
    split at hc
    · next hsize =>
      cases hc
      exact h.fits_or_forced_getD hsize
    · rw [ite_self, Except.ok.injEq] at hc
      exact .inl (h.fits_newBest hc)
  | succ expansions ih =>
    rw [grow_eq] at hc
    split at hc
    · next hsize =>
      cases hc
      exact h.fits_or_forced_getD hsize
    · next hsize =>
      split at hc
      · exact .inl (h.fits_newBest (Except.ok.inj hc))
      · obtain ⟨grown, hgrown, hc⟩ := bind_eq_ok.mp hc
        cases grown with
        | none => exact .inl (h.fits_newBest (Except.ok.inj hc))
        | some b => exact ih (h.growOnce (Nat.not_lt.mp hsize) hgrown) hc

theorem fits_or_forced_of_overloadClump {c : Clump ℚ} (h : p.overloadClump o = .ok (some c)) :
    p.Fits o c ∨ p.Forced o c := by
  obtain ⟨id, dest, first, hid, hdest, hfirst, h⟩ := overloadClump_eq_some h
  exact fits_or_forced_of_grow _ (grown_sprout hid hdest hfirst) h

/-! ## The load of the destination -/

/-- What an overload knows of the loads is what the graph says. -/
structure Overload.Of (o : Overload ℚ) (p : Planner ℚ) (n : Nat) : Prop where
  partitions : o.partitions = n
  busy : o.busy = p.graph.busyLoads p.tuning.crossCost

theorem of_overload? {n : Nat} (h : p.overload? n = some o) : o.Of p n := by
  obtain ⟨l, -, rfl⟩ := Option.map_eq_some_iff.mp h
  exact ⟨rfl, rfl⟩

/-- The load of a partition that can take a clump does not grow by it, or stays below the
threshold. -/
theorem Fits.load {n : Nat} {c : Clump ℚ} (hc : p.Fits o c) (ho : o.Of p n) :
    c.dest < n ∧
      (c.receiveDelta p.graph c.dest p.tuning.crossCost ≤ 0 ∨
        (p.graph.loadOn p.tuning.crossCost c.dest).total +
          c.receiveDelta p.graph c.dest p.tuning.crossCost < o.threshold) := by
  rw [Fits, feasible, liveLoad?, ho.partitions, ho.busy, Graph.getD_busyLoads] at hc
  split at hc
  · cases hc
  · next load hload =>
    split at hload
    · next hlive =>
      cases hload
      rw [Bool.and_eq_true, decide_eq_true_eq] at hlive
      rw [Bool.or_eq_true, decide_eq_true_eq, decide_eq_true_eq] at hc
      exact ⟨hlive.1, hc⟩
    · cases hload

/-- The load of `dest` does not grow, or is below the threshold afterwards. -/
def Spared (n : Nat) (threshold : ℚ) (dest : PartitionId) (p q : Planner ℚ) : Prop :=
  ∃ before after : Load ℚ,
    (p.graph.loads n p.tuning.crossCost)[dest]? = some before ∧
    (q.graph.loads n q.tuning.crossCost)[dest]? = some after ∧
    (after.total ≤ before.total ∨ after.total < threshold)

theorem Fits.spared {n : Nat} {c : Clump ℚ} (hc : p.Fits o c) (ho : o.Of p n)
    (hg : p.graph.Sound) : Spared n o.threshold c.dest p (p.apply c) := by
  obtain ⟨hdest, hload⟩ := hc.load ho
  refine ⟨_, _, Graph.getElem?_loads _ _ hdest, Graph.getElem?_loads _ _ hdest, ?_⟩
  have htotal : ((p.apply c).graph.loadOn (p.apply c).tuning.crossCost c.dest).total =
      (p.graph.loadOn p.tuning.crossCost c.dest).total +
        c.receiveDelta p.graph c.dest p.tuning.crossCost :=
    c.total_reassign c.dest hg p.tuning.crossCost
  rw [htotal]
  exact hload.imp_left fun hgain => by linarith

/-! ## One pass -/

/-- A pass that moves a clump, after any number of passes before it, leaves the clump's destination
with no more load than before or below the threshold of the pass, unless the clump was forced. -/
theorem no_new_hot_spot (hp : p.Reachable) {n clumps : Nat} {s t : Planning ℚ}
    (hs : Planning.passes n clumps (.start p) = .ok s) (ht : Planning.pass n s = .ok (some t)) :
    s.planner.tuning = p.tuning ∧
    ∃ o c, s.planner.overload? n = some o ∧ s.planner.nextClump n = .ok (some c) ∧
      t.planner = s.planner.apply c ∧
      (s.planner.Forced o c ∨ Spared n o.threshold c.dest s.planner t.planner) := by
  obtain ⟨c, hc, happly⟩ := nextClump_of_pass ht
  obtain ⟨o, ho, hclump⟩ := overloadClump_of_nextClump hc
  refine ⟨(Planning.sameBase_of_passes hs).1.symm, o, c, ho, hc, happly, ?_⟩
  rcases fits_or_forced_of_overloadClump hclump with hfits | hforced
  · have hsound := sound_of_passes (s := .start p) (sound_graph_of_reachable hp) hs
    rw [happly]
    exact .inr (hfits.spared (of_overload? ho) hsound)
  · exact .inl hforced

/-- The pass for the pair that follows a first one. -/
def secondPass : Except Failure (Option (Planning ℚ)) := do
  let p ← paired 3
  Planning.pass 3 (← Planning.passes 3 1 (.start p))

/-- The second pass takes both records back to where the first one found one of them. -/
theorem no_new_hot_spot_paired : ∃ p s t, paired 3 = .ok p ∧
    Planning.passes 3 1 (.start p) = .ok s ∧ Planning.pass 3 s = .ok (some t) ∧
    s.planner.tuning = p.tuning ∧
    ∃ o c, s.planner.overload? 3 = some o ∧ s.planner.nextClump 3 = .ok (some c) ∧
      t.planner = s.planner.apply c ∧
      (s.planner.Forced o c ∨ Spared 3 o.threshold c.dest s.planner t.planner) := by
  have hpass : secondPass.toOption.join.isSome = true := by decide +kernel
  obtain ⟨t, ht⟩ := Option.isSome_iff_exists.mp hpass
  match hsecond : secondPass with
  | .error e =>
    rw [hsecond] at ht
    nomatch ht
  | .ok none =>
    rw [hsecond] at ht
    nomatch ht
  | .ok (some t) =>
    obtain ⟨p, hp, hrest⟩ := bind_eq_ok.mp hsecond
    obtain ⟨s, hs, ht⟩ := bind_eq_ok.mp hrest
    exact ⟨p, s, t, hp, hs, ht, no_new_hot_spot (reachable_paired hp) hs ht⟩

end Planner

end Reshard
