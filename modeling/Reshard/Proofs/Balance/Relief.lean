import Reshard.Proofs.Access.Departure
import Reshard.Proofs.Balance.Destinations
import Reshard.Proofs.Balance.HotSpots

/-!
What a pass does to the overloaded partition. Its clump is chosen by what the destination gains, and
always takes accesses off the overloaded partition. But the edges to what stays there come to cross
the boundary, so that the load as a whole gets lower only if these weigh less than what leaves
(`relief_of_pass`). `not_relieved_quartet` is a pass that makes the load higher.
-/

namespace Reshard

open Outcome

namespace Planner

variable {p q : Planner ℚ} {o : Overload ℚ} {n : Nat} {c : Clump ℚ}

theorem inService_partition (h : p.overload? n = some o) : p.InService n o.partition := by
  obtain ⟨l, hl, rfl⟩ := Option.map_eq_some_iff.mp h
  exact inService_of_watchedLoads (List.mem_of_find?_eq_some hl)

/-- The clump of a pass relieves the overloaded partition of its hottest vertex. -/
theorem relieves_of_nextClump (hg : p.graph.Sound) (ho : p.overload? n = some o)
    (h : p.nextClump n = .ok (some c)) : p.Relieves o c := by
  obtain ⟨trail, htrail, hclump⟩ := exists_attempt hg o
  rw [nextClump_of_overload? hg ho, hclump] at h
  exact relieves_of_answer ho htrail (Except.ok.inj h)

/-- How the load of `source` changes from `p` to `q`, when the members of the clump leave. -/
structure Eased (p q : Planner ℚ) (n : Nat) (source : PartitionId) (c : Clump ℚ)
    (before after : Load ℚ) : Prop where
  load_before : (p.graph.loads n p.tuning.crossCost)[source]? = some before
  load_after : (q.graph.loads n q.tuning.crossCost)[source]? = some after
  inside_lt : after.inside < before.inside
  /-- The members take their weight with them and their edges across the boundary, and the edges to
  what stays come to cross it. -/
  total_eq : after.total = before.total - c.taken p.graph source +
    p.tuning.crossCost * (c.torn p.graph source - c.freed p.graph source)
  total_lt_iff : after.total < before.total ↔
    p.tuning.crossCost * c.torn p.graph source <
      c.taken p.graph source + p.tuning.crossCost * c.freed p.graph source
  /-- The load gets lower if no edge is torn apart. -/
  total_lt : 0 ≤ p.tuning.crossCost →
    (∀ a b, c.Leaves p.graph source a → c.Stays p.graph source b →
      ¬ p.graph.Adjacent a b) →
    after.total < before.total

/-- A partition that vertices leave is eased. -/
theorem eased_apply {source : PartitionId} (hg : p.graph.Sound) (hw : p.graph.Weighed)
    (hsource : source < n) (hne : c.dest ≠ source) (hleaves : ∃ a, c.Leaves p.graph source a) :
    ∃ before after, Eased p (p.apply c) n source c before after := by
  let cost := p.tuning.crossCost
  let before := p.graph.loadOn cost source
  let after := (p.graph.reassign c.members.toList c.dest).loadOn cost source
  have htaken : 0 < c.taken p.graph source := by
    obtain ⟨a, ha⟩ := hleaves
    exact hw.mass_pos ⟨a, Graph.lt_size_of_partition (Graph.isOn_iff.mp ha.1), ha⟩
  have hinside : after.inside = before.inside - c.taken p.graph source :=
    Clump.inside_reassign_source hne cost
  have htotal : after.total = before.total - c.taken p.graph source +
      cost * (c.torn p.graph source - c.freed p.graph source) :=
    Clump.total_reassign_source hg hne cost
  refine ⟨before, after, Graph.getElem?_loads _ _ hsource, Graph.getElem?_loads _ _ hsource,
    by linarith, htotal, ?_, ?_⟩
  · rw [htotal, mul_sub]
    constructor <;> intro h <;> linarith
  · intro hcost hkept
    have htorn : c.torn p.graph source = 0 := Graph.between_eq_zero hkept
    have hfreed : 0 ≤ cost * c.freed p.graph source := mul_nonneg hcost hw.between_nonneg
    rw [htotal, htorn, zero_sub, mul_neg]
    linarith

theorem weighed_of_passes {bound : Nat} {s t : Planning ℚ} (hs : s.planner.graph.Weighed)
    (h : Planning.passes n bound s = .ok t) : t.planner.graph.Weighed := by
  rw [passes_eq_clumps] at h
  obtain ⟨cs, -, rfl⟩ := map_eq_ok.mp h
  clear h
  induction cs generalizing s with
  | nil => exact hs
  | cons c rest ih => exact ih (s := s.move c) (hs.reassign c.members.toList c.dest)

/-- A pass that moves a clump, after any number of passes before it, takes accesses off the
overloaded partition, and lowers its load as a whole if and only if what leaves weighs more than
what it is torn from. -/
theorem relief_of_pass (hp : p.Reachable) {n clumps : Nat} {s t : Planning ℚ}
    (hs : Planning.passes n clumps (.start p) = .ok s) (ht : Planning.pass n s = .ok (some t)) :
    s.planner.tuning = p.tuning ∧
    ∃ o c before after, s.planner.overload? n = some o ∧
      s.planner.nextClump n = .ok (some c) ∧
      t.planner = s.planner.apply c ∧
      Eased s.planner t.planner n o.partition c before after := by
  have hreachable := graph_of_reachable hp
  have hsound := sound_of_passes (s := .start p) (Graph.sound_of_reachable hreachable) hs
  have hweighed := weighed_of_passes (s := .start p) (Graph.weighed_of_reachable hreachable) hs
  obtain ⟨c, hc, happly⟩ := nextClump_of_pass ht
  obtain ⟨o, ho, -⟩ := overloadClump_of_nextClump hc
  have hrelieves := relieves_of_nextClump hsound ho hc
  obtain ⟨id, hid, -, hon⟩ := hrelieves.seed
  obtain ⟨before, after, heased⟩ := eased_apply hsound hweighed (inService_partition ho).1
    hrelieves.dest_ne ⟨id, Graph.isOn_iff.mpr hon, hid⟩
  exact ⟨(Planning.sameBase_of_passes hs).1.symm, o, c, before, after, ho, hc, happly,
    happly ▸ heased⟩

/-- Four records on partition 0 that are accessed together. -/
def quartet : Except Failure (Planner ℚ) :=
  let tuning : Tuning ℚ :=
    { crossCost := 1 / 2, overload := 13 / 10, lookAhead := 5, clumpMaxSize := 20, maxClumps := 1 }
  (make tuning).monitor (.make { home := fun k => k.id % 2 } 16)
    [⟨"t", 0⟩, ⟨"t", 2⟩, ⟨"t", 4⟩, ⟨"t", 6⟩]

theorem reachable_quartet {p : Planner ℚ} (h : quartet = .ok p) : p.Reachable :=
  .monitor _ _ (.make _) h

/-- What is checked of the first clump that a planner moves is true of it. -/
theorem exists_pass (made : Except Failure (Planner ℚ)) (n : Nat)
    (check : Planner ℚ → Overload ℚ → Clump ℚ → Bool)
    (h : (made.toOption.bind fun p => (p.overload? n).bind fun o =>
      (p.nextClump n).toOption.join.map (check p o)) = some true) :
    ∃ p o c, made = .ok p ∧ p.overload? n = some o ∧ p.nextClump n = .ok (some c) ∧
      check p o c = true ∧
      Planning.pass n (.start p) = .ok (some ((Planning.start p).move c)) := by
  obtain ⟨p, hp, h⟩ := Option.bind_eq_some_iff.mp h
  obtain ⟨o, ho, h⟩ := Option.bind_eq_some_iff.mp h
  obtain ⟨c, hc, hcheck⟩ := Option.map_eq_some_iff.mp h
  have hnext : p.nextClump n = .ok (some c) := eq_ok_of_toOption (Option.join_eq_some_iff.mp hc)
  refine ⟨p, o, c, eq_ok_of_toOption hp, ho, hnext, hcheck, ?_⟩
  have hstart : (Planning.start p).planner.nextClump n = .ok (some c) := hnext
  rw [Planning.pass_eq, hstart]
  rfl

theorem relief_of_pass_quartet : ∃ p t, quartet = .ok p ∧
    Planning.passes 2 0 (.start p) = .ok (.start p) ∧
    Planning.pass 2 (.start p) = .ok (some t) ∧
    (Planning.start p).planner.tuning = p.tuning ∧
    ∃ o c before after, (Planning.start p).planner.overload? 2 = some o ∧
      (Planning.start p).planner.nextClump 2 = .ok (some c) ∧
      t.planner = (Planning.start p).planner.apply c ∧
      Eased (Planning.start p).planner t.planner 2 o.partition c before after := by
  obtain ⟨p, _, _, hp, -, -, -, hpass⟩ :=
    exists_pass quartet 2 (fun _ _ _ => true) (by decide +kernel)
  have hstart : Planning.passes 2 0 (.start p) = .ok (.start p) := rfl
  exact ⟨p, _, hp, hstart, hpass, relief_of_pass (reachable_quartet hp) hstart hpass⟩

/-- The first record goes to partition 1, which can take it. It leaves with one access, but its
three edges come to cross, so that the load of partition 0 is higher than before by a half. -/
theorem not_relieved_quartet : ∃ p o c t before after, quartet = .ok p ∧ p.Reachable ∧
    0 ≤ p.tuning.crossCost ∧ 1 ≤ p.tuning.overload ∧ p.overload? 2 = some o ∧
    p.nextClump 2 = .ok (some c) ∧ p.Fits o c ∧ Planning.pass 2 (.start p) = .ok (some t) ∧
    (p.graph.loads 2 p.tuning.crossCost)[o.partition]? = some before ∧
    (t.planner.graph.loads 2 t.planner.tuning.crossCost)[o.partition]? = some after ∧
    before.total = 4 ∧ after.total = 9 / 2 ∧ ¬ after.total < before.total := by
  obtain ⟨p, o, c, hp, ho, hc, hcheck, hpass⟩ := exists_pass quartet 2 (fun p o c =>
    decide (0 ≤ p.tuning.crossCost ∧ 1 ≤ p.tuning.overload ∧ o.partition < 2) &&
      p.fits o c &&
      decide ((p.graph.loadOn p.tuning.crossCost o.partition).total = 4 ∧
        ((p.apply c).graph.loadOn p.tuning.crossCost o.partition).total = 9 / 2))
    (by decide +kernel)
  simp only [Bool.and_eq_true, decide_eq_true_eq] at hcheck
  obtain ⟨⟨⟨hcost, hoverload, hlt⟩, hfits⟩, hbefore, hafter⟩ := hcheck
  refine ⟨p, o, c, _, _, _, hp, reachable_quartet hp, hcost, hoverload, ho, hc, hfits, hpass,
    Graph.getElem?_loads _ _ hlt, Graph.getElem?_loads _ _ hlt, hbefore, hafter, ?_⟩
  have hmoved : ((Planning.start p).move c).planner = p.apply c := rfl
  have htuning : (p.apply c).tuning = p.tuning := rfl
  rw [hmoved, htuning, hbefore, hafter]
  norm_num

end Planner

end Reshard
