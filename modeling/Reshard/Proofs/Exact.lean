import Mathlib.Algebra.BigOperators.Ring.Finset
import Mathlib.Algebra.Order.Field.Rat
import Mathlib.Tactic.Ring
import Reshard.Weight
import Reshard.Proofs.Collections

/-!
Weights as rational numbers, where sums are exact: the order in which a sum is taken makes no
difference, and a sum over a list or a map is one over all numbers below a bound.
-/

namespace Reshard

instance : Weight ℚ where
  decidableLT := inferInstance
  decidableLE := inferInstance

namespace Exact

theorem foldl_add {α : Type} (f : α → ℚ) (l : List α) (start : ℚ) :
    l.foldl (fun total x => total + f x) start = start + (l.map f).sum := by
  induction l generalizing start with
  | nil => simp
  | cons x rest ih => rw [List.foldl_cons, ih, List.map_cons, List.sum_cons, add_assoc]

theorem sum_eq (ws : List ℚ) : Weight.sum ws = ws.sum := by
  rw [Weight.sum, foldl_add (fun w => w), List.map_id']
  exact zero_add _

/-- The sum over a list, read at its positions. -/
theorem sum_eq_sum_range {α : Type} (f : α → ℚ) (l : List α) :
    (l.map f).sum = ∑ i ∈ Finset.range l.length, ((l[i]?).map f).getD 0 := by
  induction l with
  | nil => simp
  | cons x rest ih => simp [Finset.sum_range_succ', ih, add_comm]

/-- The sum over some numbers, each counted once, of what is zero above a bound. -/
theorem sum_of_nodup {n : Nat} {ids : List Nat} (h : ids.Nodup) {f : Nat → ℚ}
    (hzero : ∀ id ∈ ids, n ≤ id → f id = 0) :
    (ids.map f).sum = ∑ i ∈ Finset.range n, if i ∈ ids then f i else 0 := by
  have hsubset : ids.toFinset.filter (· < n) ⊆ ids.toFinset := Finset.filter_subset _ _
  rw [← List.sum_toFinset f h, ← Finset.sum_filter, ← Finset.sum_subset hsubset]
  · congr 1
    ext i
    simp only [List.mem_toFinset, Finset.mem_filter, Finset.mem_range]
    exact and_comm
  · intro i hi hnot
    rw [List.mem_toFinset] at hi
    apply hzero i hi
    rcases Nat.lt_or_ge i n with hlt | hge
    · exact absurd (Finset.mem_filter.mpr ⟨List.mem_toFinset.mpr hi, hlt⟩) hnot
    · exact hge

/-- The sum over a map whose keys are below a bound. -/
theorem sum_toList {β : Type} {n : Nat} (m : Std.ExtTreeMap Nat β)
    (hlt : ∀ i b, m[i]? = some b → i < n) (f : Nat → β → ℚ) :
    (m.toList.map fun e => f e.1 e.2).sum =
      ∑ i ∈ Finset.range n, ((m[i]?).map (f i)).getD 0 := by
  have hf : ∀ e ∈ m.toList, f e.1 e.2 = ((m[e.1]?).map (f e.1)).getD 0 := by
    intro e he
    rw [Std.ExtTreeMap.mem_toList_iff_getElem?_eq_some.mp he]
    rfl
  have hkeys : m.toList.map (fun e => ((m[e.1]?).map (f e.1)).getD 0) =
      m.keys.map fun i => ((m[i]?).map (f i)).getD 0 := by
    rw [← Std.ExtTreeMap.map_fst_toList_eq_keys, List.map_map]
    rfl
  have habove : ∀ i ∈ m.keys, n ≤ i → ((m[i]?).map (f i)).getD 0 = 0 := by
    intro i _ hi
    cases hb : m[i]? with
    | none => rfl
    | some b => exact absurd (hlt i b hb) (Nat.not_lt.mpr hi)
  rw [List.map_congr_left hf, hkeys, sum_of_nodup (Collections.nodup_keys m) habove]
  apply Finset.sum_congr rfl
  intro i _
  split
  · rfl
  · next h =>
    rw [Std.ExtTreeMap.mem_keys] at h
    rw [Std.ExtTreeMap.getElem?_eq_none h]
    rfl

end Exact

end Reshard
