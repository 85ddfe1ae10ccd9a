import Reshard.Placement.Ranges

/-!
Draining a partition into the others. The moves that drain it cover every id that it owns by its
number exactly once, and no other id (`consolidate_covers`). The last partition is also home to the
ids after its range, which none of these moves covers (`not_covered_after_last`).
-/

namespace Reshard

theorem IdRange.contains_iff {ids : IdRange} {k : Key} :
    ids.contains k = true ↔ ids.first ≤ k.id ∧ k.id < ids.last := by
  rw [IdRange.contains, Bool.and_eq_true, decide_eq_true_iff, decide_eq_true_iff]

namespace Ranges

/-! ## Homes -/

theorem contains_owned_iff {r : Ranges} {p : PartitionId} {k : Key} :
    (r.owned p).contains k = true ↔ p * r.width ≤ k.id ∧ k.id < (p + 1) * r.width := by
  rw [IdRange.contains_iff, Nat.succ_mul]
  rfl

theorem contains_owned_iff_div {r : Ranges} {p : PartitionId} {k : Key} :
    (r.owned p).contains k = true ↔ k.id / r.width = p := by
  rw [contains_owned_iff, ← Nat.le_div_iff_mul_le r.width_pos,
    ← Nat.div_lt_iff_lt_mul r.width_pos]
  omega

/-- A partition is home to the ids that it owns by its number, and the last one also to all ids
after them. -/
theorem home_eq_iff (r : Ranges) {p : Nat} (hp : p < r.partitions) (k : Key) :
    r.home k = p ↔ (r.owned p).contains k = true ∨
      (p + 1 = r.partitions ∧ (p + 1) * r.width ≤ k.id) := by
  rw [contains_owned_iff_div, ← Nat.le_div_iff_mul_le r.width_pos]
  change min (k.id / r.width) (r.partitions - 1) = p ↔ _
  omega

/-! ## Slices -/

section

variable {owned : IdRange} {width count i : Nat} {k : Key}

/-- There are no more slices than ids, and together they are no longer than the range. -/
theorem slices_fit {total : Nat} (hi : i < min count total) :
    max (total / count) 1 * (i + 1) ≤ total := by
  rcases Nat.lt_or_ge total count with hlt | hle
  · rw [Nat.div_eq_of_lt hlt, Nat.max_eq_right (Nat.zero_le 1)]
    omega
  · have hpos : 1 ≤ total / count := (Nat.one_le_div_iff (by omega)).mpr hle
    rw [Nat.max_eq_left hpos]
    calc total / count * (i + 1) ≤ total / count * count := Nat.mul_le_mul_left _ (by omega)
      _ ≤ total := Nat.div_mul_le_self total count

/-- The number of the slice that an id of the range is in; the last slice takes the rest. -/
def sliceOf (owned : IdRange) (width count : Nat) (k : Key) : Nat :=
  min ((k.id - owned.first) / width) (count - 1)

theorem sliceOf_lt (hcount : 0 < count) (hk : owned.contains k = true) :
    sliceOf owned width count k < min count owned.width := by
  rw [IdRange.contains_iff] at hk
  have hle : (k.id - owned.first) / width ≤ k.id - owned.first := Nat.div_le_self _ _
  rw [sliceOf, IdRange.width]
  omega

theorem contains_slice_iff (hwidth : 0 < width) (hi : i < count)
    (hfits : width * (i + 1) ≤ owned.width) :
    (slice owned width count i).contains k = true ↔
      owned.contains k = true ∧ sliceOf owned width count k = i := by
  have hfrom : i ≤ (k.id - owned.first) / width ↔ width * i ≤ k.id - owned.first := by
    rw [Nat.le_div_iff_mul_le hwidth, Nat.mul_comm]
  have hto : (k.id - owned.first) / width < i + 1 ↔ k.id - owned.first < width * (i + 1) := by
    rw [Nat.div_lt_iff_lt_mul hwidth, Nat.mul_comm]
  rw [IdRange.width] at hfits
  rw [Nat.mul_succ] at hfits hto
  rw [IdRange.contains_iff, IdRange.contains_iff, sliceOf, slice]
  dsimp only
  split <;> omega

end

/-- The moves that drain partition `p` into so many others. -/
def drains (r : Ranges) (p : PartitionId) (count : Nat) : List Move :=
  (List.range (min count r.width)).map fun i =>
    Move.ofRange p (receiver p i) (slice (r.owned p) (max (r.width / count) 1) count i)

theorem consolidate_eq_drains {r : Ranges} {p : PartitionId} {n : Nat}
    (hcount : receiverCount p n ≠ 0) (hfits : (p + 1) * r.width < Word.limit) :
    r.consolidate p n = .ok (r.drains p (receiverCount p n)) := by
  have hlast : (r.owned p).last < Word.limit := by
    rw [Nat.succ_mul] at hfits
    exact hfits
  have hspan : r.span p = .ok (r.owned p) := by
    rw [span, Word.check_of_lt hlast]
    rfl
  rw [consolidate]
  dsimp only
  rw [if_neg hcount, hspan]
  rfl

/-- Every id of the range is covered once, and no other id is. -/
theorem countP_drains (r : Ranges) (p : PartitionId) {count : Nat} (hcount : 0 < count) (k : Key) :
    (r.drains p count).countP (·.covers k) = if (r.owned p).contains k then 1 else 0 := by
  have hwidth : (r.owned p).width = r.width := Nat.add_sub_cancel_left _ _
  let number := sliceOf (r.owned p) (max (r.width / count) 1) count k
  have hslice : ∀ i ∈ List.range (min count r.width),
      ((slice (r.owned p) (max (r.width / count) 1) count i).contains k = true ↔
        ((r.owned p).contains k && i == number) = true) := by
    intro i hi
    have hi : i < min count r.width := List.mem_range.mp hi
    have hfits : max (r.width / count) 1 * (i + 1) ≤ (r.owned p).width := by
      rw [hwidth]
      exact slices_fit hi
    rw [contains_slice_iff (by omega) (by omega : i < count) hfits, Bool.and_eq_true, beq_iff_eq,
      eq_comm (a := i)]
  rw [drains, List.countP_map]
  refine (List.countP_congr hslice).trans ?_
  by_cases hk : (r.owned p).contains k = true
  · have hlt : number < min count r.width := by
      rw [← hwidth]
      exact sliceOf_lt hcount hk
    have hone : (List.range (min count r.width)).count number = 1 := by
      rw [List.count_range, if_pos hlt]
    simp only [hk, Bool.true_and, if_true]
    exact hone
  · simp [hk]

/-- The moves that drain a partition cover the ids that it owns by its number, each of them once,
and no other ids. Only the last partition is home to more than these: to all ids after its range. -/
theorem consolidate_covers (r : Ranges) {p : Nat} (hn : 2 ≤ r.partitions)
    (hp : p < r.partitions) (hfits : (p + 1) * r.width < Word.limit) :
    ∃ ms, r.consolidate p r.partitions = .ok ms ∧
      (∀ k, ms.countP (·.covers k) =
        if p * r.width ≤ k.id ∧ k.id < (p + 1) * r.width then 1 else 0) ∧
      ∀ k, r.home k = p → (ms.countP (·.covers k) = 1 ↔
        ¬ (p + 1 = r.partitions ∧ (p + 1) * r.width ≤ k.id)) := by
  have hcount : receiverCount p r.partitions = r.partitions - 1 := by
    rw [receiverCount, if_pos hp]
  have hcovers : ∀ k, (r.drains p (r.partitions - 1)).countP (·.covers k) =
      if p * r.width ≤ k.id ∧ k.id < (p + 1) * r.width then 1 else 0 := by
    intro k
    rw [r.countP_drains p (by omega)]
    simp only [contains_owned_iff]
  refine ⟨r.drains p (r.partitions - 1), ?_, hcovers, fun k hk => ?_⟩
  · rw [← hcount]
    exact consolidate_eq_drains (by omega) hfits
  · rw [hcovers]
    rcases (r.home_eq_iff hp k).mp hk with howned | ⟨hlast, hafter⟩
    · rw [contains_owned_iff] at howned
      rw [if_pos howned]
      exact iff_of_true rfl fun hafter => Nat.not_lt.mpr hafter.2 howned.2
    · rw [if_neg fun howned => Nat.not_lt.mpr hafter howned.2]
      exact iff_of_false Nat.zero_ne_one fun hnot => hnot ⟨hlast, hafter⟩

/-- Of two partitions with ten ids each, the second one is drained. -/
theorem consolidate_covers_second : ∃ ms, (make 2 10 []).consolidate 1 2 = .ok ms ∧
    ms.countP (·.covers ⟨"t", 15⟩) = 1 ∧ ms.countP (·.covers ⟨"t", 25⟩) = 0 := by
  obtain ⟨ms, hms, hcovers, -⟩ :=
    (make 2 10 []).consolidate_covers (p := 1) (by decide) (by decide) (by decide)
  exact ⟨ms, hms, hcovers ⟨"t", 15⟩, hcovers ⟨"t", 25⟩⟩

/-- The second partition is home to an id after its range, which is left where it is. -/
theorem not_covered_after_last : ∃ ms, (make 2 10 []).consolidate 1 2 = .ok ms ∧
    (make 2 10 []).home ⟨"t", 25⟩ = 1 ∧ ms.countP (·.covers ⟨"t", 25⟩) = 0 :=
  ⟨[.ofRange 1 0 ⟨10, 20⟩], rfl, rfl, rfl⟩

end Ranges

end Reshard
