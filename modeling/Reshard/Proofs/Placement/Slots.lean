import Reshard.Placement.Directory
import Reshard.Proofs.Collections

/-!
The slots of the directory. A slot that is taken and the entry that sits in it name each other, and
the slots given back are exactly the empty ones that were taken before. `takeSlot_spec` says that
a new entry always gets an empty slot, and that an eviction on the way loses nothing.
-/

namespace Reshard

namespace Directory

/-- The slots are in order, and `free` lists those that were given back. -/
structure Orderly (d : Directory) (free : List Nat) : Prop where
  occupant_iff : ∀ (slot : Nat) (k : Key),
    d.occupants[slot]? = some k ↔ ∃ p, d.seated[k]? = some (Seat.mk slot p)
  empty_iff : ∀ slot : Nat, d.occupants[slot]? = none ↔ slot ∈ free ∨ d.fresh ≤ slot
  free_nodup : free.Nodup
  free_lt : ∀ slot ∈ free, slot < d.fresh
  fresh_le : d.fresh ≤ d.capacity
  victim_lt : d.victim < d.capacity
  /-- No key is in both tiers. -/
  apart : ∀ (k : Key) (seat : Seat), d.seated[k]? = some seat → d.overflow[k]? = none

theorem orderly_empty (capacity : Nat) : (empty capacity).Orderly [] where
  occupant_iff := by simp [empty]
  empty_iff := by simp [empty]
  free_nodup := List.nodup_nil
  free_lt := by simp
  fresh_le := Nat.zero_le _
  victim_lt := (empty capacity).capacity_pos
  apart := by simp [empty]

theorem Orderly.slot_lt {d : Directory} {free : List Nat} (h : d.Orderly free) {k : Key}
    {seat : Seat} (hk : d.seated[k]? = some seat) :
    d.occupants[seat.slot]? = some k ∧ seat.slot < d.capacity := by
  have hoccupant : d.occupants[seat.slot]? = some k := (h.occupant_iff _ _).mpr ⟨_, hk⟩
  refine ⟨hoccupant, ?_⟩
  rcases Nat.lt_or_ge seat.slot d.fresh with hlt | hge
  · exact Nat.lt_of_lt_of_le hlt h.fresh_le
  · have hempty := (h.empty_iff seat.slot).mpr (.inr hge)
    rw [hoccupant] at hempty
    nomatch hempty

/-! ## Changing one entry -/

section

variable {d : Directory} {free : List Nat} {k : Key} {slot : Nat} {p : PartitionId}

/-- Puts an entry in a slot. -/
def seat (d : Directory) (k : Key) (slot : Nat) (p : PartitionId) : Directory :=
  { d with
    seated := d.seated.insert k ⟨slot, p⟩
    occupants := d.occupants.insert slot k }

/-- Takes an entry out of its slot. -/
def unseat (d : Directory) (k : Key) (slot : Nat) : Directory :=
  { d with
    seated := d.seated.erase k
    occupants := d.occupants.erase slot }

theorem Orderly.seat (h : d.Orderly (slot :: free)) (hseated : d.seated[k]? = none)
    (hoverflow : d.overflow[k]? = none) : (d.seat k slot p).Orderly free := by
  obtain ⟨hslot, hfree⟩ := List.nodup_cons.mp h.free_nodup
  have hempty : d.occupants[slot]? = none := (h.empty_iff slot).mpr (.inl List.mem_cons_self)
  have hlt := h.free_lt slot List.mem_cons_self
  refine { h with
    occupant_iff := ?_, empty_iff := ?_, free_nodup := hfree, free_lt := ?_, apart := ?_ }
  · intro s a
    have hs := h.occupant_iff s a
    simp only [Directory.seat, Std.ExtTreeMap.getElem?_insert, Std.compare_eq_iff_eq]
    by_cases hka : k = a <;> by_cases hss : slot = s
    · simp [hka, hss]
    · subst hka
      simp [hss, hs, hseated]
    · subst hss
      simp [hka, ← hs, hempty]
    · simp [hka, hss, hs]
  · intro s
    have hs := h.empty_iff s
    simp only [Directory.seat, Std.ExtTreeMap.getElem?_insert, Std.compare_eq_iff_eq]
    by_cases hss : slot = s
    · subst hss
      simp [hslot, hlt]
    · simp [hss, hs, Ne.symm hss]
  · intro s hs
    exact h.free_lt s (List.mem_cons_of_mem _ hs)
  · intro a st ha
    simp only [Directory.seat, Std.ExtTreeMap.getElem?_insert, Std.compare_eq_iff_eq] at ha
    by_cases hka : k = a
    · rw [← hka]
      exact hoverflow
    · rw [if_neg hka] at ha
      exact h.apart a st ha

theorem Orderly.unseat (h : d.Orderly free) (hk : d.seated[k]? = some (Seat.mk slot p)) :
    (d.unseat k slot).Orderly (slot :: free) := by
  obtain ⟨hoccupant, -⟩ := h.slot_lt hk
  have htaken : ¬ (slot ∈ free ∨ d.fresh ≤ slot) := by
    rw [← h.empty_iff, hoccupant]
    simp
  refine { h with
    occupant_iff := ?_, empty_iff := ?_, free_nodup := ?_, free_lt := ?_, apart := ?_ }
  · intro s a
    have hs := h.occupant_iff s a
    simp only [Directory.unseat, Std.ExtTreeMap.getElem?_erase, Std.compare_eq_iff_eq]
    by_cases hka : k = a <;> by_cases hss : slot = s
    · simp [hka, hss]
    · subst hka
      simp [hss, hs, hk]
    · subst hss
      have hother : d.occupants[slot]? ≠ some a := by
        rw [hoccupant]
        simpa using hka
      simp [hka, ← hs, hother]
    · simp [hka, hss, hs]
  · intro s
    have hs := h.empty_iff s
    simp only [Directory.unseat, Std.ExtTreeMap.getElem?_erase, Std.compare_eq_iff_eq]
    by_cases hss : slot = s
    · simp [hss]
    · simp [hss, hs, Ne.symm hss]
  · exact List.nodup_cons.mpr ⟨fun hmem => htaken (.inl hmem), h.free_nodup⟩
  · intro s hs
    rcases List.mem_cons.mp hs with rfl | hs
    · exact Nat.lt_of_not_le fun hle => htaken (.inr hle)
    · exact h.free_lt s hs
  · intro a st ha
    simp only [Directory.unseat, Std.ExtTreeMap.getElem?_erase, Std.compare_eq_iff_eq] at ha
    split at ha
    · nomatch ha
    · exact h.apart a st ha

/-- An entry may change its partition in its slot. -/
theorem Orderly.change (h : d.Orderly free) (hk : d.seated[k]? = some (Seat.mk slot p))
    (q : PartitionId) :
    Orderly { d with seated := d.seated.insert k ⟨slot, q⟩ } free := by
  refine { h with occupant_iff := ?_, apart := ?_ }
  · intro s a
    have hs := h.occupant_iff s a
    simp only [Std.ExtTreeMap.getElem?_insert, Std.compare_eq_iff_eq]
    by_cases hka : k = a
    · subst hka
      rw [hs, hk]
      simp
    · simp [hka, hs]
  · intro a st ha
    have hap := h.apart a
    have hapk := h.apart k _ hk
    simp only [Std.ExtTreeMap.getElem?_insert, Std.compare_eq_iff_eq] at ha
    by_cases hka : k = a
    · rw [← hka]
      exact hapk
    · rw [if_neg hka] at ha
      exact hap st ha

/-- An entry without a slot may go to the overflow, and change there. -/
theorem Orderly.spill (h : d.Orderly free) (hk : d.seated[k]? = none) (q : PartitionId) :
    Orderly { d with overflow := d.overflow.insert k q } free := by
  refine { h with apart := ?_ }
  intro a st ha
  have hne : k ≠ a := by
    rintro rfl
    rw [hk] at ha
    nomatch ha
  simpa [Std.ExtTreeMap.getElem?_insert, hne] using h.apart a st ha

theorem Orderly.forget (h : d.Orderly free) (k : Key) :
    Orderly { d with overflow := d.overflow.erase k } free := by
  refine { h with apart := ?_ }
  intro a st ha
  simp [Std.ExtTreeMap.getElem?_erase, h.apart a st ha]

/-- The turn to be evicted may pass to the next slot. -/
theorem Orderly.advance (h : d.Orderly free) :
    Orderly { d with victim := (d.victim + 1) % d.capacity } free :=
  { h with victim_lt := Nat.mod_lt _ d.capacity_pos }

end

/-! ## Taking a slot -/

/-- The entry in the victim's slot goes to the overflow, and the turn to the next slot. -/
def expel (d : Directory) (k : Key) (p : PartitionId) : Directory :=
  { d.unseat k d.victim with
    overflow := d.overflow.insert k p
    victim := (d.victim + 1) % d.capacity }

section

variable {d : Directory} {free : List Nat} {k : Key} {p : PartitionId}

theorem Orderly.expel (h : d.Orderly free) (hk : d.seated[k]? = some (Seat.mk d.victim p)) :
    (d.expel k p).Orderly (d.victim :: free) := by
  have hnone : (d.unseat k d.victim).seated[k]? = none := by simp [Directory.unseat]
  exact ((h.unseat hk).spill hnone p).advance

theorem get?_expel (hk : d.seated[k]? = some (Seat.mk d.victim p)) (a : Key) :
    (d.expel k p).get? a = d.get? a := by
  simp only [expel, unseat, get?, Std.ExtTreeMap.getElem?_erase, Std.ExtTreeMap.getElem?_insert,
    Std.compare_eq_iff_eq]
  by_cases hka : k = a
  · subst hka
    simp [hk]
  · simp [hka]

theorem size_expel (hk : d.seated[k]? = some (Seat.mk d.victim p))
    (hoverflow : d.overflow[k]? = none) : (d.expel k p).size = d.size := by
  have hleft := Collections.size_erase_add d.seated k
  have hcame := Collections.size_insert_add d.overflow k p
  simp only [Collections.contains_of_some hk, Collections.contains_of_none hoverflow, if_true,
    Bool.false_eq_true, if_false] at hleft hcame
  simp only [expel, unseat, size]
  omega

/-- The first slot that was never taken is empty, and comes after all that were. -/
theorem Orderly.open_fresh (h : d.Orderly d.freed) (hfreed : d.freed = [])
    (hlt : d.fresh < d.capacity) :
    Orderly { d with fresh := d.fresh + 1 } (d.fresh :: d.freed) := by
  rw [hfreed] at h ⊢
  refine { h with empty_iff := ?_, free_nodup := ?_, free_lt := ?_, fresh_le := hlt }
  · intro slot
    have hslot := h.empty_iff slot
    simp only [List.not_mem_nil, false_or] at hslot
    simp only [hslot, List.mem_singleton]
    omega
  · simp
  · simp

end

/-- A slot is one given back, else one never taken, else, when all are taken, the victim's. -/
theorem takeSlot_cases {d : Directory} (h : d.Orderly d.freed) :
    (∃ slot rest, d.freed = slot :: rest ∧ d.takeSlot = (slot, { d with freed := rest })) ∨
    (d.freed = [] ∧ d.fresh < d.capacity ∧
      d.takeSlot = (d.fresh, { d with fresh := d.fresh + 1 })) ∨
    ∃ k p, d.freed = [] ∧ d.fresh = d.capacity ∧
      d.seated[k]? = some (Seat.mk d.victim p) ∧ d.takeSlot = (d.victim, d.expel k p) := by
  cases hfreed : d.freed with
  | cons slot rest =>
    refine .inl ⟨slot, rest, rfl, ?_⟩
    simp [takeSlot, takeFree?, hfreed]
  | nil =>
    right
    rcases Nat.lt_or_ge d.fresh d.capacity with hlt | hge
    · refine .inl ⟨rfl, hlt, ?_⟩
      simp [takeSlot, takeFree?, hfreed, hlt]
    · have hfull : d.fresh = d.capacity := Nat.le_antisymm h.fresh_le hge
      -- All slots were taken before and none was given back, so that the victim's is taken.
      have htaken : d.occupants[d.victim]? ≠ none := by
        rw [ne_eq, h.empty_iff, hfreed, hfull]
        have hvictim := h.victim_lt
        simp
        omega
      obtain ⟨k, hk⟩ := Option.ne_none_iff_exists'.mp htaken
      obtain ⟨p, hp⟩ := (h.occupant_iff _ _).mp hk
      have hoccupant : d.occupant? d.victim = some (k, p) := by
        simp [occupant?, hk, hp]
      refine .inr ⟨k, p, rfl, hfull, hp, ?_⟩
      simp [takeSlot, takeFree?, hfreed, Nat.not_lt.mpr hge, evict, hoccupant, expel, unseat]

/-- A new entry gets an empty slot, while all entries stay what they are. -/
theorem takeSlot_spec {d : Directory} (h : d.Orderly d.freed) :
    d.takeSlot.2.Orderly (d.takeSlot.1 :: d.takeSlot.2.freed) ∧
    (∀ a, d.takeSlot.2.get? a = d.get? a) ∧
    d.takeSlot.2.size = d.size ∧
    d.takeSlot.2.counts = d.counts := by
  rcases takeSlot_cases h with ⟨slot, rest, hfreed, htake⟩ | ⟨hfreed, hlt, htake⟩ |
    ⟨k, p, hfreed, -, hk, htake⟩
  · rw [htake]
    rw [hfreed] at h
    exact ⟨{ h with }, fun _ => rfl, rfl, rfl⟩
  · rw [htake]
    exact ⟨h.open_fresh hfreed hlt, fun _ => rfl, rfl, rfl⟩
  · rw [htake]
    exact ⟨h.expel hk, get?_expel hk, size_expel hk (h.apart k _ hk), rfl⟩

end Directory

end Reshard
