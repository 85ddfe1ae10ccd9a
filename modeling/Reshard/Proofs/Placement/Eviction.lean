import Mathlib.Data.List.Induction
import Reshard.Proofs.Placement.Refinement

/-!
Which entries leave their slots, and when. An update does one of four things to the tiers of the
keys (`Shift`), and only a new key that finds every slot taken has another one go to the overflow.
The turn passes from slot to slot with each eviction, whatever is freed and taken in between, so
that slots are evicted from strictly round robin (`roundRobin_after`).
-/

namespace Reshard

/-! ## Turns -/

/-- The remainders of as many numbers in a row are all of them. -/
theorem perm_window {c : Nat} (n : Nat) : ((List.range' n c).map (· % c)).Perm (List.range c) := by
  cases c with
  | zero => exact .refl _
  | succ c =>
    induction n with
    | zero =>
      rw [← List.range_eq_range']
      have hsame : (List.range (c + 1)).map (· % (c + 1)) = List.range (c + 1) := by
        rw [List.map_congr_left fun i hi => Nat.mod_eq_of_lt (List.mem_range.mp hi), List.map_id']
      rw [hsame]
    | succ n ih =>
      have hnext : (n + 1 + 1 * c) % (c + 1) = n % (c + 1) := by
        have hsum : n + 1 + 1 * c = n + (c + 1) := by omega
        rw [hsum, Nat.add_mod_right]
      refine List.Perm.trans ?_ ih
      rw [List.range'_concat, List.map_append, List.map_singleton, hnext, List.range'_succ,
        List.map_cons]
      exact List.perm_append_comm

/-- Between a remainder and the next time that it comes, each other remainder comes once. -/
theorem count_window {c n m j : Nat} (hagain : (n + 1 + m) % c = n % c)
    (hbetween : n % c ∉ (List.range' (n + 1) m).map (· % c)) (hj : j < c) (hne : j ≠ n % c) :
    ((List.range' (n + 1) m).map (· % c)).count j = 1 := by
  have hround : c ∣ m + 1 := by
    have hsub : (n + 1 + m - n) % c = 0 := Nat.sub_mod_eq_zero_of_mod_eq hagain
    have hsum : n + 1 + m - n = m + 1 := by omega
    rw [hsum] at hsub
    exact Nat.dvd_of_mod_eq_zero hsub
  have hle : m + 1 ≤ c := by
    refine Nat.le_of_not_lt fun hlt =>
      hbetween (List.mem_map.mpr ⟨n + c, ?_, Nat.add_mod_right n c⟩)
    rw [List.mem_range'_1]
    omega
  have hc : c = m + 1 := Nat.le_antisymm (Nat.le_of_dvd (Nat.succ_pos m) hround) hle
  have hcount : ((List.range' n c).map (· % c)).count j = 1 := by
    rw [(perm_window n).count_eq, List.count_range, if_pos hj]
  rw [hc] at hcount hne ⊢
  rwa [List.range'_succ, List.map_cons, List.count_cons_of_ne (Ne.symm hne)] at hcount

/-- Two places in a list of values, as numbers. -/
theorem exists_window {f : Nat → Nat} {e i : Nat} {xs ys zs : List Nat}
    (h : (List.range e).map f = xs ++ i :: (ys ++ i :: zs)) :
    ∃ n m, f n = i ∧ ys = (List.range' (n + 1) m).map f ∧ f (n + 1 + m) = i := by
  rw [List.range_eq_range'] at h
  obtain ⟨_, _, hrange, -, hrest⟩ := List.map_eq_append_iff.mp h
  obtain ⟨n, -, -, rfl⟩ := List.range'_eq_append_iff.mp hrange
  obtain ⟨_, _, hrange, hfirst, hrest⟩ := List.map_eq_cons_iff.mp hrest
  obtain ⟨rfl, -, rfl⟩ := List.range'_eq_cons_iff.mp hrange
  obtain ⟨_, _, hrange, hys, hrest⟩ := List.map_eq_append_iff.mp hrest
  obtain ⟨m, -, rfl, rfl⟩ := List.range'_eq_append_iff.mp hrange
  obtain ⟨_, _, hrange, hlast, -⟩ := List.map_eq_cons_iff.mp hrest
  obtain ⟨rfl, -, -⟩ := List.range'_eq_cons_iff.mp hrange
  refine ⟨n, m, ?_, ?_, ?_⟩
  · simpa using hfirst
  · simpa using hys.symm
  · simpa using hlast

namespace Directory

/-! ## Tiers -/

/-- Where the entry of a key is. -/
inductive Tier
  | nowhere
  | slot (number : Nat)
  | overflow
  deriving DecidableEq

def tier (d : Directory) (k : Key) : Tier :=
  match d.seated[k]?, d.overflow[k]? with
  | some seat, _ => .slot seat.slot
  | none, some _ => .overflow
  | none, none => .nowhere

section

variable {d d' : Directory} {k a : Key} {i : Nat} {u : Update}

theorem tier_of_seated {s : Seat} (h : d.seated[k]? = some s) : d.tier k = .slot s.slot := by
  rw [tier, h]

theorem tier_of_overflowed {p : PartitionId} (hseated : d.seated[k]? = none)
    (h : d.overflow[k]? = some p) : d.tier k = .overflow := by
  rw [tier, hseated, h]

theorem tier_eq_nowhere_iff :
    d.tier k = .nowhere ↔ d.seated[k]? = none ∧ d.overflow[k]? = none := by
  rw [tier]
  split <;> simp_all

theorem tier_eq_slot_iff : d.tier k = .slot i ↔ ∃ p, d.seated[k]? = some (Seat.mk i p) := by
  cases hseated : d.seated[k]? with
  | some seat =>
    rw [tier_of_seated hseated, Tier.slot.injEq]
    constructor
    · rintro rfl
      exact ⟨seat.partition, rfl⟩
    · rintro ⟨p, hp⟩
      rw [Option.some.inj hp]
  | none => cases hoverflow : d.overflow[k]? <;> simp [tier, hseated, hoverflow]

theorem tier_congr (hseated : d'.seated[k]? = d.seated[k]?)
    (hoverflow : d'.overflow[k]? = d.overflow[k]?) : d'.tier k = d.tier k := by
  rw [tier, tier, hseated, hoverflow]

end

/-! ## One update -/

/-- The directory after an update. -/
def apply (d : Directory) : Update → Directory
  | .set k p => d.set k p
  | .remove k => (d.remove k).2

/-- Every slot is taken. -/
def Full (d : Directory) : Prop := ∀ i < d.capacity, ∃ k, d.tier k = .slot i

/-- A key that the directory does not know is set. -/
def Brings (d : Directory) (u : Update) : Prop := ∃ k p, u = .set k p ∧ d.tier k = .nowhere

/-- A key that the directory knows is removed. -/
def Drops (d : Directory) (u : Update) : Prop := ∃ k, u = .remove k ∧ d.tier k ≠ .nowhere

theorem not_drops_set (d : Directory) (k : Key) (p : PartitionId) : ¬ d.Drops (.set k p) := nofun

theorem not_brings_remove (d : Directory) (k : Key) : ¬ d.Brings (.remove k) := nofun

/-- What an update does to the tiers of the keys. -/
inductive Shift (d : Directory) (u : Update) (d' : Directory) : Prop
  /-- An entry changes where it is, or there is none to drop. -/
  | keep : ¬ d.Brings u → ¬ d.Drops u → (∀ a, d'.tier a = d.tier a) →
      d'.victim = d.victim → Shift d u d'
  | drop (k : Key) : u = .remove k → d'.tier k = .nowhere →
      (∀ a ≠ k, d'.tier a = d.tier a) → d'.victim = d.victim → Shift d u d'
  /-- A new entry takes an empty slot. -/
  | place (k : Key) (p : PartitionId) (i : Nat) : u = .set k p → d.tier k = .nowhere →
      i < d.capacity → (∀ a, d.tier a ≠ .slot i) → d'.tier k = .slot i →
      (∀ a ≠ k, d'.tier a = d.tier a) → d'.victim = d.victim → Shift d u d'
  /-- A new entry takes the slot of a victim. -/
  | evict (k : Key) (p : PartitionId) (v : Key) : u = .set k p → d.tier k = .nowhere →
      d.Full → d.tier v = .slot d.victim →
      d'.tier k = .slot d.victim → d'.tier v = .overflow →
      (∀ a, a ≠ k → a ≠ v → d'.tier a = d.tier a) →
      d'.victim = (d.victim + 1) % d.capacity → Shift d u d'

section

variable {d : Directory} {k : Key} {p : PartitionId}

theorem not_brings_set (hk : d.tier k ≠ .nowhere) : ¬ d.Brings (.set k p) := by
  rintro ⟨a, q, heq, ha⟩
  cases heq
  exact hk ha

theorem shift_set_of_seated {seat : Seat} (hk : d.seated[k]? = some seat) :
    Shift d (.set k p) (d.set k p) := by
  have hset : d.set k p = { d with
      seated := d.seated.insert k { seat with partition := p }
      counts := countUp (countDown d.counts seat.partition) p } := by
    simp [set, hk]
  have hknown : ¬ d.Brings (.set k p) := not_brings_set (by simp [tier_of_seated hk])
  refine .keep hknown (d.not_drops_set k p) (fun a => ?_) (by rw [hset])
  rw [hset]
  rcases eq_or_ne k a with rfl | hne
  · rw [tier_of_seated hk]
    exact tier_of_seated (s := { seat with partition := p }) Std.ExtTreeMap.getElem?_insert_self
  · exact tier_congr (by simp [Std.ExtTreeMap.getElem?_insert, hne]) rfl

theorem shift_set_of_overflowed {q : PartitionId} (hseated : d.seated[k]? = none)
    (hk : d.overflow[k]? = some q) : Shift d (.set k p) (d.set k p) := by
  have hset : d.set k p = { d with
      overflow := d.overflow.insert k p
      counts := countUp (countDown d.counts q) p } := by
    simp [set, hseated, hk]
  have hknown : ¬ d.Brings (.set k p) := not_brings_set (by simp [tier_of_overflowed hseated hk])
  refine .keep hknown (d.not_drops_set k p) (fun a => ?_) (by rw [hset])
  rw [hset]
  rcases eq_or_ne k a with rfl | hne
  · rw [tier_of_overflowed hseated hk]
    exact tier_of_overflowed (p := p) hseated Std.ExtTreeMap.getElem?_insert_self
  · exact tier_congr rfl (by simp [Std.ExtTreeMap.getElem?_insert, hne])

theorem shift_remove_of_seated (h : d.Orderly d.freed) {seat : Seat}
    (hk : d.seated[k]? = some seat) : Shift d (.remove k) (d.remove k).2 := by
  have hremove : (d.remove k).2 = { d.unseat k seat.slot with
      freed := seat.slot :: d.freed
      counts := countDown d.counts seat.partition } := by
    simp [remove, hk, unseat]
  rw [hremove]
  refine .drop k rfl ?_ (fun a hne => ?_) rfl
  · exact tier_eq_nowhere_iff.mpr ⟨Std.ExtTreeMap.getElem?_erase_self, h.apart k _ hk⟩
  · exact tier_congr (by simp [unseat, Std.ExtTreeMap.getElem?_erase, Ne.symm hne]) rfl

theorem shift_remove_of_overflowed {q : PartitionId} (hseated : d.seated[k]? = none)
    (hk : d.overflow[k]? = some q) : Shift d (.remove k) (d.remove k).2 := by
  have hremove : (d.remove k).2 = { d with
      overflow := d.overflow.erase k
      counts := countDown d.counts q } := by
    simp [remove, hseated, hk]
  rw [hremove]
  refine .drop k rfl ?_ (fun a hne => ?_) rfl
  · exact tier_eq_nowhere_iff.mpr ⟨hseated, Std.ExtTreeMap.getElem?_erase_self⟩
  · exact tier_congr rfl (by simp [Std.ExtTreeMap.getElem?_erase, Ne.symm hne])

/-- A slot is empty if no entry sits in it. -/
theorem Orderly.not_taken {free : List Nat} (h : d.Orderly free) {i : Nat}
    (hi : d.occupants[i]? = none) (a : Key) : d.tier a ≠ .slot i := by
  intro ha
  rw [tier_eq_slot_iff, ← h.occupant_iff, hi] at ha
  nomatch ha

theorem Orderly.full (h : d.Orderly d.freed) (hfreed : d.freed = [])
    (hfresh : d.fresh = d.capacity) : d.Full := by
  intro i hi
  have htaken : d.occupants[i]? ≠ none := by
    rw [ne_eq, h.empty_iff, hfreed, hfresh]
    simpa using hi
  obtain ⟨a, ha⟩ := Option.ne_none_iff_exists'.mp htaken
  exact ⟨a, tier_eq_slot_iff.mpr ((h.occupant_iff _ _).mp ha)⟩

theorem tier_seat_self {i : Nat} : (d.seat k i p).tier k = .slot i :=
  tier_of_seated (s := ⟨i, p⟩) Std.ExtTreeMap.getElem?_insert_self

/-- A new entry in a slot leaves the tiers of all others as they are. -/
theorem tier_seat_of_ne {i : Nat} {a : Key} (hne : a ≠ k) : (d.seat k i p).tier a = d.tier a :=
  tier_congr (by simp [seat, Std.ExtTreeMap.getElem?_insert, Ne.symm hne]) rfl

theorem shift_set_of_new (h : d.Orderly d.freed) (hk : d.tier k = .nowhere) :
    Shift d (.set k p) (d.set k p) := by
  obtain ⟨hseated, hoverflow⟩ := tier_eq_nowhere_iff.mp hk
  rw [set_of_new hseated hoverflow]
  rcases takeSlot_cases h with ⟨slot, rest, hfreed, htake⟩ | ⟨hfreed, hlt, htake⟩ |
    ⟨v, q, hfreed, hfull, hv, htake⟩
  · have hempty : d.occupants[slot]? = none :=
      (h.empty_iff slot).mpr (.inl (by rw [hfreed]; exact List.mem_cons_self))
    have hslot : slot < d.capacity :=
      Nat.lt_of_lt_of_le (h.free_lt slot (by rw [hfreed]; exact List.mem_cons_self)) h.fresh_le
    rw [htake]
    exact .place k p slot rfl hk hslot (h.not_taken hempty) tier_seat_self
      (fun a hne => tier_seat_of_ne hne) rfl
  · have hempty : d.occupants[d.fresh]? = none := (h.empty_iff d.fresh).mpr (.inr (Nat.le_refl _))
    rw [htake]
    exact .place k p d.fresh rfl hk hlt (h.not_taken hempty) tier_seat_self
      (fun a hne => tier_seat_of_ne hne) rfl
  · have hne : v ≠ k := by
      rintro rfl
      rw [hseated] at hv
      nomatch hv
    rw [htake]
    refine .evict k p v rfl hk (h.full hfreed hfull) (tier_of_seated hv) tier_seat_self ?_
      (fun a hnek hnev => ?_) rfl
    · refine (tier_seat_of_ne hne).trans (tier_of_overflowed (p := q) ?_ ?_)
      · exact Std.ExtTreeMap.getElem?_erase_self
      · exact Std.ExtTreeMap.getElem?_insert_self
    · refine (tier_seat_of_ne hnek).trans (tier_congr ?_ ?_)
      · simp [expel, unseat, Std.ExtTreeMap.getElem?_erase, Ne.symm hnev]
      · simp [expel, Std.ExtTreeMap.getElem?_insert, Ne.symm hnev]

theorem shift_apply (h : d.Orderly d.freed) (u : Update) : Shift d u (d.apply u) := by
  cases u with
  | set k p =>
    cases hseated : d.seated[k]? with
    | some seat => exact shift_set_of_seated hseated
    | none =>
      cases hoverflow : d.overflow[k]? with
      | some q => exact shift_set_of_overflowed hseated hoverflow
      | none => exact shift_set_of_new h (tier_eq_nowhere_iff.mpr ⟨hseated, hoverflow⟩)
  | remove k =>
    cases hseated : d.seated[k]? with
    | some seat => exact shift_remove_of_seated h hseated
    | none =>
      cases hoverflow : d.overflow[k]? with
      | some q => exact shift_remove_of_overflowed hseated hoverflow
      | none =>
        have hsame : d.apply (.remove k) = d := by simp [apply, remove, hseated, hoverflow]
        rw [hsame]
        refine .keep (d.not_brings_remove k) ?_ (fun _ => rfl) rfl
        rintro ⟨a, heq, ha⟩
        cases heq
        exact ha (tier_eq_nowhere_iff.mpr ⟨hseated, hoverflow⟩)

end

theorem capacity_takeSlot (d : Directory) : d.takeSlot.2.capacity = d.capacity := by
  rw [takeSlot, takeFree?]
  cases d.freed with
  | cons slot rest => rfl
  | nil =>
    dsimp only
    split
    · next taken htaken =>
      split at htaken
      · cases htaken
        rfl
      · cases htaken
    · rw [evict]
      split <;> rfl

theorem capacity_apply (d : Directory) (u : Update) : (d.apply u).capacity = d.capacity := by
  cases u with
  | set k p =>
    rw [apply, set]
    split
    · rfl
    · split
      · rfl
      · exact d.capacity_takeSlot
  | remove k =>
    rw [apply, remove]
    split
    · rfl
    · split <;> rfl

/-! ## Evictions -/

/-- The keys that leave their slots for the overflow with an update, and these slots. -/
def evicted (d : Directory) (u : Update) : List (Key × Nat) :=
  (d.seated.toList.filter fun e => (d.apply u).tier e.1 = .overflow).map fun e => (e.1, e.2.slot)

/-- What the updates of a run evict, in order. -/
def evictions (d : Directory) : List Update → List (Key × Nat)
  | [] => []
  | u :: rest => d.evicted u ++ (d.apply u).evictions rest

section

variable {d : Directory} {u : Update} {k v : Key} {i : Nat}

theorem mem_evicted :
    (k, i) ∈ d.evicted u ↔ d.tier k = .slot i ∧ (d.apply u).tier k = .overflow := by
  rw [evicted, List.mem_map, tier_eq_slot_iff]
  constructor
  · rintro ⟨⟨a, seat⟩, ha, heq⟩
    cases heq
    obtain ⟨ha, hoverflow⟩ := List.mem_filter.mp ha
    exact ⟨⟨seat.partition, Std.ExtTreeMap.mem_toList_iff_getElem?_eq_some.mp ha⟩,
      of_decide_eq_true hoverflow⟩
  · rintro ⟨⟨p, hp⟩, hoverflow⟩
    exact ⟨(k, ⟨i, p⟩), List.mem_filter.mpr
      ⟨Std.ExtTreeMap.mem_toList_iff_getElem?_eq_some.mpr hp, decide_eq_true hoverflow⟩, rfl⟩

theorem nodup_evicted (d : Directory) (u : Update) : ((d.evicted u).map (·.1)).Nodup := by
  rw [evicted, List.map_map]
  have hkeys : (d.seated.toList.map (·.1)).Nodup := by
    rw [Std.ExtTreeMap.map_fst_toList_eq_keys]
    exact Collections.nodup_keys d.seated
  exact hkeys.sublist (List.filter_sublist.map _)

theorem evicted_of_kept (h : ∀ k i, d.tier k = .slot i → (d.apply u).tier k ≠ .overflow) :
    d.evicted u = [] := by
  rw [List.eq_nil_iff_forall_not_mem]
  rintro ⟨k, i⟩ hk
  obtain ⟨hslot, hoverflow⟩ := mem_evicted.mp hk
  exact h k i hslot hoverflow

theorem evicted_of_only (hv : d.tier v = .slot i) (hout : (d.apply u).tier v = .overflow)
    (hothers : ∀ a ≠ v, ∀ j, d.tier a = .slot j → (d.apply u).tier a ≠ .overflow) :
    d.evicted u = [(v, i)] := by
  have hnodup : (d.evicted u).Nodup := (d.nodup_evicted u).of_map _
  refine List.perm_singleton.mp
    ((List.perm_ext_iff_of_nodup hnodup (List.nodup_singleton _)).mpr ?_)
  rintro ⟨a, j⟩
  rw [List.mem_singleton, mem_evicted]
  constructor
  · rintro ⟨hslot, hoverflow⟩
    rcases eq_or_ne a v with rfl | hne
    · rw [hv] at hslot
      cases hslot
      rfl
    · exact absurd hoverflow (hothers a hne j hslot)
  · rintro ⟨⟩
    exact ⟨hv, hout⟩

/-- An update evicts if it brings a new key while every slot is taken, and then it evicts the
victim. -/
theorem Shift.evicted_cases (h : Shift d u (d.apply u)) :
    (d.Brings u ∧ d.Full ∧
      (∃ v, d.tier v = .slot d.victim ∧ d.evicted u = [(v, d.victim)]) ∧
      (d.apply u).victim = (d.victim + 1) % d.capacity) ∨
    (¬ (d.Brings u ∧ d.Full) ∧ d.evicted u = [] ∧ (d.apply u).victim = d.victim) := by
  cases h with
  | keep hknown _ hsame hvictim =>
    refine .inr ⟨fun h => hknown h.1, evicted_of_kept fun k i hslot => ?_, hvictim⟩
    rw [hsame, hslot]
    nofun
  | drop k hu hk hsame hvictim =>
    refine .inr ⟨?_, evicted_of_kept fun a i hslot => ?_, hvictim⟩
    · rintro ⟨⟨a, p, hset, -⟩, -⟩
      rw [hu] at hset
      nomatch hset
    · rcases eq_or_ne a k with rfl | hne
      · rw [hk]
        nofun
      · rw [hsame a hne, hslot]
        nofun
  | place k p i hu hk hi hempty hslot hsame hvictim =>
    refine .inr ⟨?_, evicted_of_kept fun a j ha => ?_, hvictim⟩
    · rintro ⟨-, hfull⟩
      obtain ⟨a, ha⟩ := hfull i hi
      exact hempty a ha
    · rcases eq_or_ne a k with rfl | hne
      · rw [hslot]
        nofun
      · rw [hsame a hne, ha]
        nofun
  | evict k p v hu hk hfull hv hslot hout hsame hvictim =>
    refine .inl ⟨⟨k, p, hu, hk⟩, hfull,
      ⟨v, hv, evicted_of_only hv hout fun a hne j ha => ?_⟩, hvictim⟩
    rcases eq_or_ne a k with rfl | hnek
    · rw [hslot]
      nofun
    · rw [hsame a hnek hne, ha]
      nofun

theorem Shift.set_of_nowhere {d' : Directory} (h : Shift d u d') (hk : d.tier k = .nowhere) :
    d'.tier k = .nowhere ∨ ∃ p, u = .set k p := by
  cases h with
  | keep _ _ hsame _ => exact .inl ((hsame k).trans hk)
  | drop a _ hnowhere hsame _ =>
    rcases eq_or_ne k a with rfl | hne
    · exact .inl hnowhere
    · exact .inl ((hsame k hne).trans hk)
  | place a p j hu _ _ _ _ hsame _ =>
    rcases eq_or_ne k a with rfl | hne
    · exact .inr ⟨p, hu⟩
    · exact .inl ((hsame k hne).trans hk)
  | evict a p v hu _ _ hv _ _ hsame _ =>
    rcases eq_or_ne k a with rfl | hne
    · exact .inr ⟨p, hu⟩
    · have hnev : k ≠ v := by
        rintro rfl
        rw [hk] at hv
        nomatch hv
      exact .inl ((hsame k hne hnev).trans hk)

theorem Shift.remove_of_overflow {d' : Directory} (h : Shift d u d') (hk : d.tier k = .overflow) :
    d'.tier k = .overflow ∨ (u = .remove k ∧ d'.tier k = .nowhere) := by
  have hother : ∀ {a : Key} {t : Tier}, d.tier a = t → t ≠ .overflow → k ≠ a := by
    rintro a t ha hne rfl
    exact hne (ha.symm.trans hk)
  cases h with
  | keep _ _ hsame _ => exact .inl ((hsame k).trans hk)
  | drop a hu hnowhere hsame _ =>
    rcases eq_or_ne k a with rfl | hne
    · exact .inr ⟨hu, hnowhere⟩
    · exact .inl ((hsame k hne).trans hk)
  | place a p j _ ha _ _ _ hsame _ => exact .inl ((hsame k (hother ha nofun)).trans hk)
  | evict a p v _ ha _ hv _ _ hsame _ =>
    exact .inl ((hsame k (hother ha nofun) (hother hv nofun)).trans hk)

/-- An empty slot stays empty, or a new entry takes it. -/
theorem Shift.set_of_empty {d' : Directory} (h : Shift d u d') (hi : i < d.capacity)
    (hempty : ∀ a, d.tier a ≠ .slot i) :
    (∀ a, d'.tier a ≠ .slot i) ∨
      ∃ a p, u = .set a p ∧ d.tier a = .nowhere ∧ d'.tier a = .slot i := by
  cases h with
  | keep _ _ hsame _ => exact .inl fun b hb => hempty b ((hsame b).symm.trans hb)
  | drop a _ hnowhere hsame _ =>
    refine .inl fun b hb => ?_
    rcases eq_or_ne b a with rfl | hne
    · rw [hnowhere] at hb
      nomatch hb
    · exact hempty b ((hsame b hne).symm.trans hb)
  | place a p j hu ha _ _ hslot hsame _ =>
    rcases eq_or_ne j i with rfl | hne
    · exact .inr ⟨a, p, hu, ha, hslot⟩
    · refine .inl fun b hb => ?_
      rcases eq_or_ne b a with rfl | hneb
      · rw [hslot] at hb
        exact hne (Tier.slot.inj hb)
      · exact hempty b ((hsame b hneb).symm.trans hb)
  | evict a p v _ _ hfull _ _ _ _ _ =>
    obtain ⟨b, hb⟩ := hfull i hi
    exact absurd hb (hempty b)

end

/-! ## Runs -/

/-- The directory that a run leaves. -/
def after (d : Directory) (us : List Update) : Directory := (d.run us).2

theorem after_cons (d : Directory) (u : Update) (us : List Update) :
    d.after (u :: us) = (d.apply u).after us := by
  cases u <;> rfl

theorem after_concat (d : Directory) (us : List Update) (u : Update) :
    d.after (us ++ [u]) = (d.after us).apply u := by
  induction us generalizing d with
  | nil => cases u <;> rfl
  | cons first rest ih => rw [List.cons_append, after_cons, after_cons, ih]

theorem evictions_concat (d : Directory) (us : List Update) (u : Update) :
    d.evictions (us ++ [u]) = d.evictions us ++ (d.after us).evicted u := by
  induction us generalizing d with
  | nil => exact List.append_nil _
  | cons first rest ih =>
    rw [List.cons_append, evictions, evictions, ih, after_cons, List.append_assoc]

theorem Represents.apply {d : Directory} {m : Std.ExtTreeMap Key PartitionId} (h : d.Represents m)
    (u : Update) : ∃ m', (d.apply u).Represents m' := by
  cases u with
  | set k p => exact ⟨_, h.set k p⟩
  | remove k => exact ⟨_, (h.remove k).2⟩

section

variable {d : Directory} {m : Std.ExtTreeMap Key PartitionId} {k : Key} {i : Nat}

/-- A key comes to a slot only by being set. -/
theorem Represents.set_of_slot (h : d.Represents m) {us : List Update} (hk : d.tier k = .nowhere)
    (hslot : (d.after us).tier k = .slot i) :
    ∃ (ys : List Update) (p : PartitionId) (zs : List Update), us = ys ++ .set k p :: zs := by
  induction us generalizing d m with
  | nil =>
    have hsame : d.tier k = .slot i := hslot
    rw [hk] at hsame
    nomatch hsame
  | cons u rest ih =>
    rw [after_cons] at hslot
    rcases (shift_apply h.orderly u).set_of_nowhere hk with hstill | ⟨p, rfl⟩
    · obtain ⟨m', hnext⟩ := h.apply u
      obtain ⟨ys, p, zs, rfl⟩ := ih hnext hstill hslot
      exact ⟨u :: ys, p, zs, rfl⟩
    · exact ⟨[], p, rest, rfl⟩

/-- A key of the overflow comes to a slot only by being removed and set again. -/
theorem Represents.removed_of_slot (h : d.Represents m) {us : List Update}
    (hk : d.tier k = .overflow) (hslot : (d.after us).tier k = .slot i) :
    ∃ (xs ys : List Update) (p : PartitionId) (zs : List Update),
      us = xs ++ .remove k :: (ys ++ .set k p :: zs) := by
  induction us generalizing d m with
  | nil =>
    have hsame : d.tier k = .slot i := hslot
    rw [hk] at hsame
    nomatch hsame
  | cons u rest ih =>
    rw [after_cons] at hslot
    obtain ⟨m', hnext⟩ := h.apply u
    rcases (shift_apply h.orderly u).remove_of_overflow hk with hstill | ⟨rfl, hnowhere⟩
    · obtain ⟨xs, ys, p, zs, rfl⟩ := ih hnext hstill hslot
      exact ⟨u :: xs, ys, p, zs, rfl⟩
    · obtain ⟨ys, p, zs, rfl⟩ := hnext.set_of_slot hnowhere hslot
      exact ⟨[], ys, p, zs, rfl⟩

/-- Before anything is evicted, a new entry takes an empty slot. -/
theorem Represents.refilled (h : d.Represents m) {us : List Update} (hi : i < d.capacity)
    (hempty : ∀ a, d.tier a ≠ .slot i) (hevicts : d.evictions us ≠ []) :
    ∃ (xs : List Update) (a : Key) (p : PartitionId) (ys : List Update),
      us = xs ++ .set a p :: ys ∧ d.evictions (xs ++ [Update.set a p]) = [] ∧
      (d.after xs).tier a = .nowhere ∧ (d.after (xs ++ [Update.set a p])).tier a = .slot i := by
  induction us generalizing d m with
  | nil => exact absurd rfl hevicts
  | cons u rest ih =>
    obtain ⟨m', hnext⟩ := h.apply u
    have hshift := shift_apply h.orderly u
    have hspared : d.evicted u = [] := by
      rcases hshift.evicted_cases with ⟨-, hfull, -⟩ | ⟨-, hspared, -⟩
      · obtain ⟨a, ha⟩ := hfull i hi
        exact absurd ha (hempty a)
      · exact hspared
    rcases hshift.set_of_empty hi hempty with hstill | ⟨a, p, rfl, hnew, hslot⟩
    · rw [evictions, hspared] at hevicts
      obtain ⟨xs, a, p, ys, rfl, hnone, hnew, hslot⟩ :=
        ih hnext (by rwa [capacity_apply]) hstill hevicts
      refine ⟨u :: xs, a, p, ys, rfl, ?_, ?_, ?_⟩
      · rw [List.cons_append, evictions, hspared, hnone]
        rfl
      · rwa [after_cons]
      · rwa [List.cons_append, after_cons]
    · refine ⟨[], a, p, rest, rfl, ?_, hnew, hslot⟩
      rw [List.nil_append, evictions, hspared]
      rfl

/-- Removing a key empties its slot. -/
theorem Orderly.emptied (h : d.Orderly d.freed) (hk : d.tier k = .slot i) :
    i < d.capacity ∧ ∀ a, (d.apply (.remove k)).tier a ≠ .slot i := by
  obtain ⟨p, hp⟩ := tier_eq_slot_iff.mp hk
  obtain ⟨hoccupant, hlt⟩ := h.slot_lt hp
  refine ⟨hlt, fun a ha => ?_⟩
  cases shift_apply h (.remove k) with
  | keep _ hknown _ _ => exact hknown ⟨k, rfl, by rw [hk]; nofun⟩
  | drop b hu hnowhere hsame _ =>
    cases hu
    rcases eq_or_ne a k with rfl | hne
    · rw [hnowhere] at ha
      nomatch ha
    · rw [hsame a hne, tier_eq_slot_iff, ← h.occupant_iff, hoccupant] at ha
      exact hne (Option.some.inj ha).symm
  | place _ _ _ hu => nomatch hu
  | evict _ _ _ hu => nomatch hu

/-- A slot holds one key at most, and so there are no more keys in slots than slots. -/
theorem Orderly.size_le (h : d.Orderly d.freed) : d.seated.size ≤ d.capacity := by
  have hentry : ∀ {k : Key} {seat : Seat}, (k, seat) ∈ d.seated.toList →
      d.seated[k]? = some seat := fun hk => Std.ExtTreeMap.mem_toList_iff_getElem?_eq_some.mp hk
  have hkeys : (d.seated.toList.map (·.1)).Nodup := by
    rw [Std.ExtTreeMap.map_fst_toList_eq_keys]
    exact Collections.nodup_keys d.seated
  have hslots : (d.seated.toList.map (·.2.slot)).Nodup := by
    refine hkeys.of_map.map_on ?_
    rintro ⟨k, seat⟩ hk ⟨k', seat'⟩ hk' heq
    have hoccupant := (h.slot_lt (hentry hk)).1
    rw [show seat.slot = seat'.slot from heq, (h.slot_lt (hentry hk')).1] at hoccupant
    cases hoccupant
    have hseat := hentry hk
    rw [hentry hk'] at hseat
    rw [Option.some.inj hseat]
  have hsub : d.seated.toList.map (·.2.slot) ⊆ List.range d.capacity := by
    intro i hi
    obtain ⟨⟨k, seat⟩, hk, rfl⟩ := List.mem_map.mp hi
    rw [List.mem_range]
    exact (h.slot_lt (hentry hk)).2
  have hle := (List.subperm_of_subset hslots hsub).length_le
  rwa [List.length_map, List.length_range, Std.ExtTreeMap.length_toList] at hle

end

/-! ## Round robin -/

/-- How a directory evicts from its slots, when it has evicted as listed before. -/
structure RoundRobin (d : Directory) (before : List (Key × Nat)) : Prop where
  size_le : d.seated.size ≤ d.capacity
  /-- A new key that finds every slot taken evicts one key, the one in the slot whose turn it is. -/
  evicts : ∀ u, d.Brings u → d.Full →
    ∃ v, d.tier v = .slot (before.length % d.capacity) ∧
      d.evicted u = [(v, before.length % d.capacity)]
  /-- Nothing else evicts. -/
  spares : ∀ u, ¬ (d.Brings u ∧ d.Full) → d.evicted u = []
  /-- A key comes back from the overflow only by being removed and set again. -/
  returns : ∀ (k : Key) (i : Nat) (us : List Update), d.tier k = .overflow →
    (d.after us).tier k = .slot i →
    ∃ (xs ys : List Update) (p : PartitionId) (zs : List Update),
      us = xs ++ .remove k :: (ys ++ .set k p :: zs)
  /-- The slot of a removed key is taken by a new one before anything is evicted. -/
  reuses : ∀ (k : Key) (i : Nat) (us : List Update), d.tier k = .slot i →
    (d.apply (.remove k)).evictions us ≠ [] →
    ∃ (xs : List Update) (a : Key) (p : PartitionId) (ys : List Update),
      us = xs ++ .set a p :: ys ∧
      (d.apply (.remove k)).evictions (xs ++ [Update.set a p]) = [] ∧
      ((d.apply (.remove k)).after xs).tier a = .nowhere ∧
      ((d.apply (.remove k)).after (xs ++ [Update.set a p])).tier a = .slot i
  /-- Between an eviction from a slot and the next one from it, each other slot has its turn. -/
  turns : ∀ xs ys zs i, before.map (·.2) = xs ++ i :: (ys ++ i :: zs) → i ∉ ys →
    ∀ j < d.capacity, j ≠ i → ys.count j = 1

theorem capacity_after (d : Directory) (us : List Update) : (d.after us).capacity = d.capacity := by
  induction us generalizing d with
  | nil => rfl
  | cons u rest ih => rw [after_cons, ih, capacity_apply]

theorem represents_after (c : Nat) (us : List Update) :
    ∃ m, ((empty c).after us).Represents m :=
  ⟨_, ((represents_empty c).run us).2⟩

/-- The turn passes from slot to slot with each eviction. -/
theorem turn_after (c : Nat) (us : List Update) :
    ((empty c).after us).victim = ((empty c).evictions us).length % max c 1 ∧
    ((empty c).evictions us).map (·.2) =
      (List.range ((empty c).evictions us).length).map (· % max c 1) := by
  induction us using List.reverseRecOn with
  | nil => exact ⟨(Nat.zero_mod _).symm, rfl⟩
  | append_singleton us u ih =>
    obtain ⟨hvictim, hslots⟩ := ih
    obtain ⟨m, h⟩ := represents_after c us
    rw [evictions_concat, after_concat]
    rcases (shift_apply h.orderly u).evicted_cases with ⟨-, -, ⟨v, -, hevicted⟩, hnext⟩ |
      ⟨-, hspared, hnext⟩
    · rw [hevicted, hnext, capacity_after, hvictim, List.length_append, List.map_append, hslots,
        List.length_singleton, List.range_succ, List.map_append]
      refine ⟨?_, rfl⟩
      exact Nat.mod_add_mod _ _ 1
    · rw [hspared, hnext, List.append_nil]
      exact ⟨hvictim, hslots⟩

/-- Whatever a new directory is told, it evicts strictly round robin. -/
theorem roundRobin_after (c : Nat) (us : List Update) :
    ((empty c).after us).capacity = max c 1 ∧
    ((empty c).after us).RoundRobin ((empty c).evictions us) := by
  obtain ⟨m, h⟩ := represents_after c us
  obtain ⟨hvictim, hslots⟩ := turn_after c us
  have hcapacity : ((empty c).after us).capacity = max c 1 := capacity_after _ us
  rw [← hcapacity] at hvictim hslots
  refine ⟨hcapacity, ?_⟩
  refine { size_le := h.orderly.size_le, evicts := ?_, spares := ?_, returns := ?_, reuses := ?_
           turns := ?_ }
  · intro u hbrings hfull
    rw [← hvictim]
    rcases (shift_apply h.orderly u).evicted_cases with ⟨-, -, hevicts, -⟩ | ⟨hnot, -, -⟩
    · exact hevicts
    · exact absurd ⟨hbrings, hfull⟩ hnot
  · intro u hnot
    rcases (shift_apply h.orderly u).evicted_cases with
      ⟨hbrings, hfull, -, -⟩ | ⟨-, hspared, -⟩
    · exact absurd ⟨hbrings, hfull⟩ hnot
    · exact hspared
  · intro k i us hk hslot
    exact h.removed_of_slot hk hslot
  · intro k i us hk hevicts
    obtain ⟨m', hnext⟩ := h.apply (.remove k)
    obtain ⟨hlt, hempty⟩ := h.orderly.emptied hk
    exact hnext.refilled (by rwa [capacity_apply]) hempty hevicts
  · intro xs ys zs i heq hi j hj hne
    rw [hslots] at heq
    obtain ⟨n, m, rfl, rfl, hagain⟩ := exists_window heq
    exact count_window hagain hi hj hne

end Directory

end Reshard
