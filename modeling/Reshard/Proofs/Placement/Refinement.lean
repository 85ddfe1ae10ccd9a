import Reshard.Proofs.Collections
import Reshard.Proofs.Placement.Slots

/-!
The directory as a map. Whatever its capacity, a directory answers like an ordinary map from keys to
partitions that is told the same (`Represents.run`), and it counts the keys of each partition
exactly.
-/

namespace Reshard

namespace Directory

/-! ## Counters -/

/-- The counters are right for the entries of `m`. -/
def Counts (counts : Std.ExtTreeMap PartitionId Nat) (m : Std.ExtTreeMap Key PartitionId) :
    Prop :=
  ∀ p, (counts[p]?).getD 0 = (Collections.having m p).size

theorem getD_countUp (counts : Std.ExtTreeMap PartitionId Nat) (q p : PartitionId) :
    ((countUp counts q)[p]?).getD 0 = (counts[p]?).getD 0 + if q = p then 1 else 0 := by
  simp only [countUp, Std.ExtTreeMap.getElem?_alter, Std.compare_eq_iff_eq]
  by_cases h : q = p <;> simp [h]

theorem getD_countDown (counts : Std.ExtTreeMap PartitionId Nat) (q p : PartitionId) :
    ((countDown counts q)[p]?).getD 0 = (counts[p]?).getD 0 - if q = p then 1 else 0 := by
  simp only [countDown, Std.ExtTreeMap.getElem?_alter, Std.compare_eq_iff_eq]
  by_cases h : q = p
  · subst h
    cases counts[q]? with
    | none => simp
    | some n =>
      simp only [if_true, Option.bind_some, Option.getD_some]
      split
      · simp only [Option.getD_none]
        omega
      · rfl
  · simp [h]

section

variable {counts : Std.ExtTreeMap PartitionId Nat} {m : Std.ExtTreeMap Key PartitionId} {k : Key}
  {p q : PartitionId}

/-- A counter that goes down was not zero. -/
theorem Counts.erase (h : Counts counts m) (hk : m[k]? = some q) :
    Counts (countDown counts q) (m.erase k) := by
  intro p
  have hsize := Collections.size_having_erase m k p
  rw [hk] at hsize
  rw [getD_countDown, h p]
  by_cases hqp : q = p
  · simp only [hqp, if_true] at hsize ⊢
    omega
  · simp only [hqp, Option.some.injEq, if_false] at hsize ⊢
    omega

theorem Counts.insert (h : Counts counts m) (hk : m[k]? = none) :
    Counts (countUp counts p) (m.insert k p) := by
  intro r
  have hsize := Collections.size_having_insert m k p r
  rw [hk] at hsize
  rw [getD_countUp, h r]
  simpa using hsize.symm

theorem Counts.change (h : Counts counts m) (hk : m[k]? = some q) :
    Counts (countUp (countDown counts q) p) (m.insert k p) := by
  have hnone : (m.erase k)[k]? = none := Std.ExtTreeMap.getElem?_erase_self
  have hsame : (m.erase k).insert k p = m.insert k p := by
    apply Std.ExtTreeMap.ext_getElem?
    intro a
    simp only [Std.ExtTreeMap.getElem?_insert, Std.ExtTreeMap.getElem?_erase]
    split <;> rfl
  rw [← hsame]
  exact (h.erase hk).insert hnone

end

/-! ## One call -/

/-- The directory is in order and holds the entries of `m`. -/
structure Represents (d : Directory) (m : Std.ExtTreeMap Key PartitionId) : Prop where
  orderly : d.Orderly d.freed
  get_eq : ∀ k : Key, d.get? k = m[k]?
  size_eq : d.size = m.size
  counts : Counts d.counts m

theorem represents_empty (capacity : Nat) : (empty capacity).Represents ∅ where
  orderly := orderly_empty capacity
  get_eq := by simp [get?, empty]
  size_eq := by simp [size, empty]
  counts := by simp [Counts, empty, Collections.having_empty]

theorem get?_of_seated {d : Directory} {k : Key} {seat : Seat} (h : d.seated[k]? = some seat) :
    d.get? k = some seat.partition := by
  simp [get?, h]

theorem get?_of_unseated {d : Directory} {k : Key} (h : d.seated[k]? = none) :
    d.get? k = d.overflow[k]? := by
  simp [get?, h]

theorem get?_eq_none_iff {d : Directory} {k : Key} :
    d.get? k = none ↔ d.seated[k]? = none ∧ d.overflow[k]? = none := by
  rw [get?]
  cases d.seated[k]? <;> simp

section

variable {d : Directory} {m : Std.ExtTreeMap Key PartitionId} {k : Key} {p q : PartitionId}

theorem set_of_new (hseated : d.seated[k]? = none) (hoverflow : d.overflow[k]? = none) :
    d.set k p = { d.takeSlot.2.seat k d.takeSlot.1 p with
      counts := countUp d.takeSlot.2.counts p } := by
  simp [set, hseated, hoverflow, seat]

theorem Represents.set_seated {st : Seat} (h : d.Represents m) (hk : d.seated[k]? = some st) :
    (d.set k p).Represents (m.insert k p) := by
  have hm : m[k]? = some st.partition := by rw [← h.get_eq, get?_of_seated hk]
  have hset : d.set k p = { d with
      seated := d.seated.insert k { st with partition := p }
      counts := countUp (countDown d.counts st.partition) p } := by
    simp [set, hk]
  rw [hset]
  refine { orderly := { h.orderly.change hk p with }, get_eq := ?_, size_eq := ?_, counts := ?_ }
  · intro a
    have ha := h.get_eq a
    simp only [get?, Std.ExtTreeMap.getElem?_insert, Std.compare_eq_iff_eq] at ha ⊢
    by_cases hka : k = a
    · simp [hka]
    · simpa [hka] using ha
  · have hsize := h.size_eq
    simp only [size, Std.ExtTreeMap.size_insert, Collections.contains_of_some hk,
      Collections.contains_of_some hm, if_true] at hsize ⊢
    exact hsize
  · exact h.counts.change hm

theorem Represents.set_overflowed (h : d.Represents m) (hseated : d.seated[k]? = none)
    (hk : d.overflow[k]? = some q) : (d.set k p).Represents (m.insert k p) := by
  have hm : m[k]? = some q := by rw [← h.get_eq, get?_of_unseated hseated, hk]
  have hset : d.set k p = { d with
      overflow := d.overflow.insert k p
      counts := countUp (countDown d.counts q) p } := by
    simp [set, hseated, hk]
  rw [hset]
  refine {
    orderly := { h.orderly.spill hseated p with }, get_eq := ?_, size_eq := ?_, counts := ?_ }
  · intro a
    have ha := h.get_eq a
    simp only [get?, Std.ExtTreeMap.getElem?_insert, Std.compare_eq_iff_eq] at ha ⊢
    by_cases hka : k = a
    · subst hka
      simp [hseated]
    · simpa [hka] using ha
  · have hsize := h.size_eq
    simp only [size, Std.ExtTreeMap.size_insert, Collections.contains_of_some hk,
      Collections.contains_of_some hm, if_true] at hsize ⊢
    exact hsize
  · exact h.counts.change hm

theorem Represents.set_new (h : d.Represents m) (hseated : d.seated[k]? = none)
    (hoverflow : d.overflow[k]? = none) : (d.set k p).Represents (m.insert k p) := by
  obtain ⟨htaken, hget, hsize, hcounts⟩ := takeSlot_spec h.orderly
  have hnone : d.get? k = none := get?_eq_none_iff.mpr ⟨hseated, hoverflow⟩
  have hm : m[k]? = none := by rw [← h.get_eq, hnone]
  obtain ⟨hseated', hoverflow'⟩ := get?_eq_none_iff.mp ((hget k).trans hnone)
  have horderly := htaken.seat hseated' hoverflow' (p := p)
  rw [set_of_new hseated hoverflow]
  refine { orderly := { horderly with }, get_eq := ?_, size_eq := ?_, counts := ?_ }
  · intro a
    have ha := (hget a).trans (h.get_eq a)
    simp only [get?, seat, Std.ExtTreeMap.getElem?_insert, Std.compare_eq_iff_eq] at ha ⊢
    by_cases hka : k = a
    · simp [hka]
    · simpa [hka] using ha
  · rw [h.size_eq] at hsize
    simp only [size, seat, Std.ExtTreeMap.size_insert, Collections.contains_of_none hseated',
      Collections.contains_of_none hm, Bool.false_eq_true, if_false] at hsize ⊢
    omega
  · change Counts (countUp d.takeSlot.2.counts p) _
    rw [hcounts]
    exact h.counts.insert hm

theorem Represents.set (h : d.Represents m) (k : Key) (p : PartitionId) :
    (d.set k p).Represents (m.insert k p) := by
  cases hseated : d.seated[k]? with
  | some st => exact h.set_seated hseated
  | none =>
    cases hoverflow : d.overflow[k]? with
    | some q => exact h.set_overflowed hseated hoverflow
    | none => exact h.set_new hseated hoverflow

theorem Represents.remove_seated {st : Seat} (h : d.Represents m) (hk : d.seated[k]? = some st) :
    (d.remove k).1 = m[k]? ∧ (d.remove k).2.Represents (m.erase k) := by
  have hm : m[k]? = some st.partition := by rw [← h.get_eq, get?_of_seated hk]
  have hremove : d.remove k = (some st.partition, { d.unseat k st.slot with
      freed := st.slot :: d.freed
      counts := countDown d.counts st.partition }) := by
    simp [remove, hk, unseat]
  rw [hremove]
  refine ⟨hm.symm, ?_⟩
  refine { orderly := { h.orderly.unseat hk with }, get_eq := ?_, size_eq := ?_, counts := ?_ }
  · intro a
    have ha := h.get_eq a
    have hapart := h.orderly.apart k st hk
    simp only [get?, unseat, Std.ExtTreeMap.getElem?_erase, Std.compare_eq_iff_eq] at ha ⊢
    by_cases hka : k = a
    · subst hka
      simp [hapart]
    · simpa [hka] using ha
  · have hsize := h.size_eq
    have hseats := Collections.size_erase_add d.seated k
    have hentries := Collections.size_erase_add m k
    simp only [Collections.contains_of_some hk, Collections.contains_of_some hm,
      if_true] at hseats hentries
    simp only [size, unseat] at hsize ⊢
    omega
  · exact h.counts.erase hm

theorem Represents.remove_overflowed (h : d.Represents m) (hseated : d.seated[k]? = none)
    (hk : d.overflow[k]? = some q) :
    (d.remove k).1 = m[k]? ∧ (d.remove k).2.Represents (m.erase k) := by
  have hm : m[k]? = some q := by rw [← h.get_eq, get?_of_unseated hseated, hk]
  have hremove : d.remove k = (some q, { d with
      overflow := d.overflow.erase k
      counts := countDown d.counts q }) := by
    simp [remove, hseated, hk]
  rw [hremove]
  refine ⟨hm.symm, ?_⟩
  refine { orderly := { h.orderly.forget k with }, get_eq := ?_, size_eq := ?_, counts := ?_ }
  · intro a
    have ha := h.get_eq a
    simp only [get?, Std.ExtTreeMap.getElem?_erase, Std.compare_eq_iff_eq] at ha ⊢
    by_cases hka : k = a
    · subst hka
      simp [hseated]
    · simpa [hka] using ha
  · have hsize := h.size_eq
    have hspilled := Collections.size_erase_add d.overflow k
    have hentries := Collections.size_erase_add m k
    simp only [Collections.contains_of_some hk, Collections.contains_of_some hm,
      if_true] at hspilled hentries
    simp only [size] at hsize ⊢
    omega
  · exact h.counts.erase hm

theorem Represents.remove_untracked (h : d.Represents m) (hseated : d.seated[k]? = none)
    (hoverflow : d.overflow[k]? = none) :
    (d.remove k).1 = m[k]? ∧ (d.remove k).2.Represents (m.erase k) := by
  have hm : m[k]? = none := by
    rw [← h.get_eq, get?_eq_none_iff]
    exact ⟨hseated, hoverflow⟩
  have hsame : m.erase k = m := by
    apply Std.ExtTreeMap.ext_getElem?
    intro a
    simp only [Std.ExtTreeMap.getElem?_erase, Std.compare_eq_iff_eq]
    split
    · next hka => rw [← hka, hm]
    · rfl
  have hremove : d.remove k = (none, d) := by simp [remove, hseated, hoverflow]
  rw [hremove, hsame]
  exact ⟨hm.symm, h⟩

theorem Represents.remove (h : d.Represents m) (k : Key) :
    (d.remove k).1 = m[k]? ∧ (d.remove k).2.Represents (m.erase k) := by
  cases hseated : d.seated[k]? with
  | some st => exact h.remove_seated hseated
  | none =>
    cases hoverflow : d.overflow[k]? with
    | some q => exact h.remove_overflowed hseated hoverflow
    | none => exact h.remove_untracked hseated hoverflow

end

/-! ## Sequences of calls -/

inductive Update
  | set (k : Key) (p : PartitionId)
  | remove (k : Key)

/-- The answers of the removals, and the directory in the end. -/
def run (d : Directory) : List Update → List (Option PartitionId) × Directory
  | [] => ([], d)
  | .set k p :: rest => (d.set k p).run rest
  | .remove k :: rest =>
    let later := (d.remove k).2.run rest
    ((d.remove k).1 :: later.1, later.2)

/-- The same calls on an ordinary map. -/
def runMap (m : Std.ExtTreeMap Key PartitionId) :
    List Update → List (Option PartitionId) × Std.ExtTreeMap Key PartitionId
  | [] => ([], m)
  | .set k p :: rest => runMap (m.insert k p) rest
  | .remove k :: rest =>
    let later := runMap (m.erase k) rest
    (m[k]? :: later.1, later.2)

theorem Represents.run {d : Directory} {m : Std.ExtTreeMap Key PartitionId} (h : d.Represents m)
    (us : List Update) :
    (d.run us).1 = (runMap m us).1 ∧ (d.run us).2.Represents (runMap m us).2 := by
  induction us generalizing d m with
  | nil => exact ⟨rfl, h⟩
  | cons u rest ih =>
    cases u with
    | set k p => exact ih (h.set k p)
    | remove k =>
      obtain ⟨hanswer, hnext⟩ := h.remove k
      obtain ⟨hanswers, hlast⟩ := ih hnext
      refine ⟨?_, hlast⟩
      rw [Directory.run, runMap, hanswer, hanswers]

theorem Represents.contains_eq {d : Directory} {m : Std.ExtTreeMap Key PartitionId}
    (h : d.Represents m) (k : Key) : d.contains k = m.contains k := by
  rw [Std.ExtTreeMap.contains_eq_isSome_getElem?, ← h.get_eq, Directory.contains, get?,
    Std.ExtTreeMap.contains_eq_isSome_getElem?, Std.ExtTreeMap.contains_eq_isSome_getElem?]
  cases d.seated[k]? <;> simp

theorem Represents.isEmpty_eq {d : Directory} {m : Std.ExtTreeMap Key PartitionId}
    (h : d.Represents m) : d.isEmpty = m.isEmpty := by
  rw [Directory.isEmpty, h.size_eq, Std.ExtTreeMap.isEmpty_eq_size_beq_zero]
  rfl

/-- The directory answers like an ordinary map, counts its entries exactly, and holds each of them
once: in the overflow, which is sorted, or in a slot of its own. -/
theorem run_refines (capacity : Nat) (us : List Update) :
    let d := ((empty capacity).run us).2
    let m := (runMap ∅ us).2
    ((empty capacity).run us).1 = (runMap ∅ us).1 ∧
    (∀ k, d.get? k = m[k]?) ∧
    (∀ k, d.contains k = m.contains k) ∧
    d.size = m.size ∧
    d.isEmpty = m.isEmpty ∧
    (∀ p, d.countOn p = (Collections.having m p).size) ∧
    d.overflowKeys.Pairwise (· < ·) ∧
    d.overflowKeys.Nodup ∧
    (∀ k ∈ d.overflowKeys, k ∉ d.seated) ∧
    ∀ (k : Key) (seat : Seat), d.seated[k]? = some seat →
      d.occupants[seat.slot]? = some k ∧ seat.slot < d.capacity := by
  intro d m
  obtain ⟨hanswers, h⟩ := (represents_empty capacity).run us
  refine ⟨hanswers, h.get_eq, h.contains_eq, h.size_eq, h.isEmpty_eq, h.counts, ?_⟩
  refine ⟨Std.ExtTreeMap.ordered_keys, Collections.nodup_keys _, ?_, ?_⟩
  · intro k hk hmem
    have hseated := Std.ExtTreeMap.getElem?_eq_some_getElem hmem
    have hnone := h.orderly.apart k _ hseated
    have hsome := Std.ExtTreeMap.getElem?_eq_some_getElem (Std.ExtTreeMap.mem_keys.mp hk)
    rw [hnone] at hsome
    nomatch hsome
  · intro k seat hk
    exact h.orderly.slot_lt hk

end Directory

end Reshard
