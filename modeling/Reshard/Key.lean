import Std.Data.ExtTreeMap
import Std.Data.ExtTreeSet

/-!
Records are named by a table and an id. Keys are ordered by table, then by id; every
tie between keys is broken by this order.
-/

namespace Reshard

/-- Number of a partition. -/
abbrev PartitionId := Nat

structure Key where
  table : String
  id : Nat
  deriving DecidableEq, Repr, Inhabited

namespace Key

instance : Ord Key := ⟨compareLex (compareOn Key.table) (compareOn Key.id)⟩

instance : Std.TransOrd Key := inferInstanceAs (Std.TransCmp (compareLex _ _))

theorem compare_eq (a b : Key) :
    compare a b = (compare a.table b.table).then (compare a.id b.id) := rfl

instance : Std.LawfulEqOrd Key where
  compare_self := by simp
  eq_of_compare {a b} h := by
    rw [compare_eq, Ordering.then_eq_eq] at h
    have ht : a.table = b.table := Std.LawfulEqCmp.eq_of_compare h.1
    have hi : a.id = b.id := Std.LawfulEqCmp.eq_of_compare h.2
    cases a
    cases b
    simp_all

instance : LT Key := ltOfOrd

instance (a b : Key) : Decidable (a < b) :=
  inferInstanceAs (Decidable (compare a b = .lt))

theorem lt_iff {a b : Key} : a < b ↔ compare a b = .lt := Iff.rfl

def text (k : Key) : String := k.table ++ ":" ++ toString k.id

end Key

abbrev KeySet := Std.ExtTreeSet Key

/-- The ids from `first` up to, but not including, `last`. -/
structure IdRange where
  first : Nat
  last : Nat
  deriving DecidableEq, Repr, Inhabited

namespace IdRange

def contains (r : IdRange) (k : Key) : Bool := r.first ≤ k.id && k.id < r.last

def isEmpty (r : IdRange) : Bool := r.last ≤ r.first

/-- How many ids the range holds. -/
def width (r : IdRange) : Nat := r.last - r.first

end IdRange

end Reshard
