import Reshard.Key

/-!
Keys grouped by table. Only tables that have keys are kept, so that equal groups of keys are
equal values. Tables go by their names, and the keys of a table by their ids.
-/

namespace Reshard

structure Tables where
  ids : Std.ExtTreeMap String (Std.ExtTreeSet Nat)
  nonempty : ∀ (name : String) (kept : Std.ExtTreeSet Nat), ids[name]? = some kept →
    kept ≠ ∅
  deriving DecidableEq, Repr

namespace Tables

def empty : Tables := ⟨∅, by simp⟩

instance : EmptyCollection Tables := ⟨empty⟩

instance : Inhabited Tables := ⟨empty⟩

/-- The ids of a table. -/
def idsOf (t : Tables) (name : String) : Std.ExtTreeSet Nat := (t.ids[name]?).getD ∅

def contains (t : Tables) (k : Key) : Bool := (t.idsOf k.table).contains k.id

/-- Number of keys in all tables. -/
def size (t : Tables) : Nat := t.ids.toList.foldl (fun n table => n + table.2.size) 0

theorem insert_nonempty (t : Tables) (k : Key) (name : String) (kept : Std.ExtTreeSet Nat) :
    (t.ids.alter k.table fun old => some ((old.getD ∅).insert k.id))[name]? = some kept →
      kept ≠ ∅ := by
  intro h
  rw [Std.ExtTreeMap.getElem?_alter] at h
  split at h
  · rw [Option.some.injEq] at h
    subst h
    simp
  · exact t.nonempty name kept h

def insert (t : Tables) (k : Key) : Tables where
  ids := t.ids.alter k.table fun old => some ((old.getD ∅).insert k.id)
  nonempty := t.insert_nonempty k

def insertMany (t : Tables) (ks : List Key) : Tables := ks.foldl insert t

theorem erase_nonempty (t : Tables) (k : Key) (name : String) (kept : Std.ExtTreeSet Nat) :
    (t.ids.alter k.table fun old => (old.map (·.erase k.id)).filter (!·.isEmpty))[name]? =
      some kept → kept ≠ ∅ := by
  intro h
  rw [Std.ExtTreeMap.getElem?_alter] at h
  split at h
  · have hkept : (!kept.isEmpty) = true := (Option.filter_eq_some_iff.mp h).2
    simpa using hkept
  · exact t.nonempty name kept h

/-- Drops a key, and its table when it was the last one. -/
def erase (t : Tables) (k : Key) : Tables where
  ids := t.ids.alter k.table fun old => (old.map (·.erase k.id)).filter (!·.isEmpty)
  nonempty := t.erase_nonempty k

def eraseMany (t : Tables) (ks : List Key) : Tables := ks.foldl erase t

def hasTable (t : Tables) (name : String) : Bool := t.ids.contains name

/-- The tables in the order of their names. -/
def names (t : Tables) : List String := t.ids.keys

/-- The tables with the most keys first; equals go in the order of their names. -/
def namesBySize (t : Tables) : List String :=
  (t.ids.toList.mergeSort fun a b => b.2.size ≤ a.2.size).map (·.1)

/-- The first key of a table. -/
def first? (t : Tables) (name : String) : Option Key :=
  ((t.idsOf name).min?).map fun id => ⟨name, id⟩

end Tables

end Reshard
