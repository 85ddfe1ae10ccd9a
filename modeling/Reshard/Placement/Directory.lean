import Reshard.Key
import Reshard.Word

/-!
The directory of records that do not live where static placement puts them. A bounded
number of entries is seated in numbered slots. When all slots are taken, a new entry takes
the slot of a victim chosen round robin, and the victim moves to the unbounded overflow, so
that no entry is ever lost. Entries are counted per partition.
-/

namespace Reshard

/-- The slot of an entry, and the partition it records. -/
structure Seat where
  slot : Nat
  partition : PartitionId
  deriving DecidableEq, Repr

structure Directory where
  capacity : Nat
  seated : Std.ExtTreeMap Key Seat
  /-- The key in each taken slot. -/
  occupants : Std.ExtTreeMap Nat Key
  overflow : Std.ExtTreeMap Key PartitionId
  /-- Slots given back, the latest first. -/
  freed : List Nat
  /-- The first slot that was never taken. -/
  fresh : Nat
  /-- The slot that the next eviction empties. -/
  victim : Nat
  counts : Std.ExtTreeMap PartitionId Nat
  capacity_pos : 0 < capacity

namespace Directory

def defaultCapacity : Nat := 100000

/-- Bytes that a slot takes. -/
def slotBytes : Nat := 56

/-- Room for the slots. -/
def room (capacity : Nat) : Except Overflow Unit := Word.room (max capacity 1) slotBytes

/-- A directory has at least one slot. -/
def empty (capacity : Nat) : Directory where
  capacity := max capacity 1
  seated := ∅
  occupants := ∅
  overflow := ∅
  freed := []
  fresh := 0
  victim := 0
  counts := ∅
  capacity_pos := by omega

/-- A directory without entries, if its slots can be addressed. -/
def inMemory (capacity : Nat) : Except Overflow Directory := do
  room capacity
  return empty capacity

def get? (d : Directory) (k : Key) : Option PartitionId :=
  match d.seated[k]? with
  | some seat => some seat.partition
  | none => d.overflow[k]?

def contains (d : Directory) (k : Key) : Bool :=
  d.seated.contains k || d.overflow.contains k

def size (d : Directory) : Nat := d.seated.size + d.overflow.size

def isEmpty (d : Directory) : Bool := d.size = 0

def overflowSize (d : Directory) : Nat := d.overflow.size

def overflowKeys (d : Directory) : List Key := d.overflow.keys

/-- Number of entries that record partition `p`. -/
def countOn (d : Directory) (p : PartitionId) : Nat := (d.counts[p]?).getD 0

def countUp (counts : Std.ExtTreeMap PartitionId Nat) (p : PartitionId) :
    Std.ExtTreeMap PartitionId Nat :=
  counts.alter p fun n => some (n.getD 0 + 1)

/-- A partition without entries has no counter. -/
def countDown (counts : Std.ExtTreeMap PartitionId Nat) (p : PartitionId) :
    Std.ExtTreeMap PartitionId Nat :=
  counts.alter p fun n => n.bind fun n => if n ≤ 1 then none else some (n - 1)

/-- The slot that was given back last, else the next one never taken. -/
def takeFree? (d : Directory) : Option (Nat × Directory) :=
  match d.freed with
  | slot :: rest => some (slot, { d with freed := rest })
  | [] => if d.fresh < d.capacity then some (d.fresh, { d with fresh := d.fresh + 1 }) else none

/-- The entry in a slot. -/
def occupant? (d : Directory) (slot : Nat) : Option (Key × PartitionId) := do
  let k ← d.occupants[slot]?
  let seat ← d.seated[k]?
  return (k, seat.partition)

/-- Empties the victim's slot into the overflow, and passes the turn to the next slot. -/
def evict (d : Directory) : Nat × Directory :=
  let next := { d with victim := (d.victim + 1) % d.capacity }
  match d.occupant? d.victim with
  | some (k, p) =>
    (d.victim,
      { next with
        seated := d.seated.erase k
        occupants := d.occupants.erase d.victim
        overflow := d.overflow.insert k p })
  | none => (d.victim, next)

/-- A slot for a new entry, freed by an eviction if need be. -/
def takeSlot (d : Directory) : Nat × Directory :=
  match d.takeFree? with
  | some taken => taken
  | none => d.evict

/-- Records that `k` lives on `p`. An entry stays in its tier when it changes. -/
def set (d : Directory) (k : Key) (p : PartitionId) : Directory :=
  match d.seated[k]? with
  | some seat =>
    { d with
      seated := d.seated.insert k { seat with partition := p }
      counts := countUp (countDown d.counts seat.partition) p }
  | none =>
    match d.overflow[k]? with
    | some old =>
      { d with
        overflow := d.overflow.insert k p
        counts := countUp (countDown d.counts old) p }
    | none =>
      let (slot, rest) := d.takeSlot
      { rest with
        seated := rest.seated.insert k ⟨slot, p⟩
        occupants := rest.occupants.insert slot k
        counts := countUp rest.counts p }

/-- Drops the entry of `k`, and answers the partition it recorded. -/
def remove (d : Directory) (k : Key) : Option PartitionId × Directory :=
  match d.seated[k]? with
  | some seat =>
    (some seat.partition,
      { d with
        seated := d.seated.erase k
        occupants := d.occupants.erase seat.slot
        freed := seat.slot :: d.freed
        counts := countDown d.counts seat.partition })
  | none =>
    match d.overflow[k]? with
    | some p =>
      (some p,
        { d with
          overflow := d.overflow.erase k
          counts := countDown d.counts p })
    | none => (none, d)

end Directory

end Reshard
