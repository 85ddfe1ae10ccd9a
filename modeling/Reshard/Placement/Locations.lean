import Reshard.Placement.Basic
import Reshard.Placement.Directory

/-!
Where records live now: static placement, with the directory of deviations in front. Only
records that live away from home have an entry.
-/

namespace Reshard

structure Locations where
  placement : Placement
  directory : Directory

namespace Locations

def make (placement : Placement) (capacity : Nat) : Locations :=
  ⟨placement, .empty capacity⟩

/-- The same, if the slots of the directory can be addressed. -/
def inMemory (placement : Placement) (capacity : Nat) : Except Overflow Locations := do
  return ⟨placement, ← Directory.inMemory capacity⟩

def home (l : Locations) (k : Key) : PartitionId := l.placement.home k

def current (l : Locations) (k : Key) : PartitionId :=
  (l.directory.get? k).getD (l.home k)

/-- Whether the key lives away from home. -/
def isRelocated (l : Locations) (k : Key) : Bool := l.directory.contains k

/-- Records that `k` lives on `p`; a key that comes home loses its entry. -/
def relocate (l : Locations) (k : Key) (p : PartitionId) : Locations :=
  if l.home k = p then
    { l with directory := (l.directory.remove k).2 }
  else
    { l with directory := l.directory.set k p }

def relocateAll (l : Locations) (ks : List Key) (p : PartitionId) : Locations :=
  ks.foldl (fun l k => l.relocate k p) l

end Locations

end Reshard
