import Reshard.Plan

/-!
Where records live before any migration, and the moves that prepare for a partition to
join or to leave. Both are supplied from outside.
-/

namespace Reshard

/-- Static placement of the records. -/
structure Placement where
  home : Key → PartitionId
  /-- A fully replicated key lives everywhere and is never monitored. -/
  replicated : Key → Bool := fun _ => false
  /-- The key that stands for the group a key belongs to. -/
  representative : Key → Key := id

/-- Moves planned ahead of any observation, for a change of the number of partitions. -/
structure ScalingPlans where
  /-- Fills the newest of the given number of partitions. -/
  scaleOut : Nat → Except Overflow (List Move)
  /-- Drains a partition into the others of the given number of partitions. -/
  consolidate : PartitionId → Nat → Except Overflow (List Move)

end Reshard
