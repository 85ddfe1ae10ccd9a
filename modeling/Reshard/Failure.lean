import Reshard.Plan

/-!
Why an operation fails, with the text that is shown for it. A violation is a fault of the
caller or of the placement metadata; it stops the migration for good.
-/

namespace Reshard

inductive Violation
  | fullyReplicatedKey (key : Key)
  | locationDiverged (key : Key) (found source dest : PartitionId)
  deriving DecidableEq, Repr

def Violation.message : Violation → String
  | .fullyReplicatedKey key =>
    "transaction access set contains fully replicated key " ++ key.text
  | .locationDiverged key found source dest =>
    "location of " ++ key.text ++ " diverged during migration: found on partition " ++
      toString found ++ ", expected source " ++ toString source ++ " or destination " ++
      toString dest

inductive Failure
  | violation (cause : Violation)
  /-- The graph has no vertex of this number. -/
  | noVertex (vertex : Nat)
  | unmonitoredKey (key : Key)
  | notOnFrontier (vertex : Nat) (key : Key)
  | noScalingPlans
  | noMoveInFlight
  | insertElsewhere (key : Key)
  | analysisElsewhere
  | aborted
  /-- The execution layer refused a request for the given reason. -/
  | refused (reason : String)
  deriving DecidableEq, Repr

namespace Failure

def message : Failure → String
  | violation cause => cause.message
  | noVertex vertex => "no vertex " ++ toString vertex
  | unmonitoredKey key => "co-access recorded for unmonitored key " ++ key.text
  | notOnFrontier vertex key =>
    "vertex " ++ toString vertex ++ " (" ++ key.text ++ ") is not on the clump frontier"
  | noScalingPlans => "node scaling requires a cold migration planner"
  | noMoveInFlight => "no migration unit in flight"
  | insertElsewhere key =>
    "new insert " ++ key.text ++ " tracked outside the source partition"
  | analysisElsewhere => "migration analysis completed outside the source partition"
  | aborted => "migration coordinator aborted after an invariant violation"
  | refused reason => "submit migration request: " ++ reason

end Failure

end Reshard
