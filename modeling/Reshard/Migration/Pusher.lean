import Reshard.Migration.Coordinator

/-!
Background pushers. While a move is in flight, its source ships the keys of the pool in
rounds. A round takes a batch out of the pool and hands it to the transport; the outcome is
settled later, and a batch that could not be sent goes back to the pool.
-/

namespace Reshard

structure Pusher where
  /-- Pushers are numbered in the order of their start. -/
  number : Nat
  source : PartitionId
  dest : PartitionId
  /-- When the next round is due. -/
  due : Nat
  deriving DecidableEq, Repr

/-- What comes of a round. -/
inductive Round
  /-- No move is in flight any more. -/
  | ended
  /-- There is nothing to send. -/
  | idle
  | sent (batch : List Key)
  deriving DecidableEq, Repr

namespace Coordinator

variable {W : Type} [Weight W]

/-- One round of a background pusher, up to the hand-over to the transport. -/
def pushRound (c : Coordinator W) (size : String → Nat) :
    Except Overflow (Round × Coordinator W) :=
  if c.flags.migrating then do
    let (batch, next) ← c.takeBatch c.setup.batches size
    return (if batch.isEmpty then .idle else .sent batch, next)
  else
    .ok (.ended, c)

/-- The outcome of a batch that was handed to the transport. -/
def settle (c : Coordinator W) (batch : List Key) (accepted : Bool) : Coordinator W :=
  if accepted then c else { c with pool := c.pool.restore batch }

end Coordinator

end Reshard
