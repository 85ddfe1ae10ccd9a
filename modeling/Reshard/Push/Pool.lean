import Reshard.Push.Batch

/-!
The pool of keys that still wait for a background push. Keys that were pushed in the
foreground are reported on a skip queue, which is drained before each batch.
-/

namespace Reshard

structure Pool where
  waiting : Tables
  /-- The latest key comes first. -/
  skips : List Key
  deriving DecidableEq, Repr

namespace Pool

def empty : Pool := ⟨∅, []⟩

instance : EmptyCollection Pool := ⟨empty⟩

instance : Inhabited Pool := ⟨empty⟩

def size (p : Pool) : Nat := p.waiting.size

def isEmpty (p : Pool) : Bool := p.size = 0

def add (p : Pool) (k : Key) : Pool := { p with waiting := p.waiting.insert k }

def addAll (p : Pool) (ks : List Key) : Pool := { p with waiting := p.waiting.insertMany ks }

/-- Reports a key on the skip queue. -/
def skip (p : Pool) (k : Key) : Pool := { p with skips := k :: p.skips }

/-- Drops the keys on the skip queue. -/
def drain (p : Pool) : Pool := ⟨p.waiting.eraseMany p.skips, []⟩

/-- Takes the next batch out of the pool, where `size` tells the size of a table's records. -/
def takeBatch (p : Pool) (r : BatchRule) (size : String → Nat) :
    Except Overflow (List Key × Pool) := do
  let d ← Draft.fill r size p.drain.waiting
  return (d.taken.reverse, ⟨d.left, []⟩)

/-- Puts back the keys of a batch that could not be sent. -/
def restore (p : Pool) (batch : List Key) : Pool := p.addAll batch

end Pool

end Reshard
