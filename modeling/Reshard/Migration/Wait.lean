/-!
How long a task of a node waits, in milliseconds. A wait is thirty years at most: a longer one,
and a longer time between two turns of a task, is cut to that.
-/

namespace Reshard

namespace Wait

/-- Thirty years of 365 days. -/
def longest : Nat := 946080000000

/-- How long a wait of `ms` milliseconds lasts. -/
def cut (ms : Nat) : Nat := min ms longest

end Wait

end Reshard
