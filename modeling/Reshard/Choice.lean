/-!
Choosing one element of a list by a scan from left to right that keeps the best so far.
-/

namespace Reshard

/-- The element kept by a scan in which `x` takes the place of `best` when `beats x best`. -/
def choose {α : Type} (beats : α → α → Bool) (l : List α) : Option α :=
  l.foldl (fun best x =>
    match best with
    | none => some x
    | some b => if beats x b then some x else some b) none

end Reshard
