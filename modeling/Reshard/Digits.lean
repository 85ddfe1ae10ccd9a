/-!
Decimal digits, and the numbers that they write. Long numbers are read by joining neighbours:
digits to pairs, pairs to fours and so on, which takes few multiplications of long numbers.
`natural_eq_foldl` says that this comes to the same as reading from left to right.
-/

namespace Reshard

namespace Digits

def value (c : Char) : Nat := c.toNat - 48

/-- The number that digits write to a base, the lowest digit first. -/
def ofBase (base : Nat) (ds : List Nat) : Nat := ds.foldr (fun d n => d + base * n) 0

/-- Joins neighbours, so that digits to a base become digits to its square. -/
def joinPairs (base : Nat) : List Nat → List Nat
  | low :: high :: rest => (low + base * high) :: joinPairs base rest
  | rest => rest

/-- Joins neighbours a number of times before it adds up what is left. -/
def join : Nat → Nat → List Nat → Nat
  | 0, base, ds => ofBase base ds
  | n + 1, base, ds => join n (base * base) (joinPairs base ds)

/-- The number that decimal digits write. -/
def natural (s : List Char) : Nat := join s.length.log2 10 (s.reverse.map value)

theorem ofBase_joinPairs (base : Nat) (ds : List Nat) :
    ofBase (base * base) (joinPairs base ds) = ofBase base ds := by
  fun_induction joinPairs base ds with
  | case1 low high rest ih =>
    simp only [ofBase, List.foldr_cons] at ih ⊢
    rw [ih, Nat.mul_add, Nat.mul_assoc, Nat.add_assoc]
  | case2 rest h =>
    match rest with
    | [] => rfl
    | [_] => simp [ofBase]
    | low :: high :: more => exact absurd rfl (h low high more)

theorem join_eq_ofBase (n base : Nat) (ds : List Nat) : join n base ds = ofBase base ds := by
  induction n generalizing base ds with
  | zero => rfl
  | succ n ih => rw [join, ih, ofBase_joinPairs]

theorem natural_eq_foldl (s : List Char) :
    natural s = s.foldl (fun n c => value c + 10 * n) 0 := by
  rw [natural, join_eq_ofBase, ofBase, List.map_reverse, List.foldr_reverse, List.foldl_map]

end Digits

end Reshard
