/-!
Checked arithmetic on 64-bit words. Numbers are kept as `Nat`; an operation whose
result does not fit in a word stops with `Overflow`, and so does a table that memory cannot
address.
-/

namespace Reshard

/-- The result of an operation does not fit in a 64-bit word, or a table not in memory. -/
inductive Overflow
  | overflow
  deriving DecidableEq, Repr

namespace Word

/-- Two to the 64: the first number that is not a 64-bit word. -/
def limit : Nat := 18446744073709551616

def check (n : Nat) : Except Overflow Nat :=
  if n < limit then .ok n else .error .overflow

def add (a b : Nat) : Except Overflow Nat := check (a + b)

def mul (a b : Nat) : Except Overflow Nat := check (a * b)

/-- Half of the address space, in bytes. -/
def addressable : Nat := 9223372036854775808

/-- A table of `n` entries of `bytes` each takes less than half of the address space. -/
def room (n bytes : Nat) : Except Overflow Unit :=
  if n * bytes < addressable then .ok () else .error .overflow

theorem check_eq_ok_iff {n m : Nat} : check n = .ok m ↔ n < limit ∧ n = m := by
  by_cases h : n < limit <;> simp [check, h]

theorem check_eq_error_iff {n : Nat} {e : Overflow} :
    check n = .error e ↔ limit ≤ n := by
  cases e
  by_cases h : n < limit <;> simp [check, h]
  exact Nat.not_lt.mp h

theorem check_of_lt {n : Nat} (h : n < limit) : check n = .ok n := by
  simp [check, h]

end Word

end Reshard
