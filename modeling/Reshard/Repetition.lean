/-!
Taking a step over and over, up to a number of times. Where states come back, whole rounds of
steps can be left out: `shortened_eq_repeated` says that this makes no difference.
-/

namespace Reshard

namespace Repetition

variable {α ε : Type}

/-- Takes up to so many steps, fewer if a step has no next state. -/
def repeated (step : α → Except ε (Option α)) : Nat → α → Except ε α
  | 0, s => .ok s
  | n + 1, s => do
    match ← step s with
    | none => return s
    | some next => repeated step n next

/-- A state that was passed some steps ago. -/
structure Landmark (α : Type) where
  state : α
  age : Nat
  /-- The age at which another state takes its place. -/
  span : Nat
  deriving Repr

namespace Landmark

def first (s : α) : Landmark α := ⟨s, 0, 1⟩

/-- The landmark after a step to `s`. Spans double, so that one is as long as a round in the
end, however long rounds are. -/
def after (l : Landmark α) (s : α) : Landmark α :=
  if l.age + 1 < l.span then { l with age := l.age + 1 } else ⟨s, 0, 2 * l.span⟩

end Landmark

/-- Takes up to so many steps, but leaves out whole rounds once a step leads back to the
landmark. -/
def shortened (step : α → Except ε (Option α)) (same : α → α → Bool) :
    Nat → Landmark α → α → Except ε α
  | 0, _, s => .ok s
  | n + 1, l, s => do
    match ← step s with
    | none => return s
    | some next =>
      if same l.state next then repeated step (n % (l.age + 1)) next
      else shortened step same n (l.after next) next

variable {step : α → Except ε (Option α)} {same : α → α → Bool}

theorem repeated_succ_of_some {n : Nat} {s next : α} (h : step s = .ok (some next)) :
    repeated step (n + 1) s = repeated step n next := by
  rw [repeated, h]
  rfl

theorem repeated_succ_of_none {n : Nat} {s : α} (h : step s = .ok none) :
    repeated step (n + 1) s = .ok s := by
  rw [repeated, h]
  rfl

theorem repeated_succ_of_error {n : Nat} {s : α} {e : ε} (h : step s = .error e) :
    repeated step (n + 1) s = .error e := by
  rw [repeated, h]
  rfl

theorem repeated_of_none {n : Nat} {s : α} (h : step s = .ok none) :
    repeated step n s = .ok s := by
  cases n with
  | zero => rfl
  | succ n => exact repeated_succ_of_none h

theorem repeated_add {m n : Nat} {a b : α} (h : repeated step m a = .ok b) :
    repeated step (m + n) a = repeated step n b := by
  induction m generalizing a with
  | zero =>
    rw [repeated, Except.ok.injEq] at h
    rw [Nat.zero_add, h]
  | succ m ih =>
    rw [Nat.add_right_comm]
    match hs : step a with
    | .error e =>
      rw [repeated_succ_of_error hs] at h
      nomatch h
    | .ok none =>
      rw [repeated_succ_of_none hs, Except.ok.injEq] at h
      subst h
      rw [repeated_succ_of_none hs, repeated_of_none hs]
    | .ok (some next) =>
      rw [repeated_succ_of_some hs] at h ⊢
      exact ih h

/-- Whole rounds change nothing. -/
theorem repeated_mul {m : Nat} {s : α} (h : repeated step m s = .ok s) (k : Nat) :
    repeated step (m * k) s = .ok s := by
  induction k with
  | zero => rfl
  | succ k ih => rw [Nat.mul_succ, repeated_add ih, h]

theorem repeated_mod {m : Nat} {s : α} (h : repeated step m s = .ok s) (n : Nat) :
    repeated step (n % m) s = repeated step n s := by
  conv => rhs; rw [← Nat.div_add_mod n m]
  rw [repeated_add (repeated_mul h (n / m))]

theorem repeated_after {l : Landmark α} {s next : α}
    (h : repeated step l.age l.state = .ok s) (hs : step s = .ok (some next)) :
    repeated step (l.after next).age (l.after next).state = .ok next := by
  rw [Landmark.after]
  split
  · rw [repeated_add h, repeated_succ_of_some hs]
    rfl
  · rfl

theorem shortened_eq_repeated
    (hsame : ∀ (n : Nat) (a b : α), repeated step n a = .ok b → same a b = true → a = b)
    (n : Nat) (l : Landmark α) (s : α) (h : repeated step l.age l.state = .ok s) :
    shortened step same n l s = repeated step n s := by
  induction n generalizing l s with
  | zero => rfl
  | succ n ih =>
    rw [shortened]
    match hs : step s with
    | .error e => exact (repeated_succ_of_error hs).symm
    | .ok none => exact (repeated_succ_of_none hs).symm
    | .ok (some next) =>
      have hround : repeated step (l.age + 1) l.state = .ok next := by
        rw [repeated_add h, repeated_succ_of_some hs]
        rfl
      rw [repeated_succ_of_some hs]
      show (if same l.state next then repeated step (n % (l.age + 1)) next
        else shortened step same n (l.after next) next) = repeated step n next
      split
      · next hl =>
        have heq := hsame _ _ _ hround hl
        rw [heq] at hround
        exact repeated_mod hround n
      · exact ih _ _ (repeated_after h hs)

end Repetition

end Reshard
