import Reshard.Proofs.Exact

/-!
Comparing weights. Sums may be rounded, and an operation may have no number as its result. But the
numbers are in one order, which all comparisons tell of, and a sum of what is not negative is not
negative (`Weight.Ordered`). This is true of exact weights and of floating-point numbers.
-/

namespace Reshard

namespace Weight

/-- A weight that is equal to itself, as only the result of an undefined operation is not. -/
def IsNumber {W : Type} [Weight W] (w : W) : Prop := (w == w) = true

/-- The numbers are in one order, in which one is not below zero, nor is a sum of what is not.
Nothing else is said of sums. -/
class Ordered (W : Type) [Weight W] : Prop where
  isNumber_of_le : ∀ {a b : W}, a ≤ b → IsNumber a ∧ IsNumber b
  le_total : ∀ {a b : W}, IsNumber a → IsNumber b → a ≤ b ∨ b ≤ a
  le_trans : ∀ {a b c : W}, a ≤ b → b ≤ c → a ≤ c
  lt_iff : ∀ {a b : W}, IsNumber a → IsNumber b → (a < b ↔ ¬ b ≤ a)
  beq_iff : ∀ {a b : W}, (a == b) = true ↔ a ≤ b ∧ b ≤ a
  zero_le_one : (0 : W) ≤ 1
  add_nonneg : ∀ {a b : W}, 0 ≤ a → 0 ≤ b → 0 ≤ a + b

instance : Ordered ℚ where
  isNumber_of_le _ := ⟨beq_self_eq_true _, beq_self_eq_true _⟩
  le_total _ _ := le_total _ _
  le_trans := le_trans
  lt_iff _ _ := lt_iff_not_ge
  beq_iff := by
    intro a b
    rw [beq_iff_eq]
    exact le_antisymm_iff
  zero_le_one := zero_le_one
  add_nonneg := add_nonneg

/-- Exact weights are numbers. -/
theorem isNumber_rat (w : ℚ) : IsNumber w := beq_self_eq_true w

variable {W : Type} [Weight W] [Ordered W] {a b c : W}

theorem isNumber_of_nonneg (h : 0 ≤ a) : IsNumber a := (Ordered.isNumber_of_le h).2

theorem isNumber_zero : IsNumber (0 : W) :=
  (Ordered.isNumber_of_le (Ordered.zero_le_one (W := W))).1

theorem zero_le_zero : (0 : W) ≤ 0 := (Ordered.beq_iff.mp isNumber_zero).1

theorem add_one_nonneg (h : 0 ≤ a) : 0 ≤ a + 1 := Ordered.add_nonneg h Ordered.zero_le_one

theorem beq_comm : (a == b) = true ↔ (b == a) = true := by
  rw [Ordered.beq_iff, Ordered.beq_iff, and_comm]

theorem sum_nonneg {ws : List W} (h : ∀ w ∈ ws, 0 ≤ w) : 0 ≤ Weight.sum ws := by
  have hfold : ∀ start : W, 0 ≤ start → 0 ≤ ws.foldl (· + ·) start := by
    induction ws with
    | nil => exact fun _ hstart => hstart
    | cons w rest ih =>
      intro start hstart
      obtain ⟨hw, hrest⟩ := List.forall_mem_cons.mp h
      exact ih hrest _ (Ordered.add_nonneg hstart hw)
  exact hfold 0 zero_le_zero

theorem lt_asymm (ha : IsNumber a) (hb : IsNumber b) (h : a < b) : ¬ b < a := by
  rw [Ordered.lt_iff hb ha, not_not]
  rw [Ordered.lt_iff ha hb] at h
  exact (Ordered.le_total ha hb).resolve_right h

/-- What lies between two numbers differs from one of them. -/
theorem lt_or_lt (ha : IsNumber a) (hb : IsNumber b) (hc : IsNumber c) (h : a < c) :
    a < b ∨ b < c := by
  rw [Ordered.lt_iff ha hc] at h
  rw [Ordered.lt_iff ha hb, Ordered.lt_iff hb hc, ← not_and_or]
  exact fun hbetween => h (Ordered.le_trans hbetween.2 hbetween.1)

theorem beq_iff_not_lt (ha : IsNumber a) (hb : IsNumber b) :
    (a == b) = true ↔ ¬ a < b ∧ ¬ b < a := by
  rw [Ordered.beq_iff, Ordered.lt_iff ha hb, Ordered.lt_iff hb ha, not_not, not_not, and_comm]

end Weight

end Reshard
