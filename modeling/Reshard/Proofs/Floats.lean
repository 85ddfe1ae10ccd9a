import Mathlib
import Reshard.Proofs.Ordered

/-!
Floating-point numbers are ordered weights. All but those that stand for no number have a level,
from minus infinity up to infinity, and are compared by it (`compare_eq`). A sum is rounded, but it
is not below zero if neither of its terms is (`nonneg_add`).
-/

namespace Reshard

namespace Floats

open Float.Model UnpackedFloat

/-! ## Levels -/

/-- By sign, then by exponent and mantissa. Both zeros are on one level. -/
def level : UnpackedFloat → Option (ℤ ×ₗ ℤ ×ₗ ℤ)
  | .notANumber => none
  | .infinity .negative => some (toLex (-2, toLex (0, 0)))
  | .finite .negative m e _ => some (toLex (-1, toLex (-e, -m)))
  | .zero _ => some (toLex (0, toLex (0, 0)))
  | .finite .positive m e _ => some (toLex (1, toLex (e, m)))
  | .infinity .positive => some (toLex (2, toLex (0, 0)))

theorem compare_toLex {α β : Type} [LinearOrder α] [LinearOrder β] (a a' : α) (b b' : β) :
    compare (toLex (a, b)) (toLex (a', b')) = (compare a a').then (compare b b') := by
  rw [Prod.Lex.compare_def]
  rfl

theorem compare_natCast (m n : ℕ) : compare (m : ℤ) n = compare m n := by
  rw [← cmp_eq_compare, ← cmp_eq_compare]
  exact Nat.strictMono_cast.cmp_map_eq m n

theorem compare_neg (a b : ℤ) : compare (-a) (-b) = (compare a b).swap := by
  have hanti : StrictAnti (Neg.neg : ℤ → ℤ) := fun _ _ h => neg_lt_neg h
  rw [← cmp_eq_compare, ← cmp_eq_compare, cmp_swap]
  exact hanti.cmp_map_eq a b

theorem compare_positive {m m' : ℕ} {e e' : ℤ} (hm : 0 < m) (hm' : 0 < m') :
    UnpackedFloat.compare (.finite .positive m e hm) (.finite .positive m' e' hm') =
      some (compare (toLex ((1 : ℤ), toLex (e, (m : ℤ)))) (toLex (1, toLex (e', ↑m')))) := by
  rw [compare_toLex, compare_toLex, compare_natCast]
  rfl

theorem compare_negative {m m' : ℕ} {e e' : ℤ} (hm : 0 < m) (hm' : 0 < m') :
    UnpackedFloat.compare (.finite .negative m e hm) (.finite .negative m' e' hm') =
      some (compare (toLex ((-1 : ℤ), toLex (-e, -(m : ℤ))))
        (toLex (-1, toLex (-e', -↑m')))) := by
  rw [compare_toLex, compare_toLex, compare_neg e, compare_neg (m : ℤ), compare_natCast,
    ← Ordering.swap_then]
  rfl

/-- Floats are compared by their levels. -/
theorem compare_eq (u v : UnpackedFloat) : UnpackedFloat.compare u v =
    (level u).bind fun x => (level v).map fun y => compare x y := by
  -- The kinds decide, unless both are finite and of one sign.
  rcases u with s | _ | s | ⟨s, m, e, hm⟩ <;>
    rcases v with s' | _ | s' | ⟨s', m', e', hm'⟩ <;>
    (try cases s) <;> (try cases s') <;>
    first | rfl | exact compare_positive hm hm' | exact compare_negative hm hm'

/-- The level of a float, unless it is not a number. -/
def levelOf (a : Float) : Option (ℤ ×ₗ ℤ ×ₗ ℤ) := level a.toModel.unpack

section

variable {a b : Float}

theorem le_iff :
    a ≤ b ↔ ∃ x, levelOf a = some x ∧ ∃ y, levelOf b = some y ∧ x ≤ y := by
  have hle : a ≤ b ↔
      (UnpackedFloat.compare a.toModel.unpack b.toModel.unpack).any (·.isLE) = true :=
    decide_eq_true_iff
  rw [hle, compare_eq, ← levelOf, ← levelOf]
  cases levelOf a <;> cases levelOf b <;> simp [Ordering.isLE_iff_ne_gt, compare_le_iff_le]

theorem lt_iff : a < b ↔ ∃ x, levelOf a = some x ∧ ∃ y, levelOf b = some y ∧ x < y := by
  have hlt : a < b ↔
      (UnpackedFloat.compare a.toModel.unpack b.toModel.unpack == some .lt) = true :=
    decide_eq_true_iff
  rw [hlt, compare_eq, ← levelOf, ← levelOf]
  cases levelOf a <;> cases levelOf b <;> simp [compare_lt_iff_lt]

theorem beq_iff : (a == b) = true ↔ ∃ x, levelOf a = some x ∧ levelOf b = some x := by
  have hbeq : (a == b) =
      (UnpackedFloat.compare a.toModel.unpack b.toModel.unpack == some .eq) := rfl
  rw [hbeq, compare_eq, ← levelOf, ← levelOf]
  cases levelOf a <;> cases levelOf b <;> simp
  rw [compare_eq_iff_eq]
  exact eq_comm

theorem isNumber_iff : Weight.IsNumber a ↔ ∃ x, levelOf a = some x := by
  rw [Weight.IsNumber, beq_iff]
  simp

end

/-! ## Sums of what is not negative -/

/-- Zero of either sign, or above it. -/
def Nonneg : UnpackedFloat → Prop
  | .notANumber => False
  | .infinity s => s = .positive
  | .zero _ => True
  | .finite s _ _ _ => s = .positive

theorem nonneg_iff {a : Float} : (0 : Float) ≤ a ↔ Nonneg a.toModel.unpack := by
  have hzero : levelOf 0 = some (toLex (0, toLex (0, 0))) := rfl
  rw [le_iff, hzero, levelOf]
  rcases a.toModel.unpack with s | _ | s | ⟨s, m, e, hm⟩ <;> (try cases s) <;>
    simp [level, Nonneg, Prod.Lex.toLex_le_toLex]

/-- Rounding keeps the sign. -/
theorem nonneg_round (spec : Format) (m : ℕ) (e : ℤ) :
    Nonneg (UnpackedFloat.round spec .positive m e) := by
  unfold UnpackedFloat.round roundWithAccuracy
  dsimp only
  split
  · trivial
  · rfl

theorem nonneg_normalize (spec : Format) {m : ℤ} (hm : 0 ≤ m) (e : ℤ) :
    Nonneg (UnpackedFloat.normalize spec m e .positive) := by
  rw [UnpackedFloat.normalize]
  split
  · next h => exact absurd (compare_lt_iff_lt.mp h) (not_lt.mpr hm)
  · trivial
  · exact nonneg_round spec _ e

theorem nonneg_add {spec : Format} {u v : UnpackedFloat} (hu : Nonneg u) (hv : Nonneg v) :
    Nonneg (UnpackedFloat.add spec u v) := by
  cases u with
  | notANumber => exact hu.elim
  | infinity s =>
    cases hu
    cases v with
    | notANumber => exact hv.elim
    | infinity s' =>
      cases hv
      rfl
    | zero s' => rfl
    | finite s' m' e' hm' => rfl
  | zero s =>
    cases v with
    | notANumber => exact hv.elim
    | infinity s' => exact hv
    | zero s' => cases s <;> cases s' <;> trivial
    | finite s' m' e' hm' => exact hv
  | finite s m e hm =>
    cases v with
    | notANumber => exact hv.elim
    | infinity s' => exact hv
    | zero s' => exact hu
    | finite s' m' e' hm' =>
      cases hu
      cases hv
      exact nonneg_normalize spec (Int.add_nonneg (Int.natCast_nonneg _) (Int.natCast_nonneg _)) _

theorem nonneg_packComponents {exponent : BitVec 11} (h : exponent ≠ -1#11)
    (mantissa : BitVec 52) :
    Nonneg (unpack .binary64 (packComponents .binary64 .positive exponent mantissa)) := by
  rw [UnpackedFloat.unpack]
  simp only [unpackExponent_packComponents, unpackMantissa_packComponents,
    unpackSign_packComponents, Sign.ofBitVec_toBitVec]
  rw [if_neg h]
  split
  · split
    · trivial
    · rfl
  · rfl

/-- Packing keeps the sign, if large floats turn into infinity. -/
theorem nonneg_unpack_pack {u : UnpackedFloat} (hu : Nonneg u) :
    Nonneg (unpack .binary64 (u.pack .binary64)) := by
  rcases u with s | _ | s | ⟨s, m, e, hm⟩
  · cases hu
    rfl
  · exact hu.elim
  · rw [UnpackedFloat.pack, unpack_packedZero]
    trivial
  · cases hu
    rw [UnpackedFloat.pack]
    dsimp only
    split
    · rfl
    · next hsmall =>
      split
      · apply nonneg_packComponents
        intro hexponent
        have hlast : _ % 2 ^ 11 = 2047 := congrArg BitVec.toNat hexponent
        rw [Nat.mod_eq_of_lt (by omega)] at hlast
        omega
      · exact nonneg_packComponents (by decide) _

end Floats

instance : Weight.Ordered Float where
  isNumber_of_le h := by
    obtain ⟨x, hx, y, hy, -⟩ := Floats.le_iff.mp h
    exact ⟨Floats.isNumber_iff.mpr ⟨x, hx⟩, Floats.isNumber_iff.mpr ⟨y, hy⟩⟩
  le_total ha hb := by
    obtain ⟨x, hx⟩ := Floats.isNumber_iff.mp ha
    obtain ⟨y, hy⟩ := Floats.isNumber_iff.mp hb
    simp [Floats.le_iff, hx, hy, le_total]
  le_trans hab hbc := by
    obtain ⟨x, hx, y, hy, hxy⟩ := Floats.le_iff.mp hab
    obtain ⟨y', hy', z, hz, hyz⟩ := Floats.le_iff.mp hbc
    cases hy.symm.trans hy'
    exact Floats.le_iff.mpr ⟨x, hx, z, hz, hxy.trans hyz⟩
  lt_iff ha hb := by
    obtain ⟨x, hx⟩ := Floats.isNumber_iff.mp ha
    obtain ⟨y, hy⟩ := Floats.isNumber_iff.mp hb
    simp [Floats.lt_iff, Floats.le_iff, hx, hy]
  beq_iff := by
    intro a b
    rw [Floats.beq_iff]
    constructor
    · rintro ⟨x, hx, hy⟩
      exact ⟨Floats.le_iff.mpr ⟨x, hx, x, hy, le_rfl⟩,
        Floats.le_iff.mpr ⟨x, hy, x, hx, le_rfl⟩⟩
    · rintro ⟨hab, hba⟩
      obtain ⟨x, hx, y, hy, hxy⟩ := Floats.le_iff.mp hab
      obtain ⟨y', hy', x', hx', hyx⟩ := Floats.le_iff.mp hba
      cases hx.symm.trans hx'
      cases hy.symm.trans hy'
      exact ⟨x, hx, le_antisymm hxy hyx ▸ hy⟩
  zero_le_one := Floats.nonneg_iff.mpr rfl
  add_nonneg ha hb :=
    Floats.nonneg_iff.mpr <| Floats.nonneg_unpack_pack <|
      Floats.nonneg_add (Floats.nonneg_iff.mp ha) (Floats.nonneg_iff.mp hb)

end Reshard
