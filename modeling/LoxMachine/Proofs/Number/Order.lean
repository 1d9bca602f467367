import Mathlib.Order.Compare
import LoxMachine.Number.Order
import LoxMachine.Proofs.Number.Digits

namespace LoxMachine.Number

theorem value_neg_iff (a : Number) : a.value < 0 ↔ a.negative = true ∧ a.isZero = false := by
  have scale := ten_zpow_pos a.exponent
  unfold value signed isZero
  cases a.negative
  · simp only [Bool.false_eq_true, ↓reduceIte, false_and, iff_false, not_lt]
    have natural := scale.le
    positivity
  · simp [scale, Nat.pos_iff_ne_zero]

theorem value_pos_iff (a : Number) : 0 < a.value ↔ a.negative = false ∧ a.isZero = false := by
  have scale := ten_zpow_pos a.exponent
  unfold value signed isZero
  cases a.negative
  · simp [scale, Nat.pos_iff_ne_zero]
  · simp only [↓reduceIte, Bool.true_eq_false, false_and, iff_false, not_lt, Int.cast_neg,
      Int.cast_natCast, neg_mul, Left.neg_nonpos_iff]
    have natural := scale.le
    positivity

theorem sign_signed (a : Number) :
    a.signed.sign = if a.isZero then 0 else if a.negative then -1 else 1 := by
  unfold signed isZero
  cases a.coefficient with
  | zero => simp
  | succ n =>
    cases a.negative
    · rfl
    · rfl

/-- A sign that differs, or a zero, decides. -/
theorem compares_signs {a b : Number}
    (apart : (a.isZero || b.isZero || a.negative != b.negative) = true) :
    (Ord.compare a.signed.sign b.signed.sign).Compares a.value b.value := by
  have a_below := a.value_neg_iff
  have a_above := a.value_pos_iff
  have b_below := b.value_neg_iff
  have b_above := b.value_pos_iff
  rw [sign_signed, sign_signed]
  cases a_zero : a.isZero with
  | true =>
    rw [isZero_iff.mp a_zero]
    cases b_zero : b.isZero with
    | true => exact (isZero_iff.mp b_zero).symm
    | false =>
      cases b_sign : b.negative with
      | true => exact b_below.mpr ⟨b_sign, b_zero⟩
      | false => exact b_above.mpr ⟨b_sign, b_zero⟩
  | false =>
    cases b_zero : b.isZero with
    | true =>
      rw [isZero_iff.mp b_zero]
      cases a_sign : a.negative with
      | true => exact a_below.mpr ⟨a_sign, a_zero⟩
      | false => exact a_above.mpr ⟨a_sign, a_zero⟩
    | false =>
      rw [a_zero, b_zero] at apart
      cases a_sign : a.negative with
      | true =>
        cases b_sign : b.negative with
        | true => simp [a_sign, b_sign] at apart
        | false => exact (a_below.mpr ⟨a_sign, a_zero⟩).trans (b_above.mpr ⟨b_sign, b_zero⟩)
      | false =>
        cases b_sign : b.negative with
        | true => exact (b_below.mpr ⟨b_sign, b_zero⟩).trans (a_above.mpr ⟨a_sign, a_zero⟩)
        | false => simp [a_sign, b_sign] at apart

theorem compares_aligned (a b : Number) : (a.compareAligned b).Compares a.value b.value := by
  have scale := ten_zpow_pos (a.commonExponent b)
  have left := scaledTo_mul a (e := a.commonExponent b) (min_le_left _ _)
  have right := scaledTo_mul b (e := a.commonExponent b) (min_le_right _ _)
  unfold compareAligned
  dsimp only
  rw [← left, ← right]
  generalize a.scaledTo (a.commonExponent b) = i
  generalize b.scaledTo (a.commonExponent b) = j
  cases order : Ord.compare i j with
  | lt =>
    have less : (i : ℚ) < j := by exact_mod_cast compare_lt_iff_lt.mp order
    exact mul_lt_mul_of_pos_right less scale
  | eq =>
    rw [compare_eq_iff_eq.mp order]
    rfl
  | gt =>
    have greater : (j : ℚ) < i := by exact_mod_cast compare_gt_iff_gt.mp order
    exact mul_lt_mul_of_pos_right greater scale

theorem abs_lt_of_leading {a b : Number} (a_there : a.isZero = false) (b_there : b.isZero = false)
    (before : a.leading < b.leading) : |a.value| < |b.value| :=
  calc |a.value| < 10 ^ (a.leading + 1) := (abs_value_bounds a_there).2
    _ ≤ 10 ^ b.leading := ten_zpow_le.mpr before
    _ ≤ |b.value| := (abs_value_bounds b_there).1

theorem compares_leading {a b : Number} (a_there : a.isZero = false) (b_there : b.isZero = false)
    (same : a.negative = b.negative) (before : a.leading < b.leading) :
    if a.negative then b.value < a.value else a.value < b.value := by
  have nearer := abs_lt_of_leading a_there b_there before
  cases sign : a.negative with
  | true =>
    have a_below := a.value_neg_iff.mpr ⟨sign, a_there⟩
    have b_below := b.value_neg_iff.mpr ⟨same ▸ sign, b_there⟩
    rw [abs_of_neg a_below, abs_of_neg b_below, neg_lt_neg_iff] at nearer
    exact nearer
  | false =>
    have a_above := a.value_pos_iff.mpr ⟨sign, a_there⟩
    have b_above := b.value_pos_iff.mpr ⟨same ▸ sign, b_there⟩
    rw [abs_of_pos a_above, abs_of_pos b_above] at nearer
    exact nearer

theorem compares_compare (a b : Number) : (a.compare b).Compares a.value b.value := by
  unfold compare
  by_cases apart : (a.isZero || b.isZero || a.negative != b.negative) = true
  · rw [if_pos apart]
    exact compares_signs apart
  · rw [if_neg apart]
    simp only [Bool.or_eq_true, bne_iff_ne, not_or, Bool.not_eq_true, Decidable.not_not] at apart
    obtain ⟨⟨a_there, b_there⟩, same⟩ := apart
    cases order : Ord.compare a.leading b.leading with
    | lt =>
      have decided := compares_leading a_there b_there same (compare_lt_iff_lt.mp order)
      cases sign : a.negative <;> rw [sign] at decided <;> exact decided
    | eq => exact compares_aligned a b
    | gt =>
      have decided := compares_leading b_there a_there same.symm (compare_gt_iff_gt.mp order)
      rw [← same] at decided
      cases sign : a.negative <;> rw [sign] at decided <;> exact decided

theorem value_zeros (negative : Bool) (coefficient : Nat) (exponent : ℤ) (k : Nat) :
    value ⟨negative, coefficient * 10 ^ k, exponent - k⟩ = value ⟨negative, coefficient, exponent⟩ := by
  have scale : (10 : ℚ) ^ exponent = 10 ^ k * 10 ^ (exponent - k) := by
    rw [← zpow_natCast, ← ten_zpow_add, add_sub_cancel]
  unfold value signed
  rw [scale]
  cases negative
  · push_cast
    ring
  · rw [if_pos rfl, if_pos rfl]
    push_cast
    ring

theorem sameValue_iff (a b : Number) : a.sameValue b = true ↔ a.value = b.value := by
  rw [sameValue, beq_iff_eq]
  exact (compares_compare a b).eq_eq

end LoxMachine.Number
