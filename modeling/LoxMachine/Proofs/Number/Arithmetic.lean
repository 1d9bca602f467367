import LoxMachine.Proofs.Number.Rounding
import LoxMachine.Number.Arithmetic

namespace LoxMachine.Number

structure Between (u : ℚ) (m : ℤ) (x : ℚ) : Prop where
  lower : m * u < x
  upper : x < (m + 1) * u

section Between

variable {u x x' : ℚ} {m k : ℤ}

theorem Between.lt_iff (positive : 0 < u) (between : Between u m x) (t : ℤ) : x < t * u ↔ m < t := by
  constructor
  · intro above
    have order := lt_of_mul_lt_mul_right (between.lower.trans above) positive.le
    exact_mod_cast order
  · intro above
    have order : (m : ℚ) + 1 ≤ t := by exact_mod_cast above
    exact lt_of_lt_of_le between.upper (mul_le_mul_of_nonneg_right order positive.le)

theorem Between.gt_iff (positive : 0 < u) (between : Between u m x) (t : ℤ) : t * u < x ↔ t ≤ m := by
  constructor
  · intro below
    have order := lt_of_mul_lt_mul_right (below.trans between.upper) positive.le
    have next : t < m + 1 := by exact_mod_cast order
    omega
  · intro below
    have order : (t : ℚ) ≤ m := by exact_mod_cast below
    exact lt_of_le_of_lt (mul_le_mul_of_nonneg_right order positive.le) between.lower

theorem ten_zpow_halves {p : ℤ} (above : k < p) : ∃ h : ℤ, (10 : ℚ) ^ p = 2 * (h * (5 * 10 ^ k)) := by
  obtain ⟨n, rfl⟩ : ∃ n : ℕ, p = n + k + 1 := ⟨(p - k - 1).toNat, by omega⟩
  refine ⟨10 ^ n, ?_⟩
  rw [ten_zpow_add, ten_zpow_add, zpow_one, zpow_natCast]
  push_cast
  ring

theorem abs_lt_iff_of_between (between : Between (5 * 10 ^ k) m x) (between' : Between (5 * 10 ^ k) m x')
    {p : ℤ} (above : k < p) : |x| < 10 ^ p ↔ |x'| < 10 ^ p := by
  have unit : (0 : ℚ) < 5 * 10 ^ k := mul_pos (by norm_num) (ten_zpow_pos k)
  obtain ⟨h, multiple⟩ := ten_zpow_halves above
  have upper : (10 : ℚ) ^ p = (2 * h : ℤ) * (5 * 10 ^ k) := by
    rw [multiple]
    push_cast
    ring
  have lower : -(10 : ℚ) ^ p = (-(2 * h) : ℤ) * (5 * 10 ^ k) := by
    rw [multiple]
    push_cast
    ring
  rw [abs_lt, abs_lt, lower, upper, between.lt_iff unit, between'.lt_iff unit, between.gt_iff unit,
    between'.gt_iff unit]

/-- Values between the same multiples are rounded alike, if their last place is not finer. -/
theorem rounds_of_between (between : Between (5 * 10 ^ k) m x) (between' : Between (5 * 10 ^ k) m x')
    (far : 10 ^ (k + 28) ≤ |x'|) {y : ℚ} (rounds : Rounds x' y) : Rounds x y := by
  have unit : (0 : ℚ) < 5 * 10 ^ k := mul_pos (by norm_num) (ten_zpow_pos k)
  have there : 0 < |x'| := lt_of_lt_of_le (ten_zpow_pos _) far
  have first : k + 28 ≤ Int.log 10 |x'| := by
    have := ten_zpow_lt.mp (lt_of_le_of_lt far (lt_ten_log |x'|))
    omega
  have same_log : Int.log 10 |x| = Int.log 10 |x'| := by
    apply log_eq
    · rw [← not_lt, abs_lt_iff_of_between between between' (by omega), not_lt]
      exact ten_log_le there
    · rw [abs_lt_iff_of_between between between' (by omega)]
      exact lt_ten_log _
  have same : place x = place x' := by rw [place, place, same_log]
  have coarse : k < place x' := by
    unfold place
    omega
  obtain ⟨h, multiple⟩ := ten_zpow_halves coarse
  obtain ⟨n, near, rfl⟩ := rounds
  -- halfway between two multiples of the last place lies a multiple of the unit
  have strict : 2 * |x - n * 10 ^ place x'| < 10 ^ place x' := by
    have inside := near.near
    have lower : ¬ x' < ((2 * n - 1) * h : ℤ) * (5 * 10 ^ k) := by
      have bound := (abs_le.mp (show |x' - n * 10 ^ place x'| ≤ 10 ^ place x' / 2 by linarith)).1
      rw [multiple] at bound
      push_cast
      intro less
      nlinarith
    have upper : ¬ ((2 * n + 1) * h : ℤ) * (5 * 10 ^ k) < x' := by
      have bound := (abs_le.mp (show |x' - n * 10 ^ place x'| ≤ 10 ^ place x' / 2 by linarith)).2
      rw [multiple] at bound
      push_cast
      intro less
      nlinarith
    rw [between'.lt_iff unit, not_lt] at lower
    rw [between'.gt_iff unit, not_le] at upper
    have lower' := (between.gt_iff unit _).mpr lower
    have upper' := (between.lt_iff unit _).mpr upper
    have bound : |x - n * 10 ^ place x'| < 10 ^ place x' / 2 := by
      rw [abs_lt, multiple]
      push_cast at lower' upper'
      constructor <;> linarith
    linarith
  refine ⟨n, ?_, by rw [same]⟩
  rw [same]
  exact ⟨strict.le, fun half => absurd half strict.ne⟩

end Between

theorem Correct.congr {x x' : ℚ} {result : Except RangeError Number}
    (alike : ∀ y, Rounds x' y → Rounds x y) (correct : Correct x' result) : Correct x result := by
  cases result with
  | ok r => exact ⟨alike _ correct.1, correct.2⟩
  | error e =>
    obtain ⟨y, rounds, large⟩ := correct
    exact ⟨y, alike y rounds, large⟩

theorem value_unit (negative : Bool) (k : ℤ) :
    value ⟨negative, 1, k⟩ = if negative then -10 ^ k else 10 ^ k := by
  unfold value signed
  cases negative <;> simp

theorem value_sign (a : Number) : if a.negative then a.value ≤ 0 else 0 ≤ a.value := by
  have scale := (ten_zpow_pos a.exponent).le
  unfold value signed
  split
  · have : (0 : ℚ) ≤ a.coefficient := Nat.cast_nonneg _
    push_cast
    nlinarith
  · positivity

theorem value_multiple (b : Number) {k : ℤ} (above : k < b.exponent) :
    ∃ m : ℤ, b.value = m * (5 * 10 ^ k) := by
  obtain ⟨h, halves⟩ := ten_zpow_halves above
  refine ⟨b.signed * (2 * h), ?_⟩
  rw [value, halves]
  push_cast
  ring

/-- A summand out of reach may be replaced by a unit of its sign. -/
theorem rounds_unit {a b : Number} (a_there : a.isZero = false) (b_there : b.isZero = false)
    (out : a.leading < b.reach) {y : ℚ} (rounds : Rounds (value ⟨a.negative, 1, b.reach⟩ + b.value) y) :
    Rounds (a.value + b.value) y := by
  obtain ⟨k, reached⟩ : ∃ k, k = b.reach := ⟨_, rfl⟩
  rw [← reached] at out rounds
  have full : (precision : ℤ) = 28 := rfl
  have fine : k < b.exponent := by
    rw [reached, reach]
    omega
  have high : k + 29 ≤ b.leading := by
    rw [reached, reach, full]
    omega
  obtain ⟨m, multiple⟩ := value_multiple b fine
  have scale := ten_zpow_pos k
  have small : |a.value| < 10 ^ k :=
    (abs_value_bounds a_there).2.trans_le (ten_zpow_le.mpr (by omega))
  have some : 0 < |a.value| := (ten_zpow_pos _).trans_le (abs_value_bounds a_there).1
  have large : (10 : ℚ) ^ k * 10 ^ (29 : ℤ) ≤ |b.value| := by
    rw [← ten_zpow_add]
    exact (ten_zpow_le.mpr high).trans (abs_value_bounds b_there).1
  have unit : |value ⟨a.negative, 1, k⟩| = 10 ^ k := by simp [abs_value]
  have far : 10 ^ (k + 28) ≤ |value ⟨a.negative, 1, k⟩ + b.value| := by
    have apart : |b.value| - |value ⟨a.negative, 1, k⟩| ≤ |value ⟨a.negative, 1, k⟩ + b.value| := by
      have := abs_sub_abs_le_abs_sub b.value (-value ⟨a.negative, 1, k⟩)
      rwa [abs_neg, sub_neg_eq_add, add_comm b.value] at this
    rw [unit] at apart
    rw [ten_zpow_add]
    norm_num at large ⊢
    linarith
  have sign := value_sign a
  rw [value_unit] at rounds far
  rw [multiple] at rounds far ⊢
  cases negative : a.negative with
  | false =>
    rw [negative] at sign rounds far
    have above : 0 ≤ a.value := by simpa using sign
    rw [abs_of_nonneg above] at small some
    simp only [Bool.false_eq_true, if_false] at rounds far
    exact rounds_of_between (m := m) ⟨by linarith, by linarith⟩ ⟨by linarith, by linarith⟩ far rounds
  | true =>
    rw [negative] at sign rounds far
    have below : a.value ≤ 0 := by simpa using sign
    rw [abs_of_nonpos below] at small some
    simp only [if_true] at rounds far
    refine rounds_of_between (m := m - 1) ⟨?_, ?_⟩ ⟨?_, ?_⟩ far rounds
    all_goals
      push_cast
      linarith

theorem value_of_isZero {a : Number} (zero : a.isZero = true) : a.value = 0 := isZero_iff.mp zero

/-- What a sum sees of its summands is rounded like the summands themselves. -/
theorem rounds_beside (a b : Number) {y : ℚ}
    (rounds : Rounds ((a.beside b).value + (b.beside (a.beside b)).value) y) :
    Rounds (a.value + b.value) y := by
  have full : (precision : ℤ) = 28 := rfl
  -- a zero only takes another exponent
  have still : ∀ {a b : Number}, a.isZero = true → (a.beside b).value = a.value := by
    intro a b zero
    have other : Number.isZero { a with exponent := b.exponent } = true := zero
    rw [beside, if_pos zero, value_of_isZero zero, value_of_isZero other]
  have kept : ∀ {a b : Number}, a.isZero = false → (b.isZero = true ∨ ¬ a.leading < b.reach) →
      a.beside b = a := by
    intro a b there near
    rw [beside, if_neg (by simp [there])]
    split
    · rename_i out
      simp only [Bool.and_eq_true, Bool.not_eq_true', decide_eq_true_eq] at out
      rcases near with zero | near
      · exact absurd (zero.symm.trans out.1) (by decide)
      · exact absurd out.2 near
    · rfl
  have replaced : ∀ {a b : Number}, a.isZero = false → b.isZero = false → a.leading < b.reach →
      a.beside b = ⟨a.negative, 1, b.reach⟩ := by
    intro a b there other out
    rw [beside, if_neg (by simp [there]), if_pos (by simp [other, out])]
  cases a_zero : a.isZero with
  | true =>
    have value_a := still (b := b) a_zero
    have zero : (a.beside b).isZero = true := by
      rw [isZero_iff, value_a, value_of_isZero a_zero]
    have value_b : (b.beside (a.beside b)).value = b.value := by
      cases b_zero : b.isZero with
      | true => exact still b_zero
      | false => rw [kept b_zero (.inl zero)]
    rwa [value_a, value_b] at rounds
  | false =>
    cases b_zero : b.isZero with
    | true => rwa [kept a_zero (.inl b_zero), still b_zero] at rounds
    | false =>
      by_cases out : a.leading < b.reach
      · -- the unit is no larger than what it stands for, so the other summand is not replaced
        rw [replaced a_zero b_zero out] at rounds
        have near : ¬ b.leading < Number.reach ⟨a.negative, 1, b.reach⟩ := by
          have least : b.reach ≤ b.leading - precision - 1 := min_le_right _ _
          have unit : Number.reach ⟨a.negative, 1, b.reach⟩ ≤ b.reach - 1 := min_le_left _ _
          omega
        rw [kept b_zero (.inr near)] at rounds
        exact rounds_unit a_zero b_zero out rounds
      · rw [kept a_zero (.inr out)] at rounds
        by_cases out' : b.leading < a.reach
        · rw [replaced b_zero a_zero out', add_comm] at rounds
          rw [add_comm]
          exact rounds_unit b_zero a_zero out' rounds
        · rwa [kept b_zero (.inr out')] at rounds

theorem add_correct (a b : Number) : Correct (a.value + b.value) (a.add b) := by
  refine .congr (fun y => rounds_beside a b) ?_
  unfold add
  dsimp only
  generalize a.beside b = a'
  generalize b.beside a' = b'
  have left := scaledTo_mul a' (e := a'.commonExponent b') (min_le_left _ _)
  have right := scaledTo_mul b' (e := a'.commonExponent b') (min_le_right _ _)
  generalize a'.commonExponent b' = e at left right ⊢
  have total : a'.value + b'.value = ((a'.scaledTo e + b'.scaledTo e : ℤ) : ℚ) * 10 ^ e := by
    rw [← left, ← right]
    push_cast
    ring
  generalize a'.scaledTo e + b'.scaledTo e = sum at total ⊢
  have scale := ten_zpow_pos e
  refine rounded_correct Nat.one_ne_zero _ ?_ ?_
  · rw [total, abs_mul, abs_of_pos scale, Nat.cast_one, div_one, Nat.cast_natAbs, Int.cast_abs]
  · rw [total]
    by_cases none : sum = 0
    · rw [none]
      simp
    · rw [if_neg none]
      by_cases below : sum < 0
      · have negative : (sum : ℚ) < 0 := by exact_mod_cast below
        rw [decide_eq_true below, if_pos rfl]
        exact (mul_neg_of_neg_of_pos negative scale).le
      · have natural : (0 : ℚ) ≤ sum := by exact_mod_cast not_lt.mp below
        rw [decide_eq_false below, if_neg Bool.false_ne_true]
        exact mul_nonneg natural scale.le

theorem value_flip (b : Number) : b.flip.value = -b.value := by
  unfold flip value signed
  cases b.negative <;> simp

theorem sub_correct (a b : Number) : Correct (a.value - b.value) (a.sub b) := by
  have correct := add_correct a b.flip
  rwa [value_flip, ← sub_eq_add_neg] at correct

theorem sign_product {s t : Bool} {x y : ℚ} (left : if s then x ≤ 0 else 0 ≤ x)
    (right : if t then y ≤ 0 else 0 ≤ y) : if s != t then x * y ≤ 0 else 0 ≤ x * y := by
  cases s <;> cases t <;> simp at left right ⊢
  · exact mul_nonneg left right
  · exact mul_nonpos_of_nonneg_of_nonpos left right
  · exact mul_nonpos_of_nonpos_of_nonneg left right
  · exact mul_nonneg_of_nonpos_of_nonpos left right

theorem mul_correct (a b : Number) : Correct (a.value * b.value) (a.mul b) := by
  refine rounded_correct Nat.one_ne_zero _ ?_ (sign_product (value_sign a) (value_sign b))
  rw [abs_mul, abs_value, abs_value, ten_zpow_add]
  push_cast
  ring

theorem div_correct (a : Number) {b : Number} (divides : b.isZero = false) :
    Correct (a.value / b.value) (a.div b) := by
  have coefficient : b.coefficient ≠ 0 := by simpa [isZero] using divides
  have inverse : if b.negative then b.value⁻¹ ≤ 0 else 0 ≤ b.value⁻¹ := by
    have sign := value_sign b
    split
    · rename_i negative
      rw [if_pos negative] at sign
      exact inv_nonpos.mpr sign
    · rename_i positive
      rw [if_neg positive] at sign
      exact inv_nonneg.mpr sign
  refine rounded_correct coefficient _ ?_ ?_
  · have bottom : (b.coefficient : ℚ) ≠ 0 := by exact_mod_cast coefficient
    have scale := (ten_zpow_pos b.exponent).ne'
    have shift : (10 : ℚ) ^ a.exponent = 10 ^ (a.exponent - b.exponent) * 10 ^ b.exponent := by
      rw [← ten_zpow_add, Int.sub_add_cancel]
    rw [abs_div, abs_value, abs_value, shift]
    field_simp
  · rw [div_eq_mul_inv]
    exact sign_product (value_sign a) inverse

theorem neg_correct (a : Number) : Correct (-a.value) a.neg := by
  refine rounded_correct Nat.one_ne_zero _ ?_ ?_
  · rw [abs_neg, abs_value, Nat.cast_one, div_one]
  · cases zero : a.isZero with
    | true => simp [value_of_isZero zero]
    | false =>
      have sign := value_sign a
      cases negative : a.negative <;> simp [negative] at sign ⊢ <;> exact sign

end LoxMachine.Number
