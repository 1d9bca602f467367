import Mathlib.Data.Int.Log
import Mathlib.Data.Rat.Floor
import Mathlib.Tactic.FieldSimp
import Mathlib.Tactic.Linarith
import Mathlib.Tactic.Positivity
import Mathlib.Tactic.Ring
import LoxMachine.Number.Digits

namespace LoxMachine.Number

/-- The rational that a number stands for. -/
def value (a : Number) : ℚ := a.signed * 10 ^ a.exponent

theorem powerOfTen_eq (k : Nat) : powerOfTen k = 10 ^ k := rfl

theorem ten_zpow_pos (e : ℤ) : (0 : ℚ) < 10 ^ e := zpow_pos (by norm_num) e

theorem ten_zpow_add (d e : ℤ) : (10 : ℚ) ^ (d + e) = 10 ^ d * 10 ^ e := zpow_add₀ (by norm_num) d e

theorem ten_zpow_le {d e : ℤ} : (10 : ℚ) ^ d ≤ 10 ^ e ↔ d ≤ e := zpow_le_zpow_iff_right₀ (by norm_num)

theorem ten_zpow_lt {d e : ℤ} : (10 : ℚ) ^ d < 10 ^ e ↔ d < e := zpow_lt_zpow_iff_right₀ (by norm_num)

theorem cast_powerOfTen {e : ℤ} (natural : 0 ≤ e) : (powerOfTen e.toNat : ℚ) = 10 ^ e := by
  obtain ⟨k, rfl⟩ := Int.eq_ofNat_of_zero_le natural
  rw [powerOfTen_eq, Int.toNat_natCast, Nat.cast_pow, zpow_natCast, Nat.cast_ofNat]

theorem cast_scale (e : ℤ) : (powerOfTen e.toNat : ℚ) = 10 ^ e * powerOfTen (-e).toNat := by
  rcases Int.le_total 0 e with above | below
  · have none : (-e).toNat = 0 := by omega
    rw [cast_powerOfTen above, none, powerOfTen_eq, pow_zero, Nat.cast_one, mul_one]
  · have none : e.toNat = 0 := by omega
    rw [cast_powerOfTen (e := -e) (by omega), none, powerOfTen_eq, pow_zero, Nat.cast_one,
      ← ten_zpow_add, add_neg_cancel, zpow_zero]

theorem powerOfTen_pos (k : Nat) : 0 < powerOfTen k := Nat.pow_pos (by decide)

theorem digitCountBelow_succ (k n : Nat) : digitCountBelow (k + 1) n =
    if n < 10 ^ 2 ^ k then digitCountBelow k n
    else 2 ^ k + digitCountBelow k (n / 10 ^ 2 ^ k) := rfl

theorem digitCountBelow_eq {n : Nat} (positive : n ≠ 0) {k : Nat} (below : n < 10 ^ 2 ^ k) :
    digitCountBelow k n = Nat.log 10 n + 1 := by
  induction k generalizing n with
  | zero =>
    have single : n < 10 := below
    rw [Nat.log_of_lt single]
    rfl
  | succ k ih =>
    rw [digitCountBelow_succ]
    by_cases short : n < 10 ^ 2 ^ k
    · rw [if_pos short, ih positive short]
    · have long : 10 ^ 2 ^ k ≤ n := Nat.le_of_not_lt short
      have front : n / 10 ^ 2 ^ k ≠ 0 := (Nat.div_pos long (Nat.pow_pos (by decide))).ne'
      have fewer : n / 10 ^ 2 ^ k < 10 ^ 2 ^ k := by
        rw [Nat.div_lt_iff_lt_mul (Nat.pow_pos (by decide)), ← Nat.pow_add]
        rwa [Nat.pow_succ, Nat.mul_two] at below
      have places : 2 ^ k ≤ Nat.log 10 n := Nat.le_log_of_pow_le (by decide) long
      rw [if_neg short, ih front fewer, Nat.log_div_base_pow]
      omega

theorem digitCount_eq {n : Nat} (positive : n ≠ 0) : digitCount n = Nat.log 10 n + 1 := by
  refine digitCountBelow_eq positive ?_
  calc n < 2 ^ (n.log2 + 1) := Nat.lt_log2_self
    _ ≤ 2 ^ 2 ^ (n.log2.log2 + 1) := Nat.pow_le_pow_right (by decide) Nat.lt_log2_self
    _ ≤ 10 ^ 2 ^ (n.log2.log2 + 1) := Nat.pow_le_pow_left (by decide) _

theorem log_eq {x : ℚ} {l : ℤ} (least : 10 ^ l ≤ x) (most : x < 10 ^ (l + 1)) : Int.log 10 x = l := by
  have positive : 0 < x := lt_of_lt_of_le (ten_zpow_pos l) least
  have above : l ≤ Int.log 10 x := (Int.zpow_le_iff_le_log (by decide) positive).mp (by exact_mod_cast least)
  have below : Int.log 10 x < l + 1 :=
    (Int.lt_zpow_iff_log_lt (by decide) positive).mp (by exact_mod_cast most)
  omega

theorem ten_log_le {x : ℚ} (positive : 0 < x) : 10 ^ Int.log 10 x ≤ x := by
  exact_mod_cast Int.zpow_log_le_self (b := 10) (by decide) positive

theorem lt_ten_log (x : ℚ) : x < 10 ^ (Int.log 10 x + 1) := by
  exact_mod_cast Int.lt_zpow_succ_log_self (b := 10) (by decide) x

theorem log_mul_ten {x : ℚ} (positive : 0 < x) (e : ℤ) : Int.log 10 (x * 10 ^ e) = Int.log 10 x + e := by
  have scale := ten_zpow_pos e
  apply log_eq
  · rw [ten_zpow_add]
    exact mul_le_mul_of_nonneg_right (ten_log_le positive) scale.le
  · rw [add_right_comm, ten_zpow_add]
    exact mul_lt_mul_of_pos_right (lt_ten_log x) scale

theorem digitCount_bounds {n : Nat} (positive : n ≠ 0) :
    (10 : ℚ) ^ ((digitCount n : ℤ) - 1) ≤ n ∧ (n : ℚ) < 10 ^ (digitCount n : ℤ) := by
  have count : ((digitCount n : ℤ) - 1) = Int.log 10 (n : ℚ) := by
    rw [Int.log_natCast, digitCount_eq positive]
    push_cast
    omega
  constructor
  · rw [count]
    exact ten_log_le (by exact_mod_cast Nat.pos_of_ne_zero positive)
  · have next : (digitCount n : ℤ) = Int.log 10 (n : ℚ) + 1 := by omega
    rw [next]
    exact lt_ten_log _

/-- The place of the first digit of a quotient. -/
theorem leadingExponent_eq {n d : Nat} (top : n ≠ 0) (bottom : d ≠ 0) :
    leadingExponent n d = Int.log 10 ((n : ℚ) / d) := by
  have divisor : (0 : ℚ) < d := by exact_mod_cast Nat.pos_of_ne_zero bottom
  obtain ⟨n_least, n_most⟩ := digitCount_bounds top
  obtain ⟨d_least, d_most⟩ := digitCount_bounds bottom
  -- the quotient has its first digit where the counts say, or one place below
  have most : (n : ℚ) / d < 10 ^ ((digitCount n : ℤ) - digitCount d + 1) := by
    rw [div_lt_iff₀ divisor]
    calc (n : ℚ) < 10 ^ (digitCount n : ℤ) := n_most
      _ = 10 ^ ((digitCount n : ℤ) - digitCount d + 1) * 10 ^ ((digitCount d : ℤ) - 1) := by
        rw [← ten_zpow_add]; congr 1; omega
      _ ≤ _ := mul_le_mul_of_nonneg_left d_least (ten_zpow_pos _).le
  have least : 10 ^ ((digitCount n : ℤ) - digitCount d - 1) ≤ (n : ℚ) / d := by
    rw [le_div_iff₀ divisor]
    calc (10 : ℚ) ^ ((digitCount n : ℤ) - digitCount d - 1) * d
        ≤ 10 ^ ((digitCount n : ℤ) - digitCount d - 1) * 10 ^ (digitCount d : ℤ) :=
          mul_le_mul_of_nonneg_left d_most.le (ten_zpow_pos _).le
      _ = 10 ^ ((digitCount n : ℤ) - 1) := by rw [← ten_zpow_add]; congr 1; omega
      _ ≤ n := n_least
  have test : d * powerOfTen ((digitCount n : ℤ) - digitCount d).toNat ≤
        n * powerOfTen (-((digitCount n : ℤ) - digitCount d)).toNat ↔
      10 ^ ((digitCount n : ℤ) - digitCount d) ≤ (n : ℚ) / d := by
    have scale : (0 : ℚ) < powerOfTen (-((digitCount n : ℤ) - digitCount d)).toNat := by
      exact_mod_cast powerOfTen_pos _
    rw [← Nat.cast_le (α := ℚ), Nat.cast_mul, Nat.cast_mul, cast_scale, ← mul_assoc,
      mul_le_mul_iff_left₀ scale, le_div_iff₀ divisor, mul_comm]
  unfold leadingExponent
  simp only [test]
  split
  · rename_i here
    exact (log_eq here most).symm
  · rename_i lower
    refine (log_eq least ?_).symm
    rw [Int.sub_add_cancel]
    exact not_le.mp lower

theorem isZero_iff {a : Number} : a.isZero = true ↔ a.value = 0 := by
  have scale := (ten_zpow_pos a.exponent).ne'
  rw [isZero, beq_iff_eq, value, mul_eq_zero, or_iff_left scale, signed]
  split <;> simp

theorem abs_value (a : Number) : |a.value| = a.coefficient * 10 ^ a.exponent := by
  rw [value, abs_mul, abs_of_pos (ten_zpow_pos _), signed]
  split <;> simp

theorem abs_value_bounds {a : Number} (there : a.isZero = false) :
    10 ^ a.leading ≤ |a.value| ∧ |a.value| < 10 ^ (a.leading + 1) := by
  have coefficient : a.coefficient ≠ 0 := by simpa [isZero] using there
  obtain ⟨least, most⟩ := digitCount_bounds coefficient
  have scale := ten_zpow_pos a.exponent
  have first : a.leading = ((digitCount a.coefficient : ℤ) - 1) + a.exponent := by
    rw [leading]
    omega
  have next : a.leading + 1 = (digitCount a.coefficient : ℤ) + a.exponent := by omega
  rw [abs_value, next, first, ten_zpow_add, ten_zpow_add]
  exact ⟨mul_le_mul_of_nonneg_right least scale.le, mul_lt_mul_of_pos_right most scale⟩

theorem scaledTo_mul (a : Number) {e : ℤ} (fine : e ≤ a.exponent) :
    (a.scaledTo e : ℚ) * 10 ^ e = a.value := by
  have scale : (powerOfTen (a.exponent - e).toNat : ℚ) = 10 ^ (a.exponent - e) :=
    cast_powerOfTen (by omega)
  have split : (10 : ℚ) ^ (a.exponent - e) * 10 ^ e = 10 ^ a.exponent := by
    rw [← ten_zpow_add, Int.sub_add_cancel]
  rw [scaledTo, Int.cast_mul, Int.cast_natCast, scale, mul_assoc, split, value]

end LoxMachine.Number
