import LoxMachine.Proofs.Number.Digits
import LoxMachine.Number.Rounding

namespace LoxMachine.Number

/-- The last of 28 places of a value, unless it lies below the last place there is. -/
def place (x : ℚ) : ℤ := max (Int.log 10 |x| - 27) (-1000026)

/-- The multiple of `u` that is nearest to `x`; of two, the even one. -/
structure Nearest (x u : ℚ) (n : ℤ) : Prop where
  near : 2 * |x - n * u| ≤ u
  even : 2 * |x - n * u| = u → Even n

/-- The value `x` rounded to its last place. -/
def Rounds (x y : ℚ) : Prop := ∃ n : ℤ, Nearest x (10 ^ place x) n ∧ y = n * 10 ^ place x

def Correct (x : ℚ) : Except RangeError Number → Prop
  | .ok r => Rounds x r.value ∧ |r.value| < 10 ^ (1000000 : ℤ)
  | .error .overflow => ∃ y, Rounds x y ∧ 10 ^ (1000000 : ℤ) ≤ |y|

/-- The value can be written with 28 digits, none of them below the last place there is. -/
def Representable (x : ℚ) : Prop := ∃ (n e : ℤ), |n| < 10 ^ 28 ∧ -1000026 ≤ e ∧ x = n * 10 ^ e

section Nearest

variable {x u : ℚ} {n m : ℤ}

theorem Nearest.unique (positive : 0 < u) (one : Nearest x u n) (other : Nearest x u m) : n = m := by
  obtain ⟨near, even⟩ := one
  obtain ⟨near', even'⟩ := other
  have apart : |((n - m : ℤ) : ℚ)| * u ≤ |x - n * u| + |x - m * u| := by
    rw [← abs_of_pos positive, ← abs_mul, abs_of_pos positive]
    have difference : ((n - m : ℤ) : ℚ) * u = (x - m * u) - (x - n * u) := by
      push_cast
      ring
    rw [difference, add_comm]
    exact abs_sub _ _
  have close : |n - m| ≤ 1 := by
    have bound : |((n - m : ℤ) : ℚ)| ≤ 1 := by
      by_contra far
      have longer : u < |((n - m : ℤ) : ℚ)| * u := by
        nlinarith [not_le.mp far]
      linarith
    exact_mod_cast bound
  by_contra differ
  -- they are neighbours with `x` halfway between them, and only one of them is even
  have step : |n - m| = 1 := by
    have some : 0 < |n - m| := abs_pos.mpr (sub_ne_zero.mpr differ)
    omega
  have full : |((n - m : ℤ) : ℚ)| = 1 := by exact_mod_cast step
  rw [full, one_mul] at apart
  have half : Even n := even (by linarith)
  have half' : Even m := even' (by linarith)
  have parity : Even |n - m| := (even_abs.mpr (half.sub half'))
  rw [step] at parity
  exact absurd parity (by decide)

theorem Nearest.scale (positive : 0 < u) (near : Nearest x 1 n) : Nearest (x * u) u n := by
  have factor : |x * u - n * u| = |x - n * 1| * u := by
    rw [mul_one, ← sub_mul, abs_mul, abs_of_pos positive]
  constructor
  · rw [factor, ← mul_assoc]
    exact mul_le_of_le_one_left positive.le near.near
  · intro half
    rw [factor, ← mul_assoc] at half
    exact near.even (mul_right_cancel₀ positive.ne' (half.trans (one_mul u).symm))

theorem Nearest.neg (near : Nearest x u n) : Nearest (-x) u (-n) := by
  have same : |-x - (-n : ℤ) * u| = |x - n * u| := by
    rw [← abs_neg]
    congr 1
    push_cast
    ring
  exact ⟨same ▸ near.near, fun half => (near.even (same ▸ half)).neg⟩

theorem Nearest.le (positive : 0 < u) (near : Nearest x u n) (below : m * u ≤ x) : m ≤ n := by
  by_contra above
  have gap : (n : ℚ) + 1 ≤ m := by exact_mod_cast not_le.mp above
  have far := le_abs_self (x - n * u)
  have bound := near.near
  nlinarith

theorem Nearest.ge (positive : 0 < u) (near : Nearest x u n) (above : x ≤ m * u) : n ≤ m := by
  have mirrored := near.neg.le (m := -m) positive (by push_cast; linarith)
  omega

theorem nearest_multiple (positive : 0 < u) : Nearest (n * u) u n := by
  have nothing : |n * u - n * u| = 0 := by rw [sub_self, abs_zero]
  constructor
  · rw [nothing, mul_zero]
    exact positive.le
  · intro half
    rw [nothing, mul_zero] at half
    exact absurd half positive.ne

theorem nearest_zero (small : 2 * |x| < u) : Nearest x u 0 := by
  have same : |x - (0 : ℤ) * u| = |x| := by rw [Int.cast_zero, zero_mul, sub_zero]
  rw [← same] at small
  exact ⟨small.le, fun half => absurd half small.ne⟩

/-- The quotient of the division and what it leaves over decide. -/
theorem nearest_nearestEven (n : Nat) {d : Nat} (positive : 0 < d) :
    Nearest ((n : ℚ) / d) 1 (nearestEven n d) := by
  have divisor : (0 : ℚ) < d := by exact_mod_cast positive
  have parts : d * (n / d) + n % d = n := Nat.div_add_mod n d
  have least : n % d < d := Nat.mod_lt n positive
  unfold nearestEven
  dsimp only
  generalize n / d = q at parts ⊢
  generalize n % d = r at parts least ⊢
  have quotient : (n : ℚ) / d = q + r / d := by
    rw [← parts]
    push_cast
    field_simp
  have below : (r : ℚ) / d < 1 := by
    rw [div_lt_one divisor]
    exact_mod_cast least
  have above : (0 : ℚ) ≤ r / d := by positivity
  split
  · rename_i up
    have distance : |(n : ℚ) / d - ((q + 1 : Nat) : ℤ) * 1| = 1 - r / d := by
      rw [quotient, abs_sub_comm, abs_of_nonneg]
      · push_cast; ring
      · push_cast; linarith
    have half_le : d ≤ 2 * r := by omega
    refine ⟨?_, fun half => ?_⟩
    · have : (1 : ℚ) ≤ 2 * (r / d) := by
        rw [← mul_div_assoc, le_div_iff₀ divisor, one_mul]
        exact_mod_cast half_le
      rw [distance]
      linarith
    · rw [distance] at half
      have twice : 2 * (r : ℚ) / d = 1 := by
        rw [mul_div_assoc]
        linarith
      rw [div_eq_one_iff_eq divisor.ne'] at twice
      have middle : 2 * r = d := by exact_mod_cast twice
      have odd : q % 2 = 1 := by omega
      exact_mod_cast (Nat.odd_iff.mpr odd).add_one
  · rename_i down
    have distance : |(n : ℚ) / d - ((q : Nat) : ℤ) * 1| = r / d := by
      rw [quotient, abs_of_nonneg]
      · push_cast; ring
      · push_cast; linarith
    have half_ge : 2 * r ≤ d := by omega
    refine ⟨?_, fun half => ?_⟩
    · rw [distance, ← mul_div_assoc, div_le_one divisor]
      exact_mod_cast half_ge
    · rw [distance, ← mul_div_assoc, div_eq_one_iff_eq divisor.ne'] at half
      have middle : 2 * r = d := by exact_mod_cast half
      have even : q % 2 = 0 := by omega
      exact_mod_cast Nat.even_iff.mpr even

end Nearest

section Rounds

variable {x y z : ℚ}

theorem Rounds.unique (one : Rounds x y) (other : Rounds x z) : y = z := by
  obtain ⟨n, near, rfl⟩ := one
  obtain ⟨m, near', rfl⟩ := other
  rw [near.unique (ten_zpow_pos _) near']

theorem place_neg (x : ℚ) : place (-x) = place x := by rw [place, place, abs_neg]

theorem place_abs (x : ℚ) : place |x| = place x := by rw [place, place, abs_abs]

theorem Rounds.neg (rounds : Rounds x y) : Rounds (-x) (-y) := by
  obtain ⟨n, near, rfl⟩ := rounds
  refine ⟨-n, ?_, ?_⟩
  · rw [place_neg]
    exact near.neg
  · rw [place_neg]
    push_cast
    ring

theorem exists_rounds (x : ℚ) : ∃ y, Rounds x y := by
  have unit := ten_zpow_pos (place x)
  obtain ⟨q, quotient⟩ : ∃ q, q = |x| / 10 ^ place x := ⟨_, rfl⟩
  have natural : (q.num.toNat : ℚ) / q.den = q := by
    have above : 0 ≤ q.num := Rat.num_nonneg.mpr (quotient ▸ div_nonneg (abs_nonneg x) unit.le)
    conv_rhs => rw [← Rat.num_div_den q]
    congr 1
    exact_mod_cast Int.toNat_of_nonneg above
  have near : Nearest q 1 (nearestEven q.num.toNat q.den) := by
    have found := nearest_nearestEven q.num.toNat q.den_pos
    rwa [natural] at found
  have scaled := near.scale unit
  rw [quotient, div_mul_cancel₀ _ unit.ne'] at scaled
  rcases abs_choice x with same | opposite
  · rw [same] at scaled
    exact ⟨_, _, scaled, rfl⟩
  · rw [opposite] at scaled
    have back := scaled.neg
    rw [neg_neg] at back
    exact ⟨_, _, back, rfl⟩

theorem Representable.rounds (short : Representable x) : Rounds x x := by
  obtain ⟨n, e, few, least, rfl⟩ := short
  by_cases zero : n = 0
  · refine ⟨0, nearest_zero ?_, by rw [zero, Int.cast_zero, zero_mul, zero_mul]⟩
    rw [zero, Int.cast_zero, zero_mul, abs_zero, mul_zero]
    exact ten_zpow_pos _
  have fine : place (n * 10 ^ e) ≤ e := by
    have positive : 0 < |(n * 10 ^ e : ℚ)| :=
      abs_pos.mpr (mul_ne_zero (by exact_mod_cast zero) (ten_zpow_pos e).ne')
    have small : |(n * 10 ^ e : ℚ)| < 10 ^ (e + 28) := by
      have bound : |(n : ℚ)| < 10 ^ (28 : ℤ) := by exact_mod_cast few
      rw [abs_mul, abs_of_pos (ten_zpow_pos e), add_comm, ten_zpow_add]
      exact mul_lt_mul_of_pos_right bound (ten_zpow_pos e)
    have first := ten_zpow_lt.mp (lt_of_le_of_lt (ten_log_le positive) small)
    unfold place
    omega
  obtain ⟨k, raised⟩ := Int.le.dest fine
  have multiple : (n * 10 ^ e : ℚ) = (n * 10 ^ k : ℤ) * 10 ^ place (n * 10 ^ e) := by
    conv_lhs => rw [← raised, add_comm, ten_zpow_add, zpow_natCast, ← mul_assoc]
    push_cast
    rfl
  refine ⟨n * 10 ^ k, ?_, multiple⟩
  have near := nearest_multiple (n := n * 10 ^ k) (ten_zpow_pos (place (n * 10 ^ e)))
  rwa [← multiple] at near

end Rounds

theorem value_dropZeros (k c : Nat) (e : ℤ) :
    ((dropZeros k c e).1 : ℚ) * 10 ^ (dropZeros k c e).2 = c * 10 ^ e := by
  induction k generalizing c e with
  | zero => rfl
  | succ k ih =>
    rw [dropZeros]
    split
    · rename_i whole
      have tens : (c : ℚ) = (c / 10 : Nat) * 10 := by
        exact_mod_cast (Nat.div_mul_cancel (Nat.dvd_of_mod_eq_zero whole)).symm
      rw [ih, add_comm, ten_zpow_add, zpow_one, ← mul_assoc, ← tens]
    · rfl

theorem lastPlace_log (x : ℚ) : lastPlace (Int.log 10 |x|) = place x := by
  unfold lastPlace place precision leastExponent
  omega

section Rounded

variable {x : ℚ} {negative : Bool} {m : ℤ}

theorem rounds_signed (sign : if negative then x ≤ 0 else 0 ≤ x) (near : Nearest |x| (10 ^ place x) m)
    {c : Nat} {p : ℤ} (same : (c : ℚ) * 10 ^ p = m * 10 ^ place x) :
    Rounds x (value ⟨negative, c, p⟩) := by
  have rounds : Rounds |x| (c * 10 ^ p) := ⟨m, by rwa [place_abs], by rwa [place_abs]⟩
  cases negative with
  | false =>
    rw [abs_of_nonneg (by simpa using sign)] at rounds
    simpa [value, signed] using rounds
  | true =>
    rw [abs_of_nonpos (by simpa using sign)] at rounds
    have turned := rounds.neg
    rw [neg_neg] at turned
    simpa [value, signed] using turned

theorem correct_ok (sign : if negative then x ≤ 0 else 0 ≤ x) (near : Nearest |x| (10 ^ place x) m)
    {c : Nat} {p : ℤ} (same : (c : ℚ) * 10 ^ p = m * 10 ^ place x)
    (small : (m : ℚ) * 10 ^ place x < 10 ^ (1000000 : ℤ)) : Correct x (.ok ⟨negative, c, p⟩) := by
  refine ⟨rounds_signed sign near same, ?_⟩
  rw [abs_value, same]
  exact small

theorem correct_overflow (large : 1000000 ≤ Int.log 10 |x|) : Correct x (.error .overflow) := by
  obtain ⟨y, rounds⟩ := exists_rounds x
  refine ⟨y, rounds, le_trans (ten_zpow_le.mpr large) ?_⟩
  have unit := ten_zpow_pos (place x)
  have there : 0 < |x| := by
    by_contra none
    have zero : |x| = 0 := le_antisymm (not_lt.mp none) (abs_nonneg x)
    rw [zero, Int.log_zero_right] at large
    omega
  have reached := ten_log_le there
  have fine : place x ≤ Int.log 10 |x| := by
    unfold place
    omega
  obtain ⟨k, raised⟩ := Int.le.dest fine
  have multiple : (10 : ℚ) ^ Int.log 10 |x| = ((10 ^ k : ℤ) : ℚ) * 10 ^ place x := by
    rw [← raised, add_comm, ten_zpow_add, zpow_natCast]
    push_cast
    rfl
  obtain ⟨n, near, rfl⟩ := rounds
  rw [abs_mul, abs_of_pos unit, multiple]
  refine mul_le_mul_of_nonneg_right ?_ unit.le
  rw [multiple] at reached
  rcases abs_choice x with same | opposite
  · have above := near.le unit (same ▸ reached)
    exact le_trans (by exact_mod_cast above) (le_abs_self _)
  · have below := near.neg.le unit (opposite ▸ reached)
    refine le_trans ?_ (neg_le_abs _)
    exact_mod_cast below

/-- The exact result `± n / d · 10 ^ e` is rounded once. -/
theorem rounded_correct {n d : Nat} (divides : d ≠ 0) {e : ℤ} (ideal : ℤ)
    (magnitude : |x| = n / d * 10 ^ e) (sign : if negative then x ≤ 0 else 0 ≤ x) :
    Correct x (rounded negative n d e ideal) := by
  unfold rounded
  by_cases zero : n = 0
  · have nothing : |x| = 0 := by rw [magnitude, zero, Nat.cast_zero, zero_div, zero_mul]
    rw [if_pos zero]
    refine correct_ok sign (m := 0) (nearest_zero ?_) ?_ ?_
    · rw [nothing, abs_zero, mul_zero]
      exact ten_zpow_pos _
    · simp
    · simp
  have divisor : (0 : ℚ) < d := by exact_mod_cast Nat.pos_of_ne_zero divides
  have quotient : (0 : ℚ) < n / d := div_pos (by exact_mod_cast Nat.pos_of_ne_zero zero) divisor
  have there : 0 < |x| := magnitude ▸ mul_pos quotient (ten_zpow_pos e)
  have first : leadingExponent n d + e = Int.log 10 |x| := by
    rw [leadingExponent_eq zero divides, magnitude, log_mul_ten quotient]
  have unit := ten_zpow_pos (place x)
  have reach := lt_ten_log |x|
  have top : topExponent = 999972 := rfl
  have least : leastExponent = -1000026 := rfl
  have full : precision = 28 := rfl
  rw [if_neg zero]
  dsimp only
  rw [first, lastPlace_log, top, least]
  by_cases large : 999972 < place x
  · rw [if_pos large]
    refine correct_overflow ?_
    unfold place at large
    omega
  rw [if_neg large]
  by_cases tiny : Int.log 10 |x| < -1000026 - 1
  · rw [if_pos tiny]
    refine correct_ok sign (m := 0) (nearest_zero ?_) ?_ ?_
    · have last : place x = -1000026 := by
        unfold place
        omega
      have small : |x| < 10 ^ (-1000027 : ℤ) :=
        lt_of_lt_of_le reach (ten_zpow_le.mpr (by omega))
      have ten : (10 : ℚ) ^ (-1000026 : ℤ) = 10 ^ (-1000027 : ℤ) * 10 := by
        rw [← zpow_add_one₀ (by norm_num)]
        rfl
      rw [abs_abs, last, ten]
      linarith
    · simp
    · simp
  rw [if_neg tiny]
  -- the coefficient is the whole number nearest to the magnitude in units of the last place
  obtain ⟨c, coefficient⟩ : ∃ c, c = nearestEven (n * powerOfTen (e - place x).toNat)
    (d * powerOfTen (place x - e).toNat) := ⟨_, rfl⟩
  have scaled : ((n * powerOfTen (e - place x).toNat : Nat) : ℚ) /
      (d * powerOfTen (place x - e).toNat : Nat) * 10 ^ place x = |x| := by
    have scale := cast_scale (e - place x)
    rw [show -(e - place x) = place x - e by omega] at scale
    have other : (powerOfTen (place x - e).toNat : ℚ) ≠ 0 := by
      exact_mod_cast (powerOfTen_pos _).ne'
    have back : (10 : ℚ) ^ (e - place x) * 10 ^ place x = 10 ^ e := by
      rw [← ten_zpow_add, Int.sub_add_cancel]
    push_cast
    rw [scale, magnitude, ← back]
    field_simp
  have near : Nearest |x| (10 ^ place x) c := by
    have found := (nearest_nearestEven (n * powerOfTen (e - place x).toNat)
      (Nat.mul_pos (Nat.pos_of_ne_zero divides) (powerOfTen_pos (place x - e).toNat))).scale unit
    rwa [scaled, ← coefficient] at found
  rw [← coefficient, full]
  have power : ((powerOfTen 28 : ℤ) : ℚ) = 10 ^ (28 : ℤ) := by
    rw [powerOfTen_eq]
    norm_cast
  have most : c ≤ powerOfTen 28 := by
    have bound : |x| ≤ ((powerOfTen 28 : ℤ) : ℚ) * 10 ^ place x := by
      have digits : (10 : ℚ) ^ (Int.log 10 |x| + 1) ≤ 10 ^ (28 + place x) := by
        refine ten_zpow_le.mpr ?_
        unfold place
        omega
      rw [power, ← ten_zpow_add]
      exact reach.le.trans digits
    exact_mod_cast near.ge unit bound
  have whole : (10 : ℚ) ^ (1000000 : ℤ) = 10 ^ (28 : ℤ) * 10 ^ (999972 : ℤ) := by
    rw [← ten_zpow_add]
    rfl
  by_cases carry : c = powerOfTen 28
  · rw [if_pos carry]
    have raised : ((c : ℤ) : ℚ) * 10 ^ place x = 10 ^ (28 : ℤ) * 10 ^ place x := by
      rw [carry, power]
    by_cases beyond : 999972 < place x + 1
    · rw [if_pos beyond]
      have last : place x = 999972 := by omega
      refine ⟨_, rounds_signed sign near rfl, ?_⟩
      rw [abs_value, whole, ← last, ← raised]
      exact le_refl _
    · rw [if_neg beyond]
      refine correct_ok sign near ?_ ?_
      · rw [raised, ten_zpow_add, zpow_one, show 28 - 1 = 27 from rfl, powerOfTen_eq]
        push_cast
        ring
      · rw [raised, whole]
        exact mul_lt_mul_of_pos_left (ten_zpow_lt.mpr (by omega)) (ten_zpow_pos 28)
  · have fewer : ((c : ℤ) : ℚ) < 10 ^ (28 : ℤ) := by
      rw [← power]
      exact_mod_cast lt_of_le_of_ne most carry
    have small : ((c : ℤ) : ℚ) * 10 ^ place x < 10 ^ (1000000 : ℤ) := by
      rw [whole]
      exact mul_lt_mul fewer (ten_zpow_le.mpr (by omega)) unit (ten_zpow_pos 28).le
    rw [if_neg carry]
    split
    · exact correct_ok sign near (value_dropZeros _ c _) small
    · exact correct_ok sign near rfl small

end Rounded

end LoxMachine.Number
