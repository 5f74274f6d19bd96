/-
  Rational numbers rounded to floats: to the nearest one, and from the middle of two to the one with the even
  significand.

  A format has `precision` digits, the least of which stands for `2 ^ minExp` or more, and its numbers are below
  `2 ^ maxExp`.  What is used of rounding is that it moves a number by half a unit in the last place at most, and past
  no multiple of that unit.
-/
import Mathlib.Algebra.Order.Field.Power
import Mathlib.Data.Int.Log
import Mathlib.Data.Rat.Floor
import Mathlib.Tactic.FieldSimp
import Mathlib.Tactic.Linarith
import Mathlib.Tactic.Positivity

namespace TorchNpu.BinaryFloat

/-! ### Rounding to integers -/

/-- The nearest integer, the even one from the middle. -/
def roundEven (x : ℚ) : ℤ :=
  if x - ⌊x⌋ < 1 / 2 then ⌊x⌋
  else if 1 / 2 < x - ⌊x⌋ then ⌊x⌋ + 1
  else ⌊x⌋ + ⌊x⌋ % 2

theorem floor_le_roundEven (x : ℚ) : ⌊x⌋ ≤ roundEven x := by
  unfold roundEven
  split_ifs <;> omega

theorem roundEven_le_add_half (x : ℚ) : (roundEven x : ℚ) ≤ x + 1 / 2 := by
  have hfloor : (⌊x⌋ : ℚ) ≤ x := Int.floor_le x
  unfold roundEven
  split_ifs with hlow hhigh
  · linarith
  · push_cast
    linarith
  · have hdigit : ((⌊x⌋ % 2 : ℤ) : ℚ) ≤ 1 := by exact_mod_cast Int.le_of_lt_add_one (Int.emod_lt_of_pos _ two_pos)
    push_cast at hdigit ⊢
    linarith

/-- Rounding does not go past an integer. -/
theorem le_roundEven {x : ℚ} {n : ℤ} (h : (n : ℚ) ≤ x) : n ≤ roundEven x :=
  (Int.le_floor.mpr h).trans (floor_le_roundEven x)

/-! ### Rounding to floats -/

structure Format where
  precision : ℕ
  minExp : ℤ
  maxExp : ℤ
  precision_pos : 0 < precision := by decide
  minExp_le : minExp ≤ -precision := by decide
  lt_maxExp : precision < maxExp := by decide

def binary64 : Format where
  precision := 53
  minExp := -1074
  maxExp := 1024

/-- The exponent of the unit in the last place of the floats about `x`. -/
def Format.exponent (f : Format) (x : ℚ) : ℤ :=
  max (Int.log 2 x - (f.precision - 1)) f.minExp

/-- The unit in the last place. -/
def Format.ulp (f : Format) (x : ℚ) : ℚ :=
  2 ^ f.exponent x

/-- `x` rounded, if the exponent had no upper bound. -/
def Format.round (f : Format) (x : ℚ) : ℚ :=
  roundEven (x / f.ulp x) * f.ulp x

/-- `a / b` for integers, as a float; none if it is too large. -/
def Format.trueDivide (f : Format) (a b : ℕ) : Option ℚ :=
  let quotient := f.round (a / b)
  if quotient < 2 ^ f.maxExp then some quotient else none

variable (f : Format) {x : ℚ} {n : ℕ}

theorem ulp_pos (x : ℚ) : 0 < f.ulp x :=
  zpow_pos two_pos _

theorem round_le_add_half_ulp (x : ℚ) : f.round x ≤ x + f.ulp x / 2 := by
  have hulp := ulp_pos f x
  calc f.round x ≤ (x / f.ulp x + 1 / 2) * f.ulp x :=
        mul_le_mul_of_nonneg_right (roundEven_le_add_half _) hulp.le
    _ = x + f.ulp x / 2 := by field_simp

/-- Rounding does not go past a multiple of the unit. -/
theorem mul_ulp_le_round {m : ℤ} (h : m * f.ulp x ≤ x) : m * f.ulp x ≤ f.round x := by
  have hulp := ulp_pos f x
  apply mul_le_mul_of_nonneg_right _ hulp.le
  exact_mod_cast le_roundEven ((le_div_iff₀ hulp).mpr h)

/-! ### Dividing integers -/

theorem half_ulp_lt {y : ℚ} (hx : 0 < x) (hxy : x < y * 2 ^ f.precision) (hmin : (2 : ℚ) ^ f.minExp < 2 * y) :
    f.ulp x / 2 < y := by
  rw [div_lt_iff₀ two_pos, mul_comm y, Format.ulp, Format.exponent,
    (zpow_right_strictMono₀ one_lt_two).monotone.map_max]
  apply max_lt _ hmin
  have hlog : (2 : ℚ) ^ Int.log 2 x ≤ x := by exact_mod_cast Int.zpow_log_le_self one_lt_two hx
  have hpow : (0 : ℚ) < 2 ^ f.precision := by positivity
  rw [show Int.log 2 x - ((f.precision : ℤ) - 1) = Int.log 2 x + 1 - f.precision by ring,
    zpow_sub₀ two_ne_zero, zpow_add_one₀ two_ne_zero, zpow_natCast, div_lt_iff₀ hpow]
  linarith

@[simp] theorem round_zero : f.round 0 = 0 := by
  simp [Format.round, roundEven]

/-- An integer with no more digits than a float is not rounded past. -/
theorem natCast_le_round (hn : n ≤ 2 ^ f.precision) (h : (n : ℚ) ≤ x) : (n : ℚ) ≤ f.round x := by
  rcases ((Nat.cast_nonneg n).trans h).eq_or_lt with rfl | hx
  · rwa [round_zero]
  rcases le_or_gt (f.exponent x) 0 with hexp | hexp
  · -- The integer is a multiple of the unit.
    obtain ⟨k, hk⟩ := Int.eq_ofNat_of_zero_le (neg_nonneg.mpr hexp)
    have hmul : ((n * 2 ^ k : ℤ) : ℚ) * f.ulp x = n := by
      rw [Format.ulp, show f.exponent x = -(k : ℤ) by omega, zpow_neg, zpow_natCast]
      push_cast
      field_simp
    rw [← hmul] at h ⊢
    exact mul_ulp_le_round f h
  · -- The power of two below `x` is a multiple of the unit, and is not below the integer.
    have hlog : f.exponent x = Int.log 2 x + 1 - f.precision := by
      have := f.minExp_le
      unfold Format.exponent at hexp ⊢
      omega
    have hmul : ((2 ^ (f.precision - 1) : ℤ) : ℚ) * f.ulp x = 2 ^ Int.log 2 x := by
      have := f.precision_pos
      push_cast
      rw [Format.ulp, hlog, ← zpow_natCast, ← zpow_add₀ two_ne_zero]
      congr 1
      omega
    have hle : ((2 ^ (f.precision - 1) : ℤ) : ℚ) * f.ulp x ≤ x := by
      rw [hmul]
      exact_mod_cast Int.zpow_log_le_self one_lt_two hx
    calc (n : ℚ) ≤ 2 ^ (f.precision : ℤ) := by exact_mod_cast hn
      _ ≤ 2 ^ Int.log 2 x := zpow_le_zpow_right₀ one_le_two (by omega)
      _ ≤ f.round x := by
        rw [← hmul]
        exact mul_ulp_le_round f hle

/-- A quotient below an integer stays below it, if the integer times the denominator has no more digits than a float. -/
theorem round_div_lt {a b : ℕ} (hb : 0 < b) (hn : n * b ≤ 2 ^ f.precision)
    (h : a < n * b) : f.round (a / b) < n := by
  have hbq : (0 : ℚ) < b := by exact_mod_cast hb
  have hnb : (n * b : ℚ) ≤ 2 ^ f.precision := by exact_mod_cast hn
  have hstep : (a / b : ℚ) + 1 / b ≤ n := by
    rw [← add_div, div_le_iff₀ hbq]
    exact_mod_cast h
  rcases Nat.eq_zero_or_pos a with rfl | ha
  · rw [Nat.cast_zero, zero_div, round_zero]
    exact_mod_cast Nat.pos_of_mul_pos_right h
  have hx : (0 : ℚ) < a / b := by positivity
  have hhalf : f.ulp (a / b) / 2 < 1 / b := by
    apply half_ulp_lt f hx
    · rw [div_mul_eq_mul_div, one_mul, div_lt_div_iff_of_pos_right hbq]
      calc (a : ℚ) < n * b := by exact_mod_cast h
        _ ≤ 2 ^ f.precision := hnb
    · -- The denominator has no more digits than a float.
      have hn1 : (1 : ℚ) ≤ n := by exact_mod_cast Nat.pos_of_mul_pos_right (Nat.zero_lt_of_lt h)
      have hb2 : (b : ℚ) ≤ 2 ^ f.precision := (le_mul_of_one_le_left hbq.le hn1).trans hnb
      calc (2 : ℚ) ^ f.minExp ≤ 2 ^ (-(f.precision : ℤ)) := zpow_le_zpow_right₀ one_le_two f.minExp_le
        _ ≤ 1 / b := by
          rw [zpow_neg, zpow_natCast, one_div]
          exact inv_anti₀ hbq hb2
        _ < 2 * (1 / b) := by
          have : (0 : ℚ) < 1 / b := by positivity
          linarith
  linarith [round_le_add_half_ulp f (a / b : ℚ)]

theorem natCast_le_round_div_iff {a b : ℕ} (hb : 0 < b) (hn : n * b ≤ 2 ^ f.precision) :
    (n : ℚ) ≤ f.round (a / b) ↔ n * b ≤ a := by
  constructor
  · intro h
    by_contra! hlt
    exact absurd h (round_div_lt f hb hn hlt).not_ge
  · intro h
    apply natCast_le_round f ((Nat.le_mul_of_pos_right n hb).trans hn)
    rw [le_div_iff₀ (by exact_mod_cast hb)]
    exact_mod_cast h

/-- A quotient of no more digits than a float is not too large. -/
theorem trueDivide_ne_none {a b : ℕ} (hb : 0 < b) (ha : a ≤ 2 ^ f.precision) : f.trueDivide a b ≠ none := by
  have hpow : (0 : ℚ) < 2 ^ f.precision := by positivity
  have hround : f.round (a / b) < 2 ^ f.maxExp := by
    rcases Nat.eq_zero_or_pos a with rfl | hpos
    · rw [Nat.cast_zero, zero_div, round_zero]
      positivity
    have hbq : (1 : ℚ) ≤ b := by exact_mod_cast hb
    have haq : (a : ℚ) ≤ 2 ^ f.precision := by exact_mod_cast ha
    have hx : (a / b : ℚ) ≤ 2 ^ f.precision := (div_le_self (Nat.cast_nonneg a) hbq).trans haq
    have hone : (1 : ℚ) < 2 ^ f.precision := one_lt_pow₀ one_lt_two f.precision_pos.ne'
    have hmin : (2 : ℚ) ^ f.minExp ≤ 1 := zpow_le_one_of_nonpos₀ one_le_two (by have := f.minExp_le; omega)
    have hhalf : f.ulp (a / b) / 2 < 2 ^ f.precision := by
      apply half_ulp_lt f (by positivity)
      · exact hx.trans_lt (lt_mul_of_one_lt_left hpow hone)
      · linarith
    calc f.round (a / b) ≤ a / b + f.ulp (a / b) / 2 := round_le_add_half_ulp f _
      _ < 2 ^ f.precision + 2 ^ f.precision := add_lt_add_of_le_of_lt hx hhalf
      _ = 2 ^ ((f.precision : ℤ) + 1) := by
        rw [zpow_add_one₀ two_ne_zero, zpow_natCast]
        ring
      _ ≤ 2 ^ f.maxExp := zpow_le_zpow_right₀ one_le_two (by have := f.lt_maxExp; omega)
  simp [Format.trueDivide, hround]

end TorchNpu.BinaryFloat
