import Mathlib.Algebra.Order.Field.Power
import Mathlib.Data.Int.Log
import Mathlib.Data.Rat.Floor
import Mathlib.Tactic.Linarith
import Mathlib.Tactic.NormNum
import Mathlib.Tactic.Positivity

/-!
# Doubles

The conversion of an exact rational to a binary64 number, as a C library does it: to the
nearest, and of two nearest to the one with the even significand. A double is represented
by its value; signed zeros are one number here.

A conversion is out of range where the library sets `ERANGE`: when the result would be too
large, and when it is subnormal and not exact.

## Main definitions

* `roundEven` — the nearest integer
* `convert` — the nearest double

## Main results

* `convert_intCast` — integers of up to 53 bits are doubles
* `convert_isSome` — what is neither too large nor too small can be converted
-/

set_option autoImplicit false

namespace PropMiner.Semantics.Binary64

/-! ### The nearest integer -/

/-- The nearest integer; halfway between two, the even one. -/
def roundEven (q : ℚ) : ℤ :=
  if q - ⌊q⌋ < 1 / 2 then ⌊q⌋
  else if 1 / 2 < q - ⌊q⌋ then ⌊q⌋ + 1
  else if ⌊q⌋ % 2 = 0 then ⌊q⌋ else ⌊q⌋ + 1

theorem roundEven_intCast (n : ℤ) : roundEven n = n := by
  rw [roundEven, Int.floor_intCast, sub_self, if_pos (by norm_num)]

/-- Rounding does not go past an integer from above. -/
theorem le_roundEven {q : ℚ} {n : ℤ} (h : (n : ℚ) ≤ q) : n ≤ roundEven q := by
  have hfloor : n ≤ ⌊q⌋ := Int.le_floor.mpr h
  unfold roundEven
  split_ifs <;> omega

/-- Rounding does not go past an integer from below. -/
theorem roundEven_le {q : ℚ} {n : ℤ} (h : q ≤ n) : roundEven q ≤ n := by
  have hfloor : ⌊q⌋ ≤ n := Int.floor_le_iff.mpr (by linarith)
  rcases hfloor.eq_or_lt with heq | hlt
  · -- then `q` is the integer
    have hq : q = n := le_antisymm h (heq ▸ Int.floor_le q)
    rw [hq, roundEven_intCast]
  · unfold roundEven
    split_ifs <;> omega

theorem abs_roundEven_le {q : ℚ} {n : ℤ} (h : |q| ≤ n) : |roundEven q| ≤ n := by
  obtain ⟨hlow, hhigh⟩ := abs_le.mp h
  refine abs_le.mpr ⟨le_roundEven ?_, roundEven_le hhigh⟩
  push_cast
  exact hlow

theorem le_abs_roundEven {q : ℚ} {n : ℤ} (h : (n : ℚ) ≤ |q|) : n ≤ |roundEven q| := by
  rcases abs_cases q with ⟨habs, -⟩ | ⟨habs, -⟩
  · exact (le_roundEven (habs ▸ h)).trans (le_abs_self _)
  · have hneg : roundEven q ≤ -n := roundEven_le (by push_cast; linarith)
    exact (le_neg_of_le_neg hneg).trans (neg_le_abs _)

/-! ### The nearest multiple of a power of two -/

theorem two_pow_mul_zpow (k : ℕ) (e : ℤ) : (2 : ℚ) ^ k * 2 ^ e = 2 ^ (k + e) := by
  rw [← zpow_natCast, ← zpow_add₀ two_ne_zero]

/-- The nearest multiple of `2 ^ e`. -/
def roundAt (e : ℤ) (q : ℚ) : ℚ := roundEven (q / 2 ^ e) * 2 ^ e

theorem abs_roundAt (e : ℤ) (q : ℚ) : |roundAt e q| = |roundEven (q / 2 ^ e)| * 2 ^ e := by
  have hpos : (0 : ℚ) < 2 ^ e := by positivity
  rw [roundAt, abs_mul, abs_of_pos hpos, Int.cast_abs]

theorem abs_roundAt_le {e : ℤ} {q : ℚ} {n : ℤ} (h : |q| ≤ n * 2 ^ e) :
    |roundAt e q| ≤ n * 2 ^ e := by
  have hpos : (0 : ℚ) < 2 ^ e := by positivity
  have hscaled : |q / 2 ^ e| ≤ n := by
    rwa [abs_div, abs_of_pos hpos, div_le_iff₀ hpos]
  rw [abs_roundAt]
  exact mul_le_mul_of_nonneg_right (by exact_mod_cast abs_roundEven_le hscaled) hpos.le

theorem le_abs_roundAt {e : ℤ} {q : ℚ} {n : ℤ} (h : n * 2 ^ e ≤ |q|) :
    n * 2 ^ e ≤ |roundAt e q| := by
  have hpos : (0 : ℚ) < 2 ^ e := by positivity
  have hscaled : (n : ℚ) ≤ |q / 2 ^ e| := by
    rwa [abs_div, abs_of_pos hpos, le_div_iff₀ hpos]
  rw [abs_roundAt]
  exact mul_le_mul_of_nonneg_right (by exact_mod_cast le_abs_roundEven hscaled) hpos.le

/-- An integer is a multiple of every power of two that is not above 1. -/
theorem roundAt_intCast {e : ℤ} (he : e ≤ 0) (n : ℤ) : roundAt e n = n := by
  obtain ⟨k, hk⟩ := Int.eq_ofNat_of_zero_le (neg_nonneg.mpr he)
  obtain rfl : e = -(k : ℤ) := by omega
  have hscaled : (n : ℚ) / 2 ^ (-(k : ℤ)) = ((n * 2 ^ k : ℤ) : ℚ) := by
    rw [zpow_neg, div_inv_eq_mul, zpow_natCast]
    push_cast
    rfl
  rw [roundAt, hscaled, roundEven_intCast, ← hscaled, div_mul_cancel₀]
  positivity

/-! ### Doubles -/

/-- The largest double. -/
def maxValue : ℚ := (2 ^ 53 - 1) * 2 ^ (971 : ℤ)

theorem exists_intCast_eq_maxValue : ∃ n : ℤ, maxValue = n := by
  refine ⟨(2 ^ 53 - 1) * 2 ^ 971, ?_⟩
  rw [maxValue, Int.cast_mul, Int.cast_sub, Int.cast_pow, Int.cast_pow, Int.cast_one]
  rfl

/-- The exponent of the last of 53 bits. -/
def lastBit (q : ℚ) : ℤ := Int.log 2 |q| - 52

/-- The nearest double, if it is in range. -/
def convert (q : ℚ) : Option ℚ :=
  let x := roundAt (max (lastBit q) (-1074)) q
  if maxValue < |x| then none
  -- whether a number is subnormal is decided by its rounding to 53 bits
  else if x ≠ q ∧ |roundAt (lastBit q) q| < 2 ^ (-1022 : ℤ) then none
  else some x

theorem abs_le_of_convert {q x : ℚ} (h : convert q = some x) : |x| ≤ maxValue := by
  unfold convert at h
  dsimp only at h
  split_ifs at h with hbig
  obtain rfl := Option.some.inj h
  exact not_lt.mp hbig

theorem zpow_lastBit_le {q : ℚ} (hq : q ≠ 0) : 2 ^ 52 * 2 ^ lastBit q ≤ |q| := by
  have hlog := Int.zpow_log_le_self Nat.one_lt_two (abs_pos.mpr hq)
  have hexp : ((52 : ℕ) : ℤ) + lastBit q = Int.log 2 |q| := by
    rw [lastBit]
    omega
  rw [two_pow_mul_zpow, hexp]
  exact_mod_cast hlog

theorem lt_zpow_lastBit (q : ℚ) : |q| < 2 ^ 53 * 2 ^ lastBit q := by
  have hlog := Int.lt_zpow_succ_log_self (R := ℚ) Nat.one_lt_two |q|
  have hexp : ((53 : ℕ) : ℤ) + lastBit q = Int.log 2 |q| + 1 := by
    rw [lastBit]
    omega
  rw [two_pow_mul_zpow, hexp]
  exact_mod_cast hlog

theorem convert_zero : convert 0 = some 0 := by
  have hzero : ∀ e : ℤ, roundAt e 0 = 0 := by
    intro e
    rw [roundAt, zero_div, ← Int.cast_zero, roundEven_intCast, Int.cast_zero, zero_mul]
  unfold convert
  dsimp only
  rw [hzero, hzero, if_neg, if_neg]
  · simp
  · rw [abs_zero, not_lt, maxValue]
    positivity

/-- A small enough integer is converted to itself. -/
theorem convert_intCast {n : ℤ} (hn : |n| < 2 ^ 53) : convert n = some (n : ℚ) := by
  by_cases hzero : n = 0
  · rw [hzero, Int.cast_zero, convert_zero]
  have hq : (n : ℚ) ≠ 0 := Int.cast_ne_zero.mpr hzero
  have hlt : |(n : ℚ)| < 2 ^ 53 := by exact_mod_cast hn
  have hbit : lastBit n ≤ 0 := by
    by_contra hpos
    have hone : (2 : ℚ) ^ (1 : ℤ) ≤ 2 ^ lastBit n :=
      zpow_le_zpow_right₀ one_le_two (by omega)
    have hlow := zpow_lastBit_le hq
    rw [zpow_one] at hone
    linarith
  have hmax : |(n : ℚ)| ≤ maxValue := by
    have hpow : (1 : ℚ) ≤ 2 ^ (971 : ℤ) := one_le_zpow₀ one_le_two (by norm_num)
    have hint : |n| ≤ 2 ^ 53 - 1 := by omega
    have hcast : |(n : ℚ)| ≤ 2 ^ 53 - 1 := by exact_mod_cast hint
    exact hcast.trans (le_mul_of_one_le_right (by norm_num) hpow)
  have hround : roundAt (max (lastBit n) (-1074)) n = n :=
    roundAt_intCast (max_le hbit (by norm_num)) n
  unfold convert
  dsimp only
  rw [hround, if_neg (not_lt.mpr hmax), if_neg (fun h => h.1 rfl)]

/-- What is at most the largest double, and zero or not subnormal, is in range. -/
theorem convert_isSome {q : ℚ} (hmax : |q| ≤ maxValue)
    (hmin : q = 0 ∨ 2 ^ (-1022 : ℤ) ≤ |q|) : (convert q).isSome := by
  by_cases hzero : q = 0
  · rw [hzero, convert_zero]
    rfl
  have hsmall : 2 ^ (-1022 : ℤ) ≤ |q| := hmin.resolve_left hzero
  have hlow := zpow_lastBit_le hzero
  have hhigh := lt_zpow_lastBit q
  -- the exponent is that of a normal number
  have hbit : -1074 ≤ lastBit q := by
    by_contra hlt
    have hpow : (2 : ℚ) ^ lastBit q ≤ 2 ^ (-1075 : ℤ) :=
      zpow_le_zpow_right₀ one_le_two (by omega)
    have hsplit : (2 : ℚ) ^ 53 * 2 ^ (-1075 : ℤ) = 2 ^ (-1022 : ℤ) := two_pow_mul_zpow 53 (-1075)
    linarith
  have htop : lastBit q ≤ 971 := by
    by_contra hlt
    have hpow : (2 : ℚ) ^ (972 : ℤ) ≤ 2 ^ lastBit q :=
      zpow_le_zpow_right₀ one_le_two (by omega)
    have hsplit : (2 : ℚ) ^ 1 * 2 ^ (971 : ℤ) = 2 ^ (972 : ℤ) := two_pow_mul_zpow 1 971
    have hpos : (0 : ℚ) < 2 ^ (971 : ℤ) := by positivity
    rw [← hsplit] at hpow
    unfold maxValue at hmax
    generalize (2 : ℚ) ^ (971 : ℤ) = top at hpow hpos hmax
    linarith
  have hround : |roundAt (lastBit q) q| ≤ maxValue := by
    rcases htop.eq_or_lt with heq | hlt
    · have hcast : maxValue = ((2 ^ 53 - 1 : ℤ) : ℚ) * 2 ^ lastBit q := by
        rw [heq, maxValue, Int.cast_sub, Int.cast_pow, Int.cast_ofNat, Int.cast_one]
      rw [hcast] at hmax ⊢
      exact abs_roundAt_le hmax
    · -- one bit less than the largest double has
      have hle := @abs_roundAt_le (lastBit q) q (2 ^ 53) (by push_cast; exact hhigh.le)
      have hpow : (2 : ℚ) ^ lastBit q ≤ 2 ^ (970 : ℤ) :=
        zpow_le_zpow_right₀ one_le_two (by omega)
      have hsplit : (2 : ℚ) ^ 1 * 2 ^ (970 : ℤ) = 2 ^ (971 : ℤ) := two_pow_mul_zpow 1 970
      have hpos : (0 : ℚ) < 2 ^ (970 : ℤ) := by positivity
      push_cast at hle
      unfold maxValue
      rw [← hsplit]
      generalize (2 : ℚ) ^ (970 : ℤ) = top at hpow hpos ⊢
      linarith
  have hnormal : 2 ^ (-1022 : ℤ) ≤ |roundAt (lastBit q) q| := by
    have hle := @le_abs_roundAt (lastBit q) q (2 ^ 52) (by push_cast; exact hlow)
    have hpow : (2 : ℚ) ^ (-1074 : ℤ) ≤ 2 ^ lastBit q := zpow_le_zpow_right₀ one_le_two hbit
    have hsplit : (2 : ℚ) ^ 52 * 2 ^ (-1074 : ℤ) = 2 ^ (-1022 : ℤ) := two_pow_mul_zpow 52 (-1074)
    push_cast at hle
    linarith
  unfold convert
  dsimp only
  rw [max_eq_left hbit, if_neg (not_lt.mpr hround),
    if_neg (fun h => absurd h.2 (not_lt.mpr hnormal))]
  rfl

end PropMiner.Semantics.Binary64
