import Mathlib.Order.Bounds.Basic
import Mathlib.Tactic.Linarith

/-!
# Least multiples

The least multiple of a number that is not below another, and the least one among those for which a
product is divisible.

## Main definitions

* `roundUp` — the next multiple

## Main results

* `isLeast_roundUp` — it is the least one
* `dvd_mul_iff_div_gcd_dvd` — when a product is divisible, in terms of one factor
* `isLeast_mul` — the least number of whole units, as a number
-/

set_option autoImplicit false

namespace PropMiner.Semantics.Multiples

variable {c g n s t u : ℤ}

/-- The next multiple of `s` from `t` on. -/
def roundUp (s t : ℤ) : ℤ := (t + s - 1) / s * s

/-- A quotient that is rounded up. -/
theorem ceil_le_iff (hc : 0 < c) : (n + c - 1) / c ≤ u ↔ n ≤ u * c := by
  rw [Int.ediv_le_iff_le_mul hc]
  generalize u * c = N
  omega

theorem isLeast_roundUp (hs : 0 < s) (t : ℤ) : IsLeast {u | s ∣ u ∧ t ≤ u} (roundUp s t) := by
  refine ⟨⟨dvd_mul_left s _, (ceil_le_iff hs).mp le_rfl⟩, ?_⟩
  rintro u ⟨⟨q, rfl⟩, hle⟩
  rw [mul_comm] at hle
  rw [roundUp, mul_comm s q]
  exact mul_le_mul_of_nonneg_right ((ceil_le_iff hs).mpr hle) hs.le

theorem roundUp_of_dvd (hs : 0 < s) (h : s ∣ t) : roundUp s t = t :=
  (isLeast_roundUp hs t).unique ⟨⟨h, le_rfl⟩, fun _ hu => hu.2⟩

/-- What a factor lacks to make the product divisible by `c`. -/
theorem dvd_mul_iff_div_gcd_dvd (hc : c ≠ 0) : c ∣ g * t ↔ c / g.gcd c ∣ t := by
  have hgcd : (g.gcd c : ℤ) ≠ 0 := Int.natCast_ne_zero.mpr (Int.gcd_ne_zero_right hc)
  have hsplit : c / g.gcd c * g.gcd c = c := Int.ediv_mul_cancel (Int.gcd_dvd_right g c)
  rw [mul_comm g t, ← Int.dvd_mul_gcd_iff_dvd_mul, Int.gcd_comm c g]
  -- both numbers have the divisor `d` as a factor
  generalize (g.gcd c : ℤ) = d at hgcd hsplit ⊢
  have hcancel : c / d * d ∣ t * d ↔ c / d ∣ t := mul_dvd_mul_iff_right hgcd
  rwa [hsplit] at hcancel

/-- Whole units of `c`: the least count that has a property and is enough for `n`. -/
theorem isLeast_mul {P : ℤ → Prop} (hc : 0 < c) (h : IsLeast {u | P u ∧ (n + c - 1) / c ≤ u} t) :
    IsLeast {N | c ∣ N ∧ n ≤ N ∧ P (N / c)} (t * c) := by
  obtain ⟨⟨hP, hle⟩, hleast⟩ := h
  refine ⟨⟨dvd_mul_left c t, (ceil_le_iff hc).mp hle, ?_⟩, ?_⟩
  · rwa [Int.mul_ediv_cancel t hc.ne']
  · rintro N ⟨hdvd, hn, hP'⟩
    obtain ⟨u, rfl⟩ := hdvd
    rw [Int.mul_ediv_cancel_left u hc.ne'] at hP'
    rw [mul_comm] at hn
    rw [mul_comm c u]
    exact mul_le_mul_of_nonneg_right (hleast ⟨hP', (ceil_le_iff hc).mpr hn⟩) hc.le

end PropMiner.Semantics.Multiples
