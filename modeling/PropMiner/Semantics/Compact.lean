import Mathlib.Data.Nat.Digits.Lemmas

/-!
# Compact numbers

A number is written as an exponent and a few leading digits, the mantissa, and what lies below
is dropped. Some headroom is kept: the mantissa is smaller by a factor than its digits allow, and
the exponent is the first one that leaves that much room. So the exponent is a function of the
number, and exponent and mantissa, put together, are ordered as the numbers are.

## Main definitions

* `Format` — the base, the number of digits of a mantissa, and the headroom
* `Format.exponent`, `Format.mantissa`, `Format.code` — what is written for a number
* `Format.round` — what is read again

## Main results

* `Format.round_le`, `Format.lt_round_add` — the error is less than the last place
* `Format.code_round` — what was read is written as before
* `Format.round_mono`, `Format.code_mono` — both keep the order
-/

set_option autoImplicit false

namespace PropMiner.Semantics.Compact

/-- How numbers are written. The headroom must not cut a digit in two below the first one. -/
structure Format where
  base : ℕ
  digits : ℕ
  headroom : ℕ
  one_lt_base : 1 < base
  digits_pos : 0 < digits
  headroom_pos : 0 < headroom
  headroom_dvd : headroom ∣ base ^ (digits - 1)

namespace Format

variable (F : Format) {t u : ℕ}

/-- The first exponent that leaves the headroom. -/
def exponent (t : ℕ) : ℕ := (Nat.digits F.base (F.headroom * t)).length

/-- The leading digits. -/
def mantissa (t : ℕ) : ℕ := t * F.base ^ F.digits / F.base ^ F.exponent t

/-- The number that an exponent and a mantissa stand for. -/
def decode (e m : ℕ) : ℕ := m * F.base ^ e / F.base ^ F.digits

/-- What is left of a number when it is written and read. -/
def round (t : ℕ) : ℕ := F.decode (F.exponent t) (F.mantissa t)

/-- Exponent and mantissa in one number. -/
def code (t : ℕ) : ℕ := F.exponent t * F.base ^ F.digits + F.mantissa t

/-- The last place of a number that is written with the exponent of `t`. -/
def lastPlace (t : ℕ) : ℕ := F.base ^ (F.exponent t - F.digits)

theorem pow_pos (n : ℕ) : 0 < F.base ^ n := Nat.pow_pos (Nat.zero_lt_of_lt F.one_lt_base)

theorem lastPlace_pos (t : ℕ) : 0 < F.lastPlace t := F.pow_pos _

theorem lastPlace_of_le (h : F.exponent t ≤ F.digits) : F.lastPlace t = 1 := by
  rw [lastPlace, Nat.sub_eq_zero_of_le h, pow_zero]

theorem exponent_le_iff {e : ℕ} : F.exponent t ≤ e ↔ F.headroom * t < F.base ^ e :=
  Nat.digits_length_le_iff F.one_lt_base _

theorem headroom_mul_lt (t : ℕ) : F.headroom * t < F.base ^ F.exponent t :=
  F.exponent_le_iff.mp le_rfl

theorem exponent_mono (h : t ≤ u) : F.exponent t ≤ F.exponent u :=
  F.exponent_le_iff.mpr ((Nat.mul_le_mul_left _ h).trans_lt (F.headroom_mul_lt u))

theorem exponent_pos (h : 0 < t) : 0 < F.exponent t := by
  by_contra hzero
  have hlt := F.exponent_le_iff.mp (Nat.le_of_not_lt hzero)
  rw [pow_zero] at hlt
  have hpos := Nat.mul_pos F.headroom_pos h
  omega

/-- One place less would not leave the headroom. -/
theorem pow_le_headroom_mul (h : 0 < t) : F.base ^ (F.exponent t - 1) ≤ F.headroom * t := by
  have hpos := F.exponent_pos h
  refine Nat.le_of_not_lt fun hlt => ?_
  have hle := F.exponent_le_iff.mpr hlt
  omega

/-! ### Rounding -/

/-- With many digits the mantissa counts last places; with few of them it is the number, shifted
up. -/
theorem mantissa_eq (t : ℕ) :
    F.mantissa t = if F.digits ≤ F.exponent t then t / F.lastPlace t
      else t * F.base ^ (F.digits - F.exponent t) := by
  unfold mantissa lastPlace
  split_ifs with h
  · obtain ⟨k, hk⟩ := Nat.exists_eq_add_of_le h
    rw [hk, Nat.add_sub_cancel_left, pow_add, Nat.mul_comm t,
      Nat.mul_div_mul_left _ _ (F.pow_pos _)]
  · obtain ⟨k, hk⟩ := Nat.exists_eq_add_of_le (Nat.le_of_not_le h)
    have hpow : F.base ^ F.digits = F.base ^ F.exponent t * F.base ^ k := by rw [hk, pow_add]
    rw [hpow, Nat.mul_left_comm, Nat.mul_div_cancel_left _ (F.pow_pos _)]
    congr 2
    omega

theorem round_eq (t : ℕ) : F.round t = t / F.lastPlace t * F.lastPlace t := by
  rw [round, decode, mantissa_eq]
  split_ifs with h
  · obtain ⟨k, hk⟩ := Nat.exists_eq_add_of_le h
    have hpow : F.base ^ F.exponent t = F.base ^ F.digits * F.lastPlace t := by
      rw [lastPlace, hk, Nat.add_sub_cancel_left, pow_add]
    rw [hpow, Nat.mul_left_comm, Nat.mul_div_cancel_left _ (F.pow_pos _)]
  · -- nothing is dropped
    rw [F.lastPlace_of_le (Nat.le_of_not_le h), Nat.div_one, Nat.mul_one, Nat.mul_assoc, ← pow_add,
      Nat.sub_add_cancel (Nat.le_of_not_le h), Nat.mul_div_cancel _ (F.pow_pos _)]

theorem round_le (t : ℕ) : F.round t ≤ t := by
  rw [round_eq]
  exact Nat.div_mul_le_self _ _

theorem lt_round_add (t : ℕ) : t < F.round t + F.lastPlace t := by
  have hmod := Nat.mod_lt t (F.lastPlace_pos t)
  have hsplit := Nat.div_add_mod' t (F.lastPlace t)
  rw [round_eq]
  omega

/-- Rounding does not go below the first number with the same exponent. -/
theorem pow_le_headroom_mul_round (h : 0 < t) :
    F.base ^ (F.exponent t - 1) ≤ F.headroom * F.round t := by
  have hle := F.pow_le_headroom_mul h
  rw [round_eq]
  rcases Nat.lt_or_ge F.digits (F.exponent t) with hmany | hfew
  · -- that number is a multiple of the last place
    obtain ⟨c, hc⟩ := F.headroom_dvd
    have hpow : F.base ^ (F.exponent t - 1) = F.headroom * (c * F.lastPlace t) := by
      have hdigits := F.digits_pos
      rw [← Nat.mul_assoc, ← hc, lastPlace, ← pow_add]
      congr 1
      omega
    rw [hpow] at hle ⊢
    have hcount := Nat.le_of_mul_le_mul_left hle F.headroom_pos
    have hplaces : c ≤ t / F.lastPlace t := (Nat.le_div_iff_mul_le (F.lastPlace_pos t)).mpr hcount
    exact Nat.mul_le_mul_left _ (Nat.mul_le_mul_right _ hplaces)
  · rwa [F.lastPlace_of_le hfew, Nat.div_one, Nat.mul_one]

theorem exponent_round (t : ℕ) : F.exponent (F.round t) = F.exponent t := by
  refine Nat.le_antisymm (F.exponent_mono (F.round_le t)) ?_
  rcases Nat.eq_zero_or_pos t with rfl | hpos
  · rw [exponent, Nat.mul_zero, Nat.digits_zero]
    exact Nat.zero_le _
  · refine Nat.le_of_not_lt fun hlt => ?_
    have hround := F.exponent_le_iff.mp (Nat.le_sub_one_of_lt hlt)
    exact Nat.not_le_of_lt hround (F.pow_le_headroom_mul_round hpos)

theorem lastPlace_round (t : ℕ) : F.lastPlace (F.round t) = F.lastPlace t := by
  rw [lastPlace, exponent_round, lastPlace]

theorem mantissa_round (t : ℕ) : F.mantissa (F.round t) = F.mantissa t := by
  rw [mantissa_eq, mantissa_eq, exponent_round, lastPlace_round, round_eq]
  split_ifs with h
  · rw [Nat.mul_div_cancel _ (F.lastPlace_pos t)]
  · rw [F.lastPlace_of_le (Nat.le_of_not_le h), Nat.div_one, Nat.mul_one]

theorem code_round (t : ℕ) : F.code (F.round t) = F.code t := by
  rw [code, exponent_round, mantissa_round, code]

theorem round_mono (h : t ≤ u) : F.round t ≤ F.round u := by
  rcases (F.exponent_mono h).eq_or_lt with hsame | hless
  · have hplace : F.lastPlace t = F.lastPlace u := by rw [lastPlace, hsame, lastPlace]
    rw [round_eq, round_eq, hplace]
    exact Nat.mul_le_mul_right _ (Nat.div_le_div_right h)
  · -- the numbers with the larger exponent lie above all with the smaller one
    have hpos : 0 < u := by
      refine Nat.pos_of_ne_zero fun hzero => ?_
      subst hzero
      rw [Nat.le_zero.mp h] at hless
      exact Nat.lt_irrefl _ hless
    refine Nat.le_of_mul_le_mul_left ?_ F.headroom_pos
    calc F.headroom * F.round t ≤ F.headroom * t := Nat.mul_le_mul_left _ (F.round_le t)
      _ ≤ F.base ^ F.exponent t := (F.headroom_mul_lt t).le
      _ ≤ F.base ^ (F.exponent u - 1) :=
        Nat.pow_le_pow_right (Nat.zero_lt_of_lt F.one_lt_base) (Nat.le_sub_one_of_lt hless)
      _ ≤ F.headroom * F.round u := F.pow_le_headroom_mul_round hpos

/-! ### Codes -/

theorem headroom_mul_mantissa_lt (t : ℕ) : F.headroom * F.mantissa t < F.base ^ F.digits := by
  have hle : F.mantissa t * F.base ^ F.exponent t ≤ t * F.base ^ F.digits := Nat.div_mul_le_self _ _
  refine Nat.lt_of_mul_lt_mul_right (a := F.base ^ F.exponent t) ?_
  calc F.headroom * F.mantissa t * F.base ^ F.exponent t
      = F.headroom * (F.mantissa t * F.base ^ F.exponent t) := Nat.mul_assoc ..
    _ ≤ F.headroom * (t * F.base ^ F.digits) := Nat.mul_le_mul_left _ hle
    _ = F.headroom * t * F.base ^ F.digits := (Nat.mul_assoc ..).symm
    _ < F.base ^ F.exponent t * F.base ^ F.digits :=
      Nat.mul_lt_mul_of_pos_right (F.headroom_mul_lt t) (F.pow_pos _)
    _ = F.base ^ F.digits * F.base ^ F.exponent t := Nat.mul_comm ..

theorem mantissa_lt (t : ℕ) : F.mantissa t < F.base ^ F.digits :=
  (Nat.le_mul_of_pos_left _ F.headroom_pos).trans_lt (F.headroom_mul_mantissa_lt t)

theorem code_div (t : ℕ) : F.code t / F.base ^ F.digits = F.exponent t := by
  rw [code, Nat.mul_comm, Nat.mul_add_div (F.pow_pos _), Nat.div_eq_of_lt (F.mantissa_lt t),
    Nat.add_zero]

theorem code_mod (t : ℕ) : F.code t % F.base ^ F.digits = F.mantissa t := by
  rw [code, Nat.mul_comm, Nat.mul_add_mod, Nat.mod_eq_of_lt (F.mantissa_lt t)]

theorem code_mono (h : t ≤ u) : F.code t ≤ F.code u := by
  unfold code
  rcases (F.exponent_mono h).eq_or_lt with hsame | hless
  · have hmantissa : F.mantissa t ≤ F.mantissa u := by
      rw [mantissa, mantissa, hsame]
      exact Nat.div_le_div_right (Nat.mul_le_mul_right _ h)
    rw [hsame]
    exact Nat.add_le_add_left hmantissa _
  · have hstep := Nat.mul_le_mul_right (F.base ^ F.digits) (Nat.succ_le_of_lt hless)
    have hlt := F.mantissa_lt t
    rw [Nat.succ_mul] at hstep
    omega

end Format

end PropMiner.Semantics.Compact
