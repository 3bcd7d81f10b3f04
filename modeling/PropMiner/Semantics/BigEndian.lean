import Mathlib.Data.Nat.Size
import PropMiner.Semantics.LittleEndian

/-!
# Big-endian numbers

Lists of bytes as numbers, most significant byte first, and their division by a divisor that
fits in a register, byte by byte from the top. The remainder is kept in the register; it is
shifted up by a byte before it is reduced, so a divisor that leaves less than a byte of room can
lose the top of it.

## Main definitions

* `value` — the number that a list of bytes stands for
* `divBytes` — the quotient, with a remainder that wraps around
* `Fits` — no remainder ever wraps around

## Main results

* `value_divBytes_le`, `value_divBytes_eq_iff` — the quotient is never too large, and right if
  and only if no remainder wraps around
* `size_value_append` — leading bytes decide how many bits a number has
* `fits_iff` — the remainders are those of the leading bytes
-/

set_option autoImplicit false

namespace PropMiner.Semantics.BigEndian

variable {bs cs : List UInt8} {b : UInt8}

/-- The number that a list of bytes stands for, most significant byte first. -/
def value (bs : List UInt8) : ℕ := LittleEndian.value bs.reverse

@[simp] theorem value_nil : value [] = 0 := rfl

theorem value_append : value (bs ++ cs) = value bs * 256 ^ cs.length + value cs := by
  rw [value, List.reverse_append, LittleEndian.value_append, List.length_reverse, Nat.mul_comm,
    Nat.add_comm]
  rfl

theorem value_cons : value (b :: bs) = b.toNat * 256 ^ bs.length + value bs := by
  rw [← List.singleton_append, value_append, value, List.reverse_singleton, LittleEndian.value_cons,
    LittleEndian.value_nil, Nat.mul_zero, Nat.add_zero]

theorem value_lt (bs : List UInt8) : value bs < 256 ^ bs.length := by
  have h := LittleEndian.value_lt bs.reverse
  rwa [List.length_reverse] at h

theorem value_replicate_zero (n : ℕ) : value (List.replicate n 0) = 0 := by
  induction n with
  | zero => rfl
  | succ n ih => rw [List.replicate_succ, value_cons, ih, UInt8.toNat_zero, Nat.zero_mul]

/-- Leading zeros do not count. -/
theorem value_dropWhile_zero (bs : List UInt8) : value (bs.dropWhile (· = 0)) = value bs := by
  induction bs with
  | nil => rfl
  | cons b bs ih =>
    by_cases hb : b = 0
    · rw [List.dropWhile_cons_of_pos (by simpa using hb), ih, value_cons, hb, UInt8.toNat_zero,
        Nat.zero_mul, Nat.zero_add]
    · rw [List.dropWhile_cons_of_neg (by simpa using hb)]

/-! ### Bits -/

/-- A number that is not zero keeps its size when lower bits are put behind it. -/
theorem size_mul_pow_add {v r k : ℕ} (hv : 0 < v) (hr : r < 2 ^ k) :
    (v * 2 ^ k + r).size = k + v.size := by
  have hsize := Nat.size_pos.mpr hv
  refine le_antisymm (Nat.size_le.mpr ?_) (Nat.le_of_pred_lt (Nat.lt_size.mpr ?_))
  · calc v * 2 ^ k + r < v * 2 ^ k + 2 ^ k := Nat.add_lt_add_left hr _
      _ = (v + 1) * 2 ^ k := (Nat.succ_mul _ _).symm
      _ ≤ 2 ^ v.size * 2 ^ k := Nat.mul_le_mul_right _ (Nat.lt_size_self _)
      _ = 2 ^ (k + v.size) := by rw [← pow_add, Nat.add_comm]
  · have hlow : 2 ^ (v.size - 1) ≤ v := Nat.lt_size.mp (by omega)
    calc 2 ^ (k + v.size - 1) = 2 ^ (v.size - 1) * 2 ^ k := by
          rw [← pow_add]
          congr 1
          omega
      _ ≤ v * 2 ^ k := Nat.mul_le_mul_right _ hlow
      _ ≤ v * 2 ^ k + r := Nat.le_add_right _ _

theorem pow_256 (n : ℕ) : 256 ^ n = 2 ^ (8 * n) := by
  rw [pow_mul]
  norm_num

/-- Bytes behind others that are not all zero do not count. -/
theorem size_value_append (hbs : 0 < value bs) :
    (value (bs ++ cs)).size = 8 * cs.length + (value bs).size := by
  have hrest := value_lt cs
  rw [pow_256] at hrest
  rw [value_append, pow_256, size_mul_pow_add hbs hrest]

theorem size_value_le (bs : List UInt8) : (value bs).size ≤ 8 * bs.length := by
  rw [Nat.size_le, ← pow_256]
  exact value_lt bs

/-! ### Division -/

/-- The bytes of a quotient; the remainder is kept in a register that wraps around at `size`. -/
def divBytes (size d : ℕ) : List UInt8 → ℕ → List UInt8
  | [], _ => []
  | b :: bs, rem =>
      let cur := (256 * rem + b.toNat) % size
      UInt8.ofNat (cur / d) :: divBytes size d bs (cur % d)

/-- No remainder wraps around. -/
def Fits (size d : ℕ) : List UInt8 → ℕ → Prop
  | [], _ => True
  | b :: bs, rem =>
      256 * rem + b.toNat < size ∧ Fits size d bs ((256 * rem + b.toNat) % d)

@[simp] theorem length_divBytes (size d : ℕ) (bs : List UInt8) (rem : ℕ) :
    (divBytes size d bs rem).length = bs.length := by
  induction bs generalizing rem with
  | nil => rfl
  | cons b bs ih => rw [divBytes, List.length_cons, ih, List.length_cons]

variable {size d rem : ℕ}

/-- One step of the long division. -/
theorem div_step (hd : 0 < d) (cur p v : ℕ) :
    (cur * p + v) / d = cur / d * p + (cur % d * p + v) / d := by
  have hsplit : cur * p + v = d * (cur / d * p) + (cur % d * p + v) := by
    conv_lhs => rw [← Nat.div_add_mod cur d]
    ring
  rw [hsplit, Nat.mul_add_div hd]

/-- A remainder that wraps around gives too small a byte of the quotient. -/
theorem mod_div_lt_div (hd : 0 < d) (hsize : d ≤ size) {cur : ℕ} (hcur : size ≤ cur) :
    cur % size / d < cur / d := by
  have hmod : cur % size ≤ cur - size := by
    rw [Nat.mod_eq_sub_mod hcur]
    exact Nat.mod_le _ _
  have hle : cur % size + d ≤ cur := by omega
  calc cur % size / d < cur % size / d + 1 := Nat.lt_succ_self _
    _ = (cur % size + d) / d := (Nat.add_div_right _ hd).symm
    _ ≤ cur / d := Nat.div_le_div_right hle

/-- The quotient is at most the right one, and is the right one if and only if no remainder
wraps around: the first one that does makes its byte too small, and no later byte can make up for
that. -/
theorem value_divBytes (bs : List UInt8) (hd : 0 < d) (hsize : d ≤ size) (hrem : rem < d) :
    value (divBytes size d bs rem) ≤ (rem * 256 ^ bs.length + value bs) / d ∧
      (value (divBytes size d bs rem) = (rem * 256 ^ bs.length + value bs) / d ↔
        Fits size d bs rem) := by
  induction bs generalizing rem with
  | nil =>
    have hzero : rem / d = 0 := Nat.div_eq_of_lt hrem
    simp [divBytes, Fits, hzero]
  | cons b bs ih =>
    obtain ⟨cur, hcur⟩ : ∃ cur, cur = 256 * rem + b.toNat := ⟨_, rfl⟩
    have hquotient : (rem * 256 ^ (b :: bs).length + value (b :: bs)) / d =
        cur / d * 256 ^ bs.length + (cur % d * 256 ^ bs.length + value bs) / d := by
      rw [← div_step hd, value_cons, List.length_cons, pow_succ, hcur]
      congr 1
      ring
    have hbyte : cur / d < 256 := by
      have hb := b.toNat_lt
      rw [Nat.div_lt_iff_lt_mul hd]
      omega
    rw [hquotient, divBytes, Fits, ← hcur, value_cons, length_divBytes]
    by_cases hfits : cur < size
    · have htail := ih (Nat.mod_lt cur hd)
      have hdigit : (UInt8.ofNat (cur / d)).toNat = cur / d :=
        UInt8.toNat_ofNat_of_lt' hbyte
      rw [Nat.mod_eq_of_lt hfits, hdigit]
      refine ⟨Nat.add_le_add_left htail.1 _, ?_⟩
      rw [Nat.add_left_cancel_iff, htail.2]
      exact ⟨fun h => ⟨hfits, h⟩, fun h => h.2⟩
    · -- The byte is at least one too small, and the bytes behind it are worth less than that.
      have hless := mod_div_lt_div hd hsize (Nat.le_of_not_lt hfits)
      have hdigit : (UInt8.ofNat (cur % size / d)).toNat = cur % size / d :=
        UInt8.toNat_ofNat_of_lt' (hless.trans hbyte)
      have hrest := value_lt (divBytes size d bs (cur % size % d))
      have hstep := Nat.mul_le_mul_right (256 ^ bs.length) (Nat.succ_le_of_lt hless)
      rw [length_divBytes] at hrest
      rw [Nat.succ_mul] at hstep
      have hlt : cur % size / d * 256 ^ bs.length + value (divBytes size d bs (cur % size % d)) <
          cur / d * 256 ^ bs.length + (cur % d * 256 ^ bs.length + value bs) / d :=
        (Nat.add_lt_add_left hrest _).trans_le (hstep.trans (Nat.le_add_right _ _))
      rw [hdigit]
      exact ⟨hlt.le, fun h => absurd h hlt.ne, fun h => absurd h.1 hfits⟩

theorem value_divBytes_le (hd : 0 < d) (hsize : d ≤ size) (bs : List UInt8) :
    value (divBytes size d bs 0) ≤ value bs / d := by
  have h := (value_divBytes bs hd hsize hd).1
  rwa [Nat.zero_mul, Nat.zero_add] at h

theorem value_divBytes_eq_iff (hd : 0 < d) (hsize : d ≤ size) (bs : List UInt8) :
    value (divBytes size d bs 0) = value bs / d ↔ Fits size d bs 0 := by
  have h := (value_divBytes bs hd hsize hd).2
  rwa [Nat.zero_mul, Nat.zero_add] at h

/-- The remainders are those of the leading bytes, and wrap around from a byte below the size of
the register on. -/
theorem fits_iff (room : ℕ) (bs : List UInt8) (hrem : rem < d) :
    Fits (256 * room) d bs rem ↔
      ∀ k, 1 ≤ k → k ≤ bs.length → (rem * 256 ^ bs.length + value bs) / 256 ^ k % d < room := by
  induction bs generalizing rem with
  | nil =>
    refine ⟨fun _ k hk hle => absurd (hk.trans hle) (by simp), fun _ => trivial⟩
  | cons b bs ih =>
    have hd : 0 < d := Nat.zero_lt_of_lt hrem
    have hb := b.toNat_lt
    have hvalue : rem * 256 ^ (b :: bs).length + value (b :: bs) =
        (256 * rem + b.toNat) * 256 ^ bs.length + value bs := by
      rw [value_cons, List.length_cons, pow_succ]
      ring
    -- Shifted down by all its bytes, the number leaves what was in the register.
    have htop : ((256 * rem + b.toNat) * 256 ^ bs.length + value bs) / 256 ^ (bs.length + 1) % d =
        rem := by
      rw [pow_succ, ← Nat.div_div_eq_div_mul, Nat.mul_comm (256 * rem + b.toNat),
        Nat.mul_add_div (by positivity), Nat.div_eq_of_lt (value_lt bs), Nat.add_zero,
        Nat.mul_add_div (by norm_num), Nat.div_eq_of_lt hb, Nat.add_zero, Nat.mod_eq_of_lt hrem]
    have hlow : ∀ k ≤ bs.length,
        ((256 * rem + b.toNat) * 256 ^ bs.length + value bs) / 256 ^ k % d =
        ((256 * rem + b.toNat) % d * 256 ^ bs.length + value bs) / 256 ^ k % d := by
      intro k hk
      have hpow : 256 ^ bs.length = 256 ^ k * 256 ^ (bs.length - k) := by
        rw [← pow_add, Nat.add_sub_cancel' hk]
      have hshift : ∀ x, (x * 256 ^ bs.length + value bs) / 256 ^ k =
          x * 256 ^ (bs.length - k) + value bs / 256 ^ k := by
        intro x
        rw [hpow, Nat.mul_left_comm, Nat.mul_add_div (by positivity)]
      rw [hshift, hshift]
      exact Nat.ModEq.add_right _ (Nat.ModEq.mul_right _ (Nat.mod_modEq _ _).symm)
    rw [Fits, ih (Nat.mod_lt _ hd), hvalue, List.length_cons]
    constructor
    · rintro ⟨hfirst, hrest⟩ k hk hle
      rcases Nat.lt_or_ge bs.length k with hlast | hk'
      · obtain rfl : k = bs.length + 1 := by omega
        rw [htop]
        omega
      · rw [hlow k hk']
        exact hrest k hk hk'
    · intro h
      have hfirst := h (bs.length + 1) (by omega) le_rfl
      rw [htop] at hfirst
      refine ⟨by omega, fun k hk hk' => ?_⟩
      rw [← hlow k hk']
      exact h k hk (by omega)

end PropMiner.Semantics.BigEndian
