import Mathlib.Data.List.Basic
import Mathlib.Data.Nat.Bitwise
import Mathlib.Tactic.NormNum

/-!
# Bytes in words

Words of 32 bits that are put together from bytes with shifts, masks and bitwise or.

## Main results

* `toNat_or_bytes` — four bytes at their places in a word are added
* `toNat_shiftLeft_byte`, `toNat_shiftRight_byte` — a byte moved to its place and back
* `toNat_and_mask` — the mask of one byte
-/

set_option autoImplicit false

namespace PropMiner.Semantics.Words

variable {x y z w : UInt32}

theorem toNat_amount {k : ℕ} (hk : k < 32) : (UInt32.ofNat k).toNat % 32 = k := by
  rw [UInt32.toNat_ofNat_of_lt' (hk.trans (by decide)), Nat.mod_eq_of_lt hk]

theorem toNat_shiftLeft (w : UInt32) {k : ℕ} (hk : k < 32) :
    (w <<< UInt32.ofNat k).toNat = w.toNat * 2 ^ k % 2 ^ 32 := by
  rw [UInt32.toNat_shiftLeft, toNat_amount hk, Nat.shiftLeft_eq]

theorem toNat_shiftRight (w : UInt32) {k : ℕ} (hk : k < 32) :
    (w >>> UInt32.ofNat k).toNat = w.toNat / 2 ^ k := by
  rw [UInt32.toNat_shiftRight, toNat_amount hk, Nat.shiftRight_eq_div_pow]

theorem toNat_shiftLeft_byte (a : UInt8) {k : ℕ} (hk : k ≤ 24) :
    (a.toUInt32 <<< UInt32.ofNat k).toNat = a.toNat * 2 ^ k := by
  have ha : a.toNat < 2 ^ 8 := a.toNat_lt
  have hfits : a.toNat * 2 ^ k < 2 ^ 32 := calc
    a.toNat * 2 ^ k < 2 ^ 8 * 2 ^ k := Nat.mul_lt_mul_of_pos_right ha (by positivity)
    _ ≤ 2 ^ 8 * 2 ^ 24 := Nat.mul_le_mul_left _ (Nat.pow_le_pow_right (by norm_num) hk)
  rw [toNat_shiftLeft _ (by omega), UInt8.toNat_toUInt32, Nat.mod_eq_of_lt hfits]

theorem toNat_shiftRight_byte (w : UInt32) {k : ℕ} (hk : k < 32) :
    (w >>> UInt32.ofNat k).toUInt8.toNat = w.toNat / 2 ^ k % 256 := by
  rw [UInt32.toNat_toUInt8, toNat_shiftRight w hk]

/-- Numbers that share no bit are added. -/
theorem toNat_or_of_lt (k q : ℕ) (hx : x.toNat = q * 2 ^ k) (hy : y.toNat < 2 ^ k) :
    (x ||| y).toNat = x.toNat + y.toNat := by
  rw [UInt32.toNat_or, hx, Nat.mul_comm, ← Nat.two_pow_add_eq_or_of_lt hy]

/-- Four bytes at their places in a word. -/
theorem toNat_or_bytes {a b c d : ℕ} (hx : x.toNat = a * 2 ^ 24) (hy : y.toNat = b * 2 ^ 16)
    (hz : z.toNat = c * 2 ^ 8) (hw : w.toNat = d) (hb : b < 256) (hc : c < 256) (hd : d < 256) :
    (x ||| y ||| z ||| w).toNat = a * 2 ^ 24 + b * 2 ^ 16 + c * 2 ^ 8 + d := by
  have htwo := toNat_or_of_lt (y := y) 24 a hx (by omega)
  have hthree := toNat_or_of_lt (x := x ||| y) (y := z) 16 (a * 256 + b) (by omega) (by omega)
  have hfour := toNat_or_of_lt (x := x ||| y ||| z) (y := w) 8 (a * 65536 + b * 256 + c)
    (by omega) (by omega)
  omega

theorem toNat_fourBytes (a b c d : UInt8) :
    ((a.toUInt32 <<< 24) ||| (b.toUInt32 <<< 16) ||| (c.toUInt32 <<< 8) ||| d.toUInt32).toNat =
      a.toNat * 2 ^ 24 + b.toNat * 2 ^ 16 + c.toNat * 2 ^ 8 + d.toNat :=
  toNat_or_bytes (toNat_shiftLeft_byte a (by norm_num)) (toNat_shiftLeft_byte b (by norm_num))
    (toNat_shiftLeft_byte c (by norm_num)) d.toNat_toUInt32 b.toNat_lt c.toNat_lt d.toNat_lt

theorem toNat_threeBytes (a b c : UInt8) :
    ((a.toUInt32 <<< 16) ||| (b.toUInt32 <<< 8) ||| c.toUInt32).toNat =
      a.toNat * 2 ^ 16 + b.toNat * 2 ^ 8 + c.toNat := by
  have hzero : ((0 : UInt8).toUInt32 <<< 24) = 0 := rfl
  have hfour := toNat_fourBytes 0 a b c
  rwa [hzero, UInt32.zero_or, UInt8.toNat_zero, Nat.zero_mul, Nat.zero_add] at hfour

/-- The byte that a mask leaves, at its place. -/
theorem toNat_and_mask {mask : UInt32} {k : ℕ} (hmask : mask.toNat = 255 <<< k) :
    (w &&& mask).toNat = w.toNat / 2 ^ k % 256 * 2 ^ k := by
  rw [UInt32.toNat_and, hmask]
  refine Nat.eq_of_testBit_eq fun i => ?_
  rw [Nat.testBit_and, Nat.testBit_shiftLeft, Nat.testBit_mul_two_pow, show 256 = 2 ^ 8 from rfl,
    Nat.testBit_mod_two_pow, Nat.testBit_div_two_pow, show 255 = 2 ^ 8 - 1 from rfl,
    Nat.testBit_two_pow_sub_one]
  by_cases hk : k ≤ i
  · simp [hk, Nat.sub_add_cancel hk, Bool.and_comm]
  · simp [hk]

theorem ofInt_natCast (n : ℕ) : UInt32.ofInt n = UInt32.ofNat n := by
  apply UInt32.toNat_inj.mp
  rw [UInt32.ofInt, UInt32.toNat_ofNat', UInt32.toNat_ofNat']
  omega

theorem map_toNat_injective : Function.Injective (List.map UInt32.toNat) :=
  List.map_injective_iff.mpr fun _ _ => UInt32.toNat_inj.mp

end PropMiner.Semantics.Words
