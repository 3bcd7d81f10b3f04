import PropMiner.Share.Nbits

/-!
# Share targets from the difficulty of the pool

`difficulty_to_nbits_pdif`: the target of difficulty one, times a million, is divided by the
difficulty, counted in millionths. The quotient is taken byte by byte with a remainder of 64
bits, which is shifted up by a byte at each step. A divisor of more than 56 bits can leave a
remainder that loses its top byte there.

## Main definitions

* `pdifTarget` — the bytes of the share target
* `RemaindersFit` — no remainder of the division takes more than 56 bits
* `DividesExactly`, `NeverEasier` — what the target of a difficulty should be

## Main results

* `pdifTarget_exact_iff` — the target is right if and only if the remainders fit
* `remaindersFit_of_le` — they do for every divisor of up to 56 bits
-/

set_option autoImplicit false

namespace PropMiner.Share

open PropMiner.Semantics

/-- `diff1_target_be` -/
def diff1TargetBe : Bytes32 := ((Bytes32.fill 0).set 4 0xFF).set 5 0xFF

/-- `be_mul_u32_inplace`, from the last byte up. A byte times 32 bits leaves room for the carry in
64 bits, so it is a number here. -/
def beMulU32Inplace (be : Bytes32) (m : UInt32) : Bytes32 :=
  let r := LittleEndian.mulCarry m.toNat be.bytes.reverse 0
  if r.2 ≠ 0 then .fill 0xFF
  else ⟨r.1.reverse, by
    rw [List.length_reverse, LittleEndian.length_mulCarry, List.length_reverse, be.length_eq]⟩

/-- The loop of `be_div_u64`. -/
def divLoop (d : UInt64) : List UInt8 → UInt64 → List UInt8
  | [], _ => []
  | b :: bs, rem =>
      let rem := (rem <<< 8) ||| b.toUInt64
      (rem / d).toUInt8 :: divLoop d bs (rem % d)

theorem length_divLoop (d : UInt64) (bs : List UInt8) (rem : UInt64) :
    (divLoop d bs rem).length = bs.length := by
  induction bs generalizing rem with
  | nil => rfl
  | cons b bs ih => rw [divLoop, List.length_cons, ih, List.length_cons]

/-- `be_div_u64` -/
def beDivU64 (be : Bytes32) (d : UInt64) : Bytes32 :=
  if d = 0 then be else ⟨divLoop d be.bytes 0, by rw [length_divLoop, be.length_eq]⟩

/-- The bytes that `difficulty_to_nbits_pdif` encodes, for a difficulty in millionths. -/
def pdifTarget (scaledDiff : UInt64) : Bytes32 :=
  beDivU64 (beMulU32Inplace diff1TargetBe 1000000) scaledDiff

/-- `difficulty_to_nbits_pdif` after the difficulty, a double, has been scaled; the source takes
the maximum with one. -/
def difficultyToNbitsPdif (scaledDiff : UInt64) : UInt32 := targetBeToNbits (pdifTarget scaledDiff)

/-- The share target that a worker gets. -/
def shareTarget (scaledDiff : UInt64) : ℕ :=
  (nbitsToTargetLe (difficultyToNbitsPdif scaledDiff)).value

/-- The number that is divided. -/
def millionfoldDiff1 : ℕ := 0xFFFF * 2 ^ 208 * 1000000

theorem valueBe_beMulU32Inplace_diff1 :
    (beMulU32Inplace diff1TargetBe 1000000).valueBe = millionfoldDiff1 := by decide +kernel

/-! ### The register -/

/-- Shifting a byte in is arithmetic modulo the size of the register. -/
theorem toNat_shiftIn (rem : UInt64) (b : UInt8) :
    ((rem <<< 8) ||| b.toUInt64).toNat = (256 * rem.toNat + b.toNat) % 2 ^ 64 := by
  have hb := b.toNat_lt
  have hshift : (rem <<< 8).toNat = (rem.toNat % 2 ^ 56) <<< 8 := by
    rw [UInt64.toNat_shiftLeft]
    change rem.toNat <<< 8 % 2 ^ 64 = _
    rw [Nat.shiftLeft_eq, Nat.shiftLeft_eq]
    omega
  rw [UInt64.toNat_or, hshift, UInt8.toNat_toUInt64, ← Nat.shiftLeft_add_eq_or_of_lt hb,
    Nat.shiftLeft_eq]
  omega

theorem divLoop_eq (d : UInt64) (bs : List UInt8) (rem : UInt64) :
    divLoop d bs rem = BigEndian.divBytes (2 ^ 64) d.toNat bs rem.toNat := by
  induction bs generalizing rem with
  | nil => rfl
  | cons b bs ih =>
    rw [divLoop, BigEndian.divBytes, ih, UInt64.toNat_mod, toNat_shiftIn]
    refine congrArg (· :: _) (UInt8.toNat_inj.mp ?_)
    rw [UInt64.toNat_toUInt8, UInt64.toNat_div, toNat_shiftIn, UInt8.toNat_ofNat']

/-! ### When the target is right -/

variable {s : UInt64}

/-- The remainders of the leading bytes, which are shifted up by a byte, have 56 bits. -/
def RemaindersFit (s : ℕ) : Prop := ∀ k, 1 ≤ k → millionfoldDiff1 / 256 ^ k % s < 2 ^ 56

/-- The quotient is exact. -/
def DividesExactly (s : UInt64) : Prop := (pdifTarget s).valueBe = millionfoldDiff1 / s.toNat

/-- No higher difficulty has a larger target, before or after it is encoded. -/
def NeverEasier (s : UInt64) : Prop :=
  ∀ s' : UInt64, s ≤ s' →
    (pdifTarget s').valueBe ≤ (pdifTarget s).valueBe ∧ shareTarget s' ≤ shareTarget s

theorem toNat_pos (hs : s ≠ 0) : 0 < s.toNat :=
  Nat.pos_of_ne_zero fun h => hs (UInt64.toNat_inj.mp h)

theorem remaindersFit_of_le {n : ℕ} (hpos : 0 < n) (hle : n ≤ 2 ^ 56) : RemaindersFit n :=
  fun _ _ => (Nat.mod_lt _ hpos).trans_le hle

theorem valueBe_pdifTarget (hs : s ≠ 0) :
    (pdifTarget s).valueBe = BigEndian.value (BigEndian.divBytes (2 ^ 64) s.toNat
      (beMulU32Inplace diff1TargetBe 1000000).bytes 0) := by
  rw [pdifTarget, beDivU64, if_neg hs]
  exact congrArg BigEndian.value (divLoop_eq s _ 0)

theorem valueBe_pdifTarget_le (hs : s ≠ 0) :
    (pdifTarget s).valueBe ≤ millionfoldDiff1 / s.toNat := by
  have hpos : 0 < s.toNat := toNat_pos hs
  rw [valueBe_pdifTarget hs, ← valueBe_beMulU32Inplace_diff1]
  exact BigEndian.value_divBytes_le hpos s.toNat_lt.le _

theorem dividesExactly_iff (hs : s ≠ 0) : DividesExactly s ↔ RemaindersFit s.toNat := by
  have hpos : 0 < s.toNat := toNat_pos hs
  have hlength := (beMulU32Inplace diff1TargetBe 1000000).length_eq
  have hvalue := valueBe_beMulU32Inplace_diff1
  rw [Bytes32.valueBe] at hvalue
  rw [DividesExactly, valueBe_pdifTarget hs, ← hvalue,
    BigEndian.value_divBytes_eq_iff hpos s.toNat_lt.le]
  have hfits := BigEndian.fits_iff (2 ^ 56) (beMulU32Inplace diff1TargetBe 1000000).bytes hpos
  rw [hlength, hvalue, Nat.zero_mul, Nat.zero_add] at hfits
  refine hfits.trans ⟨fun h k hk => ?_, fun h k hk _ => h k hk⟩
  rcases Nat.lt_or_ge 32 k with hlarge | hsmall
  · -- nothing is left of the number
    have hzero : millionfoldDiff1 / 256 ^ k = 0 := by
      refine Nat.div_eq_of_lt (lt_of_lt_of_le ?_ (Nat.pow_le_pow_right (by norm_num) hlarge.le))
      rw [← valueBe_beMulU32Inplace_diff1]
      exact Bytes32.valueBe_lt _
    rw [hzero, Nat.zero_mod]
    norm_num
  · exact h k hk hsmall

theorem neverEasier_of_dividesExactly (hs : s ≠ 0) (h : DividesExactly s) : NeverEasier s := by
  intro s' hle
  have hpos : 0 < s.toNat := toNat_pos hs
  have hle' : s.toNat ≤ s'.toNat := UInt64.le_iff_toNat_le.mp hle
  have hs' : s' ≠ 0 := by
    rintro rfl
    exact Nat.not_le_of_lt hpos hle'
  -- a quotient that is not exact is too small, which does no harm here
  have htarget : (pdifTarget s').valueBe ≤ (pdifTarget s).valueBe := by
    rw [h]
    exact (valueBe_pdifTarget_le hs').trans (Nat.div_le_div_left hle' hpos)
  refine ⟨htarget, ?_⟩
  rw [shareTarget, shareTarget, difficultyToNbitsPdif, difficultyToNbitsPdif,
    value_nbitsToTargetLe_targetBeToNbits, value_nbitsToTargetLe_targetBeToNbits]
  exact nbitsFormat.round_mono htarget

/-- **Pool difficulty.** The target is the exact quotient and no higher difficulty gives an easier
one if and only if the remainders of the division fit. -/
theorem pdifTarget_exact_iff (hs : 1 ≤ s) :
    (DividesExactly s ∧ NeverEasier s) ↔ RemaindersFit s.toNat := by
  have hne : s ≠ 0 := by
    rintro rfl
    exact absurd hs (by decide)
  rw [← dividesExactly_iff hne]
  exact ⟨fun h => h.1, fun h => ⟨h, neverEasier_of_dividesExactly hne h⟩⟩

/-- Difficulty one. -/
theorem pdifTarget_exact_one :
    (DividesExactly 1000000 ∧ NeverEasier 1000000) ∧ difficultyToNbitsPdif 1000000 = 0x1D00FFFF :=
  ⟨(pdifTarget_exact_iff (by decide)).mpr (remaindersFit_of_le (by decide) (by decide)),
    by decide +kernel⟩

/-- The quotient by `2 ^ 57` loses remainders, and so it is smaller than that by `17 * 2 ^ 53`,
although that is the higher difficulty. -/
theorem pdifTarget_exact_fails :
    ¬ DividesExactly 0x200000000000000 ∧
      difficultyToNbitsPdif 0x200000000000000 = 0x18072118 ∧
        difficultyToNbitsPdif 0x220000000000000 = 0x18072E35 ∧
          shareTarget 0x200000000000000 < shareTarget 0x220000000000000 := by
  unfold DividesExactly
  decide +kernel

end PropMiner.Share
