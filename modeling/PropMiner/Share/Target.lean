import PropMiner.Semantics.LittleEndian
import PropMiner.Semantics.Words
import PropMiner.Stratum.Hex

/-!
# Share targets

`pow_target_utils`: a compact target is expanded to 32 little-endian bytes, multiplied by
the difficulty adjustment factor, and compared with a claimed hash. The product that does
not fit is the largest target.

## Main definitions

* `nbitsToTargetLe`, `adjustedPowTargetLe`, `targetLeToPowU32`
* `claimedHashClearsTarget`, `checkPowTarget`, `tighterTargetNbits`
* `compactTarget` — the number that a compact target stands for

## Main results

* `value_adjustedPowTargetLe` — the adjusted target is the product, cut off at the top
* `claimedHashClearsTarget_iff` — the comparison of bytes is that of numbers
* `tighterTargetNbits_of_ne_zero` — the tighter target is not the larger one
* `tighterTargetNbits_acceptance` — a hash clears the tighter of two targets if and only if it
  clears both, and the order in which targets are folded does not matter
* `claimedHashClearsTarget_iff_compactTarget` — the whole comparison in terms of numbers, by
  bytes on the host and by words on the device
-/

set_option autoImplicit false

namespace PropMiner.Share

open PropMiner.Semantics

/-- `std::array<uint8_t, 32>` -/
structure Bytes32 where
  bytes : List UInt8
  length_eq : bytes.length = 32
  deriving DecidableEq

namespace Bytes32

/-- The number, least significant byte first. -/
def value (x : Bytes32) : ℕ := LittleEndian.value x.bytes

/-- All bytes the same. -/
def fill (b : UInt8) : Bytes32 := ⟨List.replicate 32 b, List.length_replicate⟩

/-- `t[i] = b`; an index outside is skipped, as the loops of the source do. -/
def set (x : Bytes32) (i : ℕ) (b : UInt8) : Bytes32 :=
  ⟨x.bytes.set i b, by rw [List.length_set, x.length_eq]⟩

theorem value_lt (x : Bytes32) : x.value < 2 ^ 256 := by
  have h := LittleEndian.value_lt x.bytes
  rw [x.length_eq] at h
  exact h

end Bytes32

/-- `nbits_to_target_le`. With an exponent of at most 3 the mantissa is shifted down and
copied as eight bytes; else its three bytes are put in place, as far as there is room. -/
def nbitsToTargetLe (nbits : UInt32) : Bytes32 :=
  let exp := (nbits >>> 24).toNat
  let mant := nbits &&& 0xFFFFFF
  if exp ≤ 3 then
    let v := (mant >>> UInt32.ofNat (8 * (3 - exp))).toUInt64
    (List.range 8).foldl (fun t i => t.set i (v >>> UInt64.ofNat (8 * i)).toUInt8) (.fill 0)
  else
    (List.range 3).foldl
      (fun t i => t.set (exp - 3 + i) ((mant >>> UInt32.ofNat (8 * i)) &&& 0xFF).toUInt8) (.fill 0)

/-- `multiply_target_le_by_u64`. The 128-bit carry of the source is wide enough for every
factor, so it is a number here. -/
def multiplyTargetLeByU64 (targetLe : Bytes32) (factor : UInt64) : Bytes32 :=
  if factor ≤ 1 then targetLe
  else
    let r := LittleEndian.mulCarry factor.toNat targetLe.bytes 0
    if r.2 ≠ 0 then .fill 0xFF
    else ⟨r.1, by rw [LittleEndian.length_mulCarry, targetLe.length_eq]⟩

/-- `adjusted_pow_target_le` -/
def adjustedPowTargetLe (nbits : UInt32) (daf : UInt64) : Bytes32 :=
  multiplyTargetLeByU64 (nbitsToTargetLe nbits) daf

/-- `target_le_to_pow_u32` -/
def targetLeToPowU32 (targetLe : Bytes32) : List UInt32 :=
  (List.range 8).map fun i =>
    UInt32.ofNat (LittleEndian.value ((targetLe.bytes.drop (4 * i)).take 4))

/-- `hash_le_below_target` -/
def hashLeBelowTarget (claimedHash targetLe : Bytes32) : Bool :=
  LittleEndian.leRev claimedHash.bytes.reverse targetLe.bytes.reverse

/-- `claimed_hash_clears_target` -/
def claimedHashClearsTarget (claimedHash : Bytes32) (nbits : UInt32) (daf : UInt64) : Bool :=
  hashLeBelowTarget claimedHash (adjustedPowTargetLe nbits daf)

/-- Compare words from the most significant one down. -/
def wordsLeRev : List UInt32 → List UInt32 → Bool
  | h :: hs, t :: ts => if t < h then false else if h < t then true else wordsLeRev hs ts
  | _, _ => true

/-- The loop of `check_pow_target` on the eight words of a hash. -/
def checkPowTarget (chaining powTarget : List UInt32) : Bool :=
  wordsLeRev chaining.reverse powTarget.reverse

/-- `tighter_target_nbits`: zero means unset. -/
def tighterTargetNbits (a b : UInt32) : UInt32 :=
  if a = 0 then b
  else if b = 0 then a
  -- equal targets give `a`; else the first byte from the top that differs decides
  else if LittleEndian.leRev (nbitsToTargetLe a).bytes.reverse (nbitsToTargetLe b).bytes.reverse
    then a else b

/-- `target_be_to_nbits`: the bytes from the first one that is not zero on give the exponent and
the mantissa, whose top bit must stay clear. -/
def targetBeToNbits (targetBytes : Bytes32) : UInt32 :=
  let significant := targetBytes.bytes.dropWhile (· = 0)
  if significant = [] then 0
  else
    let byte := fun i => (significant.getD i 0).toUInt32
    let mantissa := (byte 0 <<< 16) ||| (byte 1 <<< 8) ||| byte 2
    let len := UInt32.ofNat significant.length
    if mantissa &&& 0x00800000 ≠ 0 then ((len + 1) <<< 24) ||| ((mantissa >>> 8) &&& 0xFFFFFF)
    else (len <<< 24) ||| (mantissa &&& 0xFFFFFF)

/-- `hex_target_to_nbits`: of a longer text the first 32 bytes count. -/
def hexTargetToNbits (targetHex : List UInt8) : UInt32 :=
  let marked := Stratum.bytes "0x" <+: targetHex ∨ Stratum.bytes "0X" <+: targetHex
  let raw :=
    (Stratum.hexPairs (Stratum.padHex (if marked then targetHex.drop 2 else targetHex))).take 32
  targetBeToNbits ⟨List.replicate (32 - raw.length) 0 ++ raw, by
    rw [List.length_append, List.length_replicate]
    exact Nat.sub_add_cancel (List.length_take_le _ _)⟩

/-- The largest 256-bit number. -/
def maxTarget : ℕ := 2 ^ 256 - 1

/-- The product with the factor, as the source takes it: a factor of zero counts as one,
and what does not fit is the largest target. -/
theorem value_multiplyTargetLeByU64 (t : Bytes32) (factor : UInt64) :
    (multiplyTargetLeByU64 t factor).value = min (t.value * max 1 factor.toNat) maxTarget := by
  have hmax : t.value ≤ maxTarget := Nat.le_pred_of_lt t.value_lt
  unfold multiplyTargetLeByU64
  dsimp only
  split_ifs with hone hcarry
  · have hfactor : factor.toNat ≤ 1 := UInt64.le_iff_toNat_le.mp hone
    rw [Nat.max_eq_left hfactor, Nat.mul_one, Nat.min_eq_left hmax]
  all_goals
    have hfactor : 1 < factor.toNat := by
      rw [UInt64.not_le] at hone
      exact UInt64.lt_iff_toNat_lt.mp hone
    have hexact := LittleEndian.value_mulCarry factor.toNat t.bytes 0
    rw [t.length_eq, Nat.add_zero] at hexact
    rw [Nat.max_eq_right hfactor.le]
    change _ = min (LittleEndian.value t.bytes * factor.toNat) maxTarget
    rw [← hexact]
  · -- a carry is left: the product is at least `256 ^ 32`
    have hpos : 1 ≤ (LittleEndian.mulCarry factor.toNat t.bytes 0).2 :=
      Nat.one_le_iff_ne_zero.mpr hcarry
    have hbig := Nat.mul_le_mul_left (256 ^ 32) hpos
    have hfill : (Bytes32.fill 0xFF).value = maxTarget := LittleEndian.value_replicate_max 32
    rw [hfill, Nat.min_eq_right]
    unfold maxTarget
    omega
  · have hzero : (LittleEndian.mulCarry factor.toNat t.bytes 0).2 = 0 := not_not.mp hcarry
    have hlt := LittleEndian.value_lt (LittleEndian.mulCarry factor.toNat t.bytes 0).1
    rw [LittleEndian.length_mulCarry, t.length_eq] at hlt
    rw [hzero, Nat.mul_zero, Nat.add_zero, Nat.min_eq_left]
    · rfl
    · unfold maxTarget
      omega

theorem value_adjustedPowTargetLe (nbits : UInt32) (daf : UInt64) :
    (adjustedPowTargetLe nbits daf).value =
      min ((nbitsToTargetLe nbits).value * max 1 daf.toNat) maxTarget :=
  value_multiplyTargetLeByU64 ..

theorem hashLeBelowTarget_iff {claimedHash targetLe : Bytes32} :
    hashLeBelowTarget claimedHash targetLe = true ↔ claimedHash.value ≤ targetLe.value := by
  have hlength : claimedHash.bytes.length = targetLe.bytes.length := by
    rw [claimedHash.length_eq, targetLe.length_eq]
  rw [hashLeBelowTarget, LittleEndian.leRev_reverse hlength, decide_eq_true_iff]
  rfl

theorem claimedHashClearsTarget_iff {claimedHash : Bytes32} {nbits : UInt32} {daf : UInt64} :
    claimedHashClearsTarget claimedHash nbits daf = true ↔
      claimedHash.value ≤ (adjustedPowTargetLe nbits daf).value :=
  hashLeBelowTarget_iff

/-- A larger target stays the larger one when both are adjusted. -/
theorem adjustedPowTargetLe_mono {a b : UInt32} (daf : UInt64)
    (hle : (nbitsToTargetLe a).value ≤ (nbitsToTargetLe b).value) :
    (adjustedPowTargetLe a daf).value ≤ (adjustedPowTargetLe b daf).value := by
  rw [value_adjustedPowTargetLe, value_adjustedPowTargetLe]
  exact min_le_min_right _ (Nat.mul_le_mul_right _ hle)

/-- The adjusted target is at most the product. -/
theorem value_adjustedPowTargetLe_le (nbits : UInt32) (daf : UInt64) :
    (adjustedPowTargetLe nbits daf).value ≤ max 1 daf.toNat * (nbitsToTargetLe nbits).value := by
  rw [value_adjustedPowTargetLe, Nat.mul_comm]
  exact min_le_left _ _

/-- Of two targets that are set, `tighter_target_nbits` gives the smaller one. -/
theorem tighterTargetNbits_eq {a b : UInt32} (ha : a ≠ 0) (hb : b ≠ 0) :
    tighterTargetNbits a b =
      if (nbitsToTargetLe a).value ≤ (nbitsToTargetLe b).value then a else b := by
  have hlength : (nbitsToTargetLe a).bytes.length = (nbitsToTargetLe b).bytes.length := by
    rw [(nbitsToTargetLe a).length_eq, (nbitsToTargetLe b).length_eq]
  unfold tighterTargetNbits
  rw [if_neg ha, if_neg hb, LittleEndian.leRev_reverse hlength]
  simp only [decide_eq_true_eq]
  rfl

theorem tighterTargetNbits_of_ne_zero {a b : UInt32} (ha : a ≠ 0) (hb : b ≠ 0) :
    tighterTargetNbits a b = a ∨
      tighterTargetNbits a b = b ∧ (nbitsToTargetLe b).value ≤ (nbitsToTargetLe a).value := by
  rw [tighterTargetNbits_eq ha hb]
  split_ifs with hle
  · exact .inl rfl
  · exact .inr ⟨rfl, Nat.le_of_not_le hle⟩

/-! ### The tighter target -/

section Tighter

variable {a b : UInt32} {h : Bytes32} {daf : UInt64}

theorem tighterTargetNbits_zero_left (b : UInt32) : tighterTargetNbits 0 b = b := if_pos rfl

theorem tighterTargetNbits_zero_right (a : UInt32) : tighterTargetNbits a 0 = a := by
  unfold tighterTargetNbits
  by_cases ha : a = 0
  · rw [if_pos ha, ha]
  · rw [if_neg ha, if_pos rfl]

theorem tighterTargetNbits_eq_zero_iff : tighterTargetNbits a b = 0 ↔ a = 0 ∧ b = 0 := by
  unfold tighterTargetNbits
  split_ifs with ha hb
  · simp [ha]
  · simp [hb]
  · simp [ha]
  · simp [hb]

theorem value_tighterTargetNbits (ha : a ≠ 0) (hb : b ≠ 0) :
    (nbitsToTargetLe (tighterTargetNbits a b)).value =
      min (nbitsToTargetLe a).value (nbitsToTargetLe b).value := by
  rw [tighterTargetNbits_eq ha hb]
  split_ifs with hle
  · exact (min_eq_left hle).symm
  · exact (min_eq_right (Nat.le_of_not_le hle)).symm

/-- The choice is made on the targets as they are decoded; scaling and cutting off keep the
order, so it is right for the adjusted ones too. -/
theorem clears_tighterTargetNbits (ha : a ≠ 0) (hb : b ≠ 0) :
    claimedHashClearsTarget h (tighterTargetNbits a b) daf = true ↔
      claimedHashClearsTarget h a daf = true ∧ claimedHashClearsTarget h b daf = true := by
  have hmono : Monotone fun v => min (v * max 1 daf.toNat) maxTarget :=
    fun v w hle => min_le_min_right _ (Nat.mul_le_mul_right _ hle)
  simp only [claimedHashClearsTarget_iff, value_adjustedPowTargetLe, value_tighterTargetNbits ha hb]
  rw [hmono.map_min, le_min_iff]

/-- Targets that are not set do not count. -/
theorem clears_tighterTargetNbits_of_set :
    (tighterTargetNbits a b ≠ 0 → claimedHashClearsTarget h (tighterTargetNbits a b) daf = true) ↔
      (a ≠ 0 → claimedHashClearsTarget h a daf = true) ∧
        (b ≠ 0 → claimedHashClearsTarget h b daf = true) := by
  by_cases ha : a = 0
  · rw [ha, tighterTargetNbits_zero_left]
    simp
  by_cases hb : b = 0
  · rw [hb, tighterTargetNbits_zero_right]
    simp
  have hset : tighterTargetNbits a b ≠ 0 := fun hzero =>
    ha (tighterTargetNbits_eq_zero_iff.mp hzero).1
  simp only [ne_eq, ha, hb, hset, not_false_iff, forall_const, clears_tighterTargetNbits ha hb]

/-- What a fold accepts: all targets that are set have to be cleared. -/
theorem clears_foldl_tighterTargetNbits (l : List UInt32) (a : UInt32) :
    claimedHashClearsTarget h (l.foldl tighterTargetNbits a) daf = true ↔
      (∀ t ∈ a :: l, t ≠ 0 → claimedHashClearsTarget h t daf = true) ∧
        ((∀ t ∈ a :: l, t = 0) → claimedHashClearsTarget h 0 daf = true) := by
  induction l generalizing a with
  | nil =>
    rw [List.foldl_nil, List.forall_mem_singleton, List.forall_mem_singleton]
    by_cases ha : a = 0
    · simp [ha]
    · simp [ha]
  | cons b l ih =>
    rw [List.foldl_cons, ih]
    simp only [List.forall_mem_cons, tighterTargetNbits_eq_zero_iff,
      clears_tighterTargetNbits_of_set, and_assoc]

/-- **The tighter target.** A hash clears the tighter of two targets that are set, with any
factor, if and only if it clears both; a target that is not set gives way to the other. So a list
of targets accepts the same hashes in whatever order it is folded. -/
theorem tighterTargetNbits_acceptance :
    (∀ (a b : UInt32) (h : Bytes32) (daf : UInt64), a ≠ 0 → b ≠ 0 →
      (claimedHashClearsTarget h (tighterTargetNbits a b) daf = true ↔
        claimedHashClearsTarget h a daf = true ∧ claimedHashClearsTarget h b daf = true)) ∧
    (∀ a, tighterTargetNbits 0 a = a ∧ tighterTargetNbits a 0 = a) ∧
    ∀ (l l' : List UInt32), l.Perm l' → ∀ (a : UInt32) (h : Bytes32) (daf : UInt64),
      claimedHashClearsTarget h (l.foldl tighterTargetNbits a) daf =
        claimedHashClearsTarget h (l'.foldl tighterTargetNbits a) daf := by
  refine ⟨fun a b h daf ha hb => clears_tighterTargetNbits ha hb,
    fun a => ⟨tighterTargetNbits_zero_left a, tighterTargetNbits_zero_right a⟩, ?_⟩
  intro l l' hperm a h daf
  -- What is accepted depends only on which targets are in the list.
  have hmem : ∀ t, t ∈ a :: l ↔ t ∈ a :: l' := fun t => (hperm.cons a).mem_iff
  rw [Bool.eq_iff_iff, clears_foldl_tighterTargetNbits, clears_foldl_tighterTargetNbits]
  simp only [hmem]

/-- Two encodings of the number one, and a target that is not set, in two orders. -/
theorem tighterTargetNbits_acceptance_sample :
    (claimedHashClearsTarget (.fill 0) (tighterTargetNbits 0x01010000 0x03000001) 7 = true ↔
      claimedHashClearsTarget (.fill 0) 0x01010000 7 = true ∧
        claimedHashClearsTarget (.fill 0) 0x03000001 7 = true) ∧
    claimedHashClearsTarget (.fill 0) ([0x01010000, 0, 0x03000001].foldl tighterTargetNbits 0) 7 =
      claimedHashClearsTarget (.fill 0)
        ([0, 0x01010000, 0x03000001].foldl tighterTargetNbits 0) 7 := by
  obtain ⟨hboth, -, hperm⟩ := tighterTargetNbits_acceptance
  exact ⟨hboth _ _ _ _ (by decide) (by decide), hperm _ _ (.swap _ _ _) _ _ _⟩

end Tighter

/-! ### Compact targets -/

/-- The number that a compact target stands for: the low 24 bits, shifted by bytes as the top
byte says. -/
def compactTarget (nbits : UInt32) : ℕ :=
  let e := nbits.toNat / 2 ^ 24
  let m := nbits.toNat % 2 ^ 24
  if e ≤ 3 then m / 256 ^ (3 - e) else m * 256 ^ (e - 3) % 2 ^ 256

/-- Bytes written one after the other from a place on. -/
def writeBytes (k : ℕ) (f : ℕ → UInt8) (n : ℕ) : Bytes32 :=
  (List.range n).foldl (fun t i => t.set (k + i) (f i)) (.fill 0)

theorem writeBytes_succ (k : ℕ) (f : ℕ → UInt8) (n : ℕ) :
    writeBytes k f (n + 1) = (writeBytes k f n).set (k + n) (f n) := by
  rw [writeBytes, List.range_succ, List.foldl_append]
  rfl

theorem getD_writeBytes {k : ℕ} {f : ℕ → UInt8} {n j : ℕ} (h : k + n ≤ j) :
    (writeBytes k f n).bytes.getD j 0 = 0 := by
  induction n with
  | zero =>
    change (List.replicate 32 (0 : UInt8)).getD j 0 = 0
    rw [List.getD_eq_getElem?_getD, List.getElem?_replicate]
    split_ifs <;> rfl
  | succ n ih =>
    rw [writeBytes_succ]
    change ((writeBytes k f n).bytes.set (k + n) (f n)).getD j 0 = 0
    rw [List.getD_eq_getElem?_getD, List.getElem?_set_ne (by omega), ← List.getD_eq_getElem?_getD]
    exact ih (by omega)

/-- Writing the bytes of a number gives the number at its place; what has no room is lost. -/
theorem value_writeBytes (k : ℕ) {f : ℕ → UInt8} {m n : ℕ}
    (hf : ∀ i < n, (f i).toNat = m / 256 ^ i % 256) :
    (writeBytes k f n).value = 256 ^ k * (m % 256 ^ min n (32 - k)) := by
  induction n with
  | zero =>
    have hfill : (Bytes32.fill 0).value = 0 := by decide +kernel
    rw [Nat.zero_min, pow_zero, Nat.mod_one, Nat.mul_zero]
    exact hfill
  | succ n ih =>
    have hset := LittleEndian.value_set_of_zero (getD_writeBytes (f := f) (le_refl (k + n))) (f n)
    rw [(writeBytes k f n).length_eq, hf n n.lt_succ_self] at hset
    rw [writeBytes_succ]
    change LittleEndian.value ((writeBytes k f n).bytes.set (k + n) (f n)) = _
    rw [hset]
    change (writeBytes k f n).value + _ = _
    rw [ih fun i hi => hf i (hi.trans n.lt_succ_self)]
    split_ifs with hroom
    · rw [Nat.min_eq_left (by omega), Nat.min_eq_left (by omega), Nat.mod_pow_succ, pow_add]
      ring
    · rw [Nat.min_eq_right (by omega), Nat.min_eq_right (by omega), Nat.add_zero]

theorem toNat_mant (nbits : UInt32) : (nbits &&& 0xFFFFFF).toNat = nbits.toNat % 2 ^ 24 := by
  rw [UInt32.toNat_and]
  exact Nat.and_two_pow_sub_one_eq_mod nbits.toNat 24

theorem toNat_exp (nbits : UInt32) : (nbits >>> 24).toNat = nbits.toNat / 2 ^ 24 :=
  Words.toNat_shiftRight nbits (show 24 < 32 by norm_num)

/-- A shift by whole bytes. -/
theorem toNat_shiftBytes32 (x : UInt32) {i : ℕ} (h : i < 4) :
    (x >>> UInt32.ofNat (8 * i)).toNat = x.toNat / 256 ^ i := by
  rw [Words.toNat_shiftRight x (by omega), pow_mul]
  rfl

theorem toNat_shiftBytes64 (x : UInt64) {i : ℕ} (h : i < 8) :
    (x >>> UInt64.ofNat (8 * i)).toNat = x.toNat / 256 ^ i := by
  have hshift : (UInt64.ofNat (8 * i)).toNat % 64 = 8 * i := by
    rw [UInt64.toNat_ofNat']
    omega
  rw [UInt64.toNat_shiftRight, hshift, Nat.shiftRight_eq_div_pow, pow_mul]
  rfl

theorem toNat_lowByte (x : UInt32) : (x &&& 0xFF).toUInt8.toNat = x.toNat % 256 := by
  rw [UInt32.toNat_toUInt8, UInt32.toNat_and]
  change (x.toNat &&& (2 ^ 8 - 1)) % 2 ^ 8 = _
  rw [Nat.and_two_pow_sub_one_eq_mod, Nat.mod_mod]

/-- Three bytes at a place, cut off at 32 bytes. -/
theorem pow_mul_mod_min {m : ℕ} (hm : m < 256 ^ 3) (k : ℕ) :
    256 ^ k * (m % 256 ^ min 3 (32 - k)) = m * 256 ^ k % 2 ^ 256 := by
  rcases Nat.lt_or_ge 32 k with hout | hin
  · have hdvd : 2 ^ 256 ∣ m * 256 ^ k := by
      refine Dvd.dvd.mul_left ?_ _
      rw [show 2 ^ 256 = 256 ^ 32 by norm_num]
      exact pow_dvd_pow 256 hout.le
    rw [Nat.mod_eq_zero_of_dvd hdvd, Nat.sub_eq_zero_of_le hout.le, Nat.min_zero, pow_zero,
      Nat.mod_one, Nat.mul_zero]
  · have hsplit : 2 ^ 256 = 256 ^ k * 256 ^ (32 - k) := by
      rw [← pow_add, Nat.add_sub_cancel' hin]
      norm_num
    rw [hsplit, Nat.mul_comm m, Nat.mul_mod_mul_left]
    refine congrArg (256 ^ k * ·) ?_
    rcases Nat.le_total 3 (32 - k) with hthree | hthree
    · rw [Nat.min_eq_left hthree, Nat.mod_eq_of_lt hm,
        Nat.mod_eq_of_lt (hm.trans_le (Nat.pow_le_pow_right (by norm_num) hthree))]
    · rw [Nat.min_eq_right hthree]

/-- `nbits_to_target_le` gives that number. -/
theorem value_nbitsToTargetLe (nbits : UInt32) :
    (nbitsToTargetLe nbits).value = compactTarget nbits := by
  have hmant : (nbits &&& 0xFFFFFF).toNat < 256 ^ 3 := by
    rw [toNat_mant]
    exact Nat.mod_lt _ (by norm_num)
  unfold nbitsToTargetLe compactTarget
  rw [← toNat_exp, ← toNat_mant]
  dsimp only
  generalize (nbits >>> 24).toNat = e, nbits &&& 0xFFFFFF = mant at *
  split_ifs with he
  · -- eight bytes of the shifted mantissa, from the first place on
    have hv := toNat_shiftBytes32 mant (show 3 - e < 4 by omega)
    have hbytes : ∀ i < 8, ((mant >>> UInt32.ofNat (8 * (3 - e))).toUInt64 >>>
        UInt64.ofNat (8 * i)).toUInt8.toNat = mant.toNat / 256 ^ (3 - e) / 256 ^ i % 256 := by
      intro i hi
      rw [UInt64.toNat_toUInt8, toNat_shiftBytes64 _ hi, UInt32.toNat_toUInt64, hv]
    have hvalue := value_writeBytes 0 hbytes
    have hsmall : mant.toNat / 256 ^ (3 - e) < 256 ^ 8 :=
      (Nat.div_le_self _ _).trans_lt (hmant.trans (by norm_num))
    rw [pow_zero, Nat.one_mul, Nat.min_eq_left (by norm_num), Nat.mod_eq_of_lt hsmall] at hvalue
    simp only [writeBytes, Nat.zero_add] at hvalue
    exact hvalue
  · -- three bytes from place `e - 3` on
    have hbytes : ∀ i < 3, ((mant >>> UInt32.ofNat (8 * i)) &&& 0xFF).toUInt8.toNat =
        mant.toNat / 256 ^ i % 256 := by
      intro i hi
      rw [toNat_lowByte, toNat_shiftBytes32 _ (by omega)]
    exact (value_writeBytes (e - 3) hbytes).trans (pow_mul_mod_min hmant _)

/-! ### Comparison of words -/

theorem wordsLeRev_eq_leTop (hs ts : List UInt32) :
    wordsLeRev hs ts = LittleEndian.leTop (hs.map UInt32.toNat) (ts.map UInt32.toNat) := by
  induction hs generalizing ts with
  | nil => rfl
  | cons h hs ih =>
    cases ts with
    | nil => rfl
    | cons t ts =>
      simp only [wordsLeRev, LittleEndian.leTop, List.map_cons, UInt32.lt_iff_toNat_lt, ih]
      -- the source looks for a larger word first, the comparison for a smaller one
      split_ifs <;> first | rfl | omega

/-- The eight words are the digits of the number to the base `2 ^ 32`. -/
theorem ofDigits_targetLeToPowU32 (x : Bytes32) :
    Nat.ofDigits (2 ^ 32) ((targetLeToPowU32 x).map UInt32.toNat) = x.value := by
  have hwords := LittleEndian.ofDigits_words x.bytes (show 4 * 8 ≤ x.bytes.length by
    rw [x.length_eq])
  have hwhole : x.bytes.take (4 * 8) = x.bytes := List.take_of_length_le (by rw [x.length_eq])
  rw [hwhole] at hwords
  rw [Bytes32.value, ← hwords, targetLeToPowU32, List.map_map]
  refine congrArg _ (List.map_congr_left fun i _ => ?_)
  have hlt := LittleEndian.value_lt ((x.bytes.drop (4 * i)).take 4)
  have hpow := Nat.pow_le_pow_right (show 0 < 256 by norm_num)
    (List.length_take_le 4 (x.bytes.drop (4 * i)))
  rw [Function.comp_apply, UInt32.toNat_ofNat_of_lt' (hlt.trans_le hpow)]

theorem checkPowTarget_eq (h t : Bytes32) :
    checkPowTarget (targetLeToPowU32 h) (targetLeToPowU32 t) = hashLeBelowTarget h t := by
  have hdigits : ∀ x : Bytes32, ∀ d ∈ (targetLeToPowU32 x).map UInt32.toNat, d < 2 ^ 32 := by
    intro x d hd
    obtain ⟨w, -, rfl⟩ := List.mem_map.mp hd
    exact w.toNat_lt
  rw [Bool.eq_iff_iff, hashLeBelowTarget_iff, checkPowTarget, wordsLeRev_eq_leTop,
    List.map_reverse, List.map_reverse,
    LittleEndian.leTop_reverse (by norm_num) (hdigits h) (hdigits t) (by simp [targetLeToPowU32]),
    ofDigits_targetLeToPowU32, ofDigits_targetLeToPowU32, decide_eq_true_iff]

/-- **Claimed hashes.** The comparison with the adjusted target is that with the compact target
times the factor, a factor of zero counting as one and the product cut off at the largest
number; and the words compared on the device give the same answer. -/
theorem claimedHashClearsTarget_iff_compactTarget (h : Bytes32) (nbits : UInt32) (daf : UInt64) :
    (claimedHashClearsTarget h nbits daf = true ↔
      h.value ≤ min (2 ^ 256 - 1) (compactTarget nbits * max daf.toNat 1)) ∧
    checkPowTarget (targetLeToPowU32 h) (targetLeToPowU32 (adjustedPowTargetLe nbits daf)) =
      claimedHashClearsTarget h nbits daf := by
  refine ⟨?_, checkPowTarget_eq h _⟩
  rw [claimedHashClearsTarget_iff, value_adjustedPowTargetLe, value_nbitsToTargetLe, min_comm,
    max_comm]
  rfl

end PropMiner.Share
