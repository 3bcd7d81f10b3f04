import PropMiner.Semantics.BigEndian
import PropMiner.Semantics.Compact
import PropMiner.Semantics.Words
import PropMiner.Share.Target

/-!
# Targets written compactly

`target_be_to_nbits` writes a target of 32 bytes as a compact number: three leading bytes, of
which the top bit stays clear, and the number of bytes. The source takes targets of one, two and
more bytes apart and makes room for the top bit afterwards; in numbers this is one rule, that of
`Compact.Format`, and so what is read again is the target rounded down.

## Main definitions

* `nbitsFormat` — base 256, three digits, one bit of headroom
* `nbitsToTargetHexBe` — `nbits_to_target_hex_be`
* `Faithful` — what the encoding keeps of a target

## Main results

* `toNat_targetBeToNbits` — the encoding in numbers
* `faithful_and_monotone` — the target is rounded down by less than the last place, and neither
  the encoding nor what is read from it changes the order of targets
* `hexTargetToNbits_iff` — a hexadecimal target is read as its number unless it has more than 64
  digits
-/

set_option autoImplicit false

namespace PropMiner.Share

open PropMiner.Semantics

namespace Bytes32

/-- The number, most significant byte first. -/
def valueBe (x : Bytes32) : ℕ := BigEndian.value x.bytes

/-- The bytes in the other order. -/
def reverse (x : Bytes32) : Bytes32 := ⟨x.bytes.reverse, by rw [List.length_reverse, x.length_eq]⟩

/-- The bytes of a number, most significant first. -/
def ofNatBe (n : ℕ) : Bytes32 :=
  ⟨(LittleEndian.bytesOf 32 n).reverse, by rw [List.length_reverse, LittleEndian.length_bytesOf]⟩

theorem valueBe_lt (x : Bytes32) : x.valueBe < 2 ^ 256 := by
  have h := BigEndian.value_lt x.bytes
  rw [x.length_eq] at h
  exact h

theorem valueBe_reverse (x : Bytes32) : x.reverse.valueBe = x.value := by
  change LittleEndian.value x.bytes.reverse.reverse = _
  rw [List.reverse_reverse]
  rfl

theorem valueBe_ofNatBe {n : ℕ} (h : n < 2 ^ 256) : (ofNatBe n).valueBe = n := by
  change LittleEndian.value (LittleEndian.bytesOf 32 n).reverse.reverse = n
  rw [List.reverse_reverse, LittleEndian.value_bytesOf]
  exact Nat.mod_eq_of_lt h

end Bytes32

/-- Compact targets: three bytes of mantissa with the top bit clear. -/
def nbitsFormat : Compact.Format where
  base := 256
  digits := 3
  headroom := 2
  one_lt_base := by norm_num
  digits_pos := by norm_num
  headroom_pos := by norm_num
  headroom_dvd := by norm_num

/-! ### The encoding in numbers -/

section Encoding

/-- The bit that is kept clear. -/
theorem signBit_eq_zero_iff {m : UInt32} : m &&& 0x00800000 = 0 ↔ m.toNat / 2 ^ 23 % 2 = 0 := by
  have hand : (m &&& 0x00800000).toNat = (m.toNat.testBit 23).toNat * 2 ^ 23 := by
    rw [UInt32.toNat_and]
    exact Nat.and_two_pow m.toNat 23
  rw [← UInt32.toNat_inj, hand, Nat.testBit_eq_decide_div_mod_eq]
  change (decide (m.toNat / 2 ^ 23 % 2 = 1)).toNat * 2 ^ 23 = 0 ↔ _
  by_cases hbit : m.toNat / 2 ^ 23 % 2 = 1
  · rw [decide_eq_true hbit, hbit]
    decide
  · rw [decide_eq_false hbit]
    exact ⟨fun _ => by omega, fun _ => rfl⟩

/-- Exponent and mantissa in one word. -/
theorem toNat_join {e : ℕ} {m : UInt32} (he : e < 256) (hm : m.toNat < 2 ^ 24) :
    ((UInt32.ofNat e <<< 24) ||| (m &&& 0xFFFFFF)).toNat = e * 2 ^ 24 + m.toNat := by
  have hexp : (UInt32.ofNat e <<< 24).toNat = e * 2 ^ 24 := by
    refine (Words.toNat_shiftLeft (k := 24) _ (by norm_num)).trans ?_
    rw [UInt32.toNat_ofNat_of_lt' (he.trans (by decide))]
    exact Nat.mod_eq_of_lt (by omega)
  have hlow : (m &&& 0xFFFFFF).toNat = m.toNat := (toNat_mant m).trans (Nat.mod_eq_of_lt hm)
  rw [Words.toNat_or_of_lt 24 e hexp (hlow.trans_lt hm), hexp, hlow]

/-- The three leading bytes; a short number is filled up with zeros. -/
theorem leadingBytes_eq (bs : List UInt8) (hne : bs ≠ []) :
    (bs.getD 0 0).toNat * 2 ^ 16 + (bs.getD 1 0).toNat * 2 ^ 8 + (bs.getD 2 0).toNat =
      BigEndian.value bs * 256 ^ 3 / 256 ^ bs.length := by
  match bs with
  | [] => exact absurd rfl hne
  | [a] =>
    change a.toNat * 2 ^ 16 + 0 * 2 ^ 8 + 0 = BigEndian.value [a] * 256 ^ 3 / 256 ^ 1
    rw [BigEndian.value_cons, BigEndian.value_nil, List.length_nil]
    omega
  | [a, b] =>
    change a.toNat * 2 ^ 16 + b.toNat * 2 ^ 8 + 0 = BigEndian.value [a, b] * 256 ^ 3 / 256 ^ 2
    rw [BigEndian.value_cons, BigEndian.value_cons, BigEndian.value_nil, List.length_singleton,
      List.length_nil]
    omega
  | a :: b :: c :: rest =>
    have hvalue : BigEndian.value (a :: b :: c :: rest) =
        256 ^ rest.length * (a.toNat * 2 ^ 16 + b.toNat * 2 ^ 8 + c.toNat) +
          BigEndian.value rest := by
      rw [BigEndian.value_cons, BigEndian.value_cons, BigEndian.value_cons]
      simp only [List.length_cons, pow_succ]
      ring
    have hlength : 256 ^ (a :: b :: c :: rest).length = 256 ^ rest.length * 256 ^ 3 := by
      rw [← pow_add]
      rfl
    rw [hlength, Nat.mul_div_mul_right _ _ (by norm_num), hvalue, Nat.mul_add_div (by positivity),
      Nat.div_eq_of_lt (BigEndian.value_lt rest), Nat.add_zero]
    rfl

/-- The top byte of a number without leading zeros. -/
theorem pow_le_value {b : UInt8} (bs : List UInt8) (hb : b ≠ 0) :
    256 ^ bs.length ≤ BigEndian.value (b :: bs) := by
  have hpos : 0 < b.toNat := Nat.pos_of_ne_zero fun h => hb (UInt8.toNat_inj.mp h)
  rw [BigEndian.value_cons]
  exact (Nat.le_mul_of_pos_left _ hpos).trans (Nat.le_add_right _ _)

/-- The number of bytes, with one more if the top bit is set, is the exponent. -/
theorem exponent_of_bounds {t len : ℕ} (hlow : 256 ^ len ≤ t) (hhigh : t < 256 ^ (len + 1)) :
    nbitsFormat.exponent t = if 256 ^ (len + 1) ≤ 2 * t then len + 2 else len + 1 := by
  have hpow : 256 ^ (len + 2) = 256 * 256 ^ (len + 1) := pow_succ' 256 (len + 1)
  split_ifs with htop
  · refine Nat.le_antisymm (nbitsFormat.exponent_le_iff.mpr ?_) (Nat.lt_of_not_le fun hle => ?_)
    · change 2 * t < 256 ^ (len + 2)
      omega
    · exact Nat.not_lt_of_le htop (nbitsFormat.exponent_le_iff.mp hle)
  · refine Nat.le_antisymm (nbitsFormat.exponent_le_iff.mpr (Nat.lt_of_not_le htop))
      (Nat.lt_of_not_le fun hle => ?_)
    have hlt : 2 * t < 256 ^ len := nbitsFormat.exponent_le_iff.mp hle
    omega

/-- The word of the leading bytes of a number `v` of `len` bytes: its sign bit is the top bit of
the number. -/
theorem leadingWord_bounds {m : UInt32} {v len : ℕ} (hword : m.toNat = v * 256 ^ 3 / 256 ^ len)
    (hhigh : v < 256 ^ len) :
    m.toNat < 2 ^ 24 ∧ (m &&& 0x00800000 = 0 ↔ ¬ 256 ^ len ≤ 2 * v) := by
  have hm : m.toNat < 2 ^ 24 := by
    rw [hword, Nat.div_lt_iff_lt_mul (by positivity), Nat.mul_comm]
    exact Nat.mul_lt_mul_of_pos_left hhigh (by norm_num)
  have hhalf : 2 ^ 23 ≤ m.toNat ↔ 256 ^ len ≤ 2 * v := by
    rw [hword, Nat.le_div_iff_mul_le (by positivity)]
    constructor <;> intro h <;> omega
  refine ⟨hm, ?_⟩
  rw [signBit_eq_zero_iff, ← hhalf]
  constructor <;> intro h <;> omega

/-- `target_be_to_nbits` in numbers. -/
theorem toNat_targetBeToNbits (t : Bytes32) :
    (targetBeToNbits t).toNat = nbitsFormat.code t.valueBe := by
  have hvalue := BigEndian.value_dropWhile_zero t.bytes
  have hhead := List.head?_dropWhile_not (fun b : UInt8 => decide (b = 0)) t.bytes
  have hlength : (t.bytes.dropWhile (· = 0)).length ≤ 32 :=
    (List.dropWhile_sublist _).length_le.trans t.length_eq.le
  unfold targetBeToNbits
  rw [Bytes32.valueBe, ← hvalue]
  generalize t.bytes.dropWhile (· = 0) = significant at hhead hlength ⊢
  cases significant with
  | nil =>
    rw [if_pos rfl]
    decide +kernel
  | cons b bs =>
    -- The first byte that is not zero decides the exponent.
    have hb : b ≠ 0 := by simpa using hhead
    have hlow := pow_le_value bs hb
    have hhigh := BigEndian.value_lt (b :: bs)
    have hmantissa := leadingBytes_eq (b :: bs) (List.cons_ne_nil b bs)
    have hword := Words.toNat_threeBytes ((b :: bs).getD 0 0) ((b :: bs).getD 1 0)
      ((b :: bs).getD 2 0)
    rw [if_neg (List.cons_ne_nil b bs)]
    dsimp only
    generalize (((b :: bs).getD 0 0).toUInt32 <<< 16) ||| (((b :: bs).getD 1 0).toUInt32 <<< 8) |||
      ((b :: bs).getD 2 0).toUInt32 = m at hword ⊢
    rw [hmantissa] at hword
    generalize BigEndian.value (b :: bs) = v at hlow hhigh hword ⊢
    rw [List.length_cons] at hhigh hword hlength ⊢
    obtain ⟨hm, hsign⟩ := leadingWord_bounds hword hhigh
    rw [Compact.Format.code, Compact.Format.mantissa, exponent_of_bounds hlow hhigh]
    change _ = _ * 2 ^ 24 + v * 256 ^ 3 / 256 ^ _
    by_cases htop : 256 ^ (bs.length + 1) ≤ 2 * v
    · -- The mantissa gives up its last byte for the sign, and the exponent counts one more.
      have hlow' : (m >>> 8).toNat = m.toNat / 256 := by
        rw [UInt32.toNat_shiftRight]
        exact Nat.shiftRight_eq_div_pow m.toNat 8
      have hsum : UInt32.ofNat (bs.length + 1) + 1 = UInt32.ofNat (bs.length + 2) := by
        rw [← UInt32.ofNat_one, ← UInt32.ofNat_add]
      rw [if_pos fun h => hsign.mp h htop, if_pos htop, hsum,
        toNat_join (by omega) (by omega), hlow', hword, Nat.div_div_eq_div_mul, ← pow_succ]
    · rw [if_neg (not_not.mpr (hsign.mpr htop)), if_neg htop,
        toNat_join (by omega) hm, hword]

theorem targetBeToNbits_eq_iff {t u : Bytes32} :
    targetBeToNbits t = targetBeToNbits u ↔
      nbitsFormat.code t.valueBe = nbitsFormat.code u.valueBe := by
  rw [← UInt32.toNat_inj, toNat_targetBeToNbits, toNat_targetBeToNbits]

/-- What is read of a compact target is the target rounded down. -/
theorem value_nbitsToTargetLe_targetBeToNbits (t : Bytes32) :
    (nbitsToTargetLe (targetBeToNbits t)).value = nbitsFormat.round t.valueBe := by
  have hexp : nbitsFormat.code t.valueBe / 2 ^ 24 = nbitsFormat.exponent t.valueBe :=
    nbitsFormat.code_div _
  have hmant : nbitsFormat.code t.valueBe % 2 ^ 24 = nbitsFormat.mantissa t.valueBe :=
    nbitsFormat.code_mod _
  have hfits : nbitsFormat.round t.valueBe < 2 ^ 256 :=
    (nbitsFormat.round_le _).trans_lt t.valueBe_lt
  rw [value_nbitsToTargetLe, compactTarget, toNat_targetBeToNbits, hexp, hmant]
  rw [Compact.Format.round, Compact.Format.decode] at hfits ⊢
  change _ * 256 ^ _ / 256 ^ 3 < _ at hfits
  change _ = _ * 256 ^ _ / 256 ^ 3
  generalize nbitsFormat.exponent t.valueBe = e, nbitsFormat.mantissa t.valueBe = m at hfits ⊢
  split_ifs with he
  -- With an exponent of at most 3 bytes of the mantissa are cut off, else zeros are added.
  · obtain ⟨k, hk⟩ := Nat.exists_eq_add_of_le he
    have hpow : 256 ^ 3 = 256 ^ e * 256 ^ k := by rw [hk, pow_add]
    rw [hpow, Nat.mul_comm m, Nat.mul_div_mul_left _ _ (by positivity)]
    refine congrArg (m / 256 ^ ·) ?_
    omega
  · obtain ⟨k, hk⟩ := Nat.exists_eq_add_of_le (Nat.le_of_not_le he)
    rw [hk, pow_add, Nat.mul_left_comm, Nat.mul_div_cancel_left _ (by norm_num)] at hfits ⊢
    rw [Nat.add_sub_cancel_left, Nat.mod_eq_of_lt hfits]

end Encoding

/-! ### What is kept -/

/-- What the encoding keeps of a target: it is rounded down by less than the last place, the bit
for the sign stays clear, and what is read from the encoding is encoded as before. -/
structure Faithful (t : Bytes32) : Prop where
  le : (nbitsToTargetLe (targetBeToNbits t)).value ≤ t.valueBe
  lt : t.valueBe < (nbitsToTargetLe (targetBeToNbits t)).value +
    256 ^ ((targetBeToNbits t >>> 24).toNat - 3)
  sign : targetBeToNbits t &&& 0x00800000 = 0
  again : targetBeToNbits (nbitsToTargetLe (targetBeToNbits t)).reverse = targetBeToNbits t

theorem faithful (t : Bytes32) : Faithful t := by
  have hcode := toNat_targetBeToNbits t
  have hexp : nbitsFormat.code t.valueBe / 2 ^ 24 = nbitsFormat.exponent t.valueBe :=
    nbitsFormat.code_div _
  have hvalue := value_nbitsToTargetLe_targetBeToNbits t
  refine ⟨?_, ?_, ?_, ?_⟩
  · rw [hvalue]
    exact nbitsFormat.round_le _
  · rw [hvalue, toNat_exp, hcode, hexp]
    exact nbitsFormat.lt_round_add _
  · have hmant : 2 * nbitsFormat.mantissa t.valueBe < 2 ^ 24 :=
      nbitsFormat.headroom_mul_mantissa_lt _
    have hsplit : nbitsFormat.code t.valueBe =
        nbitsFormat.exponent t.valueBe * 2 ^ 24 + nbitsFormat.mantissa t.valueBe := rfl
    rw [signBit_eq_zero_iff, hcode, hsplit]
    omega
  · rw [targetBeToNbits_eq_iff, Bytes32.valueBe_reverse, hvalue, nbitsFormat.code_round]

/-- **Compact targets.** Every target is kept up to less than its last place, and of two targets
the smaller one stays the smaller, as it is read and as it is encoded. -/
theorem faithful_and_monotone :
    (∀ t : Bytes32, Faithful t) ∧
      ∀ t₁ t₂ : Bytes32, t₁.valueBe ≤ t₂.valueBe →
        (nbitsToTargetLe (targetBeToNbits t₁)).value ≤
            (nbitsToTargetLe (targetBeToNbits t₂)).value ∧
          (targetBeToNbits t₁).toNat ≤ (targetBeToNbits t₂).toNat := by
  refine ⟨faithful, fun t₁ t₂ hle => ⟨?_, ?_⟩⟩
  · rw [value_nbitsToTargetLe_targetBeToNbits, value_nbitsToTargetLe_targetBeToNbits]
    exact nbitsFormat.round_mono hle
  · rw [toNat_targetBeToNbits, toNat_targetBeToNbits]
    exact nbitsFormat.code_mono hle

/-- The smallest target with the top bit set, and the largest one, which has exponent 33. -/
theorem faithful_and_monotone_border :
    targetBeToNbits (.ofNatBe 0x80) = 0x02008000 ∧
      targetBeToNbits (.fill 0xFF) = 0x2100FFFF ∧
      Faithful (.ofNatBe 0x80) ∧
        (targetBeToNbits (.ofNatBe 0x80)).toNat ≤ (targetBeToNbits (.fill 0xFF)).toNat := by
  obtain ⟨hfaithful, hmonotone⟩ := faithful_and_monotone
  have hle : (Bytes32.ofNatBe 0x80).valueBe ≤ (Bytes32.fill 0xFF).valueBe := by decide +kernel
  exact ⟨by decide +kernel, by decide +kernel, hfaithful _, (hmonotone _ _ hle).2⟩

/-! ### Hexadecimal targets -/

section Hex

open PropMiner.Stratum (hexDigitValue leadingHex hexPairs padHex hexOf)

/-- `nbits_to_target_hex_be` -/
def nbitsToTargetHexBe (nbits : UInt32) : List UInt8 :=
  hexOf (nbitsToTargetLe nbits).bytes.reverse

/-- The number that hexadecimal digits stand for. -/
def hexNumber (digits : List UInt8) : ℕ := leadingHex 0 digits

/-- Only hexadecimal digits, in either case. -/
def IsHex (digits : List UInt8) : Prop := ∀ c ∈ digits, (hexDigitValue c).isSome = true

theorem IsHex.tail {c : UInt8} {digits : List UInt8} (h : IsHex (c :: digits)) : IsHex digits :=
  fun d hd => h d (List.mem_cons_of_mem c hd)

/-- Two digits make a byte. -/
theorem leadingHex_eq {digits : List UInt8} (h : IsHex digits) (heven : digits.length % 2 = 0)
    (n : ℕ) :
    leadingHex n digits =
        n * 256 ^ (hexPairs digits).length + BigEndian.value (hexPairs digits) ∧
      2 * (hexPairs digits).length = digits.length := by
  match digits with
  | [] => exact ⟨by simp [hexPairs, leadingHex], rfl⟩
  | [c] => exact absurd heven (by simp)
  | a :: b :: digits =>
    obtain ⟨x, hx⟩ := Option.isSome_iff_exists.mp (h a List.mem_cons_self)
    obtain ⟨y, hy⟩ := Option.isSome_iff_exists.mp (h.tail b List.mem_cons_self)
    rw [List.length_cons, List.length_cons] at heven
    obtain ⟨hvalue, hlength⟩ := leadingHex_eq h.tail.tail (by omega) (16 * (16 * n + x) + y)
    have hbyte : (UInt8.ofNat (16 * x + y)).toNat = 16 * x + y := by
      have hx' := Stratum.hexDigitValue_lt hx
      have hy' := Stratum.hexDigitValue_lt hy
      exact UInt8.toNat_ofNat_of_lt' (show 16 * x + y < 256 by omega)
    rw [Stratum.leadingHex_cons hx, Stratum.leadingHex_cons hy, hexPairs,
      Stratum.strtoul16_pair hx hy, BigEndian.value_cons, hbyte, List.length_cons,
      List.length_cons, List.length_cons]
    refine ⟨hvalue.trans ?_, by omega⟩
    rw [pow_succ]
    ring

theorem isHex_padHex {digits : List UInt8} (h : IsHex digits) : IsHex (padHex digits) := by
  unfold padHex
  split_ifs
  · intro c hc
    rcases List.mem_cons.mp hc with rfl | hc
    · rfl
    · exact h c hc
  · exact h

theorem hexNumber_padHex (digits : List UInt8) : hexNumber (padHex digits) = hexNumber digits := by
  unfold padHex
  split_ifs
  · have hzero : hexDigitValue 48 = some 0 := rfl
    exact Stratum.leadingHex_cons hzero 0 digits
  · rfl

theorem length_padHex (digits : List UInt8) :
    (padHex digits).length = 2 * ((digits.length + 1) / 2) := by
  unfold padHex
  split_ifs
  · rw [List.length_cons]
    omega
  · omega

/-- The bytes of a hexadecimal number. -/
theorem value_hexPairs_padHex {digits : List UInt8} (h : IsHex digits) :
    BigEndian.value (hexPairs (padHex digits)) = hexNumber digits ∧
      (hexPairs (padHex digits)).length = (digits.length + 1) / 2 := by
  have hlength := length_padHex digits
  obtain ⟨hvalue, hhalf⟩ := leadingHex_eq (isHex_padHex h) (by omega) 0
  rw [Nat.zero_mul, Nat.zero_add] at hvalue
  exact ⟨hvalue.symm.trans (hexNumber_padHex digits), by omega⟩

/-- What may stand before the digits. -/
def IsMark (mark : List UInt8) : Prop :=
  mark = [] ∨ mark = Stratum.bytes "0x" ∨ mark = Stratum.bytes "0X"

/-- A mark is taken off, and digits are not taken for one. -/
theorem drop_mark {mark digits : List UInt8} (hmark : IsMark mark) (h : IsHex digits) :
    (if Stratum.bytes "0x" <+: mark ++ digits ∨ Stratum.bytes "0X" <+: mark ++ digits then
      (mark ++ digits).drop 2 else mark ++ digits) = digits := by
  rcases hmark with rfl | rfl | rfl
  · have hnone : ∀ c : UInt8, hexDigitValue c = none → ¬ [48, c] <+: digits := by
      rintro c hc ⟨t, rfl⟩
      have hsome := h c (by simp)
      rw [hc] at hsome
      exact absurd hsome Bool.false_ne_true
    rw [List.nil_append, if_neg]
    rintro (hx | hx)
    · exact hnone 120 (by decide +kernel) hx
    · exact hnone 88 (by decide +kernel) hx
  · rw [if_pos (.inl (List.prefix_append _ _))]
    rfl
  · rw [if_pos (.inr (List.prefix_append _ _))]
    rfl

/-- What `hex_target_to_nbits` encodes: of more than 32 bytes the low ones are lost. -/
theorem toNat_hexTargetToNbits {mark digits : List UInt8} (hmark : IsMark mark) (h : IsHex digits) :
    (hexTargetToNbits (mark ++ digits)).toNat =
      nbitsFormat.code (hexNumber digits / 256 ^ ((digits.length + 1) / 2 - 32)) := by
  obtain ⟨hvalue, hlength⟩ := value_hexPairs_padHex h
  unfold hexTargetToNbits
  dsimp only
  rw [toNat_targetBeToNbits, Bytes32.valueBe]
  dsimp only
  rw [drop_mark hmark h, ← hvalue, ← hlength]
  generalize hexPairs (padHex digits) = raw
  have hsplit : BigEndian.value raw =
      256 ^ (raw.length - 32) * BigEndian.value (raw.take 32) + BigEndian.value (raw.drop 32) := by
    conv_lhs => rw [← List.take_append_drop 32 raw]
    rw [BigEndian.value_append, List.length_drop, Nat.mul_comm]
  have hlow := BigEndian.value_lt (raw.drop 32)
  rw [List.length_drop] at hlow
  rw [BigEndian.value_append, BigEndian.value_replicate_zero, Nat.zero_mul, Nat.zero_add, hsplit,
    Nat.mul_add_div (by positivity), Nat.div_eq_of_lt hlow, Nat.add_zero]

/-- A number that loses its low bytes is encoded with a smaller exponent. -/
theorem code_div_pow_eq_iff {n k : ℕ} :
    nbitsFormat.code (n / 256 ^ k) = nbitsFormat.code n ↔ k = 0 ∨ n = 0 := by
  constructor
  · intro hcode
    by_contra! hne
    have hpos : 0 < n := Nat.pos_of_ne_zero hne.2
    have hexp : nbitsFormat.exponent (n / 256 ^ k) = nbitsFormat.exponent n := by
      rw [← nbitsFormat.code_div, hcode, nbitsFormat.code_div]
    have hexpPos := nbitsFormat.exponent_pos hpos
    have hlt : 2 * n < 256 ^ nbitsFormat.exponent n := nbitsFormat.headroom_mul_lt n
    have hpow : 256 ^ nbitsFormat.exponent n = 256 * 256 ^ (nbitsFormat.exponent n - 1) := by
      rw [← pow_succ', Nat.sub_add_cancel hexpPos]
    have hsmall : n / 256 ^ k ≤ n / 256 := by
      refine Nat.div_le_div_left ?_ (by norm_num)
      exact Nat.le_self_pow hne.1 256
    have hle : nbitsFormat.exponent (n / 256 ^ k) ≤ nbitsFormat.exponent n - 1 := by
      refine nbitsFormat.exponent_le_iff.mpr ?_
      change 2 * (n / 256 ^ k) < 256 ^ (nbitsFormat.exponent n - 1)
      omega
    omega
  · rintro (rfl | rfl)
    · rw [pow_zero, Nat.div_one]
    · rw [Nat.zero_div]

/-- The digits of bytes are digits, and stand for the number of the bytes. -/
theorem isHex_hexOf (bs : List UInt8) :
    IsHex (hexOf bs) ∧ hexNumber (hexOf bs) = BigEndian.value bs := by
  have hdigits := Stratum.forall₂_hexOf bs
  have hhex : IsHex (hexOf bs) := by
    intro c hc
    obtain ⟨n, hn, rfl⟩ := List.mem_map.mp hc
    rw [Stratum.hexDigitValue_hexDigit (Stratum.lt_of_mem_nibbles hn)]
    rfl
  have heven : padHex (hexOf bs) = hexOf bs := by
    rw [padHex, if_neg]
    rw [hdigits.length_eq, Stratum.length_nibbles]
    omega
  have hvalue := (value_hexPairs_padHex hhex).1
  rw [heven, Stratum.hexPairs_of_forall₂ hdigits] at hvalue
  exact ⟨hhex, hvalue.symm⟩

theorem hexTargetToNbits_nbitsToTargetHexBe (nbits : UInt32) :
    (hexTargetToNbits (nbitsToTargetHexBe nbits)).toNat =
      nbitsFormat.code (nbitsToTargetLe nbits).value := by
  obtain ⟨hhex, hnumber⟩ := isHex_hexOf (nbitsToTargetLe nbits).bytes.reverse
  have hlength : (nbitsToTargetHexBe nbits).length = 64 := by
    rw [nbitsToTargetHexBe, (Stratum.forall₂_hexOf _).length_eq, Stratum.length_nibbles,
      List.length_reverse, (nbitsToTargetLe nbits).length_eq]
  have hread := toNat_hexTargetToNbits (show IsMark [] from .inl rfl) hhex
  rw [List.nil_append, hnumber] at hread
  rw [nbitsToTargetHexBe] at hlength ⊢
  rw [hread, hlength, pow_zero, Nat.div_one]
  exact congrArg _ (Bytes32.valueBe_reverse _)

/-- **Hexadecimal targets.** Digits with or without a mark are read as their number if and only if
there are at most 64 of them, or all are zeros; and what `nbits_to_target_hex_be` writes for an
encoding is read as that encoding. -/
theorem hexTargetToNbits_iff {mark digits : List UInt8} (hmark : IsMark mark) (h : IsHex digits)
    (hlt : hexNumber digits < 2 ^ 256) :
    (hexTargetToNbits (mark ++ digits) = targetBeToNbits (.ofNatBe (hexNumber digits)) ↔
      digits.length ≤ 64 ∨ hexNumber digits = 0) ∧
    ∀ t : Bytes32,
      hexTargetToNbits (nbitsToTargetHexBe (targetBeToNbits t)) = targetBeToNbits t := by
  refine ⟨?_, fun t => ?_⟩
  · rw [← UInt32.toNat_inj, toNat_hexTargetToNbits hmark h, toNat_targetBeToNbits,
      Bytes32.valueBe_ofNatBe hlt, code_div_pow_eq_iff]
    refine or_congr_left ?_
    omega
  · rw [← UInt32.toNat_inj, hexTargetToNbits_nbitsToTargetHexBe,
      value_nbitsToTargetLe_targetBeToNbits, nbitsFormat.code_round, toNat_targetBeToNbits]

/-- Three digits are read with an added zero; a mark changes nothing. -/
theorem hexTargetToNbits_three :
    hexTargetToNbits (Stratum.bytes "0xfFf") = targetBeToNbits (.ofNatBe 0xFFF) ∧
      hexTargetToNbits (Stratum.bytes "0xfFf") = 0x020FFF00 := by
  have hdigits : IsHex (Stratum.bytes "fFf") := by
    unfold IsHex
    decide +kernel
  have hnumber : hexNumber (Stratum.bytes "fFf") = 0xFFF := by decide +kernel
  have hread := (hexTargetToNbits_iff (.inr (.inl rfl)) hdigits (by rw [hnumber]; norm_num)).1.mpr
    (.inl (by decide))
  rw [hnumber] at hread
  exact ⟨hread, by decide +kernel⟩

/-- With 66 digits the low byte is lost: 64 zeros before `ff` are read as zero. -/
theorem hexTargetToNbits_fails :
    IsHex (List.replicate 64 48 ++ Stratum.bytes "ff") ∧
      hexNumber (List.replicate 64 48 ++ Stratum.bytes "ff") = 0xFF ∧
        hexTargetToNbits (List.replicate 64 48 ++ Stratum.bytes "ff") = 0 ∧
          hexTargetToNbits (List.replicate 64 48 ++ Stratum.bytes "ff") ≠
            targetBeToNbits (.ofNatBe 0xFF) := by
  refine ⟨?_, by decide +kernel, by decide +kernel, by decide +kernel⟩
  unfold IsHex
  decide +kernel

end Hex

end PropMiner.Share
