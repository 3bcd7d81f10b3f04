import PropMiner.Semantics.BigEndian
import PropMiner.Semantics.Blake3
import PropMiner.Semantics.Words
import PropMiner.Share.Target

/-!
# The connection challenge: one nonce

`pearl_challenge.cpp` tries a nonce with a compression written out by hand: 56 mixing calls on
sixteen local words, with the message schedule put in and the words that are zero left as
constants. It counts leading zeros word by word. The reference hashes seed and nonce as bytes,
permutes the message after each round and counts bit by bit.

## Main definitions

* `gMix`, `mixedWords`, `tryNonce` — the compression written out, and the test of its words
* `leadingZeroBits` — the zeros of a byte string
* `nonceBytes` — the nonce as it is hashed

## Main results

* `mixedWords_eq_rounds` — the calls are the seven rounds of the reference
* `leadingZeroBits_word` — a swapped word counts like its bytes
* `tryNonceOn_eq` — a nonce passes iff its hash has enough leading zeros
-/

set_option autoImplicit false

namespace PropMiner.Stratum

open Semantics Semantics.Blake3 Share

/-! ### One nonce -/

def rotr32 (x n : UInt32) : UInt32 := (x >>> n) ||| (x <<< (32 - n))

def readLe32 (p : List UInt8) (i : ℕ) : UInt32 :=
  (p.getD i 0).toUInt32 ||| ((p.getD (i + 1) 0).toUInt32 <<< 8) |||
    ((p.getD (i + 2) 0).toUInt32 <<< 16) ||| ((p.getD (i + 3) 0).toUInt32 <<< 24)

def bswap32 (x : UInt32) : UInt32 :=
  ((x &&& 0x000000FF) <<< 24) ||| ((x &&& 0x0000FF00) <<< 8) ||| ((x &&& 0x00FF0000) >>> 8) |||
    ((x &&& 0xFF000000) >>> 24)

/-- `clz32`, with the compiler's `__builtin_clz` on a word that is not zero. -/
def clz32 (x : UInt32) : ℕ := if x = 0 then 32 else 31 - x.toNat.log2

/-- `g_mix`: the references are four of the sixteen local words. -/
def gMix (v : Block) (a b c d : Fin 16) (x y : UInt32) : Block :=
  let v := v.set a (v[a] + (v[b] + x))
  let v := v.set d (rotr32 (v[d] ^^^ v[a]) 16)
  let v := v.set c (v[c] + v[d])
  let v := v.set b (rotr32 (v[b] ^^^ v[c]) 12)
  let v := v.set a (v[a] + (v[b] + y))
  let v := v.set d (rotr32 (v[d] ^^^ v[a]) 8)
  let v := v.set c (v[c] + v[d])
  v.set b (rotr32 (v[b] ^^^ v[c]) 7)

/-- The words `v0` to `v15` after the mixing calls of `try_nonce`. -/
def mixedWords (s0 s1 s2 s3 s4 s5 s6 s7 n0 n1 : UInt32) : Block :=
  let v : Block := #v[0x6A09E667, 0xBB67AE85, 0x3C6EF372, 0xA54FF53A,
    0x510E527F, 0x9B05688C, 0x1F83D9AB, 0x5BE0CD19,
    0x6A09E667, 0xBB67AE85, 0x3C6EF372, 0xA54FF53A, 0, 0, 40, 1 ||| 2 ||| 8]
  -- round 0
  let v := gMix v 0 4 8 12 s0 s1
  let v := gMix v 1 5 9 13 s2 s3
  let v := gMix v 2 6 10 14 s4 s5
  let v := gMix v 3 7 11 15 s6 s7
  let v := gMix v 0 5 10 15 n0 n1
  let v := gMix v 1 6 11 12 0 0
  let v := gMix v 2 7 8 13 0 0
  let v := gMix v 3 4 9 14 0 0
  -- round 1
  let v := gMix v 0 4 8 12 s2 s6
  let v := gMix v 1 5 9 13 s3 0
  let v := gMix v 2 6 10 14 s7 s0
  let v := gMix v 3 7 11 15 s4 0
  let v := gMix v 0 5 10 15 s1 0
  let v := gMix v 1 6 11 12 0 s5
  let v := gMix v 2 7 8 13 n1 0
  let v := gMix v 3 4 9 14 0 n0
  -- round 2
  let v := gMix v 0 4 8 12 s3 s4
  let v := gMix v 1 5 9 13 0 0
  let v := gMix v 2 6 10 14 0 s2
  let v := gMix v 3 7 11 15 s7 0
  let v := gMix v 0 5 10 15 s6 s5
  let v := gMix v 1 6 11 12 n1 s0
  let v := gMix v 2 7 8 13 0 0
  let v := gMix v 3 4 9 14 n0 s1
  -- round 3
  let v := gMix v 0 4 8 12 0 s7
  let v := gMix v 1 5 9 13 0 n1
  let v := gMix v 2 6 10 14 0 s3
  let v := gMix v 3 7 11 15 0 0
  let v := gMix v 0 5 10 15 s4 s0
  let v := gMix v 1 6 11 12 0 s2
  let v := gMix v 2 7 8 13 s5 n0
  let v := gMix v 3 4 9 14 s1 s6
  -- round 4
  let v := gMix v 0 4 8 12 0 0
  let v := gMix v 1 5 9 13 n1 0
  let v := gMix v 2 6 10 14 0 0
  let v := gMix v 3 7 11 15 0 n0
  let v := gMix v 0 5 10 15 s7 s2
  let v := gMix v 1 6 11 12 s5 s3
  let v := gMix v 2 7 8 13 s0 s1
  let v := gMix v 3 4 9 14 s6 s4
  -- round 5
  let v := gMix v 0 4 8 12 n1 0
  let v := gMix v 1 5 9 13 0 s5
  let v := gMix v 2 6 10 14 n0 0
  let v := gMix v 3 7 11 15 0 s1
  let v := gMix v 0 5 10 15 0 s3
  let v := gMix v 1 6 11 12 s0 0
  let v := gMix v 2 7 8 13 s2 s6
  let v := gMix v 3 4 9 14 s4 s7
  -- round 6
  let v := gMix v 0 4 8 12 0 0
  let v := gMix v 1 5 9 13 s5 s0
  let v := gMix v 2 6 10 14 s1 n1
  let v := gMix v 3 7 11 15 n0 s6
  let v := gMix v 0 5 10 15 0 0
  let v := gMix v 1 6 11 12 s2 0
  let v := gMix v 2 7 8 13 s3 s4
  gMix v 3 4 9 14 s7 0

/-- The loop over the words after the first one. -/
def countRest (lz : ℕ) : List UInt32 → ℕ
  | [] => lz
  | w :: ws => if bswap32 w = 0 then countRest (lz + 32) ws else lz + clz32 (bswap32 w)

/-- `try_nonce` -/
def tryNonce (s0 s1 s2 s3 s4 s5 s6 s7 : UInt32) (nonce : UInt64) (difficulty : ℤ) : Bool :=
  let v := mixedWords s0 s1 s2 s3 s4 s5 s6 s7 nonce.toUInt32 (nonce >>> 32).toUInt32
  let h0 := bswap32 (v[0] ^^^ v[8])
  if h0 ≠ 0 then difficulty ≤ clz32 h0
  else difficulty ≤ countRest 32 [v[1] ^^^ v[9], v[2] ^^^ v[10], v[3] ^^^ v[11], v[4] ^^^ v[12],
    v[5] ^^^ v[13], v[6] ^^^ v[14], v[7] ^^^ v[15]]

/-- The `while` loop of `leading_zero_bits` on a byte that is not zero. -/
def shiftsToTop : ℕ → UInt8 → ℕ
  | 0, _ => 0
  | fuel + 1, b => if b &&& 0x80 = 0 then shiftsToTop fuel (b <<< 1) + 1 else 0

/-- `leading_zero_bits` -/
def leadingZeroBits (lz : ℕ) : List UInt8 → ℕ
  | [] => lz
  | b :: h => if b = 0 then leadingZeroBits (lz + 8) h else lz + shiftsToTop 8 b

theorem gMix_eq_g (v : Block) (a b c d : Fin 16) (x y : UInt32) :
    gMix v a b c d x y = g v a b c d x y := by
  have hadd : ∀ (v : Block) (x : UInt32), v[a] + (v[b] + x) = v.get a + v.get b + x :=
    fun v x => (UInt32.add_assoc (v.get a) (v.get b) x).symm
  -- the eight assignments stay `let`s: each of them would otherwise be copied into the next
  unfold gMix
  simp -zeta only [hadd]
  rfl

theorem mixedWords_eq_rounds (s0 s1 s2 s3 s4 s5 s6 s7 n0 n1 : UInt32) :
    mixedWords s0 s1 s2 s3 s4 s5 s6 s7 n0 n1 =
      rounds (initialState iv 0 40 (chunkStart ||| chunkEnd ||| root))
        #v[s0, s1, s2, s3, s4, s5, s6, s7, n0, n1, 0, 0, 0, 0, 0, 0] := by
  simp only [mixedWords, rounds, permute_words, roundFunction_words, gMix_eq_g]
  rfl

/-! ### Words and bytes -/

theorem getD_drop_take (p : List UInt8) (i : ℕ) :
    LittleEndian.value ((p.drop i).take 4) =
      (p.getD i 0).toNat + (p.getD (i + 1) 0).toNat * 2 ^ 8 + (p.getD (i + 2) 0).toNat * 2 ^ 16 +
        (p.getD (i + 3) 0).toNat * 2 ^ 24 := by
  have hget : ∀ k, p.getD (i + k) 0 = (p.drop i).getD k 0 := by
    intro k
    rw [List.getD_eq_getElem?_getD, List.getD_eq_getElem?_getD, List.getElem?_drop]
  have hzero := hget 0
  rw [Nat.add_zero] at hzero
  rw [hzero, hget, hget, hget]
  match p.drop i with
  | [] => rfl
  | [a] => simp
  | [a, b] =>
    simp
    omega
  | [a, b, c] =>
    simp
    omega
  | a :: b :: c :: d :: _ =>
    simp
    omega

theorem toNat_readLe32 (p : List UInt8) (i : ℕ) :
    (readLe32 p i).toNat = LittleEndian.value ((p.drop i).take 4) := by
  have hswap : ∀ x y z w : UInt32, x ||| y ||| z ||| w = w ||| z ||| y ||| x := by
    intro x y z w
    ac_rfl
  rw [getD_drop_take, readLe32, hswap, Words.toNat_fourBytes]
  omega

/-- The four bytes of a word, the least significant one on top. -/
theorem value_bytesOf_four (n : ℕ) :
    BigEndian.value (LittleEndian.bytesOf 4 n) =
      n % 256 * 2 ^ 24 + n / 2 ^ 8 % 256 * 2 ^ 16 + n / 2 ^ 16 % 256 * 2 ^ 8 +
        n / 2 ^ 24 % 256 := by
  simp only [LittleEndian.bytesOf, BigEndian.value_cons, BigEndian.value_nil, List.length_cons,
    List.length_nil, UInt8.toNat_ofNat']
  omega

theorem toNat_bswap32 (w : UInt32) :
    (bswap32 w).toNat = BigEndian.value (LittleEndian.bytesOf 4 w.toNat) := by
  have h0 : ((w &&& 0x000000FF) <<< 24).toNat = w.toNat % 256 * 2 ^ 24 := by
    refine (Words.toNat_shiftLeft (k := 24) _ (by norm_num)).trans ?_
    rw [Words.toNat_and_mask (k := 0) rfl]
    omega
  have h1 : ((w &&& 0x0000FF00) <<< 8).toNat = w.toNat / 2 ^ 8 % 256 * 2 ^ 16 := by
    refine (Words.toNat_shiftLeft (k := 8) _ (by norm_num)).trans ?_
    rw [Words.toNat_and_mask (k := 8) rfl]
    omega
  have h2 : ((w &&& 0x00FF0000) >>> 8).toNat = w.toNat / 2 ^ 16 % 256 * 2 ^ 8 := by
    refine (Words.toNat_shiftRight (k := 8) _ (by norm_num)).trans ?_
    rw [Words.toNat_and_mask (k := 16) rfl]
    omega
  have h3 : ((w &&& 0xFF000000) >>> 24).toNat = w.toNat / 2 ^ 24 % 256 := by
    refine (Words.toNat_shiftRight (k := 24) _ (by norm_num)).trans ?_
    rw [Words.toNat_and_mask (k := 24) rfl]
    omega
  rw [bswap32, value_bytesOf_four]
  exact Words.toNat_or_bytes h0 h1 h2 h3 (by omega) (by omega) (by omega)

/-! ### Leading zeros -/

theorem shiftsToTop_eq {b : UInt8} : b ≠ 0 → shiftsToTop 8 b + b.toNat.size = 8 := by
  have h : ∀ n < 256, UInt8.ofNat n ≠ 0 →
      shiftsToTop 8 (UInt8.ofNat n) + (UInt8.ofNat n).toNat.size = 8 := by
    decide +kernel
  have hb := h b.toNat b.toNat_lt
  rwa [UInt8.ofNat_toNat] at hb

/-- The bits before the first one that is set, over bytes from the most significant one on. -/
theorem leadingZeroBits_eq (lz : ℕ) (bs : List UInt8) :
    leadingZeroBits lz bs = lz + (8 * bs.length - (BigEndian.value bs).size) := by
  induction bs generalizing lz with
  | nil => rfl
  | cons b bs ih =>
    rw [leadingZeroBits]
    split_ifs with hb
    · -- A zero byte adds eight bits and leaves the number as it is.
      have hvalue : BigEndian.value (b :: bs) = BigEndian.value bs := by
        rw [BigEndian.value_cons, hb]
        simp
      have hsize := BigEndian.size_value_le bs
      rw [ih, hvalue, List.length_cons]
      omega
    · have hbyte := shiftsToTop_eq hb
      have hvalue : BigEndian.value [b] = b.toNat := by simp [BigEndian.value_cons]
      have hpos : 0 < BigEndian.value [b] := by
        rw [hvalue]
        exact Nat.pos_of_ne_zero fun h => hb (UInt8.toNat_inj.mp h)
      have hsize := @BigEndian.size_value_append [b] bs hpos
      rw [List.singleton_append, hvalue] at hsize
      rw [hsize, List.length_cons]
      omega

theorem clz32_eq (x : UInt32) : clz32 x = 32 - x.toNat.size := by
  unfold clz32
  split_ifs with hx
  · rw [hx]
    rfl
  · have hne : x.toNat ≠ 0 := fun h => hx (UInt32.toNat_inj.mp h)
    have hsize : x.toNat.size = x.toNat.log2 + 1 :=
      le_antisymm (Nat.size_le.mpr Nat.lt_log2_self)
        (Nat.succ_le_of_lt (Nat.lt_size.mpr (Nat.log2_self_le hne)))
    rw [hsize]
    omega

/-- A word counts like its four bytes. -/
theorem leadingZeroBits_word (lz : ℕ) (w : UInt32) (bs : List UInt8) :
    leadingZeroBits lz (LittleEndian.bytesOf 4 w.toNat ++ bs) =
      if bswap32 w = 0 then leadingZeroBits (lz + 32) bs else lz + clz32 (bswap32 w) := by
  have hvalue := toNat_bswap32 w
  have hlength : (LittleEndian.bytesOf 4 w.toNat).length = 4 := LittleEndian.length_bytesOf 4 _
  rw [leadingZeroBits_eq, List.length_append, hlength]
  split_ifs with hw
  · have hsize := BigEndian.size_value_le bs
    rw [hw] at hvalue
    rw [leadingZeroBits_eq, BigEndian.value_append, ← hvalue]
    change _ + (_ - (0 * _ + _).size) = _
    rw [Nat.zero_mul, Nat.zero_add]
    omega
  · have hpos : 0 < (bswap32 w).toNat := Nat.pos_of_ne_zero fun h => hw (UInt32.toNat_inj.mp h)
    have hle := Nat.size_le.mpr (bswap32 w).toNat_lt
    rw [hvalue] at hpos hle
    rw [clz32_eq, hvalue, BigEndian.size_value_append hpos]
    omega

theorem countRest_eq (lz : ℕ) (ws : List UInt32) :
    countRest lz ws = leadingZeroBits lz (ws.flatMap fun w => LittleEndian.bytesOf 4 w.toNat) := by
  induction ws generalizing lz with
  | nil => rfl
  | cons w ws ih => rw [countRest, List.flatMap_cons, leadingZeroBits_word, ih]

/-! ### The hash of seed and nonce -/

/-- The eight bytes of the nonce in `verify`. -/
def nonceBytes (nonce : UInt64) : List UInt8 :=
  (List.range 8).map fun i => ((nonce >>> UInt64.ofNat (8 * i)) &&& 0xFF).toUInt8

theorem nonceBytes_eq (nonce : UInt64) :
    nonceBytes nonce = LittleEndian.bytesOf 8 nonce.toNat := by
  rw [nonceBytes, LittleEndian.bytesOf_eq_map]
  refine List.map_congr_left fun i hi => ?_
  rw [List.mem_range] at hi
  have hshift : (UInt64.ofNat (8 * i)).toNat % 64 = 8 * i := by
    rw [UInt64.toNat_ofNat']
    omega
  rw [← UInt8.toNat_inj, UInt64.toNat_toUInt8, UInt64.toNat_and, UInt64.toNat_shiftRight, hshift,
    Nat.shiftRight_eq_div_pow, UInt8.toNat_ofNat', BigEndian.pow_256]
  change (_ &&& (2 ^ 8 - 1)) % 2 ^ 8 = _
  rw [Nat.and_two_pow_sub_one_eq_mod, Nat.mod_mod]

theorem blockWord_seed {seed tail : List UInt8} (hseed : seed.length = 32) {i : ℕ} (hi : i < 8) :
    UInt32.ofNat (LittleEndian.value (((seed ++ tail).drop (4 * i)).take 4)) =
      readLe32 seed (4 * i) := by
  have hdrop : 4 ≤ (seed.drop (4 * i)).length := by
    rw [List.length_drop, hseed]
    omega
  rw [List.drop_append_of_le_length (by omega), List.take_append_of_le_length hdrop,
    ← toNat_readLe32, UInt32.ofNat_toNat]

/-- The message block of seed and nonce. -/
theorem blockWords_seed (seed : Bytes32) (nonce : UInt64) :
    blockWords (seed.bytes ++ nonceBytes nonce) =
      #v[readLe32 seed.bytes 0, readLe32 seed.bytes 4, readLe32 seed.bytes 8,
        readLe32 seed.bytes 12, readLe32 seed.bytes 16, readLe32 seed.bytes 20,
        readLe32 seed.bytes 24, readLe32 seed.bytes 28, nonce.toUInt32, (nonce >>> 32).toUInt32,
        0, 0, 0, 0, 0, 0] := by
  have hlow : UInt32.ofNat (LittleEndian.value ((nonceBytes nonce).take 4)) = nonce.toUInt32 := by
    rw [nonceBytes_eq]
    change UInt32.ofNat (LittleEndian.value (LittleEndian.bytesOf 4 _)) = _
    rw [LittleEndian.value_bytesOf, ← UInt32.toNat_inj, UInt64.toNat_toUInt32, UInt32.toNat_ofNat']
    exact Nat.mod_mod _ _
  have hhigh : UInt32.ofNat (LittleEndian.value ((nonceBytes nonce).drop 4)) =
      (nonce >>> 32).toUInt32 := by
    rw [nonceBytes_eq]
    change UInt32.ofNat (LittleEndian.value
      (LittleEndian.bytesOf 4 (nonce.toNat / 256 / 256 / 256 / 256))) = _
    rw [LittleEndian.value_bytesOf, ← UInt32.toNat_inj, UInt64.toNat_toUInt32, UInt32.toNat_ofNat',
      UInt64.toNat_shiftRight]
    change _ = nonce.toNat >>> 32 % _
    rw [Nat.shiftRight_eq_div_pow]
    omega
  have hlength : (nonceBytes nonce).length = 8 := by
    rw [nonceBytes, List.length_map, List.length_range]
  have hseed := seed.length_eq
  refine Vector.ext fun i hi => ?_
  rw [blockWords, Vector.getElem_ofFn]
  change UInt32.ofNat (LittleEndian.value
    (((seed.bytes ++ nonceBytes nonce).drop (4 * i)).take 4)) = _
  -- Eight words of the seed, two of the nonce, and zeros.
  rcases Nat.lt_or_ge i 8 with hlt | hge
  · rw [blockWord_seed hseed hlt]
    interval_cases i <;> rfl
  · rw [List.drop_append, List.drop_eq_nil_of_le (by rw [hseed]; omega), List.nil_append, hseed]
    rcases Nat.lt_or_ge i 10 with hnonce | hzero
    · obtain rfl | rfl : i = 8 ∨ i = 9 := by omega
      · exact hlow
      · rw [List.take_of_length_le (by rw [List.length_drop, hlength])]
        exact hhigh
    · rw [List.drop_eq_nil_of_le (by rw [hlength]; omega)]
      interval_cases i <;> rfl

theorem hashBlock_seed (seed : Bytes32) (nonce : UInt64) :
    hashBlock (seed.bytes ++ nonceBytes nonce) =
      ((List.finRange 8).map (outputWord (mixedWords (readLe32 seed.bytes 0)
        (readLe32 seed.bytes 4) (readLe32 seed.bytes 8) (readLe32 seed.bytes 12)
        (readLe32 seed.bytes 16) (readLe32 seed.bytes 20) (readLe32 seed.bytes 24)
        (readLe32 seed.bytes 28) nonce.toUInt32 (nonce >>> 32).toUInt32))).flatMap
          fun w => LittleEndian.bytesOf 4 w.toNat := by
  have hlength : UInt32.ofNat (seed.bytes ++ nonceBytes nonce).length = 40 := by
    rw [List.length_append, seed.length_eq, nonceBytes, List.length_map, List.length_range]
    rfl
  rw [hashBlock, hlength, compress_words, blockWords_seed, ← mixedWords_eq_rounds]

/-- `try_nonce` on the words of a seed, as `solve` calls it. -/
def tryNonceOn (seed : Bytes32) (nonce : UInt64) (difficulty : ℤ) : Bool :=
  tryNonce (readLe32 seed.bytes 0) (readLe32 seed.bytes 4) (readLe32 seed.bytes 8)
    (readLe32 seed.bytes 12) (readLe32 seed.bytes 16) (readLe32 seed.bytes 20)
    (readLe32 seed.bytes 24) (readLe32 seed.bytes 28) nonce difficulty

/-- A nonce passes iff its hash has enough leading zeros. -/
theorem tryNonceOn_eq (seed : Bytes32) (nonce : UInt64) (difficulty : ℤ) :
    tryNonceOn seed nonce difficulty =
      decide (difficulty ≤ leadingZeroBits 0 (hashBlock (seed.bytes ++ nonceBytes nonce))) := by
  rw [hashBlock_seed, tryNonceOn, tryNonce]
  generalize mixedWords _ _ _ _ _ _ _ _ _ _ = v
  change _ = decide (difficulty ≤ leadingZeroBits 0
    (LittleEndian.bytesOf 4 (v[0] ^^^ v[8]).toNat ++
      [v[1] ^^^ v[9], v[2] ^^^ v[10], v[3] ^^^ v[11], v[4] ^^^ v[12], v[5] ^^^ v[13],
        v[6] ^^^ v[14], v[7] ^^^ v[15]].flatMap fun w => LittleEndian.bytesOf 4 w.toNat))
  rw [leadingZeroBits_word, ← countRest_eq, Nat.zero_add, Nat.zero_add]
  by_cases h : bswap32 (v[0] ^^^ v[8]) = 0
  · rw [if_neg (not_not.mpr h), if_pos h]
  · rw [if_pos h, if_neg h]

end PropMiner.Stratum
