import PropMiner.Semantics.Blocks
import PropMiner.Semantics.Words
import PropMiner.Share.ClaimedHash

/-!
# The noise of the claimed hash

The two generators behind the noise matrices. Uniform noise is a stream of keyed hashes, cut into
rows wherever the rows begin and end; its entries are six bits of a byte each. A permutation has a
pair of positions for each column, drawn from one word of a hash.

## Main definitions

* `Library.noiseStream`, `uniformEntry` — the stream, and what a byte of it stands for
* `Library.permutationPair` — the pair of one column

## Main results

* `Library.uniformMatrix_eq_stream` — the rows are the pieces of the stream at their places
* `Library.generatePermutationMatrix_eq`, `Library.permutationPair_lt` — the pairs column by
  column, and their range
* `Library.noiseExact` — no difference of two entries wraps
-/

set_option autoImplicit false

namespace PropMiner.Share

open PropMiner.Semantics

/-! ### Uniform noise -/

/-- What a byte of the stream stands for: -32 to 31. -/
def uniformEntry (b : UInt8) : ℤ := ((b &&& 63).toNat : ℤ) - 32

theorem uniformEntry_bounds (b : UInt8) : -32 ≤ uniformEntry b ∧ uniformEntry b ≤ 31 := by
  have hmask : (b &&& 63).toNat ≤ 63 := by
    rw [UInt8.toNat_and]
    exact Nat.and_le_right
  unfold uniformEntry
  omega

theorem toInt_uniformEntry (b : UInt8) :
    (Int8.ofInt (uniformEntry b)).toInt = uniformEntry b := by
  obtain ⟨hlo, hhi⟩ := uniformEntry_bounds b
  exact Int8.toInt_ofInt_of_le (by omega) (by omega)

theorem toInt_eq {x : ℕ} (hx : x < 2 ^ 31) : toInt x = x := by
  unfold toInt
  exact Int.bmod_eq_of_le (by omega) (by omega)

namespace Library

variable (L : Library) (seed key : Bytes32)

/-- The keyed hashes of block 0, 1, 2, … one after the other. -/
def noiseStream : ℕ → UInt8 :=
  blockAt 32 (fun block => (L.getRandomHash (UInt32.ofNat block) seed key 0).bytes) 0

theorem flatMap_noiseStream (n : ℕ) :
    (List.range (n * 32)).map (L.noiseStream seed key) =
      (List.range n).flatMap fun block =>
        (L.getRandomHash (UInt32.ofNat block) seed key 0).bytes :=
  (flatMap_blocks (by norm_num) (fun _ => Bytes32.length_eq _) n).symm

/-- One byte of a block that is read for a row. -/
theorem noiseStream_block (block i : ℕ) (hi : i < 32) :
    L.noiseStream seed key (block * 32 + i) =
      (L.getRandomHash (UInt32.ofNat block) seed key 0).bytes.getD i 0 := by
  have hdiv : (block * 32 + i) / 32 = block := by omega
  have hmod : (block * 32 + i) % 32 = i := by omega
  rw [noiseStream, blockAt, hdiv, hmod]

/-- A row is the piece of the stream at its place. -/
theorem uniformRow_eq {row : UInt32} {numCols : ℕ} (hrow : (row.toNat + 1) * numCols ≤ 2 ^ 35) :
    L.uniformRow seed key row numCols = (List.range numCols).map fun j =>
      Int8.ofInt (uniformEntry (L.noiseStream seed key (row.toNat * numCols + j))) := by
  unfold uniformRow
  dsimp only
  rw [Nat.add_mul, Nat.one_mul] at hrow
  generalize row.toNat * numCols = start at hrow ⊢
  -- the block numbers fit in an `int`
  rw [toInt_eq (by omega), toInt_eq (by omega)]
  generalize hfirst : start / 32 = first
  generalize hlast : (start + numCols + 31) / 32 = last
  have hcount : ((last : ℤ) - first).toNat = last - first := by omega
  have hwindow := @flatMap_window _ 32 start (start + numCols) first last
    (fun x => Int8.ofInt (uniformEntry (L.noiseStream seed key x))) (by omega) (by omega)
    (by omega) (by omega)
  rw [Nat.add_sub_cancel_left] at hwindow
  have hrest : ∀ written : List Int8, written = (List.range numCols).map (fun j =>
      Int8.ofInt (uniformEntry (L.noiseStream seed key (start + j)))) →
      written ++ List.replicate (numCols - written.length) 0 = (List.range numCols).map fun j =>
        Int8.ofInt (uniformEntry (L.noiseStream seed key (start + j))) := by
    rintro written rfl
    rw [List.length_map, List.length_range, Nat.sub_self, List.replicate_zero, List.append_nil]
  apply hrest
  rw [hcount, ← hwindow]
  refine congrArg (fun f => (List.range (last - first)).flatMap f) (funext fun b => ?_)
  apply List.filterMap_congr
  intro i hi
  rw [noiseStream_block L seed key _ _ (List.mem_range.mp hi), ← Nat.cast_add first b,
    Words.ofInt_natCast]
  refine if_congr ?_ rfl rfl
  rw [Bool.or_eq_true, decide_eq_true_eq, decide_eq_true_eq]
  omega

/-- Entry `j` of a row is the byte of the stream at the row's place, whatever block it is in; rows
that follow each other are one piece of the stream. -/
theorem uniformMatrix_eq_stream (rows : List UInt32) (numCols : ℕ)
    (hrows : ∀ row ∈ rows, (row.toNat + 1) * numCols ≤ 2 ^ 35) :
    (∀ n, (List.range (n * 32)).map (L.noiseStream seed key) =
      (List.range n).flatMap fun block =>
        (L.blake3Keyed (LittleEndian.bytesOf 4 (UInt32.ofNat block + 1).toNat ++
          List.replicate 28 0 ++ seed.bytes) key).bytes) ∧
    (L.generateUniformRandomMatrix seed key rows numCols).map (List.map Int8.toInt) =
      rows.map (fun row => (List.range numCols).map fun j =>
        uniformEntry (L.noiseStream seed key (row.toNat * numCols + j))) ∧
    ∀ first count, first + count ≤ 2 ^ 32 →
      rows = (List.range count).map (fun i => UInt32.ofNat (first + i)) →
      (L.generateUniformRandomMatrix seed key rows numCols).flatten.map Int8.toInt =
        (List.range (count * numCols)).map fun i =>
          uniformEntry (L.noiseStream seed key (first * numCols + i)) := by
  have hmatrix : (L.generateUniformRandomMatrix seed key rows numCols).map (List.map Int8.toInt) =
      rows.map (fun row => (List.range numCols).map fun j =>
        uniformEntry (L.noiseStream seed key (row.toNat * numCols + j))) := by
    rw [generateUniformRandomMatrix, List.map_map]
    apply List.map_congr_left
    intro row hrow
    rw [Function.comp_apply, uniformRow_eq L seed key (hrows row hrow), List.map_map]
    apply List.map_congr_left
    intro j _
    exact toInt_uniformEntry _
  refine ⟨L.flatMap_noiseStream seed key, hmatrix, ?_⟩
  rintro first count hfits rfl
  rw [List.map_flatten, hmatrix, List.map_map, ← List.flatMap_def, ← flatMap_range_mul]
  apply List.flatMap_congr
  intro i hi
  have hrow : (UInt32.ofNat (first + i)).toNat = first + i :=
    UInt32.toNat_ofNat_of_lt'
      (lt_of_lt_of_le (Nat.add_lt_add_left (List.mem_range.mp hi) first) hfits)
  apply List.map_congr_left
  intro j _
  rw [hrow, Nat.add_mul, Nat.add_assoc]

end Library

/-- A library whose hashes are the beginnings of what is hashed. -/
def echoLibrary : Library where
  blake3Hash bs := seedLabel bs
  blake3Keyed bs _ := seedLabel bs
  blake3Xof bs _ i := bs.getD i 0
  merkleProofFromLeafCvs _ _ _ _ _ _ := .ok (.fill 0, 1, {})
  merkleProofForHandle _ _ := .ok {}
  merkleAuditPathsForHandle _ _ := .ok []
  merkleVerifyProof _ _ _ _ _ _ := true
  bseedExpandRangeRaw _ _ _ := .ok fun _ => 0
  bcolTargetedExpandEnabled := true

/-- Rows of 24 entries: the first of these two ends in the block in which the second begins. -/
theorem uniformMatrix_eq_stream_echo :
    (∀ row ∈ ([1, 2] : List UInt32), (row.toNat + 1) * 24 ≤ 2 ^ 35) ∧
    (echoLibrary.generateUniformRandomMatrix (.fill 0) (.fill 0) [1, 2] 24).flatten.map Int8.toInt =
      (List.range 48).map fun i =>
        uniformEntry (echoLibrary.noiseStream (.fill 0) (.fill 0) (24 + i)) := by
  have hrows : ∀ row ∈ ([1, 2] : List UInt32), (row.toNat + 1) * 24 ≤ 2 ^ 35 := by
    simp
  have hstream := Library.uniformMatrix_eq_stream echoLibrary (.fill 0) (.fill 0) [1, 2] 24 hrows
  exact ⟨hrows, hstream.2.2 1 2 (by norm_num) rfl⟩

/-! ### Permutations -/

theorem toNat_mulHiU32 (a b : UInt32) : (mulHiU32 a b).toNat = a.toNat * b.toNat / 2 ^ 32 := by
  have hprod : a.toNat * b.toNat < 2 ^ 32 * 2 ^ 32 :=
    Nat.mul_lt_mul_of_lt_of_le a.toNat_lt b.toNat_lt.le (by norm_num)
  have hhigh : a.toNat * b.toNat / 2 ^ 32 < 2 ^ 32 := Nat.div_lt_of_lt_mul hprod
  have hwide : (a.toUInt64 * b.toUInt64).toNat = a.toNat * b.toNat := by
    rw [UInt64.toNat_mul, UInt32.toNat_toUInt64, UInt32.toNat_toUInt64]
    exact Nat.mod_eq_of_lt hprod
  have hshift : ((a.toUInt64 * b.toUInt64) >>> 32).toNat = a.toNat * b.toNat / 2 ^ 32 := by
    rw [UInt64.toNat_shiftRight, hwide]
    exact Nat.shiftRight_eq_div_pow _ 32
  rw [mulHiU32, UInt64.toNat_toUInt32, hshift, Nat.mod_eq_of_lt hhigh]

namespace Library

variable (L : Library) (seed key : Bytes32)

/-- The pair of column `l`: eight columns share a hash, one word each. -/
def permutationPair (noiseRank l : ℕ) : PermutationPair :=
  let rankMask := UInt32.ofNat (noiseRank - 1)
  let hash := L.getRandomHash (UInt32.ofNat (l / 8)) seed key 1
  let rand := UInt32.ofNat (LittleEndian.value ((hash.bytes.drop (l % 8 * 4)).take 4))
  let first := rand &&& rankMask
  ⟨first, first ^^^ (1 + mulHiU32 rankMask rand)⟩

theorem generatePermutationMatrix_eq (k noiseRank : ℕ) :
    L.generatePermutationMatrix seed key k noiseRank =
      (List.range k).map (L.permutationPair seed key noiseRank) := by
  rw [← flatMap_range_min (L.permutationPair seed key noiseRank) (by norm_num : 0 < 8) k]
  refine congrArg (fun f => (List.range ((k + 7) / 8)).flatMap f) (funext fun chunk => ?_)
  apply List.map_congr_left
  intro j hj
  have hlt : j < 8 := lt_of_lt_of_le (List.mem_range.mp hj) (min_le_left _ _)
  have hdiv : (chunk * 8 + j) / 8 = chunk := by omega
  have hmod : (chunk * 8 + j) % 8 = j := by omega
  rw [permutationPair, hdiv, hmod]

end Library

/-- With a power of two as rank a pair is of two different positions below it. -/
theorem permutationPair_lt (L : Library) (seed key : Bytes32) {e : ℕ} (he : 0 < e) (he' : e < 32)
    (l : ℕ) :
    (L.permutationPair seed key (2 ^ e) l).first.toNat < 2 ^ e ∧
      (L.permutationPair seed key (2 ^ e) l).second.toNat < 2 ^ e ∧
      (L.permutationPair seed key (2 ^ e) l).first ≠
        (L.permutationPair seed key (2 ^ e) l).second := by
  have hrank : 2 ≤ 2 ^ e := Nat.le_self_pow he.ne' 2
  have hrank' : 2 ^ e ≤ 2 ^ 31 := Nat.pow_le_pow_right (by norm_num) (by omega)
  unfold Library.permutationPair
  dsimp only
  generalize UInt32.ofNat (LittleEndian.value _) = rand
  have hmask : (UInt32.ofNat (2 ^ e - 1)).toNat = 2 ^ e - 1 :=
    UInt32.toNat_ofNat_of_lt' (lt_of_lt_of_le (by omega) (by norm_num : 2 ^ 31 ≤ UInt32.size))
  generalize UInt32.ofNat (2 ^ e - 1) = rankMask at hmask ⊢
  have hfirst : (rand &&& rankMask).toNat < 2 ^ e := by
    rw [UInt32.toNat_and, hmask]
    exact lt_of_le_of_lt Nat.and_le_right (by omega)
  -- the high half of a product with the mask is below the mask
  have hhigh : (mulHiU32 rankMask rand).toNat < 2 ^ e - 1 := by
    rw [toNat_mulHiU32, hmask]
    apply Nat.div_lt_of_lt_mul
    rw [Nat.mul_comm]
    exact Nat.mul_lt_mul_of_pos_right rand.toNat_lt (by omega)
  have hstep : (1 + mulHiU32 rankMask rand).toNat = 1 + (mulHiU32 rankMask rand).toNat := by
    rw [UInt32.toNat_add]
    exact Nat.mod_eq_of_lt (by rw [UInt32.toNat_one]; omega)
  refine ⟨hfirst, ?_, fun heq => ?_⟩
  · rw [UInt32.toNat_xor, hstep]
    exact Nat.xor_lt_two_pow hfirst (by omega)
  · have hzero : 1 + mulHiU32 rankMask rand = 0 := by
      have hxor := congrArg (fun x => (rand &&& rankMask) ^^^ x) heq
      simpa [← UInt32.xor_assoc] using hxor.symm
    rw [hzero] at hstep
    exact absurd hstep (by rw [UInt32.toNat_zero]; omega)

/-! ### Noise rows -/

/-- A difference of entries of six bits does not wrap. -/
theorem toInt_sub_of_bounds {x y : Int8} (hx : -32 ≤ x.toInt) (hx' : x.toInt ≤ 31)
    (hy : -32 ≤ y.toInt) (hy' : y.toInt ≤ 31) : (x - y).toInt = x.toInt - y.toInt := by
  rw [Int8.toInt_sub]
  exact Int.bmod_eq_of_le (by norm_num; omega) (by norm_num; omega)

theorem toInt_sub_uniformEntry (b c : UInt8) :
    (Int8.ofInt (uniformEntry b) - Int8.ofInt (uniformEntry c)).toInt =
      uniformEntry b - uniformEntry c := by
  obtain ⟨hlo, hhi⟩ := uniformEntry_bounds b
  obtain ⟨hlo', hhi'⟩ := uniformEntry_bounds c
  rw [← toInt_uniformEntry b] at hlo hhi
  rw [← toInt_uniformEntry c] at hlo' hhi'
  rw [toInt_sub_of_bounds hlo hhi hlo' hhi', toInt_uniformEntry, toInt_uniformEntry]

/-- The positions of the pairs are in the rows, and the differences that are stored are exact. -/
def NoiseExact (perm : List PermutationPair) (rows : List (List Int8)) : Prop :=
  ∀ p ∈ perm, ∀ row ∈ rows, p.first.toNat < row.length ∧ p.second.toNat < row.length ∧
    (row.getD p.first.toNat 0 - row.getD p.second.toNat 0).toInt =
      (row.getD p.first.toNat 0).toInt - (row.getD p.second.toNat 0).toInt

namespace Library

variable (L : Library) (seed key : Bytes32)

/-- Entry `l` of a noise row: the difference of two entries of uniform noise. -/
def noiseEntry (rank : ℕ) (index : UInt32) (l : ℕ) : ℤ :=
  let pair := L.permutationPair seed key rank l
  uniformEntry (L.noiseStream seed key (index.toNat * rank + pair.first.toNat)) -
    uniformEntry (L.noiseStream seed key (index.toNat * rank + pair.second.toNat))

theorem abs_noiseEntry_le (rank : ℕ) (index : UInt32) (l : ℕ) :
    |L.noiseEntry seed key rank index l| ≤ 63 := by
  unfold noiseEntry
  dsimp only
  generalize L.noiseStream seed key _ = b
  generalize L.noiseStream seed key _ = c
  obtain ⟨hlo, hhi⟩ := uniformEntry_bounds b
  obtain ⟨hlo', hhi'⟩ := uniformEntry_bounds c
  exact abs_le.mpr ⟨by omega, by omega⟩

variable {seed key} {e k : ℕ} {index : UInt32}

theorem uniformRow_getD {rank : ℕ} (hindex : (index.toNat + 1) * rank ≤ 2 ^ 35) {j : ℕ}
    (hj : j < rank) : (L.uniformRow seed key index rank).getD j 0 =
      Int8.ofInt (uniformEntry (L.noiseStream seed key (index.toNat * rank + j))) := by
  rw [uniformRow_eq L seed key hindex, List.getD_eq_getElem _ _ (by simpa using hj),
    List.getElem_map, List.getElem_range]

/-- An entry of a noise row as it is stored. -/
theorem noiseRow_getD (he : 0 < e) (he' : e < 32) (hindex : (index.toNat + 1) * 2 ^ e ≤ 2 ^ 35)
    {l : ℕ} (hl : l < k) :
    ((applySparsePermutation (L.generatePermutationMatrix seed key k (2 ^ e))
      (L.uniformRow seed key index (2 ^ e))).getD l 0).toInt =
        L.noiseEntry seed key (2 ^ e) index l := by
  obtain ⟨hfirst, hsecond, -⟩ := permutationPair_lt L seed key he he' l
  rw [applySparsePermutation, generatePermutationMatrix_eq, List.map_map,
    List.getD_eq_getElem _ _ (by simpa using hl), List.getElem_map, List.getElem_range,
    Function.comp_apply, L.uniformRow_getD hindex hfirst, L.uniformRow_getD hindex hsecond]
  exact toInt_sub_uniformEntry _ _

theorem noiseExact (he : 0 < e) (he' : e < 32) {rows : List UInt32}
    (hrows : ∀ row ∈ rows, (row.toNat + 1) * 2 ^ e ≤ 2 ^ 35) :
    NoiseExact (L.generatePermutationMatrix seed key k (2 ^ e))
      (L.generateUniformRandomMatrix seed key rows (2 ^ e)) := by
  intro p hp row hrow
  rw [generatePermutationMatrix_eq] at hp
  obtain ⟨l, -, rfl⟩ := List.mem_map.mp hp
  obtain ⟨index, hindex, rfl⟩ := List.mem_map.mp hrow
  obtain ⟨hfirst, hsecond, -⟩ := permutationPair_lt L seed key he he' l
  have hlength : (L.uniformRow seed key index (2 ^ e)).length = 2 ^ e := by
    rw [uniformRow_eq L seed key (hrows index hindex), List.length_map, List.length_range]
  rw [hlength, L.uniformRow_getD (hrows index hindex) hfirst,
    L.uniformRow_getD (hrows index hindex) hsecond, toInt_uniformEntry, toInt_uniformEntry]
  exact ⟨hfirst, hsecond, toInt_sub_uniformEntry _ _⟩

end Library

end PropMiner.Share
