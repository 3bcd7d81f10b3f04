import PropMiner.Share.Reference

/-!
# The share builder against the reference

Two libraries that differ in the keyed hash alone, and there only under keys that the share builder
does not use. The builder gives the same hash with both. The reference reads one more key from the
hash, and with it the two positions whose difference is the noise of a row; the libraries have
them in opposite order.

Columns and opened rows are chosen so that of all products one is left, that of the first row and a
column that does not cancel, at the last position of the last round. The hash of a probe shows the
word into which that round is folded.

## Main definitions

* `probeLibrary` — the two libraries
* `probeColumns`, `probeSlice` — the output of the hash and the rows of `A`

## Main results

* `Library.computeClaimedHash_congr` — what the share builder reads of the BLAKE3 functions
* `agreesWithReference_iff` — builder and reference agree on the shares without products only
-/

set_option autoImplicit false

namespace PropMiner.Share

open PropMiner.Semantics

/-! ### What the share builder reads -/

/-- Of the keyed hash the share builder reads what is hashed under the two noise seeds. -/
theorem Library.computeClaimedHash_congr {L L' : Library} {cfg : MiningConfig} {share : ShareFound}
    {jobKey hashA hashB : Bytes32} (hhash : L.blake3Hash = L'.blake3Hash)
    (hexpand : L.bseedExpandRangeRaw = L'.bseedExpandRangeRaw)
    (hflag : L.bcolTargetedExpandEnabled = L'.bcolTargetedExpandEnabled)
    (hkeyed : ∀ key, key = (L.deriveNoiseSeeds jobKey hashA hashB).1 ∨
      key = (L.deriveNoiseSeeds jobKey hashA hashB).2 →
      ∀ data, L.blake3Keyed data key = L'.blake3Keyed data key) :
    L.computeClaimedHash cfg share jobKey hashA hashB =
      L'.computeClaimedHash cfg share jobKey hashA hashB := by
  have hseeds : L'.deriveNoiseSeeds jobKey hashA hashB =
      L.deriveNoiseSeeds jobKey hashA hashB := by
    rw [deriveNoiseSeeds, deriveNoiseSeeds, hhash]
  have hcolumns : L'.secretB cfg share.job.bSeed share.bColIndices =
      L.secretB cfg share.job.bSeed share.bColIndices := by
    unfold secretB bseedExpandRange
    rw [hexpand, hflag]
  have hbKey := hkeyed _ (.inl rfl)
  have haKey := hkeyed _ (.inr rfl)
  rw [computeClaimedHash_eq, computeClaimedHash_eq, hseeds, hcolumns]
  generalize (L.deriveNoiseSeeds jobKey hashA hashB).1 = bNoiseSeed at hbKey
  generalize (L.deriveNoiseSeeds jobKey hashA hashB).2 = aNoiseSeed at haKey
  -- a matrix of noise is read under its own seed
  have huniform : ∀ {key : Bytes32}, (∀ data, L.blake3Keyed data key = L'.blake3Keyed data key) →
      ∀ seed rows numCols, L.generateUniformRandomMatrix seed key rows numCols =
        L'.generateUniformRandomMatrix seed key rows numCols := by
    intro key h seed rows numCols
    simp only [generateUniformRandomMatrix, uniformRow, getRandomHash, h]
  have hperm : ∀ {key : Bytes32}, (∀ data, L.blake3Keyed data key = L'.blake3Keyed data key) →
      ∀ seed k rank, L.generatePermutationMatrix seed key k rank =
        L'.generatePermutationMatrix seed key k rank := by
    intro key h seed k rank
    simp only [generatePermutationMatrix, getRandomHash, h]
  refine congrArg (fun f => Except.map f _) (funext fun columns => ?_)
  rw [jackpotHash, haKey, noisyRows, noisyCols, huniform haKey, huniform hbKey, hperm haKey,
    hperm hbKey]
  rfl

/-! ### The libraries -/

/-- The noise seeds of a probe, both of them. -/
def probeSeed : Bytes32 := .fill 0xFF

/-- The key of the rows: row `i` then starts the generator with zeros. -/
def rowKey (i : UInt32) : Bytes32 :=
  ⟨LittleEndian.bytesOf 4 i.toNat ++ List.replicate 27 0 ++ [1], by simp⟩

/-- Eight words of which each is the pair of the first two positions, in one of both orders. -/
def pairHash (swap : Bool) : Bytes32 :=
  ⟨(List.replicate 8 [if swap then 1 else 0, 0, 0, 0]).flatten, by simp⟩

/-- A library with these columns. Its hashes show one word of the message, and it has pairs in one
of two orders. -/
def probeLibrary (i : UInt32) (slot : ℕ) (xof : ℕ → UInt8) (swap : Bool) : Library where
  blake3Hash _ := probeSeed
  blake3Keyed data key :=
    if key = probeSeed then seedLabel ((data.drop (4 * slot)).take 4)
    else if key = seedLabelA then rowKey i
    else if key = rowKey i then
      -- under this key both a key and the pairs are derived
      if data.drop 32 = probeSeed.bytes then rowKey i else pairHash swap
    else .fill 0
  blake3Xof _ _ p := xof p
  merkleProofFromLeafCvs _ _ _ _ _ _ := .ok (.fill 0, 1, {})
  merkleProofForHandle _ _ := .ok {}
  merkleAuditPathsForHandle _ _ := .ok []
  merkleVerifyProof _ _ _ _ _ _ := true
  bseedExpandRangeRaw _ off _ := .ok fun p => mapInt7 (xof (off + UInt64.ofNat p).toNat)
  bcolTargetedExpandEnabled := true

section Probe

variable {i : UInt32} {slot : ℕ} {xof : ℕ → UInt8} {swap : Bool} {e k : ℕ}

theorem probeLibrary_expandsXof : (probeLibrary i slot xof swap).ExpandsXof :=
  ⟨fun _ p => xof p, fun _ _ _ => rfl, fun _ _ _ => rfl⟩

theorem deriveNoiseSeeds_probe (jobKey hashA hashB : Bytes32) :
    (probeLibrary i slot xof swap).deriveNoiseSeeds jobKey hashA hashB =
      (probeSeed, probeSeed) := rfl

/-- The last byte tells a key of rows from the others. -/
theorem ne_rowKey {key : Bytes32} (h : key.bytes.getD 31 0 ≠ 1) (i : UInt32) : key ≠ rowKey i := by
  rintro rfl
  apply h
  rw [rowKey, List.getD_append_right _ _ _ _ (by simp)]
  simp

theorem probe_aLabel :
    Ref.blake3KeyFromSeed (probeLibrary i slot xof swap) seedLabelA probeSeed = rowKey i := by
  unfold Ref.blake3KeyFromSeed probeLibrary
  dsimp only
  rw [if_neg (by decide), if_pos rfl]

theorem probe_aKey :
    Ref.blake3KeyFromSeed (probeLibrary i slot xof swap) (rowKey i) probeSeed = rowKey i := by
  unfold Ref.blake3KeyFromSeed probeLibrary
  dsimp only
  rw [if_neg (ne_rowKey (by decide) i).symm, if_neg (ne_rowKey (by decide) i).symm, if_pos rfl,
    if_pos (List.drop_left' (Bytes32.length_eq _))]

theorem probe_bKey (label : Bytes32) (h : label = seedLabelB ∨ label = .fill 0) :
    Ref.blake3KeyFromSeed (probeLibrary i slot xof swap) label probeSeed = .fill 0 := by
  unfold Ref.blake3KeyFromSeed probeLibrary
  dsimp only
  rcases h with rfl | rfl
  · rw [if_neg (by decide), if_neg (by decide), if_neg (ne_rowKey (by decide) i)]
  · rw [if_neg (by decide), if_neg (by decide), if_neg (ne_rowKey (by decide) i)]

/-- A pair that is drawn from such words. -/
theorem permutationPair_of_pairHash {L : Library} {label key : Bytes32}
    (h : ∀ index, L.getRandomHash index label key 1 = pairHash swap) (he : 0 < e) (he' : e < 32)
    (l : ℕ) : L.permutationPair label key (2 ^ e) l = if swap then ⟨1, 0⟩ else ⟨0, 1⟩ := by
  have hword : ∀ b : Bool, ∀ j < 8,
      UInt32.ofNat (LittleEndian.value (((pairHash b).bytes.drop (j * 4)).take 4)) =
        if b then 1 else 0 := by decide +kernel
  unfold Library.permutationPair
  dsimp only
  rw [h, hword swap _ (Nat.mod_lt l (by norm_num))]
  have hrank : 2 ^ e ≤ 2 ^ 31 := Nat.pow_le_pow_right (by norm_num) (by omega)
  have hmask : (UInt32.ofNat (2 ^ e - 1)).toNat = 2 ^ e - 1 :=
    UInt32.toNat_ofNat_of_lt' (lt_of_lt_of_le (by omega) (by norm_num : 2 ^ 31 ≤ UInt32.size))
  generalize UInt32.ofNat (2 ^ e - 1) = mask at hmask ⊢
  cases swap with
  | false =>
    have hhigh : mulHiU32 mask 0 = 0 := by
      apply UInt32.toNat_inj.mp
      rw [toNat_mulHiU32]
      simp
    simp [hhigh]
  | true =>
    have hhigh : mulHiU32 mask 1 = 0 := by
      apply UInt32.toNat_inj.mp
      rw [toNat_mulHiU32, UInt32.toNat_one, Nat.mul_one]
      exact Nat.div_eq_of_lt mask.toNat_lt
    -- the mask is odd
    have hfirst : 1 &&& mask = 1 := by
      apply UInt32.toNat_inj.mp
      rw [UInt32.toNat_and, hmask, UInt32.toNat_one, Nat.one_and_eq_mod_two]
      obtain ⟨e, rfl⟩ := Nat.exists_eq_succ_of_ne_zero he.ne'
      have hpos : 0 < 2 ^ e := Nat.two_pow_pos e
      rw [Nat.pow_succ]
      omega
    simp [hhigh, hfirst]

theorem probe_aPairs (index : UInt32) :
    (probeLibrary i slot xof swap).getRandomHash index (rowKey i) (rowKey i) 1 = pairHash swap := by
  have hdrop : (List.replicate (4 * 1) 0 ++ LittleEndian.bytesOf 4 (index + 1).toNat ++
      List.replicate (28 - 4 * 1) 0 ++ (rowKey i).bytes).drop 32 = (rowKey i).bytes :=
    List.drop_left' (by simp)
  have hne : (rowKey i).bytes ≠ probeSeed.bytes := fun h =>
    @ne_rowKey probeSeed (by decide) i (Bytes32.mk.injEq .. ▸ h.symm)
  unfold Library.getRandomHash probeLibrary
  dsimp only
  rw [if_neg (ne_rowKey (by decide) i).symm, if_neg (ne_rowKey (by decide) i).symm, if_pos rfl,
    hdrop, if_neg hne]

theorem probe_bPairs (index : UInt32) :
    (probeLibrary i slot xof swap).getRandomHash index (.fill 0) (.fill 0) 1 =
      pairHash false := by
  unfold Library.getRandomHash probeLibrary
  dsimp only
  rw [if_neg (by decide), if_neg (by decide), if_neg (ne_rowKey (by decide) i)]
  rfl

/-! ### Noise of the reference -/

/-- What the reference adds to a row, or takes from it, at all positions. -/
def refNoise (key : Bytes32) (e : ℕ) (index : UInt32) : ℤ :=
  ((Ref.uniformRow key (2 ^ e) index).getD 0 0).toInt -
    ((Ref.uniformRow key (2 ^ e) index).getD 1 0).toInt

theorem abs_uniformRow_getD_le (key : Bytes32) {n j : ℕ} (hj : j < n) (index : UInt32) :
    |((Ref.uniformRow key n index).getD j 0).toInt| ≤ 63 := by
  rw [Ref.uniformRow, lcgInt7Fill_getD hj]
  exact abs_int7Lane_le _ _

theorem one_lt_two_pow (he : 0 < e) : 1 < 2 ^ e := Nat.one_lt_two_pow he.ne'

theorem abs_refNoise_le (key : Bytes32) (he : 0 < e) (index : UInt32) :
    |refNoise key e index| ≤ 126 := by
  obtain ⟨hlo, hhi⟩ := abs_le.mp
    (abs_uniformRow_getD_le key (Nat.zero_lt_of_lt (one_lt_two_pow he)) index)
  obtain ⟨hlo', hhi'⟩ := abs_le.mp (abs_uniformRow_getD_le key (one_lt_two_pow he) index)
  unfold refNoise
  exact abs_le.mpr ⟨by omega, by omega⟩

/-- The noise of the row that starts the generator with zeros. -/
theorem refNoise_rowKey (he : 0 < e) (i : UInt32) : refNoise (rowKey i) e i = -45 := by
  have htake : (rowKey i).bytes.take 8 = LittleEndian.bytesOf 4 i.toNat ++ [0, 0, 0, 0] := rfl
  have hlo : UInt64.ofNat (LittleEndian.value ((rowKey i).bytes.take 8)) = i.toUInt64 := by
    rw [htake, LittleEndian.value_append, LittleEndian.value_bytesOf,
      Nat.mod_eq_of_lt (i.toNat_lt.trans_le (by norm_num))]
    exact UInt64.ofNat_uInt32ToNat i
  have hhi : UInt64.ofNat (LittleEndian.value (((rowKey i).bytes.drop 8).take 8)) = 0 := by
    have hdrop : ((rowKey i).bytes.drop 8).take 8 = List.replicate 8 0 := rfl
    rw [hdrop]
    rfl
  have hfirst : (int7Lane (splitmix64 (splitmix64 (0 ^^^ splitmix64 0) + UInt64.ofNat (0 / 8)))
      (0 % 8)).toInt = -45 := by decide +kernel
  have hsecond : (int7Lane (splitmix64 (splitmix64 (0 ^^^ splitmix64 0) + UInt64.ofNat (1 / 8)))
      (1 % 8)).toInt = 0 := by decide +kernel
  unfold refNoise Ref.uniformRow
  dsimp only
  rw [hlo, hhi, UInt64.xor_self, lcgInt7Fill_getD (one_lt_two_pow he),
    lcgInt7Fill_getD (Nat.zero_lt_of_lt (one_lt_two_pow he)), hfirst, hsecond, sub_zero]

theorem bmod_byte {x : ℤ} (h : |x| ≤ 126) : x.bmod (2 ^ 8) = x := by
  obtain ⟨hlo, hhi⟩ := abs_le.mp h
  exact Int.bmod_eq_of_le (by omega) (by omega)

/-- The difference as it is stored, in both orders. -/
theorem toInt_sub_uniformRow (key : Bytes32) (he : 0 < e) (index : UInt32) :
    ((Ref.uniformRow key (2 ^ e) index).getD 0 0 -
      (Ref.uniformRow key (2 ^ e) index).getD 1 0).toInt = refNoise key e index ∧
    ((Ref.uniformRow key (2 ^ e) index).getD 1 0 -
      (Ref.uniformRow key (2 ^ e) index).getD 0 0).toInt = -refNoise key e index := by
  have hbound := abs_refNoise_le key he index
  rw [Int8.toInt_sub, Int8.toInt_sub, refNoise, neg_sub]
  refine ⟨bmod_byte hbound, bmod_byte ?_⟩
  rw [abs_sub_comm]
  exact hbound

/-- All positions of a row have the same noise. -/
theorem refNoise_getD {L : Library} {label key : Bytes32} (he : 0 < e) (he' : e < 32)
    (hpairs : ∀ index, L.getRandomHash index label key 1 = pairHash swap) (rows : Bytes32)
    (index : UInt32) {l : ℕ} (hl : l < k) :
    ((applySparsePermutation (L.generatePermutationMatrix label key k (2 ^ e))
      (Ref.uniformRow rows (2 ^ e) index)).getD l 0).toInt =
        if swap then -refNoise rows e index else refNoise rows e index := by
  obtain ⟨hdiff, hneg⟩ := toInt_sub_uniformRow rows he index
  rw [applySparsePermutation, Library.generatePermutationMatrix_eq, List.map_map,
    List.getD_eq_getElem _ _ (by simpa using hl), List.getElem_map, List.getElem_range,
    Function.comp_apply, permutationPair_of_pairHash hpairs he he']
  cases swap with
  | false => exact hdiff
  | true => exact hneg

end Probe

/-! ### One product -/

/-- A number as a byte of the hash or of a row. -/
def signedByte (x : ℤ) : UInt8 := (Int8.ofInt x).toUInt8

theorem toInt_signedByte {x : ℤ} (h : |x| ≤ 127) : (signedByte x).toInt8.toInt = x := by
  obtain ⟨hlo, hhi⟩ := abs_le.mp h
  have hbyte : (signedByte x).toInt8 = Int8.ofInt x := rfl
  rw [hbyte, Int8.toInt_ofInt_of_le (by omega) (by omega)]

/-- The output of the hash whose columns, with the noise of the reference, are zero but for
position `l₀` of column `c`. -/
def probeColumns (e k l₀ : ℕ) (c : UInt32) (p : ℕ) : UInt8 :=
  let j := UInt32.ofNat (p / k)
  signedByte ((if j = c ∧ p % k = l₀ then 1 else 0) - refNoise (.fill 0) e j)

/-- The rows of `A`: at position `l₀` the first has `a`, and the others what is the opposite of
their noise. -/
def probeSlice (e k l₀ : ℕ) (i : UInt32) (a : ℤ) (rows : List UInt32) : List UInt8 :=
  (List.range (rows.length * k)).map fun p =>
    signedByte (if p % k = l₀ then
      if p / k = 0 then a else -refNoise (rowKey i) e (rows.getD (p / k) 0)
    else 0)

section Product

variable {e k l₀ slot : ℕ} {i c : UInt32} {swap : Bool} {a : ℤ} {rows : List UInt32}

theorem length_probeSlice : (probeSlice e k l₀ i a rows).length = rows.length * k := by
  rw [probeSlice, List.length_map, List.length_range]

theorem div_mod_place {l : ℕ} (hl : l < k) (u : ℕ) : (u * k + l) / k = u ∧ (u * k + l) % k = l := by
  rw [Nat.mul_comm u k, Nat.mul_add_div (Nat.zero_lt_of_lt hl), Nat.mul_add_mod,
    Nat.div_eq_of_lt hl, Nat.mod_eq_of_lt hl]
  exact ⟨rfl, rfl⟩

/-- A row as it is opened. -/
theorem secretARow_probe (ha : |a| ≤ 127) (he : 0 < e) {u l : ℕ} (hu : u < rows.length)
    (hl : l < k) :
    ((secretARow (probeSlice e k l₀ i a rows) k u).getD l 0).toInt =
      if l = l₀ then if u = 0 then a else -refNoise (rowKey i) e (rows.getD u 0) else 0 := by
  have hplace : u * k + l < rows.length * k :=
    calc u * k + l < u * k + k := Nat.add_lt_add_left hl _
      _ = (u + 1) * k := (Nat.succ_mul u k).symm
      _ ≤ rows.length * k := Nat.mul_le_mul_right k hu
  obtain ⟨hdiv, hmod⟩ := div_mod_place hl u
  rw [secretARow, List.getD_eq_getElem _ _ (by simpa using hl), List.getElem_map,
    List.getElem_range, probeSlice, List.getD_eq_getElem _ _ (by simpa using hplace),
    List.getElem_map, List.getElem_range, hdiv, hmod]
  apply toInt_signedByte
  split
  · split
    · exact ha
    · rw [abs_neg]
      exact (abs_refNoise_le _ he _).trans (by norm_num)
  · norm_num

/-- A column as the reference cuts it. -/
theorem secretB_probe (he : 0 < e) {j : UInt32} {n l : ℕ} (hj : j.toNat < n) (hl : l < k) :
    (((((List.range (k * n)).map (probeColumns e k l₀ c)).drop (j.toNat * k)).take k).map
      UInt8.toInt8 |>.getD l 0).toInt =
        (if j = c ∧ l = l₀ then 1 else 0) - refNoise (.fill 0) e j := by
  have hinside : j.toNat * k + k ≤ k * n := by
    rw [← Nat.succ_mul, Nat.mul_comm k n]
    exact Nat.mul_le_mul_right k hj
  obtain ⟨hdiv, hmod⟩ := div_mod_place hl j.toNat
  rw [take_drop_map_range _ hinside, List.map_map,
    List.getD_eq_getElem _ _ (by simpa using hl), List.getElem_map, List.getElem_range,
    Function.comp_apply, probeColumns, hdiv, hmod, UInt32.ofNat_toNat]
  apply toInt_signedByte
  obtain ⟨hlo, hhi⟩ := abs_le.mp (abs_refNoise_le (.fill 0) he j)
  split
  · exact abs_le.mpr ⟨by omega, by omega⟩
  · exact abs_le.mpr ⟨by omega, by omega⟩

/-- The rows of the reference, as functions. -/
def probeRow (e l₀ : ℕ) (i : UInt32) (a : ℤ) (swap : Bool) (u : ℕ × UInt32) (l : ℕ) : ℤ :=
  (if l = l₀ then if u.1 = 0 then a else -refNoise (rowKey i) e u.2 else 0) +
    if swap then -refNoise (rowKey i) e u.2 else refNoise (rowKey i) e u.2

/-- The columns of the reference, as functions. -/
def probeCol (l₀ : ℕ) (c j : UInt32) (l : ℕ) : ℤ := if j = c ∧ l = l₀ then 1 else 0

theorem dot_probeCol (A : ℕ → ℤ) (j : UInt32) (n : ℕ) :
    dot A (probeCol l₀ c j) n = if j = c ∧ l₀ < n then A l₀ else 0 := by
  induction n with
  | zero =>
    rw [if_neg fun h => Nat.not_lt_zero _ h.2]
    rfl
  | succ n ih =>
    rw [dot_succ, ih, probeCol]
    by_cases hj : j = c
    · rcases Nat.lt_trichotomy l₀ n with hlt | rfl | hgt
      · rw [if_pos ⟨hj, hlt⟩, if_neg fun h => hlt.ne' h.2, if_pos ⟨hj, Nat.lt_succ_of_lt hlt⟩,
          mul_zero, add_zero]
      · rw [if_neg fun h => lt_irrefl _ h.2, if_pos ⟨hj, rfl⟩, if_pos ⟨hj, Nat.lt_succ_self _⟩,
          mul_one, zero_add]
      · rw [if_neg fun h => hgt.not_gt h.2, if_neg fun h => hgt.ne h.2,
          if_neg fun h => hgt.not_ge (Nat.lt_succ_iff.mp h.2), mul_zero, add_zero]
    · rw [if_neg fun h => hj h.1, if_neg fun h => hj h.1, if_neg fun h => hj h.1, mul_zero,
        add_zero]

/-- What a round contributes: nothing before the last position, and then one word for each row. -/
theorem stepWord_probe {is : List (ℕ × UInt32)} {A : ℕ × UInt32 → ℕ → ℤ} {js : List UInt32}
    (hodd : Odd (js.count c)) (n : ℕ) :
    stepWord (is.map A) (js.map (probeCol l₀ c)) n =
      if l₀ < n then xorSum (fun u => UInt32.ofInt (A u l₀)) is else 0 := by
  rw [stepWord, foldl_xor, UInt32.zero_xor, xorSum_flatMap, xorSum_map]
  have hrow : ∀ u, xorSum UInt32.ofInt ((js.map (probeCol l₀ c)).map fun b => dot (A u) b n) =
      if l₀ < n then UInt32.ofInt (A u l₀) else 0 := by
    intro u
    rw [xorSum_map, xorSum_map]
    by_cases hn : l₀ < n
    · rw [if_pos hn]
      have hterm : ∀ j ∈ js, UInt32.ofInt (dot (A u) (probeCol l₀ c j) n) =
          if j = c then UInt32.ofInt (A u l₀) else 0 := by
        intro j _
        rw [dot_probeCol]
        by_cases hj : j = c
        · rw [if_pos ⟨hj, hn⟩, if_pos hj]
        · rw [if_neg fun h => hj h.1, if_neg hj]
          rfl
      rw [xorSum_congr hterm, xorSum_single, if_pos hodd]
    · rw [if_neg hn]
      apply xorSum_eq_zero
      intro j _
      rw [dot_probeCol, if_neg fun h => hn h.2]
      rfl
  by_cases hn : l₀ < n
  · rw [if_pos hn]
    apply xorSum_congr
    intro u _
    rw [hrow, if_pos hn]
  · rw [if_neg hn]
    apply xorSum_eq_zero
    intro u _
    rw [hrow, if_neg hn]

/-- The word of the last round, with the last position of that round. -/
theorem directWord_probe {is : List (ℕ × UInt32)} {A : ℕ × UInt32 → ℕ → ℤ} {js : List UInt32}
    {r last : ℕ} (hodd : Odd (js.count c)) (hlast : k / r = last + 1)
    (hl₀ : l₀ + 1 = (last + 1) * r) :
    directWord (is.map A) (js.map (probeCol l₀ c)) k r (last % 16) =
      xorSum (fun u => UInt32.ofInt (A u l₀)) is := by
  have hearlier : ∀ s < last, stepWord (is.map A) (js.map (probeCol l₀ c)) ((s + 1) * r) = 0 := by
    intro s hs
    have hle : (s + 1) * r ≤ last * r := Nat.mul_le_mul_right r hs
    have hlt : last * r ≤ l₀ := by
      have hpos : r ≠ 0 := by
        rintro rfl
        rw [Nat.div_zero] at hlast
        cases hlast
      rw [Nat.succ_mul] at hl₀
      omega
    rw [stepWord_probe hodd, if_neg (hle.trans hlt).not_gt]
  have hword : directWord (is.map A) (js.map (probeCol l₀ c)) k r (last % 16) =
      Slots.word 16 (fun m x => rotateLeft13 m ^^^ x) 0
        (fun s => stepWord (is.map A) (js.map (probeCol l₀ c)) ((s + 1) * r)) (last + 1)
        (last % 16) := by
    rw [directWord, hlast]
    rfl
  rw [hword, Slots.word_succ, if_pos rfl, Slots.word_eq_init, stepWord_probe hodd, if_pos]
  · exact UInt32.zero_xor
  · rw [← hl₀]
    exact Nat.lt_succ_self _
  · intro s hs
    rw [hearlier s hs]
    rfl

/-- The hash of a probe is one word of the message. -/
theorem jackpotHash_probe (xof : ℕ → UInt8) (W : ℕ → UInt32) (hslot : slot < 16) :
    (probeLibrary i slot xof swap).jackpotHash ((List.range 16).map W) probeSeed =
      seedLabel (LittleEndian.bytesOf 4 (W slot).toNat) := by
  have hslot' : slot < (List.range 16).length := by rwa [List.length_range]
  have hcut := @take_drop_flatMap _ 4 _ (fun t => LittleEndian.bytesOf 4 (W t).toNat)
    (List.range 16) (fun _ _ => LittleEndian.length_bytesOf _ _) slot hslot'
  rw [Nat.mul_comm, List.getElem_range] at hcut
  unfold Library.jackpotHash probeLibrary
  dsimp only
  rw [if_pos rfl, List.flatMap_map, hcut]

theorem seedLabel_bytesOf_injective {x y : UInt32}
    (h : seedLabel (LittleEndian.bytesOf 4 x.toNat) = seedLabel (LittleEndian.bytesOf 4 y.toNat)) :
    x = y := by
  have htake : ∀ z : UInt32, (seedLabel (LittleEndian.bytesOf 4 z.toNat)).bytes.take 4 =
      LittleEndian.bytesOf 4 z.toNat := fun _ => rfl
  have hvalue : ∀ z : UInt32, LittleEndian.value (LittleEndian.bytesOf 4 z.toNat) = z.toNat := by
    intro z
    rw [LittleEndian.value_bytesOf, Nat.mod_eq_of_lt (z.toNat_lt.trans_le (by norm_num))]
  apply UInt32.toNat_inj.mp
  rw [← hvalue x, ← hvalue y, ← htake x, ← htake y, h]

theorem agree_probeRow {xof : ℕ → UInt8} (he : 0 < e) (he' : e < 32) (ha : |a| ≤ 127)
    {u : ℕ × UInt32} (hu : u ∈ (List.range rows.length).zip rows) :
    Agree k (secretARow (probeSlice e k l₀ i a rows) k u.1,
      applySparsePermutation ((probeLibrary i slot xof swap).generatePermutationMatrix (rowKey i)
        (rowKey i) k (2 ^ e)) (Ref.uniformRow (rowKey i) (2 ^ e) u.2))
      (probeRow e l₀ i a swap u) := by
  obtain ⟨n, hn, rfl⟩ := List.mem_iff_getElem.mp hu
  rw [List.length_zip, List.length_range, min_self] at hn
  rw [List.getElem_zip, List.getElem_range]
  intro l hl
  rw [secretARow_probe ha he hn hl, refNoise_getD he he' probe_aPairs _ _ hl, probeRow,
    List.getD_eq_getElem _ _ hn]

theorem agree_probeCol {xof : ℕ → UInt8} (he : 0 < e) (he' : e < 32) {n : ℕ} {j : UInt32}
    (hj : j.toNat < n) :
    Agree k ((((List.range (k * n)).map (probeColumns e k l₀ c)).drop (j.toNat * k)).take k |>.map
      UInt8.toInt8, applySparsePermutation ((probeLibrary i slot xof swap).generatePermutationMatrix
        (.fill 0) (.fill 0) k (2 ^ e)) (Ref.uniformRow (.fill 0) (2 ^ e) j)) (probeCol l₀ c j) := by
  intro l hl
  rw [secretB_probe he hj hl, refNoise_getD he he' probe_bPairs _ _ hl, probeCol]
  exact sub_add_cancel _ _

/-- The reference with a probe. -/
theorem Ref.computeClaimedHash_probe {cfg : MiningConfig} {cols : List UInt32} {last : ℕ}
    (hr : cfg.r.val = 2 ^ e) (he : 0 < e) (he' : e < 32) (ha : |a| ≤ 127)
    (hcols : ∀ j ∈ cols, j.toNat < cfg.n.val) (hodd : Odd (cols.count c))
    (hlast : cfg.k.val / cfg.r.val = last + 1) (hl₀ : l₀ + 1 = (last + 1) * cfg.r.val)
    (bSeed jobKey hashA hashB : Bytes32) :
    Ref.computeClaimedHash (probeLibrary i (last % 16) (probeColumns e cfg.k.val l₀ c) swap) cfg
        rows cols (probeSlice e cfg.k.val l₀ i a rows) bSeed jobKey hashA hashB =
      seedLabel (LittleEndian.bytesOf 4 (xorSum (fun u =>
        UInt32.ofInt (probeRow e l₀ i a swap u l₀))
        ((List.range rows.length).zip rows)).toNat) := by
  rw [Ref.computeClaimedHash_eq _ hr he he']
  simp only [deriveNoiseSeeds_probe, Ref.blake3KeyForLabel, probe_aLabel, probe_aKey,
    probe_bKey seedLabelB (.inl rfl), probe_bKey (.fill 0) (.inr rfl),
    Ref.generatePermutationMatrix]
  have hwords := @jackpotHash_probe (last % 16) i swap (probeColumns e cfg.k.val l₀ c)
    (directWord (((List.range rows.length).zip rows).map (probeRow e l₀ i a swap))
      (cols.map (probeCol l₀ c)) cfg.k.val cfg.r.val) (Nat.mod_lt last (by norm_num))
  rw [directWord_probe hodd hlast hl₀] at hwords
  rw [← hwords]
  refine congrArg (fun w => Library.jackpotHash _ w probeSeed) (msg_eq_directWord ?_ ?_)
  · intro u hu
    exact agree_probeRow he he' ha hu
  · intro j hj
    exact agree_probeCol he he' (hcols j hj)

/-- Two probes with the same columns and rows look the same to the share builder. -/
theorem computeClaimedHash_probe_swap (xof : ℕ → UInt8) (cfg : MiningConfig) (share : ShareFound)
    (jobKey hashA hashB : Bytes32) :
    (probeLibrary i slot xof false).computeClaimedHash cfg share jobKey hashA hashB =
      (probeLibrary i slot xof true).computeClaimedHash cfg share jobKey hashA hashB := by
  apply Library.computeClaimedHash_congr rfl rfl rfl
  rintro key (rfl | rfl) data
  · rw [deriveNoiseSeeds_probe]
  · rw [deriveNoiseSeeds_probe]

/-- The word of a probe: the number of the first row shows, and what the other rows give does not
depend on it. -/
theorem xorSum_probeRow (he : 0 < e) (rest : List UInt32) (a : ℤ) (swap : Bool) :
    xorSum (fun u => UInt32.ofInt (probeRow e l₀ i a swap u l₀))
        ((List.range (i :: rest).length).zip (i :: rest)) =
      UInt32.ofInt (a + if swap then 45 else -45) ^^^
        xorSum (fun u => UInt32.ofInt (probeRow e l₀ i 0 swap (u.1 + 1, u.2) l₀))
          ((List.range rest.length).zip rest) := by
  rw [List.length_cons, List.range_succ_eq_map, List.zip_cons_cons, xorSum_cons,
    List.zip_map_left, xorSum_map]
  refine congrArg₂ (· ^^^ ·) ?_ ?_
  · rw [probeRow, if_pos rfl, if_pos rfl, refNoise_rowKey he]
    rfl
  · apply xorSum_congr
    intro u _
    rfl

/-- No two words can hide the noise of the first row, once it is added and once taken away. -/
theorem probe_words_ne {x y : UInt32}
    (hpos : UInt32.ofInt (45 + -45) ^^^ x = UInt32.ofInt (45 + 45) ^^^ y)
    (hneg : UInt32.ofInt (-45 + -45) ^^^ x = UInt32.ofInt (-45 + 45) ^^^ y) : False := by
  have hx : x = UInt32.ofInt (45 + 45) ^^^ y := UInt32.zero_xor.symm.trans hpos
  have hy : UInt32.ofInt (-45 + -45) ^^^ x = y := hneg.trans UInt32.zero_xor
  rw [hx, ← UInt32.xor_assoc] at hy
  have hzero : UInt32.ofInt (-45 + -45) ^^^ UInt32.ofInt (45 + 45) = 0 := by
    have hcancel := congrArg (fun z => z ^^^ y) hy
    simpa only [UInt32.xor_assoc, UInt32.xor_self, UInt32.xor_zero] using hcancel
  revert hzero
  decide

end Product

/-! ### The shares on which they agree -/

/-- A share with products has BLAKE3 functions and rows on which the two differ. -/
theorem silent_of_agreesWithReference {cfg : MiningConfig} {share : ShareFound} {e : ℕ}
    {jobKey hashA hashB : Bytes32} (hr : cfg.r.val = 2 ^ e) (he : 0 < e) (he' : e < 32)
    (hcols : ∀ j ∈ share.bColIndices, j.toNat < cfg.n.val)
    (h : AgreesWithReference cfg share jobKey hashA hashB) : Silent cfg share := by
  by_contra hsilent
  obtain ⟨hrounds, hrows, hodd⟩ : cfg.k.val / cfg.r.val ≠ 0 ∧ share.aRowIndices ≠ [] ∧
      ∃ c ∈ share.bColIndices, ¬ Even (share.bColIndices.count c) := by
    simpa only [Silent, not_or, not_forall, exists_prop] using hsilent
  obtain ⟨last, hlast⟩ := Nat.exists_eq_succ_of_ne_zero hrounds
  obtain ⟨i, rest, hrest⟩ := List.exists_cons_of_ne_nil hrows
  obtain ⟨c, -, hc⟩ := hodd
  have hrank : 0 < cfg.r.val := hr ▸ Nat.two_pow_pos e
  have hend : ((last + 1) * cfg.r.val - 1) + 1 = (last + 1) * cfg.r.val :=
    Nat.sub_add_cancel (Nat.mul_pos (Nat.succ_pos last) hrank)
  generalize (last + 1) * cfg.r.val - 1 = l₀ at hend
  -- the builder does not see in which order the pairs are, so the words of the reference agree
  have hword : ∀ a : ℤ, |a| ≤ 127 →
      xorSum (fun u => UInt32.ofInt (probeRow e l₀ i a false u l₀))
        ((List.range (i :: rest).length).zip (i :: rest)) =
      xorSum (fun u => UInt32.ofInt (probeRow e l₀ i a true u l₀))
        ((List.range (i :: rest).length).zip (i :: rest)) := by
    intro a ha
    have hprobe := fun swap => h
      (probeLibrary i (last % 16) (probeColumns e cfg.k.val l₀ c) swap)
      (probeSlice e cfg.k.val l₀ i a (i :: rest)) probeLibrary_expandsXof
      (by rw [length_probeSlice, hrest])
    have hsame := (hprobe false).symm.trans
      ((computeClaimedHash_probe_swap _ _ _ _ _ _).trans (hprobe true))
    rw [hrest, Except.ok.injEq,
      Ref.computeClaimedHash_probe hr he he' ha hcols (Nat.not_even_iff_odd.mp hc) hlast hend,
      Ref.computeClaimedHash_probe hr he he' ha hcols (Nat.not_even_iff_odd.mp hc) hlast hend]
      at hsame
    exact seedLabel_bytesOf_injective hsame
  have hpos := hword 45 (by norm_num)
  have hneg := hword (-45) (by norm_num)
  rw [xorSum_probeRow he, xorSum_probeRow he] at hpos hneg
  exact probe_words_ne hpos hneg

/-- On rows and columns that are in bounds the share builder and the reference agree for all
BLAKE3 functions and all opened rows only if there are no products. -/
theorem agreesWithReference_iff (cfg : MiningConfig) (share : ShareFound)
    (jobKey hashA hashB : Bytes32) (e : ℕ) (hr : cfg.r.val = 2 ^ e) (he : 0 < e)
    (hcols : ∀ j ∈ share.bColIndices, j.toNat < cfg.n.val) :
    AgreesWithReference cfg share jobKey hashA hashB ↔ Silent cfg share := by
  have he' : e < 32 := by
    have hlt : 2 ^ e < 2 ^ 31 := hr ▸ cfg.r.lt
    exact (Nat.pow_lt_pow_iff_right (by norm_num)).mp hlt |>.trans (by norm_num)
  exact ⟨silent_of_agreesWithReference hr he he' hcols,
    fun h => h.agreesWithReference hr he he' hcols jobKey hashA hashB⟩

/-- One row and one column do not cancel, the column twice does. -/
theorem agreesWithReference_iff_echo :
    echoConfig.r.val = 2 ^ 1 ∧
    ¬ AgreesWithReference echoConfig echoShare (.fill 0) (.fill 0) (.fill 0) ∧
    AgreesWithReference echoConfig { echoShare with bColIndices := [0, 0] } (.fill 0) (.fill 0)
      (.fill 0) := by
  refine ⟨rfl, ?_, ?_⟩
  · rw [agreesWithReference_iff echoConfig echoShare _ _ _ 1 rfl Nat.one_pos
      (List.forall_mem_singleton.mpr (by decide))]
    decide
  · rw [agreesWithReference_iff echoConfig { echoShare with bColIndices := [0, 0] } _ _ _ 1 rfl
      Nat.one_pos (List.forall_mem_cons.mpr ⟨by decide, List.forall_mem_singleton.mpr (by decide)⟩)]
    decide

/-- Keyed hashes that show the message, and a hash whose output is zero: the columns of the
builder are then all -63, those of the reference zero. -/
def plainLibrary : Library :=
  { echoLibrary with
    blake3Xof := fun _ _ _ => 0
    bseedExpandRangeRaw := fun _ _ _ => .ok fun _ => mapInt7 0 }

/-- Row 1 and column 0, with four positions and a rank of two: two words of the message, and none
is the same. -/
theorem reference_ne_plain :
    plainLibrary.ExpandsXof ∧
    echoShare.aSlice.length = echoShare.aRowIndices.length * echoConfig.k.val ∧
    plainLibrary.computeClaimedHash echoConfig echoShare (.fill 0) (.fill 0) (.fill 0) =
      .ok (seedLabel [66, 255, 255, 255, 194, 14, 0, 0]) ∧
    Ref.computeClaimedHash plainLibrary echoConfig echoShare.aRowIndices echoShare.bColIndices
      echoShare.aSlice echoShare.job.bSeed (.fill 0) (.fill 0) (.fill 0) =
        seedLabel [251, 9, 0, 0, 237, 37, 0, 0] ∧
    ¬ AgreesWithReference echoConfig echoShare (.fill 0) (.fill 0) (.fill 0) := by
  have hexpands : plainLibrary.ExpandsXof :=
    ⟨fun _ _ => 0, fun _ _ _ => rfl, fun _ _ _ => rfl⟩
  have hhost : plainLibrary.computeClaimedHash echoConfig echoShare (.fill 0) (.fill 0) (.fill 0) =
      .ok (seedLabel [66, 255, 255, 255, 194, 14, 0, 0]) := by decide +kernel
  have href : Ref.computeClaimedHash plainLibrary echoConfig echoShare.aRowIndices
      echoShare.bColIndices echoShare.aSlice echoShare.job.bSeed (.fill 0) (.fill 0) (.fill 0) =
        seedLabel [251, 9, 0, 0, 237, 37, 0, 0] := by decide +kernel
  refine ⟨hexpands, rfl, hhost, href, fun hagree => ?_⟩
  have hsame := hhost.symm.trans (hagree plainLibrary echoShare.aSlice hexpands rfl)
  rw [href] at hsame
  revert hsame
  decide +kernel

end PropMiner.Share
