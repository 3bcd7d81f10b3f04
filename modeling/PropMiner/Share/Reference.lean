import PropMiner.Semantics.Xor
import PropMiner.Share.Columns

/-!
# The reference of the host tests

The tests have a claimed hash of their own, `ref::compute_claimed_hash`. Seeds, products and
transcript are those of the share builder; the noise is not. The reference derives a key from the
label and the seed twice over, fills its uniform rows with a generator of its own, and it takes the
columns of `B` from the raw output of the hash, where the library maps every byte to 7 bits.

The three BLAKE3 functions are the same in both and otherwise arbitrary. The two agree on a share
whose transcript has no products: no whole round, no row, or only columns that cancel.

A rank that is not a power of two leads both out of their rows of noise, and a column from `n` on
leads the reference out of its matrix; then nothing is compared.

## Main definitions

* `splitmix64`, `lcgInt7Fill` — the generator of the reference
* `Ref.computeClaimedHash` — the reference
* `AgreesWithReference` — the same hash, whatever the BLAKE3 functions are

## Main results

* `Silent.agreesWithReference` — a share without products
-/

set_option autoImplicit false

namespace PropMiner.Share

open PropMiner.Semantics

/-! ### The reference -/

/-- `splitmix64` -/
def splitmix64 (z : UInt64) : UInt64 :=
  let z := z + 0x9E3779B97F4A7C15
  let z := z ^^^ (z >>> 30)
  let z := z * 0xBF58476D1CE4E5B9
  let z := z ^^^ (z >>> 27)
  let z := z * 0x94D049BB133111EB
  z ^^^ (z >>> 31)

/-- One of the eight bytes of a word as a number from -63 to 63. -/
def int7Lane (z : UInt64) (b : ℕ) : Int8 :=
  Int8.ofInt ((((z >>> UInt64.ofNat (b * 8)) &&& 0xFF).toNat % 127 : ℕ) - 63)

/-- `lcg_int7_fill` of `n` bytes: whole words, and a part of one more. -/
def lcgInt7Fill (n : ℕ) (seedLo seedHi : UInt64) : List Int8 :=
  let baseSeed := splitmix64 (seedLo ^^^ splitmix64 seedHi)
  let n8 := n / 8
  ((List.range n8).flatMap fun i =>
    (List.range 8).map (int7Lane (splitmix64 (baseSeed + UInt64.ofNat i)))) ++
  (List.range (n - n8 * 8)).map (int7Lane (splitmix64 (baseSeed + UInt64.ofNat n8)))

namespace Ref

variable (L : Library)

/-- `blake3_key_from_seed` -/
def blake3KeyFromSeed (label noiseSeed : Bytes32) : Bytes32 :=
  L.blake3Keyed (label.bytes ++ noiseSeed.bytes) label

/-- `blake3_key_for_label`; `label` is the text with zeros behind it. -/
def blake3KeyForLabel (label noiseSeed : Bytes32) : Bytes32 := blake3KeyFromSeed L label noiseSeed

/-- One row of `generate_uniform_random_matrix`, from the key that all rows share. -/
def uniformRow (key : Bytes32) (numCols : ℕ) (row : UInt32) : List Int8 :=
  let seedLo := UInt64.ofNat (LittleEndian.value (key.bytes.take 8))
  let seedHi := UInt64.ofNat (LittleEndian.value ((key.bytes.drop 8).take 8))
  lcgInt7Fill numCols (seedLo ^^^ row.toUInt64) seedHi

/-- `generate_uniform_random_matrix`, the rows one after the other -/
def generateUniformRandomMatrix (label noiseSeed : Bytes32) (rowIndices : List UInt32)
    (numCols : ℕ) : List Int8 :=
  rowIndices.flatMap (uniformRow (blake3KeyFromSeed L label noiseSeed) numCols)

/-- `generate_permutation_matrix`: that of the share builder, with another key -/
def generatePermutationMatrix (label noiseSeed : Bytes32) (k noiseRank : ℕ) :
    List PermutationPair :=
  L.generatePermutationMatrix label (blake3KeyFromSeed L label noiseSeed) k noiseRank

/-- The rows of noise: row `i` begins at position `i * r` of the uniform noise. -/
def noiseRows (label noiseSeed : Bytes32) (indices : List UInt32) (k r : ℕ) : List (List Int8) :=
  let uniform := generateUniformRandomMatrix L label noiseSeed indices r
  let perm := generatePermutationMatrix L label noiseSeed k r
  (List.range indices.length).map fun i => applySparsePermutation perm (uniform.drop (i * r))

/-- The opened columns: cut out of all of `B`, which is the output of the hash as it is. -/
def secretB (cfg : MiningConfig) (bSeed : Bytes32) (bColIndices : List UInt32) :
    List (List UInt8) :=
  let len := cfg.k.val * cfg.n.val
  let bFull := (List.range len).map (L.blake3Xof bSeed.bytes len)
  bColIndices.map fun col => (bFull.drop (col.toNat * cfg.k.val)).take cfg.k.val

/-- `ref::compute_claimed_hash` -/
def computeClaimedHash (cfg : MiningConfig) (aRowIndices bColIndices : List UInt32)
    (aSlice : List UInt8) (bSeed jobKey hashA hashB : Bytes32) : Bytes32 :=
  let k := cfg.k.val
  let r := cfg.r.val
  let (bNoiseSeed, aNoiseSeed) := L.deriveNoiseSeeds jobKey hashA hashB
  let rows := (List.range aRowIndices.length).map (secretARow aSlice k)
  let columns := secretB L cfg bSeed bColIndices
  let aLabel := blake3KeyForLabel L seedLabelA aNoiseSeed
  let noiseA := noiseRows L aLabel aNoiseSeed aRowIndices k r
  let bLabel := blake3KeyForLabel L seedLabelB bNoiseSeed
  let noiseB := noiseRows L bLabel bNoiseSeed bColIndices k r
  L.jackpotHash (jackpotTranscript (rows.zip noiseA)
    ((columns.map (List.map UInt8.toInt8)).zip noiseB) k r).msg aNoiseSeed

end Ref

/-- `map_xof_bytes_to_int7` of the library -/
def mapInt7 (b : UInt8) : UInt8 := ((b % 127).toInt8 - 63).toUInt8

/-- `bseed_expand_range` of the library is a piece of the hash's output, mapped byte by byte. -/
def Library.ExpandsXof (L : Library) : Prop :=
  ∃ xof : List UInt8 → ℕ → UInt8, (∀ data len i, L.blake3Xof data len i = xof data i) ∧
    L.ExpandsAs fun bseed i => mapInt7 (xof bseed.bytes i.toNat)

/-- For these rows and columns the share builder and the reference give the same hash, whatever
the opened rows of `A` and the BLAKE3 functions are. -/
def AgreesWithReference (cfg : MiningConfig) (share : ShareFound) (jobKey hashA hashB : Bytes32) :
    Prop :=
  ∀ (L : Library) (aSlice : List UInt8), L.ExpandsXof →
    aSlice.length = share.aRowIndices.length * cfg.k.val →
    L.computeClaimedHash cfg { share with aSlice } jobKey hashA hashB =
      .ok (Ref.computeClaimedHash L cfg share.aRowIndices share.bColIndices aSlice share.job.bSeed
        jobKey hashA hashB)

/-! ### The generator -/

section Generator

theorem toInt_int7Lane (z : UInt64) (b : ℕ) :
    (int7Lane z b).toInt = (((z >>> UInt64.ofNat (b * 8)) &&& 0xFF).toNat % 127 : ℕ) - 63 :=
  Int8.toInt_ofInt_of_le (by omega) (by omega)

theorem abs_int7Lane_le (z : UInt64) (b : ℕ) : |(int7Lane z b).toInt| ≤ 63 := by
  rw [toInt_int7Lane]
  exact abs_le.mpr ⟨by omega, by omega⟩

theorem lcgInt7Fill_eq (n : ℕ) (seedLo seedHi : UInt64) :
    lcgInt7Fill n seedLo seedHi = (List.range n).map fun i =>
      int7Lane (splitmix64 (splitmix64 (seedLo ^^^ splitmix64 seedHi) + UInt64.ofNat (i / 8)))
        (i % 8) := by
  have hsplit : n = n / 8 * 8 + (n - n / 8 * 8) := by omega
  conv_rhs => rw [hsplit, List.range_add, List.map_append, List.map_map, ← flatMap_range_mul]
  refine congrArg₂ (· ++ ·) ?_ ?_
  · apply List.flatMap_congr
    intro i _
    apply List.map_congr_left
    intro b hb
    have hlt := List.mem_range.mp hb
    have hdiv : (i * 8 + b) / 8 = i := by omega
    have hmod : (i * 8 + b) % 8 = b := by omega
    rw [hdiv, hmod]
  · apply List.map_congr_left
    intro b hb
    have hlt := List.mem_range.mp hb
    have hdiv : (n / 8 * 8 + b) / 8 = n / 8 := by omega
    have hmod : (n / 8 * 8 + b) % 8 = b := by omega
    rw [Function.comp_apply, hdiv, hmod]

theorem length_lcgInt7Fill (n : ℕ) (seedLo seedHi : UInt64) :
    (lcgInt7Fill n seedLo seedHi).length = n := by
  rw [lcgInt7Fill_eq, List.length_map, List.length_range]

theorem lcgInt7Fill_getD {n i : ℕ} (hi : i < n) (seedLo seedHi : UInt64) :
    (lcgInt7Fill n seedLo seedHi).getD i 0 =
      int7Lane (splitmix64 (splitmix64 (seedLo ^^^ splitmix64 seedHi) + UInt64.ofNat (i / 8)))
        (i % 8) := by
  rw [lcgInt7Fill_eq, List.getD_eq_getElem _ _ (by simpa using hi), List.getElem_map,
    List.getElem_range]

end Generator

/-! ### Shares without products -/

section Silent

variable {e k : ℕ} {indices : List UInt32}

/-- With a power of two as rank the reference stays in the row of noise it is at. -/
theorem Ref.noiseRows_eq (L : Library) (label noiseSeed : Bytes32) (he : 0 < e) (he' : e < 32) :
    Ref.noiseRows L label noiseSeed indices k (2 ^ e) = indices.map fun i =>
      applySparsePermutation (Ref.generatePermutationMatrix L label noiseSeed k (2 ^ e))
        (Ref.uniformRow (Ref.blake3KeyFromSeed L label noiseSeed) (2 ^ e) i) := by
  unfold Ref.noiseRows
  dsimp only
  apply List.ext_getElem
  · rw [List.length_map, List.length_map, List.length_range]
  · intro u _ hu
    rw [List.length_map] at hu
    rw [List.getElem_map, List.getElem_map, List.getElem_range]
    apply List.map_congr_left
    intro p hp
    rw [Ref.generatePermutationMatrix, Library.generatePermutationMatrix_eq] at hp
    obtain ⟨l, -, rfl⟩ := List.mem_map.mp hp
    obtain ⟨hfirst, hsecond, -⟩ := permutationPair_lt L label
      (Ref.blake3KeyFromSeed L label noiseSeed) he he' l
    have hlength : ∀ i ∈ indices, (Ref.uniformRow (Ref.blake3KeyFromSeed L label noiseSeed) (2 ^ e)
        i).length = 2 ^ e := fun _ _ => length_lcgInt7Fill _ _ _
    rw [Ref.generateUniformRandomMatrix, getD_drop_flatMap hlength hu hfirst,
      getD_drop_flatMap hlength hu hsecond]

/-- What a round contributes, column by column for each row. -/
theorem xorAll_products {κ : Type*} (rows : List (List Int8 × List Int8)) (js : List κ)
    (col : κ → List Int8 × List Int8) (n : ℕ) :
    xorAll (products rows (js.map col) n) = xorSum (fun row => xorSum (fun j =>
      UInt32.ofInt (stepSum row.1 row.2 (col j).1 (col j).2 0 n)) js) rows := by
  rw [xorAll, products, ← List.flatMap_def, foldl_xor, UInt32.zero_xor, xorSum_flatMap]
  apply xorSum_congr
  intro row _
  rw [xorSum_map, xorSum_map]

/-- No whole round, no row, or no column but in pairs. -/
def Silent (cfg : MiningConfig) (share : ShareFound) : Prop :=
  cfg.k.val / cfg.r.val = 0 ∨ share.aRowIndices = [] ∨
    ∀ j ∈ share.bColIndices, Even (share.bColIndices.count j)

instance (cfg : MiningConfig) (share : ShareFound) : Decidable (Silent cfg share) :=
  have : Decidable (∀ j ∈ share.bColIndices, Even (share.bColIndices.count j)) :=
    List.decidableBAll (fun j : UInt32 => Even (share.bColIndices.count j)) share.bColIndices
  inferInstanceAs (Decidable (_ ∨ _ ∨ _))

/-- Then the words are those of rounds that contribute nothing. -/
theorem Silent.msg_eq {cfg : MiningConfig} {share : ShareFound} (h : Silent cfg share)
    (row : ℕ × UInt32 → List Int8 × List Int8) (col : UInt32 → List Int8 × List Int8) :
    (jackpotTranscript (((List.range share.aRowIndices.length).zip share.aRowIndices).map row)
      (share.bColIndices.map col) cfg.k.val cfg.r.val).msg =
        hostFold (fun _ => 0) (cfg.k.val / cfg.r.val) := by
  rw [jackpotTranscript_msg]
  apply Slots.fold_congr
  intro s hs
  rw [xorAll_products]
  rcases h with hrounds | hrows | hcols
  · omega
  · rw [hrows]
    rfl
  · exact xorSum_eq_zero fun _ _ => xorSum_of_even _ hcols

/-- The hash of the share builder, with columns that are cut out of streams. -/
theorem computeClaimedHash_of_expandsAs {L : Library} {stream : Bytes32 → UInt64 → UInt8}
    (hstream : L.ExpandsAs stream) {cfg : MiningConfig} (share : ShareFound)
    (hcols : ∀ j ∈ share.bColIndices, j.toNat < cfg.n.val) (jobKey hashA hashB : Bytes32) :
    L.computeClaimedHash cfg share jobKey hashA hashB =
      .ok (L.jackpotHash (jackpotTranscript
        (L.noisyRows cfg share (L.deriveNoiseSeeds jobKey hashA hashB).2)
        (L.noisyCols cfg (share.bColIndices.map (columnOf (stream share.job.bSeed) cfg.k.val))
          share.bColIndices (L.deriveNoiseSeeds jobKey hashA hashB).1) cfg.k.val cfg.r.val).msg
        (L.deriveNoiseSeeds jobKey hashA hashB).2) := by
  rw [L.computeClaimedHash_eq, Library.secretB_eq hstream hcols]
  rfl

/-- The reference, row by row and column by column. -/
theorem Ref.computeClaimedHash_eq (L : Library) {cfg : MiningConfig} (hr : cfg.r.val = 2 ^ e)
    (he : 0 < e) (he' : e < 32) (rows cols : List UInt32) (aSlice : List UInt8)
    (bSeed jobKey hashA hashB : Bytes32) :
    let bNoiseSeed := (L.deriveNoiseSeeds jobKey hashA hashB).1
    let aNoiseSeed := (L.deriveNoiseSeeds jobKey hashA hashB).2
    let aLabel := Ref.blake3KeyForLabel L seedLabelA aNoiseSeed
    let bLabel := Ref.blake3KeyForLabel L seedLabelB bNoiseSeed
    let bFull := (List.range (cfg.k.val * cfg.n.val)).map
      (L.blake3Xof bSeed.bytes (cfg.k.val * cfg.n.val))
    Ref.computeClaimedHash L cfg rows cols aSlice bSeed jobKey hashA hashB =
      L.jackpotHash (jackpotTranscript
        (((List.range rows.length).zip rows).map fun u => (secretARow aSlice cfg.k.val u.1,
          applySparsePermutation (Ref.generatePermutationMatrix L aLabel aNoiseSeed cfg.k.val
              (2 ^ e))
            (Ref.uniformRow (Ref.blake3KeyFromSeed L aLabel aNoiseSeed) (2 ^ e) u.2)))
        (cols.map fun j => (((bFull.drop (j.toNat * cfg.k.val)).take cfg.k.val).map UInt8.toInt8,
          applySparsePermutation (Ref.generatePermutationMatrix L bLabel bNoiseSeed cfg.k.val
              (2 ^ e))
            (Ref.uniformRow (Ref.blake3KeyFromSeed L bLabel bNoiseSeed) (2 ^ e) j)))
        cfg.k.val cfg.r.val).msg aNoiseSeed := by
  intro bNoiseSeed aNoiseSeed aLabel bLabel bFull
  unfold Ref.computeClaimedHash
  dsimp only
  rw [hr, Ref.noiseRows_eq L _ _ he he', Ref.noiseRows_eq L _ _ he he', List.zip_map, Ref.secretB,
    List.map_map, List.zip_map']
  rfl

/-- Without products both hash the same words. -/
theorem Silent.agreesWithReference {cfg : MiningConfig} {share : ShareFound}
    (h : Silent cfg share) (hr : cfg.r.val = 2 ^ e) (he : 0 < e) (he' : e < 32)
    (hcols : ∀ j ∈ share.bColIndices, j.toNat < cfg.n.val) (jobKey hashA hashB : Bytes32) :
    AgreesWithReference cfg share jobKey hashA hashB := by
  rintro L aSlice ⟨xof, -, hstream⟩ -
  have hhost := computeClaimedHash_of_expandsAs hstream { share with aSlice } hcols jobKey hashA
    hashB
  rw [L.noisyRows_eq, L.noisyCols_eq, zip_map_left_self, List.map_map] at hhost
  rw [hhost, Ref.computeClaimedHash_eq L hr he he']
  dsimp only
  rw [h.msg_eq, h.msg_eq]

end Silent

end PropMiner.Share
