import PropMiner.Share.Types

/-!
# The claimed hash

`ShareBuilder::compute_claimed_hash`: noise seeds from the job key and the two roots,
noise matrices from the seeds, the noised rows and columns multiplied step by step, and
a hash over the sixteen words into which the products of each step are folded.

Accumulators are integers; they enter the message words modulo `2 ^ 32`. A read behind
the end of a buffer, which has no meaning in the source, gives zero, and a noise rank of
zero, with which the source divides, gives no rounds.

## Main definitions

* `deriveNoiseSeeds`, `generateUniformRandomMatrix`, `generatePermutationMatrix`
* `Library.computeClaimedHash`
-/

set_option autoImplicit false

namespace PropMiner.Share

open PropMiner.Semantics

/-- A text in a 32-byte label, padded with zeros. -/
def seedLabel (s : List UInt8) : Bytes32 :=
  ⟨(s ++ List.replicate 32 0).take 32, by simp⟩

/-- `SEED_LABEL_A`: `A_tensor` -/
def seedLabelA : Bytes32 := seedLabel [0x41, 0x5F, 0x74, 0x65, 0x6E, 0x73, 0x6F, 0x72]

/-- `SEED_LABEL_B`: `B_tensor` -/
def seedLabelB : Bytes32 := seedLabel [0x42, 0x5F, 0x74, 0x65, 0x6E, 0x73, 0x6F, 0x72]

/-- `mul_hi_u32` -/
def mulHiU32 (a b : UInt32) : UInt32 := ((a.toUInt64 * b.toUInt64) >>> 32).toUInt32

/-- `PermutationPair` -/
structure PermutationPair where
  first : UInt32
  second : UInt32
  deriving DecidableEq, Repr

/-- `static_cast<int>` of a number that is not negative. -/
def toInt (x : ℕ) : ℤ := (x : ℤ).bmod (2 ^ 32)

/-- `apply_sparse_permutation_into` -/
def applySparsePermutation (perm : List PermutationPair) (row : List Int8) : List Int8 :=
  perm.map fun p => row.getD p.first.toNat 0 - row.getD p.second.toNat 0

namespace Library

variable (L : Library)

/-- `get_random_hash`: the index stands in one of the eight words before the seed. -/
def getRandomHash (index : UInt32) (seed key : Bytes32) (prependIndex : ℕ) : Bytes32 :=
  L.blake3Keyed
    (List.replicate (4 * prependIndex) 0 ++ LittleEndian.bytesOf 4 (index + 1).toNat ++
      List.replicate (28 - 4 * prependIndex) 0 ++ seed.bytes) key

/-- The entries of one row: those bytes of its blocks that lie between the row's first and
last position. -/
def uniformRow (seed key : Bytes32) (rowIndex : UInt32) (numCols : ℕ) : List Int8 :=
  let startIndex := rowIndex.toNat * numCols
  let endIndex := startIndex + numCols
  let startBlock := toInt (startIndex / 32)
  let endBlock := toInt ((endIndex + 31) / 32)
  let written := (List.range (endBlock - startBlock).toNat).flatMap fun (b : ℕ) =>
    let block := startBlock + (b : ℤ)
    let hash := L.getRandomHash (UInt32.ofInt block) seed key 0
    (List.range 32).filterMap fun (i : ℕ) =>
      let absIdx := block * 32 + (i : ℤ)
      if absIdx < startIndex || endIndex ≤ absIdx then none
      else some (Int8.ofInt (((hash.bytes.getD i 0 &&& 63).toNat : ℤ) - 32))
  -- the row is zeroed before it is written
  written ++ List.replicate (numCols - written.length) 0

/-- `generate_uniform_random_matrix` -/
def generateUniformRandomMatrix (seed key : Bytes32) (rowIndices : List UInt32) (numCols : ℕ) :
    List (List Int8) :=
  rowIndices.map fun row => L.uniformRow seed key row numCols

/-- `generate_permutation_matrix` -/
def generatePermutationMatrix (seed key : Bytes32) (k noiseRank : ℕ) : List PermutationPair :=
  let rankMask := UInt32.ofNat (noiseRank - 1)
  (List.range ((k + 7) / 8)).flatMap fun chunk =>
    let hash := L.getRandomHash (UInt32.ofNat chunk) seed key 1
    (List.range (min 8 (k - chunk * 8))).map fun j =>
      let rand := UInt32.ofNat (LittleEndian.value ((hash.bytes.drop (j * 4)).take 4))
      let first := rand &&& rankMask
      ⟨first, first ^^^ (1 + mulHiU32 rankMask rand)⟩

/-- `derive_noise_seeds`: the seeds for `B` and for `A`. -/
def deriveNoiseSeeds (jobKey hashA hashB : Bytes32) : Bytes32 × Bytes32 :=
  let bNoiseSeed := L.blake3Hash (jobKey.bytes ++ hashB.bytes)
  (bNoiseSeed, L.blake3Hash (bNoiseSeed.bytes ++ hashA.bytes))

/-- The columns of `B` that a share opens, each of `k` bytes: expanded one by one, or cut
out of the whole matrix. -/
def secretB (cfg : MiningConfig) (bSeed : Bytes32) (bColIndices : List UInt32) :
    Except Exception (List (List UInt8)) :=
  let k := UInt64.ofNat cfg.k.val
  if L.bcolTargetedExpandEnabled then
    bColIndices.mapM fun col => L.bseedExpandRange bSeed (col.toUInt64 * k) k
  else do
    let bSlice ← L.bseedExpandRange bSeed 0 (UInt64.ofNat cfg.n.val * k)
    return bColIndices.map fun col => (bSlice.drop (col.toNat * cfg.k.val)).take cfg.k.val

end Library

/-- Row `u` of the opened rows of `A`. -/
def secretARow (aSlice : List UInt8) (k u : ℕ) : List Int8 :=
  (List.range k).map fun l => (aSlice.getD (u * k + l) 0).toInt8

/-- The sum that one step adds to an accumulator: positions `start` to `start + len - 1`. -/
def stepSum (aRow naRow bRow nbRow : List Int8) (start len : ℕ) : ℤ :=
  ((List.range len).map fun i =>
    ((aRow.getD (start + i) 0).toInt + (naRow.getD (start + i) 0).toInt) *
      ((bRow.getD (start + i) 0).toInt + (nbRow.getD (start + i) 0).toInt)).sum

/-- The accumulators and the message words. -/
structure Transcript where
  tile : List (List ℤ)
  msg : List UInt32
  deriving DecidableEq, Repr

/-- `(x << 13) | (x >> 19)` -/
def rotateLeft13 (x : UInt32) : UInt32 := (x <<< 13) ||| (x >>> 19)

/-- One round of the jackpot loop, the `s`-th from zero: rows and columns come with their
noise. -/
def Transcript.step (rows cols : List (List Int8 × List Int8)) (r : ℕ) (t : Transcript) (s : ℕ) :
    Transcript :=
  let tile := (rows.zip t.tile).map fun (row, accs) =>
    (cols.zip accs).map fun (col, acc) => acc + stepSum row.1 row.2 col.1 col.2 (s * r) r
  let xored := tile.flatten.foldl (fun x acc => x ^^^ UInt32.ofInt acc) 0
  let tid := s % 16
  ⟨tile, t.msg.set tid (rotateLeft13 (t.msg.getD tid 0) ^^^ xored)⟩

/-- All rounds: one for each whole step of `r` positions. -/
def jackpotTranscript (rows cols : List (List Int8 × List Int8)) (k r : ℕ) : Transcript :=
  (List.range (k / r)).foldl (Transcript.step rows cols r)
    ⟨rows.map fun _ => cols.map fun _ => 0, List.replicate 16 0⟩

namespace Library

variable (L : Library)

/-- `jackpot_hash` -/
def jackpotHash (words : List UInt32) (aNoiseSeed : Bytes32) : Bytes32 :=
  L.blake3Keyed (words.flatMap fun w => LittleEndian.bytesOf 4 w.toNat) aNoiseSeed

/-- `compute_claimed_hash` of a builder with configuration `cfg` -/
def computeClaimedHash (cfg : MiningConfig) (share : ShareFound) (jobKey hashA hashB : Bytes32) :
    Except Exception Bytes32 := do
  let k := cfg.k.val
  let r := cfg.r.val
  let (bNoiseSeed, aNoiseSeed) := L.deriveNoiseSeeds jobKey hashA hashB
  let columns ← L.secretB cfg share.job.bSeed share.bColIndices
  let eAl := L.generateUniformRandomMatrix seedLabelA aNoiseSeed share.aRowIndices r
  let eAr := L.generatePermutationMatrix seedLabelA aNoiseSeed k r
  let eBl := L.generatePermutationMatrix seedLabelB bNoiseSeed k r
  let eBr := L.generateUniformRandomMatrix seedLabelB bNoiseSeed share.bColIndices r
  let rows := (List.range share.aRowIndices.length).map (secretARow share.aSlice k)
  let noisyRows := rows.zip (eAl.map (applySparsePermutation eAr))
  let noisyCols := (columns.map (List.map UInt8.toInt8)).zip
    (eBr.map (applySparsePermutation eBl))
  return L.jackpotHash (jackpotTranscript noisyRows noisyCols k r).msg aNoiseSeed

end Library

end PropMiner.Share
