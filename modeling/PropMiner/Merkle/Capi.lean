import PropMiner.Merkle.Binding
import PropMiner.Share.Reference
import PropMiner.Stratum.Hex
import PropMiner.Worker.OpenedLeaves

/-!
# The Merkle calls of the library

`pearl-mining-capi`: the calls that build trees, prove rows and check proofs. A row of a matrix lies
in one chunk or in several, and a call is asked for rows. Three ways lead to a proof.

* From the matrix itself: the tree is built, and the proof taken from it.
* From the chaining values of all chunks, which the device has computed, and the bytes of the chunks
  that are opened. This is how `A` is proved.
* For `B`, from a tree over chaining values that is kept, and from the seed: `B` is the output
  stream of the seed, and the bytes of a chunk are computed when they are needed.

A call ends with a result, with an error text, or with a panic, which is caught at the border and
has a text too. Pointers are not modelled: a buffer is the list of its bytes.

## Main definitions

* `Crate`, `Crate.reference` — the BLAKE3 functions, under a key and without
* `Crate.merkleRootAndProof`, `Crate.merkleProofFromLeafCvs` — a proof in one call
* `Crate.merkleBuildTree`, `Crate.bseedMerkleBuildTreeFromLeafCvs` — trees that are kept
* `MerkleTreeCtx.proof`, `Crate.bseedProof` — proofs from them
* `Crate.merkleVerifyProof` — the check
* `Matrix`, `RowsOf` — a matrix of a size that the calls are made for, and some of its rows

## Main results

* `proofFromLeafCvs_eq` — from the chaining values as from the matrix
* `bseedTree_eq` — a tree over chaining values answers every call like one over `B`
-/

set_option autoImplicit false

namespace PropMiner.Merkle

open PropMiner.Semantics PropMiner.Semantics.TreeFold

/-- The BLAKE3 functions of the crate. -/
structure Crate where
  withKey : Digest → Blake3Hasher
  hash : List UInt8 → Digest
  /-- a byte of the output stream -/
  xof : List UInt8 → UInt64 → UInt8

/-- The functions as the reference hasher computes them. -/
def Crate.reference : Crate where
  withKey := .keyed
  hash data := (Reference.treeOutput Blake3.iv 0 data).digest
  xof data pos := (Reference.treeOutput Blake3.iv 0 data).streamByte pos.toNat

/-! ### Buffers -/

theorem Digest.length_ofBytes (bytes : List UInt8) :
    ((bytes ++ List.replicate 32 0).take 32).length = 32 := by
  rw [List.length_take, List.length_append, List.length_replicate]
  omega

/-- A digest in a buffer. -/
def Digest.ofBytes (bytes : List UInt8) : Digest :=
  ⟨(bytes ++ List.replicate 32 0).take 32, length_ofBytes bytes⟩

theorem Digest.ofBytes_bytes (d : Digest) : Digest.ofBytes d.bytes = d := by
  obtain ⟨bytes, hlen⟩ := d
  simp [Digest.ofBytes, List.take_left' hlen]

theorem Leaf.ofBytes_bytes (leaf : Leaf) : Leaf.ofBytes leaf.bytes = leaf := by
  obtain ⟨bytes, hlen⟩ := leaf
  simp [Leaf.ofBytes, List.take_left' hlen]

/-- The digests of a buffer. -/
def digestsOf (bytes : List UInt8) : List Digest :=
  (List.range (bytes.length / 32)).map fun i => .ofBytes ((bytes.drop (i * 32)).take 32)

/-- The leaves of a buffer. -/
def leavesOf (bytes : List UInt8) : List Leaf :=
  (List.range (bytes.length / chunkLen)).map fun i => .ofBytes (chunk bytes i)

def bytesOfDigests (ds : List Digest) : List UInt8 := ds.flatMap Share.Bytes32.bytes

def bytesOfLeaves (leaves : List Leaf) : List UInt8 := leaves.flatMap Leaf.bytes

@[simp] theorem digestsOf_bytesOfDigests (ds : List Digest) :
    digestsOf (bytesOfDigests ds) = ds := by
  rw [digestsOf, bytesOfDigests, map_range_flatMap (by omega) fun d _ => d.length_eq]
  simp [Digest.ofBytes_bytes]

@[simp] theorem leavesOf_bytesOfLeaves (leaves : List Leaf) :
    leavesOf (bytesOfLeaves leaves) = leaves := by
  rw [leavesOf, bytesOfLeaves]
  unfold chunk
  rw [map_range_flatMap (by decide) fun leaf _ => leaf.length_eq]
  simp [Leaf.ofBytes_bytes]

theorem length_bytesOfDigests (ds : List Digest) : (bytesOfDigests ds).length = ds.length * 32 :=
  length_flatMap_of_forall fun d _ => d.length_eq

theorem length_bytesOfLeaves (leaves : List Leaf) :
    (bytesOfLeaves leaves).length = leaves.length * chunkLen :=
  length_flatMap_of_forall fun leaf _ => leaf.length_eq

/-! ### Checks -/

/-- A check with its error text. -/
def ensure (c : Prop) [Decidable c] (msg : String) : Except Failure Unit :=
  if c then .ok () else .error (.err msg)

/-- All numbers are below a bound; the text is about the first that is not. -/
def ensureBelow (bound : ℕ) (l : List ℕ) (msg : ℕ → String) : Except Failure Unit :=
  match l.find? (bound ≤ ·) with
  | some bad => .error (.err (msg bad))
  | none => .ok ()

theorem ensure_bind {α : Type} {c : Prop} [Decidable c] (hc : c) (msg : String)
    (f : Unit → Except Failure α) : (ensure c msg >>= f) = f () := by
  rw [ensure, if_pos hc, ok_bind]

theorem ensureBelow_bind {α : Type} {bound : ℕ} {l : List ℕ} (hl : ∀ x ∈ l, x < bound)
    (msg : ℕ → String) (f : Unit → Except Failure α) : (ensureBelow bound l msg >>= f) = f () := by
  have hfind : l.find? (bound ≤ ·) = none := by
    rw [List.find?_eq_none]
    intro x hx
    simpa using hl x hx
  rw [ensureBelow, hfind, ok_bind]

/-- The text of a row that the matrix does not have. -/
def rowOutOfBounds (numRows rowWidth bad : ℕ) : String :=
  "row index " ++ toString bad ++ " out of bounds (num_rows=" ++ toString numRows ++
    ", row_width=" ++ toString rowWidth ++ ")"

def leafOutOfBounds (totalLeaves bad : ℕ) : String :=
  "leaf index " ++ toString bad ++ " out of bounds (total_leaves=" ++ toString totalLeaves ++ ")"

/-- The text of a wrong number of chaining values. -/
def leafCvsMismatch (got expected dataLen rowWidth : ℕ) : String :=
  "leaf_cvs count mismatch: got " ++ toString got ++ ", expected " ++ toString expected ++
    " for data_len=" ++ toString dataLen ++ " row_width=" ++ toString rowWidth

/-- `compute_leaf_indices_from_rows` -/
def leafIndicesOfRows (rowIndices : List UInt32) (rowWidth : ℕ) : List ℕ :=
  (Worker.MerkleTree.computeLeafIndicesFromRows (rowIndices.map UInt32.toUInt64)
    (UInt64.ofNat rowWidth)).map UInt64.toNat

/-- What a call hands out for a proof. -/
def packProof (leaves : List Leaf) (leafIndices : List ℕ) (siblings : List Digest) :
    Share.RawProof where
  leafData := bytesOfLeaves leaves
  leafIndices := leafIndices.map UInt32.ofNat
  siblings := bytesOfDigests siblings

/-- The bytes in hexadecimal, as an error text shows them. -/
def hexText (d : Digest) : String := String.ofList ((Stratum.hexOf d.bytes).map fun c =>
  Char.ofNat c.toNat)

/-! ### Layers from chaining values -/

namespace Blake3Hasher

variable (H : Blake3Hasher)

/-- The last layer of the loop: at most two nodes. -/
def topNodes (layer : List Digest) : List Digest :=
  if 2 < layer.length then topNodes (H.combineLayer layer) else layer
termination_by layer.length
decreasing_by
  rw [H.length_combineLayer]
  omega

/-- The last two nodes give the root. -/
theorem topNodes_eq {layer : List Digest} (h : 2 ≤ layer.length) :
    ∃ left right, H.topNodes layer = [left, right] ∧ H.rootCv left right = H.treeRoot layer := by
  induction layer, h using H.layer_induction with
  | pair left right =>
    exact ⟨left, right, by rw [topNodes, if_neg (by simp)], (H.treeRoot_pair _ _).symm⟩
  | above layer hlt ih =>
    rw [topNodes, if_pos hlt, ← H.treeRoot_combineLayer hlt]
    exact ih

/-- `build_merkle_layers_from_leaf_cvs` -/
def buildMerkleLayersFromLeafCvs (leafCvs : List Digest) (singleLeaf : Option Leaf) :
    Except Failure (List (List Digest) × Digest) := do
  ensure (leafCvs ≠ []) "leaf_cvs must be non-empty"
  match H.topNodes leafCvs with
  | [_] =>
    match singleLeaf with
    | none => .error (.err "single-leaf Merkle root requires the selected leaf data")
    | some leaf => .ok (H.layersFrom leafCvs, H.hash leaf.bytes)
  | [left, right] => .ok (H.layersFrom leafCvs, H.rootCv left right)
  | _ => .error (.err "invalid Merkle layer shape")

end Blake3Hasher

/-- `merkle_siblings_from_layers` -/
def merkleSiblingsFromLayers (layers : List (List Digest)) (totalLeaves : ℕ)
    (leafIndices : List ℕ) : Except Failure (List Digest) := do
  ensure (leafIndices ≠ []) "leaf_indices must be non-empty"
  siblingsFrom (fun level => .err ("missing merkle layer " ++ toString level)) layers 0 totalLeaves
    (.ofList leafIndices)

/-! ### Audit paths -/

/-- `is_power_of_two` -/
def isPowerOfTwo (n : ℕ) : Bool := n = 2 ^ Nat.log 2 n

/-- `trailing_zeros`, of a number that is not zero -/
def trailingZeros (n : ℕ) : ℕ := if _h : n % 2 = 1 ∨ n = 0 then 0 else trailingZeros (n / 2) + 1
termination_by n

/-- The number of levels between the leaves and the root. -/
def auditLevels (totalLeaves : ℕ) : ℕ := if totalLeaves ≤ 1 then 0 else trailingZeros totalLeaves

/-- The path of one leaf: the neighbour on each level. -/
def auditPath : ℕ → List (List Digest) → ℕ → Except Failure (List Digest)
  | 0, _, _ => .ok []
  | _ + 1, [], _ => .error .panic
  | levels + 1, nodes :: layers, idx => do
    let sibling ← index nodes (idx ^^^ 1)
    let above ← auditPath levels layers (idx >>> 1)
    return sibling :: above

/-- `get_audit_paths`: the paths of several leaves, one after the other -/
def auditPaths (layers : List (List Digest)) (leafIndices : List ℕ) :
    Except Failure (List Digest) :=
  let totalLeaves := (layers.headD []).length
  if ¬ (isPowerOfTwo totalLeaves ∨ totalLeaves = 0) then
    .error (.err ("total_leaves (" ++ toString totalLeaves ++
      ") must be a power of two for audit_proof v1"))
  else if leafIndices.isEmpty then .ok []
  else
    match leafIndices.find? (fun i => max totalLeaves 1 ≤ i) with
    | some bad => .error (.err (leafOutOfBounds totalLeaves bad))
    | none => (leafIndices.mapM (auditPath (auditLevels totalLeaves) layers)).map List.flatten

/-! ### Trees that are kept -/

/-- `MerkleTreeCtx` -/
structure MerkleTreeCtx where
  tree : MerkleTree
  numRows : ℕ
  rowWidth : ℕ

/-- `BSeedMerkleTreeCtx` -/
structure BSeedMerkleTreeCtx where
  bseed : Digest
  layers : List (List Digest)
  root : Digest
  numRows : ℕ
  rowWidth : ℕ
  dataLen : ℕ

/-- `merkle_proof_for_handle` -/
def MerkleTreeCtx.proof (ctx : MerkleTreeCtx) (rowIndices : List UInt32) :
    Except Failure Share.RawProof := do
  ensure (rowIndices ≠ []) "row_indices_len must be > 0"
  ensureBelow (max ctx.numRows 1) (rowIndices.map UInt32.toNat)
    (rowOutOfBounds ctx.numRows ctx.rowWidth)
  let proof ← ctx.tree.getMultileafProof (leafIndicesOfRows rowIndices ctx.rowWidth)
  return packProof proof.leafData proof.leafIndices proof.siblings

/-- `merkle_audit_paths_for_handle` -/
def MerkleTreeCtx.auditPaths (ctx : MerkleTreeCtx) (leafIndices : List UInt32) :
    Except Failure (List UInt8) :=
  (Merkle.auditPaths ctx.tree.layers (leafIndices.map UInt32.toNat)).map bytesOfDigests

/-- `bseed_merkle_audit_paths`, which repeats `get_audit_paths` on the layers -/
def BSeedMerkleTreeCtx.auditPaths (ctx : BSeedMerkleTreeCtx) (leafIndices : List UInt32) :
    Except Failure (List UInt8) :=
  (Merkle.auditPaths ctx.layers (leafIndices.map UInt32.toNat)).map bytesOfDigests

namespace Crate

variable (C : Crate)

/-- `expand_bseed_int7_range_into` -/
def expandBseedInt7Range (bseed : Digest) (byteOffset : UInt64) (len : ℕ) : List UInt8 :=
  (List.range len).map fun i => Share.mapInt7 (C.xof bseed.bytes (byteOffset + UInt64.ofNat i))

/-- `expand_bseed_int7_into` -/
def expandBseedInt7 (bseed : Digest) (len : ℕ) : List UInt8 :=
  (List.range len).map fun i => Share.mapInt7 (C.xof bseed.bytes (UInt64.ofNat i))

/-- `expand_bseed_leaf` -/
def expandBseedLeaf (bseed : Digest) (dataLen leafIdx : ℕ) : Leaf :=
  let offset := min (leafIdx * 1024) (2 ^ 64 - 1)
  if offset < dataLen then
    .ofBytes (C.expandBseedInt7Range bseed (UInt64.ofNat offset) (min (dataLen - offset) 1024))
  else .ofBytes []

/-- `bseed_expand_raw` -/
def bseedExpandRaw (bseed : Digest) (n k outLen : ℕ) : Except Failure (List UInt8) := do
  ensure (n ≠ 0 ∧ k ≠ 0) "n and k must be non-zero"
  ensure (n * k < 2 ^ 64) "n*k overflows"
  ensure (n * k ≤ outLen)
    ("out_b_len (" ++ toString outLen ++ ") < n*k (" ++ toString (n * k) ++ ")")
  return C.expandBseedInt7 bseed (n * k)

/-- `merkle_root_and_proof` -/
def merkleRootAndProof (data : List UInt8) (key : Digest) (rowIndices : List UInt32)
    (rowWidth : ℕ) : Except Failure (Digest × UInt32 × Share.RawProof) := do
  ensure (0 < rowWidth) "row_width must be > 0"
  ensure (rowIndices ≠ []) "row_indices_len must be > 0"
  let tree := MerkleTree.new (C.withKey key) (padToChunkBoundary data)
  let numRows := data.length / rowWidth
  ensureBelow (max numRows 1) (rowIndices.map UInt32.toNat) fun bad =>
    "row index " ++ toString bad ++ " out of bounds (num_rows=" ++ toString numRows ++
      ", data_len=" ++ toString data.length ++ ", row_width=" ++ toString rowWidth ++ ")"
  let proof ← tree.getMultileafProof (leafIndicesOfRows rowIndices rowWidth)
  return (proof.root, UInt32.ofNat tree.numLeaves,
    packProof proof.leafData proof.leafIndices proof.siblings)

/-- The opened leaves are those whose chaining values are given. -/
def checkLeafCvs (H : Blake3Hasher) (leafCvs : List Digest) :
    List (ℕ × Leaf) → Except Failure Unit
  | [] => .ok ()
  | (leafIdx, leaf) :: openings => do
    let cv ← index leafCvs leafIdx
    ensure (H.chunkCv leaf.bytes leafIdx = cv)
      ("leaf data/CV mismatch at opened leaf " ++ toString leafIdx)
    checkLeafCvs H leafCvs openings

/-- `merkle_proof_from_leaf_cvs`. The leaf data of the proof is what the caller has passed. -/
def merkleProofFromLeafCvs (leafCvsBytes leafData : List UInt8) (key : Digest)
    (numRows rowWidth : ℕ) (rowIndices : List UInt32) :
    Except Failure (Digest × UInt32 × Share.RawProof) := do
  let H := C.withKey key
  let dataLen := numRows * rowWidth
  let expectedLeaves := paddedChunkLen dataLen / chunkLen
  let leafCvs := digestsOf leafCvsBytes
  let leafIndices := leafIndicesOfRows rowIndices rowWidth
  ensure (leafCvsBytes.length ≠ 0 ∧ leafCvsBytes.length % 32 = 0)
    "leaf_cvs_len must be a non-zero multiple of 32"
  ensure (leafData.length ≠ 0 ∧ leafData.length % chunkLen = 0)
    "leaf_data_len must be a non-zero multiple of 1024"
  ensure (rowIndices ≠ []) "row_indices_len must be > 0"
  ensure (numRows ≠ 0 ∧ rowWidth ≠ 0) "num_rows and row_width must be > 0"
  ensure (dataLen < 2 ^ 64) "num_rows * row_width overflowed"
  ensure (expectedLeaves ≠ 0) "expected at least one leaf"
  ensure (leafCvs.length = expectedLeaves)
    (leafCvsMismatch leafCvs.length expectedLeaves dataLen rowWidth)
  ensureBelow numRows (rowIndices.map UInt32.toNat) (rowOutOfBounds numRows rowWidth)
  ensure (leafData.length = leafIndices.length * chunkLen)
    ("leaf_data_len mismatch: got " ++ toString leafData.length ++ ", expected " ++
      toString (leafIndices.length * chunkLen) ++ " for " ++ toString leafIndices.length ++
      " opened leaves")
  ensureBelow expectedLeaves leafIndices (leafOutOfBounds expectedLeaves)
  checkLeafCvs H leafCvs (leafIndices.zip (leavesOf leafData))
  let singleLeaf := if expectedLeaves = 1 then (leavesOf leafData).head? else none
  let (layers, root) ← H.buildMerkleLayersFromLeafCvs leafCvs singleLeaf
  let siblings ← merkleSiblingsFromLayers layers expectedLeaves leafIndices
  return (root, UInt32.ofNat expectedLeaves,
    { leafIndices := leafIndices.map UInt32.ofNat, siblings := bytesOfDigests siblings })

/-- `merkle_build_tree` -/
def merkleBuildTree (data : List UInt8) (key : Digest) (rowWidth : ℕ) :
    Except Failure (MerkleTreeCtx × Digest × UInt32) := do
  ensure (0 < rowWidth) "row_width must be > 0"
  let tree := MerkleTree.new (C.withKey key) (padToChunkBoundary data)
  let root ← tree.root
  return (⟨tree, data.length / rowWidth, rowWidth⟩, root, UInt32.ofNat tree.numLeaves)

/-- `build_bseed_merkle_ctx` -/
def buildBseedMerkleCtx (leafCvs : List Digest) (bseed key : Digest) (numRows rowWidth : ℕ) :
    Except Failure BSeedMerkleTreeCtx := do
  let dataLen := numRows * rowWidth
  let expectedLeaves := paddedChunkLen dataLen / chunkLen
  ensure (dataLen < 2 ^ 64) "num_rows * row_width overflowed"
  ensure (expectedLeaves ≠ 0) "expected at least one leaf"
  ensure (leafCvs.length = expectedLeaves)
    (leafCvsMismatch leafCvs.length expectedLeaves dataLen rowWidth)
  let singleLeaf := if expectedLeaves = 1 then some (C.expandBseedLeaf bseed dataLen 0) else none
  let (layers, root) ← (C.withKey key).buildMerkleLayersFromLeafCvs leafCvs singleLeaf
  return ⟨bseed, layers, root, numRows, rowWidth, dataLen⟩

/-- `bseed_merkle_build_tree_from_leaf_cvs` -/
def bseedMerkleBuildTreeFromLeafCvs (leafCvsBytes : List UInt8) (bseed key : Digest)
    (numRows rowWidth : ℕ) : Except Failure (BSeedMerkleTreeCtx × Digest × UInt32) := do
  ensure (leafCvsBytes.length ≠ 0 ∧ leafCvsBytes.length % 32 = 0)
    "leaf_cvs_len must be a non-zero multiple of 32"
  ensure (numRows ≠ 0 ∧ rowWidth ≠ 0) "num_rows and row_width must be > 0"
  let ctx ← C.buildBseedMerkleCtx (digestsOf leafCvsBytes) bseed key numRows rowWidth
  return (ctx, ctx.root, UInt32.ofNat (ctx.layers.headD []).length)

/-- `bseed_merkle_proof_for_handle` -/
def bseedProof (ctx : BSeedMerkleTreeCtx) (rowIndices : List UInt32) :
    Except Failure Share.RawProof := do
  let leafIndices := leafIndicesOfRows rowIndices ctx.rowWidth
  let totalLeaves := (ctx.layers.headD []).length
  ensure (rowIndices ≠ []) "row_indices_len must be > 0"
  ensureBelow (max ctx.numRows 1) (rowIndices.map UInt32.toNat)
    (rowOutOfBounds ctx.numRows ctx.rowWidth)
  ensureBelow totalLeaves leafIndices (leafOutOfBounds totalLeaves)
  let siblings ← merkleSiblingsFromLayers ctx.layers totalLeaves leafIndices
  return packProof (leafIndices.map (C.expandBseedLeaf ctx.bseed ctx.dataLen)) leafIndices siblings

/-- The proof that is made of the buffers of a call. -/
def proofOfBuffers (leafData : List UInt8) (leafIndices : List UInt32) (totalLeaves : UInt32)
    (siblings : List UInt8) (expectedRoot : Digest) : MerkleProof where
  leafData := leavesOf leafData
  leafIndices := (leafIndices.take (leafData.length / chunkLen)).map UInt32.toNat
  totalLeaves := totalLeaves.toNat
  root := expectedRoot
  siblings := digestsOf siblings

/-- `merkle_verify_proof` -/
def merkleVerifyProof (leafData : List UInt8) (leafIndices : List UInt32) (totalLeaves : UInt32)
    (siblings : List UInt8) (key expectedRoot : Digest) : Except Failure Unit := do
  ensure (leafData.length / chunkLen ≠ 0) "leaf_count must be > 0"
  let proof := proofOfBuffers leafData leafIndices totalLeaves siblings expectedRoot
  match ← proof.computeRoot (C.withKey key) with
  | some root =>
    ensure (root = expectedRoot)
      ("root mismatch: expected=" ++ hexText expectedRoot ++ ", computed=" ++ hexText root)
  | none => .error (.err "proof verification failed (invalid structure or siblings)")

end Crate

/-! ### Matrices -/

theorem elems_ofList {l : List ℕ} (hl : l.Pairwise (· < ·)) : (OrderedSet.ofList l).elems = l :=
  (OrderedSet.increasing _).eq_of_mem_iff hl fun _ => OrderedSet.mem_ofList

theorem numChunks_mul (n : ℕ) : numChunks (n * chunkLen) = n := by
  unfold numChunks chunkLen
  omega

/-- A matrix, row after row, with no more chunks than 32 bits can count. -/
structure Matrix where
  data : List UInt8
  numRows : ℕ
  rowWidth : ℕ
  numRows_pos : 0 < numRows
  rowWidth_pos : 0 < rowWidth
  size_le : numRows * rowWidth ≤ 2 ^ 41
  length_eq : data.length = numRows * rowWidth

namespace Matrix

variable (x : Matrix) (H : Blake3Hasher) {root : Digest}

/-- The matrix with zeros behind its last chunk. -/
def padded : List UInt8 := padToChunkBoundary x.data

def totalLeaves : ℕ := numChunks (x.numRows * x.rowWidth)

def tree : MerkleTree := .new H x.padded

/-- The chaining values of all chunks, as the device computes them. -/
def leafCvs : List Digest := H.hashChunks x.padded

theorem size_pos : 0 < x.numRows * x.rowWidth := Nat.mul_pos x.numRows_pos x.rowWidth_pos

theorem size_lt : x.numRows * x.rowWidth < 2 ^ 64 := Nat.lt_of_le_of_lt x.size_le (by norm_num)

theorem totalLeaves_pos : 0 < x.totalLeaves :=
  lt_numChunks_iff.mpr (by simpa only [Nat.zero_mul] using x.size_pos)

theorem totalLeaves_lt : x.totalLeaves < 2 ^ 32 := by
  have := x.size_le
  rw [totalLeaves, numChunks, chunkLen]
  omega

theorem expectedLeaves_eq :
    paddedChunkLen (x.numRows * x.rowWidth) / chunkLen = x.totalLeaves :=
  Nat.mul_div_cancel _ (by decide)

theorem length_padded : x.padded.length = x.totalLeaves * chunkLen := by
  rw [padded, length_padToChunkBoundary, x.length_eq, totalLeaves]

theorem length_leafCvs : (x.leafCvs H).length = x.totalLeaves := by
  rw [leafCvs, MerkleTree.length_hashChunks, length_padded, numChunks_mul]

theorem one_or_two_le : x.totalLeaves = 1 ∨ 2 ≤ x.totalLeaves := by
  have := x.totalLeaves_pos
  omega

theorem chunkLen_lt (h : 2 ≤ x.totalLeaves) : chunkLen < x.padded.length := by
  rw [length_padded, chunkLen]
  omega

/-- Zeros behind the data, or behind its last chunk. -/
theorem chunk_padded {i : ℕ} (hi : i < x.totalLeaves) :
    chunk x.padded i = (Leaf.ofBytes (chunk x.data i)).bytes := by
  rw [totalLeaves, ← x.length_eq] at hi
  have hstart := lt_numChunks_iff.mp hi
  have hpad : chunkLen - (x.data.length - i * chunkLen) ≤
      paddedChunkLen x.data.length - x.data.length := by
    have hle : (i + 1) * chunkLen ≤ numChunks x.data.length * chunkLen :=
      Nat.mul_le_mul_right _ hi
    rw [Nat.succ_mul] at hle
    rw [paddedChunkLen]
    omega
  simp only [chunk, padded, padToChunkBoundary, Leaf.ofBytes,
    List.drop_append_of_le_length hstart.le, List.take_append, List.take_take, List.length_take,
    List.length_drop, List.take_replicate, Nat.min_self]
  congr 2
  omega

section One

variable (h : x.totalLeaves = 1)
include h

theorem length_one : x.padded.length = chunkLen := by rw [length_padded, h, Nat.one_mul]

theorem tree_one : x.tree H = ⟨[[H.hash x.padded]], x.padded⟩ := new_one H (x.length_one h)

theorem leafCvs_one : x.leafCvs H = [H.chunkCv x.padded 0] := by
  rw [leafCvs, H.hashChunks_eq, length_padded, numChunks_mul, h, List.range_one,
    List.map_singleton, chunk_zero (x.length_one h)]

end One

theorem tree_of_two_le (h : 2 ≤ x.totalLeaves) :
    x.tree H = ⟨H.layersFrom (x.leafCvs H), x.padded⟩ :=
  MerkleTree.new_of_chunkLen_lt H (x.chunkLen_lt h)

theorem root_of_two_le (h : 2 ≤ x.totalLeaves) :
    (x.tree H).root = .ok (H.treeRoot (x.leafCvs H)) := MerkleTree.root_new H (x.chunkLen_lt h)

theorem numLeaves_tree : (x.tree H).numLeaves = x.totalLeaves := by
  rcases x.one_or_two_le with hone | htwo
  · rw [x.tree_one H hone, hone]
    rfl
  · rw [tree, MerkleTree.numLeaves_new H (x.chunkLen_lt htwo), length_padded, numChunks_mul]

theorem exists_root : ∃ root, (x.tree H).root = .ok root := by
  rcases x.one_or_two_le with hone | htwo
  · rw [x.tree_one H hone]
    exact ⟨_, rfl⟩
  · exact ⟨_, x.root_of_two_le H htwo⟩

/-- The layers over the chaining values have the root of the tree. -/
theorem buildLayers_eq (hroot : (x.tree H).root = .ok root) :
    H.buildMerkleLayersFromLeafCvs (x.leafCvs H)
      (if x.totalLeaves = 1 then some (.ofBytes (chunk x.padded 0)) else none) =
        .ok (H.layersFrom (x.leafCvs H), root) := by
  have hne : x.leafCvs H ≠ [] := by
    rw [← List.length_pos_iff, length_leafCvs]
    exact x.totalLeaves_pos
  unfold Blake3Hasher.buildMerkleLayersFromLeafCvs
  rw [ensure_bind hne]
  rcases x.one_or_two_le with hone | htwo
  · have htop : H.topNodes [H.chunkCv x.padded 0] = [H.chunkCv x.padded 0] := by
      rw [Blake3Hasher.topNodes, if_neg (by simp)]
    have hhash : H.hash x.padded = root := by
      rw [x.tree_one H hone] at hroot
      exact Except.ok.inj hroot
    rw [x.leafCvs_one H hone, htop, if_pos hone, chunk_zero (x.length_one hone), ← hhash]
    dsimp only
    rw [Leaf.ofBytes_of_length (x.length_one hone)]
  · rw [x.root_of_two_le H htwo, Except.ok.injEq] at hroot
    obtain ⟨left, right, htop, hpair⟩ := H.topNodes_eq (x.length_leafCvs H ▸ htwo)
    rw [htop, ← hroot, ← hpair]

/-- Both kinds of layers give the same siblings, which lead to the root. -/
theorem exists_siblings {s : OrderedSet ℕ} (hne : s.elems ≠ []) (hs : ∀ i ∈ s, i < x.totalLeaves) :
    ∃ siblings,
      (∀ missing, siblingsFrom missing (x.tree H).layers 0 x.totalLeaves s = .ok siblings) ∧
      (∀ missing, siblingsFrom missing (H.layersFrom (x.leafCvs H)) 0 x.totalLeaves s =
        .ok siblings) ∧
      (2 ≤ x.totalLeaves → H.climb x.totalLeaves (.tabulate s (node (x.leafCvs H))) siblings =
        some (H.treeRoot (x.leafCvs H))) := by
  rcases x.one_or_two_le with hone | htwo
  · rw [hone]
    exact ⟨[], fun missing => siblingsFrom_one missing _ _ _,
      fun missing => siblingsFrom_one missing _ _ _, fun h => absurd h (by omega)⟩
  · have hlength := x.length_leafCvs H
    obtain ⟨siblings, hsiblings, hclimb⟩ := climb_siblingsFrom H (hlength.symm ▸ htwo) hne
      (by rwa [hlength])
    rw [hlength] at hsiblings hclimb
    rw [x.tree_of_two_le H htwo]
    exact ⟨siblings, fun missing => hsiblings missing 0, fun missing => hsiblings missing 0,
      fun _ => hclimb⟩

theorem data_tree : (x.tree H).data = x.padded := by
  rcases x.one_or_two_le with hone | htwo
  · rw [x.tree_one H hone]
  · rw [x.tree_of_two_le H htwo]

end Matrix

/-! ### Rows -/

section Rows

variable {x : Matrix} {rowIndices : List UInt32}

/-- The rows that a call is asked for are rows of the matrix. -/
structure RowsOf (x : Matrix) (rowIndices : List UInt32) : Prop where
  ne_nil : rowIndices ≠ []
  lt : ∀ r ∈ rowIndices, r.toNat < x.numRows

def Matrix.leafIndices (x : Matrix) (rowIndices : List UInt32) : List ℕ :=
  leafIndicesOfRows rowIndices x.rowWidth

/-- The chunks of the rows, as the caller of `merkle_proof_from_leaf_cvs` copies them. -/
def Matrix.leaves (x : Matrix) (rowIndices : List UInt32) : List Leaf :=
  (x.leafIndices rowIndices).map fun i => .ofBytes (chunk x.padded i)

/-- The proof for some rows. -/
def Matrix.proof (x : Matrix) (rowIndices : List UInt32) (root : Digest)
    (siblings : List Digest) : MerkleProof :=
  ⟨x.leaves rowIndices, x.leafIndices rowIndices, x.totalLeaves, root, siblings⟩

theorem leafIndicesOfRows_eq :
    leafIndicesOfRows rowIndices x.rowWidth = x.leafIndices rowIndices := rfl

theorem Matrix.toNat_rowWidth (x : Matrix) : (UInt64.ofNat x.rowWidth).toNat = x.rowWidth := by
  have hle : x.rowWidth ≤ x.numRows * x.rowWidth := Nat.le_mul_of_pos_left _ x.numRows_pos
  exact UInt64.toNat_ofNat_of_lt' (Nat.lt_of_le_of_lt (hle.trans x.size_le) (by decide))

theorem pairwise_leafIndicesOfRows (rowIndices : List UInt32) (rowWidth : ℕ) :
    (leafIndicesOfRows rowIndices rowWidth).Pairwise (· < ·) :=
  List.pairwise_map.mpr ((OrderedSet.increasing _).imp UInt64.lt_iff_toNat_lt.mp)

theorem length_leaves : (x.leaves rowIndices).length = (x.leafIndices rowIndices).length :=
  List.length_map ..

namespace RowsOf

variable (h : RowsOf x rowIndices)
include h

theorem row_le {r : UInt32} (hr : r ∈ rowIndices) :
    (r.toNat + 1) * x.rowWidth ≤ x.numRows * x.rowWidth := Nat.mul_le_mul_right _ (h.lt r hr)

/-- The leaves of the rows are those that share a byte with one. -/
theorem mem_leafIndices {leaf : ℕ} :
    leaf ∈ x.leafIndices rowIndices ↔
      ∃ r ∈ rowIndices, Worker.Overlaps leaf r.toNat x.rowWidth := by
  have hwidth := x.toNat_rowWidth
  have hcast : ∀ li < 2 ^ 32, (UInt64.ofNat li).toNat = li := fun li hli =>
    UInt64.toNat_ofNat_of_lt' (hli.trans (by norm_num))
  have hpos : 0 < UInt64.ofNat x.rowWidth := by
    rw [UInt64.lt_iff_toNat_lt, hwidth]
    exact x.rowWidth_pos
  have hrows : ∀ r ∈ rowIndices.map UInt32.toUInt64,
      (r.toNat + 1) * (UInt64.ofNat x.rowWidth).toNat ≤ 2 ^ 42 := by
    simp only [List.forall_mem_map, UInt32.toNat_toUInt64, hwidth]
    intro r hr
    have := h.row_le hr
    have := x.size_le
    omega
  rw [Matrix.leafIndices, leafIndicesOfRows, Worker.MerkleTree.computeLeafIndicesFromRows,
    Worker.mem_map_leafSet hcast hpos hrows, hwidth]
  simp

theorem leaf_lt : ∀ leaf ∈ x.leafIndices rowIndices, leaf < x.totalLeaves := by
  intro leaf hleaf
  obtain ⟨r, hr, byte, ⟨hlo, -⟩, -, hhi⟩ := h.mem_leafIndices.mp hleaf
  have := h.row_le hr
  rw [Matrix.totalLeaves, lt_numChunks_iff, chunkLen]
  omega

theorem leafIndices_ne_nil : x.leafIndices rowIndices ≠ [] := by
  obtain ⟨r, hr⟩ := List.exists_mem_of_ne_nil _ h.ne_nil
  have hpos := x.rowWidth_pos
  have hmem : r.toNat * x.rowWidth / 1024 ∈ x.leafIndices rowIndices := by
    refine h.mem_leafIndices.mpr ⟨r, hr, r.toNat * x.rowWidth, ⟨by omega, by omega⟩, le_rfl, ?_⟩
    rw [Nat.succ_mul]
    omega
  exact List.ne_nil_of_mem hmem

theorem leaf_full {i : ℕ} (hi : i ∈ x.leafIndices rowIndices) :
    (i + 1) * chunkLen ≤ x.padded.length := by
  rw [x.length_padded]
  exact Nat.mul_le_mul_right _ (h.leaf_lt i hi)

theorem lt_map : ∀ r ∈ rowIndices.map UInt32.toNat, r < x.numRows := by
  simpa only [List.forall_mem_map] using h.lt

theorem lt_max : ∀ r ∈ rowIndices.map UInt32.toNat, r < max x.numRows 1 := fun r hr =>
  lt_max_of_lt_left (h.lt_map r hr)

/-- What the calls for rows have in common: the siblings of their leaves. -/
theorem exists_siblings (H : Blake3Hasher) {root : Digest} (hroot : (x.tree H).root = .ok root) :
    ∃ siblings,
      (x.tree H).getMultileafProof (x.leafIndices rowIndices) =
        .ok (x.proof rowIndices root siblings) ∧
      merkleSiblingsFromLayers (H.layersFrom (x.leafCvs H)) x.totalLeaves
        (x.leafIndices rowIndices) = .ok siblings ∧
      (2 ≤ x.totalLeaves →
        (x.proof rowIndices root siblings).computeRoot H = .ok (some root)) := by
  have hne := h.leafIndices_ne_nil
  have hincreasing : (x.leafIndices rowIndices).Pairwise (· < ·) :=
    pairwise_leafIndicesOfRows rowIndices x.rowWidth
  have helems := elems_ofList hincreasing
  have hnonempty : (OrderedSet.ofList (x.leafIndices rowIndices)).elems ≠ [] := by rwa [helems]
  obtain ⟨siblings, htree, hlayers, hclimb⟩ := x.exists_siblings H hnonempty
    fun i hi => h.leaf_lt i (OrderedSet.mem_ofList.mp hi)
  rw [← x.numLeaves_tree H] at htree
  have hproof := getMultileafProof_eq hne
    (fun i hi => (x.numLeaves_tree H).symm ▸ h.leaf_lt i hi) hroot htree
  rw [helems, x.numLeaves_tree, x.data_tree] at hproof
  refine ⟨siblings, hproof, ?_, fun htwo => ?_⟩
  · rw [merkleSiblingsFromLayers, ensure_bind hne, hlayers]
  · have hbytes : (x.leaves rowIndices).map Leaf.bytes =
        (OrderedSet.ofList (x.leafIndices rowIndices)).elems.map (chunk x.padded) := by
      rw [helems, Matrix.leaves, List.map_map]
      exact List.map_congr_left fun i hi => ofBytes_chunk (h.leaf_full hi)
    rw [x.root_of_two_le H htwo] at hroot
    rw [computeRoot_of_leafData (p := x.proof rowIndices root siblings) H hnonempty
      (fun i hi => h.leaf_full (OrderedSet.mem_ofList.mp hi)) helems.symm hbytes
      (Nat.ne_of_gt htwo)]
    exact congrArg Except.ok ((hclimb htwo).trans (congrArg some (Except.ok.inj hroot)))

end RowsOf

end Rows

/-! ### From chaining values as from the matrix -/

section LeafCvs

variable (C : Crate) {x : Matrix} {rowIndices : List UInt32} {key root : Digest}
  {siblings : List Digest}

/-- A tree over the matrix that is kept. -/
def Matrix.hostCtx (x : Matrix) (H : Blake3Hasher) : MerkleTreeCtx :=
  ⟨x.tree H, x.numRows, x.rowWidth⟩

theorem merkleBuildTree_eq (hroot : (x.tree (C.withKey key)).root = .ok root) :
    C.merkleBuildTree x.data key x.rowWidth =
      .ok (x.hostCtx (C.withKey key), root, UInt32.ofNat x.totalLeaves) := by
  rw [← x.numLeaves_tree (C.withKey key)]
  unfold Crate.merkleBuildTree Matrix.hostCtx
  rw [ensure_bind x.rowWidth_pos, x.length_eq, Nat.mul_div_cancel _ x.rowWidth_pos]
  unfold Matrix.tree Matrix.padded at *
  dsimp only
  rw [hroot]
  rfl

theorem checkLeafCvs_eq_ok (H : Blake3Hasher) {data : List UInt8} {l : List ℕ}
    (hl : ∀ i ∈ l, (i + 1) * chunkLen ≤ data.length) :
    Crate.checkLeafCvs H (H.hashChunks data) (l.map fun i => (i, .ofBytes (chunk data i))) =
      .ok () := by
  induction l with
  | nil => rfl
  | cons i l ih =>
    obtain ⟨hi, hl⟩ := List.forall_mem_cons.mp hl
    have hlt := lt_numChunks_of_full hi
    have hcv : H.chunkCv (Leaf.ofBytes (chunk data i)).bytes i =
        (H.hashChunks data).getD i default := by
      rw [ofBytes_chunk hi]
      exact (node_hashChunks H hlt).symm
    rw [List.map_cons, Crate.checkLeafCvs,
      index_of_lt (by rwa [MerkleTree.length_hashChunks]), ok_bind, ensure_bind hcv, ih hl]

namespace RowsOf

variable (h : RowsOf x rowIndices)
include h

theorem head?_leaves :
    (if x.totalLeaves = 1 then (x.leaves rowIndices).head? else none) =
      if x.totalLeaves = 1 then some (Leaf.ofBytes (chunk x.padded 0)) else none := by
  split_ifs with hone
  · obtain ⟨i, l, hl⟩ := List.exists_cons_of_ne_nil h.leafIndices_ne_nil
    have hlt := h.leaf_lt i (hl ▸ List.mem_cons_self)
    rw [hone, Nat.lt_one_iff] at hlt
    rw [Matrix.leaves, hl, hlt]
    rfl
  · rfl

theorem hostProof_eq {H : Blake3Hasher}
    (hproof : (x.tree H).getMultileafProof (x.leafIndices rowIndices) =
      .ok (x.proof rowIndices root siblings)) :
    (x.hostCtx H).proof rowIndices =
      .ok (packProof (x.leaves rowIndices) (x.leafIndices rowIndices) siblings) := by
  unfold MerkleTreeCtx.proof Matrix.hostCtx
  rw [ensure_bind h.ne_nil, ensureBelow_bind h.lt_max]
  exact (congrArg (· >>= _) hproof).trans (ok_bind _ _)

/-- The call with chaining values succeeds on those of a matrix. -/
theorem merkleProofFromLeafCvs_eq (hroot : (x.tree (C.withKey key)).root = .ok root)
    (hsiblings : merkleSiblingsFromLayers
      ((C.withKey key).layersFrom (x.leafCvs (C.withKey key))) x.totalLeaves
      (x.leafIndices rowIndices) = .ok siblings) :
    C.merkleProofFromLeafCvs (bytesOfDigests (x.leafCvs (C.withKey key)))
      (bytesOfLeaves (x.leaves rowIndices)) key x.numRows x.rowWidth rowIndices =
        .ok (root, UInt32.ofNat x.totalLeaves,
          ⟨[], (x.leafIndices rowIndices).map UInt32.ofNat, bytesOfDigests siblings⟩) := by
  have hchunks := x.totalLeaves_pos
  have hpos := List.length_pos_iff.mpr h.leafIndices_ne_nil
  have hlen : (0 : ℕ) < chunkLen := by decide
  have hcheck : Crate.checkLeafCvs (C.withKey key) (x.leafCvs (C.withKey key))
      ((x.leafIndices rowIndices).zip (x.leaves rowIndices)) = .ok () := by
    rw [Matrix.leaves, ← List.map_prod_left_eq_zip]
    exact checkLeafCvs_eq_ok (C.withKey key) fun i hi => h.leaf_full hi
  unfold Crate.merkleProofFromLeafCvs
  dsimp only
  rw [digestsOf_bytesOfDigests, leavesOf_bytesOfLeaves, x.expectedLeaves_eq, leafIndicesOfRows_eq,
    length_bytesOfDigests, length_bytesOfLeaves, length_leaves, x.length_leafCvs,
    ensure_bind ⟨by omega, Nat.mul_mod_left _ _⟩,
    ensure_bind ⟨(Nat.mul_pos hpos hlen).ne', Nat.mul_mod_left _ _⟩, ensure_bind h.ne_nil,
    ensure_bind ⟨x.numRows_pos.ne', x.rowWidth_pos.ne'⟩,
    ensure_bind x.size_lt, ensure_bind hchunks.ne',
    ensure_bind rfl, ensureBelow_bind h.lt_map, ensure_bind rfl, ensureBelow_bind h.leaf_lt, hcheck,
    ok_bind, h.head?_leaves, x.buildLayers_eq _ hroot, ok_bind]
  dsimp only
  rw [hsiblings]
  rfl

/-- What a call hands out is the proof again when it comes back. -/
theorem proofOfBuffers_eq (root : Digest) (siblings : List Digest) :
    Crate.proofOfBuffers (bytesOfLeaves (x.leaves rowIndices))
      ((x.leafIndices rowIndices).map UInt32.ofNat) (UInt32.ofNat x.totalLeaves)
      (bytesOfDigests siblings) root = x.proof rowIndices root siblings := by
  have hindices : ((x.leafIndices rowIndices).map UInt32.ofNat).map UInt32.toNat =
      x.leafIndices rowIndices := by
    conv_rhs => rw [← List.map_id (x.leafIndices rowIndices)]
    rw [List.map_map]
    exact List.map_congr_left fun i hi =>
      UInt32.toNat_ofNat_of_lt' ((h.leaf_lt i hi).trans x.totalLeaves_lt)
  have hlength : (bytesOfLeaves (x.leaves rowIndices)).length / chunkLen =
      ((x.leafIndices rowIndices).map UInt32.ofNat).length := by
    rw [length_bytesOfLeaves, Nat.mul_div_cancel _ (by decide), length_leaves, List.length_map]
  rw [Crate.proofOfBuffers, leavesOf_bytesOfLeaves, digestsOf_bytesOfDigests, hlength,
    List.take_length, hindices, UInt32.toNat_ofNat_of_lt' x.totalLeaves_lt, Matrix.proof]

/-- The check accepts what the calls hand out. -/
theorem merkleVerifyProof_eq
    (hcompute : (x.proof rowIndices root siblings).computeRoot (C.withKey key) =
      .ok (some root)) :
    C.merkleVerifyProof (bytesOfLeaves (x.leaves rowIndices))
      ((x.leafIndices rowIndices).map UInt32.ofNat) (UInt32.ofNat x.totalLeaves)
      (bytesOfDigests siblings) key root = .ok () := by
  have hcount : (bytesOfLeaves (x.leaves rowIndices)).length / chunkLen ≠ 0 := by
    rw [length_bytesOfLeaves, Nat.mul_div_cancel _ (by decide), length_leaves]
    exact (List.length_pos_iff.mpr h.leafIndices_ne_nil).ne'
  unfold Crate.merkleVerifyProof
  rw [ensure_bind hcount]
  dsimp only
  rw [h.proofOfBuffers_eq, hcompute, ok_bind]
  dsimp only
  rw [ensure, if_pos rfl]

end RowsOf

theorem length_expandBseedInt7 (bseed : Digest) (len : ℕ) :
    (C.expandBseedInt7 bseed len).length = len := by
  rw [Crate.expandBseedInt7, List.length_map, List.length_range]

/-- `B`: the expanded seed -/
def Crate.bMatrix (bseed : Digest) (numRows rowWidth : ℕ) (hrows : 0 < numRows)
    (hwidth : 0 < rowWidth) (hsize : numRows * rowWidth ≤ 2 ^ 41) : Matrix where
  data := C.expandBseedInt7 bseed (numRows * rowWidth)
  numRows := numRows
  rowWidth := rowWidth
  numRows_pos := hrows
  rowWidth_pos := hwidth
  size_le := hsize
  length_eq := length_expandBseedInt7 C bseed _

/-- The matrix is the expanded seed. -/
def ExpandsTo (bseed : Digest) (x : Matrix) : Prop :=
  x.data = C.expandBseedInt7 bseed (x.numRows * x.rowWidth)

/-- A proof from the chaining values of a matrix and the opened chunks is the proof from the
matrix. -/
theorem proofFromLeafCvs_eq (key : Digest) (x : Matrix) (rowIndices : List UInt32)
    (hrows : RowsOf x rowIndices) :
    ∃ root totalLeaves leafIndices siblings,
      C.merkleRootAndProof x.data key rowIndices x.rowWidth =
        .ok (root, totalLeaves,
          ⟨bytesOfLeaves (x.leaves rowIndices), leafIndices, siblings⟩) ∧
      C.merkleProofFromLeafCvs (bytesOfDigests (x.leafCvs (C.withKey key)))
        (bytesOfLeaves (x.leaves rowIndices)) key x.numRows x.rowWidth rowIndices =
          .ok (root, totalLeaves, ⟨[], leafIndices, siblings⟩) := by
  have hnumRows : x.data.length / x.rowWidth = x.numRows := by
    rw [x.length_eq, Nat.mul_div_cancel _ x.rowWidth_pos]
  have htree : MerkleTree.new (C.withKey key) (padToChunkBoundary x.data) =
      x.tree (C.withKey key) := rfl
  obtain ⟨root, hroot⟩ := x.exists_root (C.withKey key)
  obtain ⟨siblings, hproof, hsiblings, -⟩ := hrows.exists_siblings (C.withKey key) hroot
  refine ⟨_, _, _, _, ?_, hrows.merkleProofFromLeafCvs_eq C hroot hsiblings⟩
  unfold Crate.merkleRootAndProof
  rw [ensure_bind x.rowWidth_pos, ensure_bind hrows.ne_nil]
  dsimp only
  rw [hnumRows, ensureBelow_bind hrows.lt_max, htree, leafIndicesOfRows_eq, hproof, ok_bind,
    x.numLeaves_tree]
  rfl

theorem proofFromLeafCvs_eq_small :
    ∃ root totalLeaves proof, Crate.reference.merkleRootAndProof
      (Crate.reference.expandBseedInt7 (.fill 1) (6 * 500)) (.fill 0) [4, 2] 500 =
        .ok (root, totalLeaves, proof) := by
  obtain ⟨root, totalLeaves, leafIndices, siblings, hproof, -⟩ := proofFromLeafCvs_eq
    Crate.reference (.fill 0)
    (Crate.reference.bMatrix (.fill 1) 6 500 (by decide) (by decide) (by decide)) [4, 2]
    ⟨by simp, (by simp : ∀ r ∈ ([4, 2] : List UInt32), r.toNat < 6)⟩
  dsimp only [Crate.bMatrix] at hproof
  exact ⟨root, totalLeaves, _, hproof⟩

end LeafCvs

/-! ### A tree over the seed -/

section Seed

variable (C : Crate) {x : Matrix} {bseed key root : Digest}

theorem ensure_bind_congr {α : Type} {c : Prop} [Decidable c] {msg : String}
    {f g : Unit → Except Failure α} (h : c → f () = g ()) :
    (ensure c msg >>= f) = (ensure c msg >>= g) := by
  by_cases hc : c
  · rw [ensure_bind hc, ensure_bind hc, h hc]
  · rw [ensure, if_neg hc]
    rfl

theorem ensureBelow_bind_congr {α : Type} {bound : ℕ} {l : List ℕ} {msg : ℕ → String}
    {f g : Unit → Except Failure α} (h : (∀ x ∈ l, x < bound) → f () = g ()) :
    (ensureBelow bound l msg >>= f) = (ensureBelow bound l msg >>= g) := by
  rw [ensureBelow]
  cases hfind : l.find? (bound ≤ ·) with
  | some bad => rfl
  | none =>
    refine h fun x hx => ?_
    simpa using List.find?_eq_none.mp hfind x hx

/-- A chunk of the expanded seed is a range of the stream. -/
theorem chunk_expandBseedInt7 (bseed : Digest) (dataLen i : ℕ) :
    chunk (C.expandBseedInt7 bseed dataLen) i =
      C.expandBseedInt7Range bseed (UInt64.ofNat (i * 1024)) (min (dataLen - i * 1024) 1024) := by
  apply List.ext_getElem
  · simp only [chunk, Crate.expandBseedInt7, Crate.expandBseedInt7Range, chunkLen, List.length_take,
      List.length_drop, List.length_map, List.length_range]
    omega
  · intro j hj hj'
    simp only [chunk, Crate.expandBseedInt7, Crate.expandBseedInt7Range, chunkLen,
      List.getElem_take, List.getElem_drop, List.getElem_map, List.getElem_range, UInt64.ofNat_add]

/-- A leaf that is computed from the seed is the leaf of the padded matrix. -/
theorem expandBseedLeaf_eq (hx : ExpandsTo C bseed x) {i : ℕ} (hi : i < x.totalLeaves) :
    C.expandBseedLeaf bseed (x.numRows * x.rowWidth) i = .ofBytes (chunk x.padded i) := by
  have hoffset : i * 1024 < x.numRows * x.rowWidth := lt_numChunks_iff.mp hi
  have hmin : min (i * 1024) (2 ^ 64 - 1) = i * 1024 := by
    have := x.size_le
    omega
  rw [x.chunk_padded hi, Leaf.ofBytes_bytes, hx, chunk_expandBseedInt7, Crate.expandBseedLeaf, hmin,
    if_pos hoffset]

theorem bseedExpandRaw_eq (hx : ExpandsTo C bseed x) :
    C.bseedExpandRaw bseed x.numRows x.rowWidth (x.numRows * x.rowWidth) = .ok x.data := by
  unfold Crate.bseedExpandRaw
  rw [ensure_bind ⟨x.numRows_pos.ne', x.rowWidth_pos.ne'⟩, ensure_bind x.size_lt, ensure_bind le_rfl,
    hx]
  rfl

/-- The tree that computes its leaves from the seed. -/
def Matrix.bseedCtx (x : Matrix) (H : Blake3Hasher) (bseed root : Digest) : BSeedMerkleTreeCtx :=
  ⟨bseed, H.layersFrom (x.leafCvs H), root, x.numRows, x.rowWidth, x.numRows * x.rowWidth⟩

theorem headD_bseedCtx (H : Blake3Hasher) (bseed root : Digest) :
    ((x.bseedCtx H bseed root).layers.headD []).length = x.totalLeaves := by
  rw [Matrix.bseedCtx, List.headD_eq_head?_getD, H.head?_layersFrom, Option.getD_some,
    x.length_leafCvs]

/-- Proofs are those of the tree over the matrix, refusals included. -/
theorem bseedProof_eq {H : Blake3Hasher} (hx : ExpandsTo C bseed x)
    (hroot : (x.tree H).root = .ok root) (rowIndices : List UInt32) :
    C.bseedProof (x.bseedCtx H bseed root) rowIndices = (x.hostCtx H).proof rowIndices := by
  unfold Crate.bseedProof MerkleTreeCtx.proof
  dsimp only
  rw [headD_bseedCtx]
  dsimp only [Matrix.bseedCtx, Matrix.hostCtx]
  rw [leafIndicesOfRows_eq]
  refine ensure_bind_congr fun hne => ensureBelow_bind_congr fun hbelow => ?_
  have hrows := x.numRows_pos
  have hlt : ∀ r ∈ rowIndices, r.toNat < x.numRows := by
    intro r hr
    have := hbelow _ (List.mem_map_of_mem hr)
    omega
  have h : RowsOf x rowIndices := ⟨hne, hlt⟩
  obtain ⟨siblings, hproof, hsiblings, -⟩ := h.exists_siblings H hroot
  have hleaves : (x.leafIndices rowIndices).map
      (C.expandBseedLeaf bseed (x.numRows * x.rowWidth)) = x.leaves rowIndices :=
    List.map_congr_left fun i hi => expandBseedLeaf_eq C hx (h.leaf_lt i hi)
  rw [hproof, ok_bind, ensureBelow_bind h.leaf_lt, hsiblings, ok_bind, hleaves]
  rfl

/-- With one leaf there are no siblings to tell the layers apart. -/
theorem auditPaths_one (d d' : Digest) (leafIndices : List ℕ) :
    auditPaths [[d]] leafIndices = auditPaths [[d']] leafIndices := by
  have hpath : auditPath (auditLevels 1) [[d]] = auditPath (auditLevels 1) [[d']] := rfl
  unfold auditPaths
  dsimp only [List.headD_cons, List.length_singleton]
  rw [hpath]

theorem bseedAuditPaths_eq (H : Blake3Hasher) (bseed root : Digest) (leafIndices : List UInt32) :
    (x.bseedCtx H bseed root).auditPaths leafIndices =
      (x.hostCtx H).auditPaths leafIndices := by
  unfold BSeedMerkleTreeCtx.auditPaths MerkleTreeCtx.auditPaths Matrix.bseedCtx Matrix.hostCtx
  dsimp only
  rcases x.one_or_two_le with hone | htwo
  · rw [x.tree_one H hone, x.leafCvs_one H hone, Blake3Hasher.layersFrom_singleton, auditPaths_one]
  · rw [x.tree_of_two_le H htwo]

theorem bseedMerkleBuildTreeFromLeafCvs_eq (hx : ExpandsTo C bseed x)
    (hroot : (x.tree (C.withKey key)).root = .ok root) :
    C.bseedMerkleBuildTreeFromLeafCvs (bytesOfDigests (x.leafCvs (C.withKey key))) bseed key
      x.numRows x.rowWidth =
        .ok (x.bseedCtx (C.withKey key) bseed root, root, UInt32.ofNat x.totalLeaves) := by
  have hchunks := x.totalLeaves_pos
  have hctx : C.buildBseedMerkleCtx (x.leafCvs (C.withKey key)) bseed key x.numRows x.rowWidth =
      .ok (x.bseedCtx (C.withKey key) bseed root) := by
    unfold Crate.buildBseedMerkleCtx
    dsimp only
    rw [x.expectedLeaves_eq, x.length_leafCvs, ensure_bind x.size_lt, ensure_bind hchunks.ne',
      ensure_bind rfl, expandBseedLeaf_eq C hx hchunks, x.buildLayers_eq _ hroot, ok_bind]
    rfl
  unfold Crate.bseedMerkleBuildTreeFromLeafCvs
  rw [digestsOf_bytesOfDigests, length_bytesOfDigests, x.length_leafCvs,
    ensure_bind ⟨by omega, Nat.mul_mod_left _ _⟩,
    ensure_bind ⟨x.numRows_pos.ne', x.rowWidth_pos.ne'⟩, hctx, ok_bind, headD_bseedCtx]
  rfl

/-- A tree over the chaining values of `B` that computes its leaves from the seed has the root and
the number of leaves of the tree over `B`, and it answers every call as that one does. -/
theorem bseedTree_eq (bseed key : Digest) (numRows rowWidth : ℕ) (hrows : 0 < numRows)
    (hwidth : 0 < rowWidth) (hsize : numRows * rowWidth ≤ 2 ^ 41) :
    ∃ b ctx host root totalLeaves,
      C.bseedExpandRaw bseed numRows rowWidth (numRows * rowWidth) = .ok b ∧
      C.merkleBuildTree b key rowWidth = .ok (host, root, totalLeaves) ∧
      C.bseedMerkleBuildTreeFromLeafCvs
        (bytesOfDigests ((C.withKey key).hashChunks (padToChunkBoundary b))) bseed key numRows
        rowWidth = .ok (ctx, root, totalLeaves) ∧
      (∀ rowIndices, C.bseedProof ctx rowIndices = host.proof rowIndices) ∧
      ∀ leafIndices, ctx.auditPaths leafIndices = host.auditPaths leafIndices := by
  have hx : ExpandsTo C bseed (C.bMatrix bseed numRows rowWidth hrows hwidth hsize) := rfl
  obtain ⟨root, hroot⟩ :=
    (C.bMatrix bseed numRows rowWidth hrows hwidth hsize).exists_root (C.withKey key)
  exact ⟨_, _, _, root, _, bseedExpandRaw_eq C hx, merkleBuildTree_eq C hroot,
    bseedMerkleBuildTreeFromLeafCvs_eq C hx hroot, bseedProof_eq C hx hroot,
    bseedAuditPaths_eq _ bseed root⟩

theorem bseedTree_eq_small :
    ∃ b tree, Crate.reference.bseedExpandRaw (.fill 1) 3 700 (3 * 700) = .ok b ∧
      Crate.reference.merkleBuildTree b (.fill 0) 700 = .ok tree := by
  obtain ⟨b, ctx, host, root, totalLeaves, hexpand, hbuild, -⟩ := bseedTree_eq Crate.reference
    (.fill 1) (.fill 0) 3 700 (by decide) (by decide) (by decide)
  exact ⟨b, _, hexpand, hbuild⟩

end Seed

end PropMiner.Merkle
