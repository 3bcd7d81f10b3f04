import PropMiner.Share.Target

/-!
# Shares, jobs and the mining library

The records of `pearl_types.h` as far as the share builder reads them, and the wrapper
`MiningCapi` around the Rust library. A call of the library is a function of its inputs
that answers or reports an error; the wrapper turns a reported error into an exception.
The BLAKE3 calls are plain functions.

A dimension of the mining shape is a 32-bit `int` that is not negative: a worker with
another shape allocates no buffers and finds no share.

## Main definitions

* `MiningConfig`, `SignedConfig`, `Job`, `SigmaContext`, `ShareFound`
* `Library` — the Rust calls
* `OwnedProof`, `Library.aProofFromLeafCvs`, `Library.proofForHandle` — proofs with the
  root and leaf count the wrapper puts in
-/

set_option autoImplicit false

namespace PropMiner.Share

open PropMiner.Semantics

/-! ### Configuration -/

/-- `PeriodicPattern` -/
structure PeriodicPattern where
  stride0 : UInt32 := 1
  length0 : UInt32 := 1
  stride1 : UInt32 := 1
  length1 : UInt32 := 1
  stride2 : UInt32 := 1
  length2 : UInt32 := 1
  deriving DecidableEq, Repr

namespace PeriodicPattern

/-- `size` -/
def size (p : PeriodicPattern) : UInt32 := p.length0 * p.length1 * p.length2

/-- `to_bytes`: per dimension the stride as a multiple of the extent below it, and the
length, both less one. -/
def toBytes (p : PeriodicPattern) : List UInt8 :=
  let entry := fun (minStride stride length : UInt32) =>
    [(stride / minStride - 1).toUInt8, (length - 1).toUInt8]
  entry 1 p.stride0 p.length0 ++ entry (p.stride0 * p.length0) p.stride1 p.length1 ++
    entry (p.stride1 * p.length1) p.stride2 p.length2

/-- `default_rows`: `{0, 8}` -/
def defaultRows : PeriodicPattern := { stride0 := 8, length0 := 2, stride1 := 16, stride2 := 16 }

/-- `default_cols`: `8 r` and `8 r + 1` for `r` below 32 -/
def defaultCols : PeriodicPattern :=
  { stride0 := 1, length0 := 2, stride1 := 8, length1 := 32, stride2 := 256 }

end PeriodicPattern

/-- A dimension of the mining shape. -/
structure Dim where
  val : ℕ
  lt : val < 2 ^ 31
  deriving DecidableEq, Repr

/-- The fields of `MiningConfig`, over the type of its dimensions. -/
structure Shape (D : Type) where
  m : D
  n : D
  k : D
  r : D
  rowsPattern : PeriodicPattern := .defaultRows
  colsPattern : PeriodicPattern := .defaultCols
  deriving DecidableEq, Repr

abbrev MiningConfig := Shape Dim

/-- `MiningConfig` with dimensions of either sign, as its type allows. -/
abbrev SignedConfig := Shape Int32

/-- `to_bytes`: 52 bytes, the last 32 reserved. -/
def SignedConfig.toBytes (c : SignedConfig) : List UInt8 :=
  LittleEndian.bytesOf 4 c.k.toUInt32.toNat ++ LittleEndian.bytesOf 2 c.r.toUInt32.toNat ++
    LittleEndian.bytesOf 2 0 ++ c.rowsPattern.toBytes ++ c.colsPattern.toBytes ++
    List.replicate 32 0

namespace MiningConfig

def signed (c : MiningConfig) : SignedConfig where
  m := Int32.ofNat c.m.val
  n := Int32.ofNat c.n.val
  k := Int32.ofNat c.k.val
  r := Int32.ofNat c.r.val
  rowsPattern := c.rowsPattern
  colsPattern := c.colsPattern

/-- `dot_product_length` -/
def dotProductLength (c : MiningConfig) : UInt32 := UInt32.ofNat c.k.val / 128 * 128

/-- `difficulty_adjustment_factor` -/
def difficultyAdjustmentFactor (c : MiningConfig) : UInt64 :=
  c.rowsPattern.size.toUInt64 * c.colsPattern.size.toUInt64 * c.dotProductLength.toUInt64

end MiningConfig

/-! ### Jobs and shares -/

/-- A `MerkleTree`: a handle of the library, with the root and leaf count it was built
with. -/
structure MerkleTree where
  handle : UInt64
  root : Bytes32
  totalLeaves : UInt32
  deriving DecidableEq

structure Job where
  sigma : Vector UInt8 76
  jobKey : Bytes32
  bSeed : Bytes32
  targetNbits : UInt32
  auditK : UInt32
  config : MiningConfig
  deriving DecidableEq

structure SigmaContext where
  job : Job
  bMerkleTree : MerkleTree
  deriving DecidableEq

structure ShareFound where
  job : Job
  sigmaCtx : Option SigmaContext
  installedTargetNbits : UInt32
  nonce : UInt64
  tileRow : UInt32
  tileCol : UInt32
  aRowIndices : List UInt32
  bColIndices : List UInt32
  hashA : Bytes32
  hashB : Bytes32
  aSlice : List UInt8
  aOpenedLeafData : List UInt8
  aLeafCvs : List UInt8
  claimedHash : Bytes32
  deriving DecidableEq

/-- `installed_target_nbits ? installed_target_nbits : job.target_nbits` -/
def ShareFound.minedNbits (s : ShareFound) : UInt32 :=
  if s.installedTargetNbits ≠ 0 then s.installedTargetNbits else s.job.targetNbits

/-- `hash_bytes_set`: some byte is not zero. -/
def Bytes32.isSet (h : Bytes32) : Bool := h.bytes.any (· ≠ 0)

/-! ### The library -/

/-- What a function of the share builder can throw. -/
inductive Exception
  | runtimeError (what : String)
  | invalidArgument (what : String)
  | lengthError (what : String)
  deriving DecidableEq, Repr

/-- What the library hands out for a Merkle proof. -/
structure RawProof where
  leafData : List UInt8 := []
  leafIndices : List UInt32 := []
  siblings : List UInt8 := []
  deriving DecidableEq, Repr

/-- The Rust calls, and the environment flag `PROPMINER_BCOL_CACHE`. An error may come
with a text. -/
structure Library where
  /-- BLAKE3 of some data -/
  blake3Hash : List UInt8 → Bytes32
  /-- keyed BLAKE3 of some data -/
  blake3Keyed : List UInt8 → Bytes32 → Bytes32
  /-- one byte of the output of a given length -/
  blake3Xof : List UInt8 → ℕ → ℕ → UInt8
  /-- leaf CVs, leaf data, key, rows, row width, row indices: root, leaf count, proof -/
  merkleProofFromLeafCvs : List UInt8 → List UInt8 → Bytes32 → ℕ → ℕ → List UInt32 →
    Except (Option String) (Bytes32 × UInt32 × RawProof)
  merkleProofForHandle : UInt64 → List UInt32 → Except (Option String) RawProof
  merkleAuditPathsForHandle : UInt64 → List UInt32 → Except (Option String) (List UInt8)
  /-- leaf data, leaf indices, leaf count, siblings, key, expected root -/
  merkleVerifyProof : List UInt8 → List UInt32 → UInt32 → List UInt8 → Bytes32 → Bytes32 → Bool
  /-- the bytes of a stream from an offset on -/
  bseedExpandRangeRaw : Bytes32 → UInt64 → UInt64 → Except (Option String) (ℕ → UInt8)
  bcolTargetedExpandEnabled : Bool

/-- `check_err` -/
def checkErr {α : Type} : Except (Option String) α → Except Exception α
  | .ok a => .ok a
  | .error none => .error (.runtimeError "pearl_mining_capi call failed")
  | .error (some err) => .error (.runtimeError ("pearl_mining_capi call failed: " ++ err))

/-- `OwnedProof`. The root is 32 bytes, as the wrapper assigns it. -/
structure OwnedProof where
  root : Bytes32
  leafData : List UInt8
  leafIndices : List UInt32
  siblings : List UInt8
  totalLeaves : UInt32
  deriving DecidableEq

namespace OwnedProof

/-- `leaf_count` -/
def leafCount (p : OwnedProof) : ℕ := p.leafData.length / 1024

/-- `sibling_count` -/
def siblingCount (p : OwnedProof) : ℕ := p.siblings.length / 32

end OwnedProof

namespace Library

variable (L : Library)

/-- `a_proof_from_leaf_cvs` -/
def aProofFromLeafCvs (leafCvs leafData : List UInt8) (jobKey : Bytes32) (numRows rowWidth : ℕ)
    (rowIndices : List UInt32) : Except Exception OwnedProof := do
  let (root, totalLeaves, raw) ← checkErr
    (L.merkleProofFromLeafCvs leafCvs leafData jobKey numRows rowWidth rowIndices)
  return ⟨root, leafData, raw.leafIndices, raw.siblings, totalLeaves⟩

/-- `proof_for_handle`: root and leaf count are those of the tree. -/
def proofForHandle (tree : MerkleTree) (indices : List UInt32) : Except Exception OwnedProof := do
  let raw ← checkErr (L.merkleProofForHandle tree.handle indices)
  return ⟨tree.root, raw.leafData, raw.leafIndices, raw.siblings, tree.totalLeaves⟩

/-- `audit_paths_for_handle` -/
def auditPathsForHandle (tree : MerkleTree) (leafIndices : List UInt32) :
    Except Exception (List UInt8) :=
  checkErr (L.merkleAuditPathsForHandle tree.handle leafIndices)

/-- `bseed_expand_range` -/
def bseedExpandRange (bseed : Bytes32) (byteOffset n : UInt64) : Except Exception (List UInt8) := do
  let stream ← checkErr (L.bseedExpandRangeRaw bseed byteOffset n)
  return (List.range n.toNat).map stream

/-- `pearl_capi_bseed_expand_range_raw` has an error only for a null pointer: a range is a
piece of the stream that belongs to the seed. -/
def ExpandsRanges : Prop :=
  ∃ stream : Bytes32 → UInt64 → UInt8, ∀ bseed byteOffset n,
    L.bseedExpandRangeRaw bseed byteOffset n =
      .ok fun i => stream bseed (byteOffset + UInt64.ofNat i)

/-- `verify_proof`: an error of the library is a proof that does not verify. -/
def verifyProof (proof : OwnedProof) (jobKey expectedRoot : Bytes32) : Bool :=
  L.merkleVerifyProof proof.leafData proof.leafIndices proof.totalLeaves proof.siblings jobKey
    expectedRoot

end Library

end PropMiner.Share
