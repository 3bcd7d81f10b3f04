import PropMiner.Share.Types
import PropMiner.Wire.Writer

/-!
# Proof encodings

The two encodings of a share: `ProtobufEncoder` for the gRPC pool and `BincodeEncoder`
for Stratum.

## Main definitions

* `submissionFields`, `Library.encodeSigned` — fields of the protobuf message and its bytes
* `shareSubmission`, `Library.encodeShareSubmission` — the same for the shapes of the share
  builder, whose dimensions are not negative
* `encodePlainProof` — the bincode proof
-/

set_option autoImplicit false

namespace PropMiner.Share

open PropMiner.Semantics PropMiner.Wire

/-- Piece `i` of a buffer that is cut into pieces of `n` bytes. -/
def piece (n : ℕ) (bs : List UInt8) (i : ℕ) : List UInt8 := (bs.drop (i * n)).take n

/-! ### The protobuf message -/

/-- The fields of `encode_merkle_proof`. -/
def merkleProofFields (p : OwnedProof) : List Field :=
  (List.range p.leafCount).map (fun i => ⟨1, .bytes (piece 1024 p.leafData i)⟩) ++
    p.leafIndices.map (fun idx => ⟨2, .fixed32 idx⟩) ++
    [⟨3, .fixed32 p.totalLeaves⟩] ++
    (List.range p.siblingCount).map fun i => ⟨4, .bytes (piece 32 p.siblings i)⟩

/-- `encode_merkle_proof` -/
def encodeMerkleProof (p : OwnedProof) : List UInt8 := (merkleProofFields p).flatMap Field.encode

/-- `encode_audit_proof` -/
def encodeAuditProof (siblings : List UInt8) : List UInt8 := Field.encode ⟨1, .bytes siblings⟩

/-- `write_int32_field` of a value that is cast to `int32_t` and back. -/
def int32Value (v : UInt32) : Value := .varint v.toUInt64

/-- The fields of `encode_share_submission`, with the opened columns of `B` in `bSlice`. -/
def submissionFields (share : ShareFound) (cfg : SignedConfig) (aProof bProof : OwnedProof)
    (bSlice auditSiblings : List UInt8) : List Field :=
  [⟨2, .bytes share.job.sigma.toList⟩,
    ⟨3, .bytes cfg.toBytes⟩,
    ⟨4, .bytes aProof.root.bytes⟩,
    ⟨5, .bytes share.hashB.bytes⟩,
    ⟨6, .bytes share.aSlice⟩,
    ⟨7, .bytes bSlice⟩,
    ⟨8, .bytes (encodeMerkleProof aProof)⟩,
    ⟨9, .bytes (encodeMerkleProof bProof)⟩,
    ⟨10, .bytes share.claimedHash.bytes⟩,
    ⟨11, .fixed32 share.job.targetNbits⟩,
    ⟨12, int32Value share.tileRow⟩,
    ⟨13, int32Value share.tileCol⟩,
    ⟨14, .fixed32 cfg.m.toUInt32⟩,
    ⟨15, .fixed32 cfg.n.toUInt32⟩,
    ⟨16, .bytes share.job.bSeed.bytes⟩] ++
  if auditSiblings = [] then [] else [⟨17, .bytes (encodeAuditProof auditSiblings)⟩]

/-- The columns that `encode_share_submission` expands, each of `k` bytes. There is no buffer of a
negative length. -/
def Library.expandColumns (L : Library) (share : ShareFound) (k : Int32) :
    Except Exception (List (List UInt8)) :=
  if k < 0 ∧ share.bColIndices ≠ [] then
    .error (.lengthError "cannot create std::vector larger than max_size()")
  else
    let k := UInt64.ofInt k.toInt
    share.bColIndices.mapM fun col => L.bseedExpandRange share.job.bSeed (col.toUInt64 * k) k

/-- `encode_share_submission` -/
def Library.encodeSigned (L : Library) (share : ShareFound) (cfg : SignedConfig)
    (aProof bProof : OwnedProof) (auditSiblings : List UInt8) : Except Exception (List UInt8) := do
  let columns ← L.expandColumns share cfg.k
  return (submissionFields share cfg aProof bProof columns.flatten auditSiblings).flatMap
    Field.encode

def shareSubmission (share : ShareFound) (cfg : MiningConfig) (aProof bProof : OwnedProof)
    (bSlice auditSiblings : List UInt8) : List Field :=
  submissionFields share cfg.signed aProof bProof bSlice auditSiblings

/-- `encode_share_submission` of a shape without negative dimensions -/
def Library.encodeShareSubmission (L : Library) (share : ShareFound) (cfg : MiningConfig)
    (aProof bProof : OwnedProof) (auditSiblings : List UInt8) : Except Exception (List UInt8) :=
  L.encodeSigned share cfg.signed aProof bProof auditSiblings

section Columns

variable {L : Library} {share : ShareFound}

theorem mapM_of_expandColumns {k : Int32} {columns : List (List UInt8)}
    (h : L.expandColumns share k = .ok columns) :
    (share.bColIndices.mapM fun col => L.bseedExpandRange share.job.bSeed
      (col.toUInt64 * UInt64.ofInt k.toInt) (UInt64.ofInt k.toInt)) = .ok columns := by
  unfold Library.expandColumns at h
  split_ifs at h
  exact h

theorem expandColumns_signed (cfg : MiningConfig) :
    L.expandColumns share cfg.signed.k = share.bColIndices.mapM fun col =>
      L.bseedExpandRange share.job.bSeed (col.toUInt64 * UInt64.ofNat cfg.k.val)
        (UInt64.ofNat cfg.k.val) := by
  -- a dimension is below `2 ^ 31`, so it keeps its value as an `int`
  have hval : cfg.signed.k.toInt = cfg.k.val := Int32.toInt_ofNat_of_lt cfg.k.lt
  have hneg : ¬ (cfg.signed.k < 0 ∧ share.bColIndices ≠ []) := by
    rintro ⟨hk, -⟩
    rw [Int32.lt_iff_toInt_lt, hval] at hk
    exact absurd hk (Int.not_lt.mpr (Int.natCast_nonneg _))
  have hk : UInt64.ofInt cfg.signed.k.toInt = UInt64.ofNat cfg.k.val := by
    have hlt := cfg.k.lt
    rw [hval]
    exact congrArg UInt64.ofNat (by omega)
  rw [Library.expandColumns, if_neg hneg, hk]

end Columns

/-! ### The bincode proof -/

/-- `write_u64` -/
def writeU64 (v : ℕ) : List UInt8 := LittleEndian.bytesOf 8 v

/-- `write_merkle_proof` -/
def writeMerkleProof (p : OwnedProof) (root : Bytes32) : List UInt8 :=
  writeU64 p.leafCount ++
    ((List.range p.leafCount).flatMap fun i => writeU64 1024 ++ piece 1024 p.leafData i) ++
    writeU64 p.leafIndices.length ++ (p.leafIndices.flatMap fun idx => writeU64 idx.toNat) ++
    writeU64 p.totalLeaves.toNat ++ root.bytes ++
    writeU64 p.siblingCount ++ (List.range p.siblingCount).flatMap (piece 32 p.siblings)

/-- `write_matrix_merkle_proof` -/
def writeMatrixMerkleProof (p : OwnedProof) (root : Bytes32) (indices : List UInt32) : List UInt8 :=
  writeMerkleProof p root ++ writeU64 indices.length ++
    indices.flatMap fun idx => writeU64 idx.toNat

/-- `encode_plain_proof` -/
def encodePlainProof (cfg : MiningConfig) (aProof bProof : OwnedProof)
    (aRowIndices bColIndices : List UInt32) (hashA hashB : Bytes32) (certVersion : ℤ) :
    List UInt8 :=
  writeU64 cfg.m.val ++ writeU64 cfg.n.val ++ writeU64 cfg.k.val ++ writeU64 cfg.r.val ++
    writeMatrixMerkleProof aProof hashA aRowIndices ++
    writeMatrixMerkleProof bProof hashB bColIndices ++
    if 2 ≤ certVersion then [0x00] else []

end PropMiner.Share
