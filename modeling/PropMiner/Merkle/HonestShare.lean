import PropMiner.Merkle.Capi
import PropMiner.Share.Builder
import PropMiner.Stratum.Solve

/-!
# An honest share

The library behind the share builder is the one of `Merkle.Capi`, called through the wrapper: a text
of an error is passed on, a panic has the name of the call as its text, and a tree is known by a
handle.

A share is honest when its device has done what it should. `A` lies in the memory of the device; the
share has the chaining values of its chunks and a copy of the chunks that its rows meet. `B` is the
expanded seed, and its tree was built on the host or from chaining values. Both matrices have more
than one chunk, since the library refuses its own proof of a single one. Nothing is assumed about
the hash functions: both proofs of an honest share are accepted, nothing is thrown, and the share is
verified if and only if its hash is the reported one, if there is one, and clears the target.

## Main definitions

* `Handle`, `Crate.library` — the library that a share builder calls
* `BuiltB` — a tree for `B`
* `HonestShare` — what is asked of a share and its job

## Main results

* `library_expandsXof`, `computesBlake3_reference` — what other parts assume of the library
* `openedLeafData_eq` — the chunks that the device copies are those that the library expects
* `verifyShare_honest` — what `VerifyShare` makes of an honest share
-/

set_option autoImplicit false

namespace PropMiner.Merkle

open PropMiner.Semantics PropMiner.Share

/-! ### The library -/

/-- What a handle of the library points to; the wrapper knows which. -/
inductive Handle
  | host (ctx : MerkleTreeCtx)
  | bseed (ctx : BSeedMerkleTreeCtx)

/-- How a call ends at the border of the library. -/
def border {α : Type} (call : String) : Except Failure α → Except (Option String) α
  | .ok a => .ok a
  | .error (.err msg) => .error (some msg)
  | .error .panic => .error (some ("panic during " ++ call))

/-- The calls, for the handles that there are and the environment flag. -/
def Crate.library (C : Crate) (handles : UInt64 → Option Handle) (targeted : Bool) : Library where
  blake3Hash := C.hash
  blake3Keyed data key := (C.withKey key).hash data
  blake3Xof data _ i := C.xof data (UInt64.ofNat i)
  merkleProofFromLeafCvs leafCvs leafData key numRows rowWidth rowIndices :=
    border "merkle_proof_from_leaf_cvs"
      (C.merkleProofFromLeafCvs leafCvs leafData key numRows rowWidth rowIndices)
  merkleProofForHandle handle rowIndices :=
    match handles handle with
    | none => .error (some "required out-parameter pointer was null")
    | some (.host ctx) => border "merkle_proof_for_handle" (ctx.proof rowIndices)
    | some (.bseed ctx) => border "bseed_merkle_proof_for_handle" (C.bseedProof ctx rowIndices)
  merkleAuditPathsForHandle handle leafIndices :=
    match handles handle with
    | none => .error (some "required out-parameter pointer was null")
    | some (.host ctx) => border "merkle_audit_paths_for_handle" (ctx.auditPaths leafIndices)
    | some (.bseed ctx) =>
      border "bseed_merkle_audit_paths_for_handle" (ctx.auditPaths leafIndices)
  merkleVerifyProof leafData leafIndices totalLeaves siblings key expectedRoot :=
    match C.merkleVerifyProof leafData leafIndices totalLeaves siblings key expectedRoot with
    | .ok () => true
    | .error _ => false
  bseedExpandRangeRaw bseed byteOffset _ :=
    .ok fun i => mapInt7 (C.xof bseed.bytes (byteOffset + UInt64.ofNat i))
  bcolTargetedExpandEnabled := targeted

section Assumed

variable (C : Crate) (handles : UInt64 → Option Handle) (targeted : Bool)

theorem library_expandsAs : (C.library handles targeted).ExpandsAs fun bseed i =>
    mapInt7 (C.xof bseed.bytes i) := fun _ _ _ => rfl

/-- Ranges are expanded from the output of the hash, as the reference of the tests assumes. -/
theorem library_expandsXof : (C.library handles targeted).ExpandsXof := by
  refine ⟨fun data i => C.xof data (UInt64.ofNat i), fun _ _ _ => rfl, fun bseed byteOffset n => ?_⟩
  simp only [UInt64.ofNat_toNat]
  rfl

/-- The reference hasher is BLAKE3 as the challenge of a pool assumes it. -/
theorem computesBlake3_reference : Stratum.ComputesBlake3 Crate.reference.hash := by
  intro input hlen
  exact Reference.rootBytes_block hlen

end Assumed

/-! ### The chunks of the rows -/

section Opened

variable {x : Matrix} {a : ℕ → UInt8} {rowIndices : List UInt32}

/-- The matrix in the memory of the device. -/
def matrixOf (a : ℕ → UInt8) (len : ℕ) : List UInt8 := (List.range len).map a

theorem chunk_matrixOf (a : ℕ → UInt8) {len i : ℕ} (hi : (i + 1) * chunkLen ≤ len) :
    chunk (matrixOf a len) i = (List.range 1024).map fun j => a (i * 1024 + j) := by
  rw [Nat.succ_mul, chunkLen] at hi
  apply List.ext_getElem
  · rw [chunk, matrixOf, chunkLen, List.length_take, List.length_drop, List.length_map,
      List.length_map, List.length_range, List.length_range]
    omega
  · intro j hj hj'
    simp only [chunk, matrixOf, chunkLen, List.getElem_take, List.getElem_drop, List.getElem_map,
      List.getElem_range]

theorem padded_of_dvd (h : chunkLen ∣ x.numRows * x.rowWidth) : x.padded = x.data := by
  obtain ⟨n, hn⟩ := h
  rw [Nat.mul_comm chunkLen n] at hn
  rw [Matrix.padded, padToChunkBoundary, x.length_eq, paddedChunkLen, hn, numChunks_mul,
    Nat.sub_self, List.replicate_zero, List.append_nil]

/-- The chunks that the device copies are those that the library expects. -/
theorem openedLeafData_eq (h : RowsOf x rowIndices)
    (hx : x.data = matrixOf a (x.numRows * x.rowWidth))
    (haligned : chunkLen ∣ x.numRows * x.rowWidth) :
    Worker.openedLeafData a
      (Worker.computeLeafIndicesFromRows rowIndices (UInt64.ofNat x.rowWidth)) =
        bytesOfLeaves (x.leaves rowIndices) := by
  have hwidth : 0 < UInt64.ofNat x.rowWidth := by
    rw [UInt64.lt_iff_toNat_lt, x.toNat_rowWidth]
    exact x.rowWidth_pos
  have hrows : ∀ row ∈ rowIndices, (row.toNat + 1) * (UInt64.ofNat x.rowWidth).toNat ≤ 2 ^ 42 := by
    intro row hrow
    rw [x.toNat_rowWidth]
    exact (h.row_le hrow).trans (x.size_le.trans (by norm_num))
  have hindices : x.leafIndices rowIndices =
      (Worker.computeLeafIndicesFromRows rowIndices (UInt64.ofNat x.rowWidth)).map UInt32.toNat :=
    (Worker.computeLeafIndicesFromRows_eq_library hwidth hrows).symm
  have hleaf : ∀ leaf ∈ Worker.computeLeafIndicesFromRows rowIndices (UInt64.ofNat x.rowWidth),
      ((List.range 1024).map fun j => a (leaf.toNat * 1024 + j)) =
        (Leaf.ofBytes (chunk x.padded leaf.toNat)).bytes := by
    intro leaf hleaf
    have hfull := h.leaf_full (hindices ▸ List.mem_map_of_mem hleaf)
    rw [ofBytes_chunk hfull]
    rw [padded_of_dvd haligned, x.length_eq] at hfull
    rw [padded_of_dvd haligned, hx, chunk_matrixOf a hfull]
  rw [Worker.openedLeafData, List.flatMap_congr hleaf, bytesOfLeaves, Matrix.leaves, hindices,
    List.map_map, List.flatMap_map]
  rfl

end Opened

/-! ### Honest shares -/

section Honest

variable {C : Crate} {handles : UInt64 → Option Handle} {a : ℕ → UInt8} {share : ShareFound}
  {ctx : SigmaContext} {key bseed root : Digest} {x : Matrix} {tree : Share.MerkleTree}
  {rowIndices : List UInt32} {siblings : List Digest}

/-- A tree for `B`: over the expanded seed, or over its chaining values. -/
inductive BuiltB (C : Crate) (handles : UInt64 → Option Handle) (bseed key : Digest) (x : Matrix) :
    Share.MerkleTree → Prop
  | host {handle : UInt64} {b : List UInt8} {t : MerkleTreeCtx} {root : Digest}
      {totalLeaves : UInt32}
      (hexpand : C.bseedExpandRaw bseed x.numRows x.rowWidth (x.numRows * x.rowWidth) = .ok b)
      (hbuild : C.merkleBuildTree b key x.rowWidth = .ok (t, root, totalLeaves))
      (hhandle : handles handle = some (.host t)) :
      BuiltB C handles bseed key x ⟨handle, root, totalLeaves⟩
  | leafCvs {handle : UInt64} {t : BSeedMerkleTreeCtx} {root : Digest} {totalLeaves : UInt32}
      (hbuild : C.bseedMerkleBuildTreeFromLeafCvs (bytesOfDigests (x.leafCvs (C.withKey key)))
        bseed key x.numRows x.rowWidth = .ok (t, root, totalLeaves))
      (hhandle : handles handle = some (.bseed t)) :
      BuiltB C handles bseed key x ⟨handle, root, totalLeaves⟩

/-- A proof in the buffers of the wrapper. -/
def Matrix.ownedProof (x : Matrix) (rowIndices : List UInt32) (root : Digest)
    (siblings : List Digest) : OwnedProof :=
  ⟨root, bytesOfLeaves (x.leaves rowIndices), (x.leafIndices rowIndices).map UInt32.ofNat,
    bytesOfDigests siblings, UInt32.ofNat x.totalLeaves⟩

theorem verifyProof_ownedProof (hrows : RowsOf x rowIndices)
    (hcompute : (x.proof rowIndices root siblings).computeRoot (C.withKey key) = .ok (some root))
    (handles : UInt64 → Option Handle) (targeted : Bool) :
    (C.library handles targeted).verifyProof (x.ownedProof rowIndices root siblings) key
      root = true := by
  have hverify := hrows.merkleVerifyProof_eq C hcompute
  simp only [Library.verifyProof, Matrix.ownedProof, Crate.library, hverify]

/-- Either tree has the root of the expanded seed and hands out its proofs. -/
theorem BuiltB.exists_proof (h : BuiltB C handles bseed key x tree) (hx : ExpandsTo C bseed x)
    (hrows : RowsOf x rowIndices) (targeted : Bool) : ∃ siblings,
      (C.library handles targeted).proofForHandle tree rowIndices =
        .ok (x.ownedProof rowIndices tree.root siblings) ∧
      (2 ≤ x.totalLeaves → (x.proof rowIndices tree.root siblings).computeRoot (C.withKey key) =
        .ok (some tree.root)) := by
  obtain ⟨root, hroot⟩ := x.exists_root (C.withKey key)
  obtain ⟨siblings, hproof, -, hcompute⟩ := hrows.exists_siblings (C.withKey key) hroot
  cases h with
  | @host handle b t root' totalLeaves hexpand hbuild hhandle =>
    rw [bseedExpandRaw_eq C hx] at hexpand
    cases hexpand
    rw [merkleBuildTree_eq C hroot] at hbuild
    cases hbuild
    refine ⟨siblings, ?_, hcompute⟩
    simp only [Library.proofForHandle, Crate.library, hhandle, hrows.hostProof_eq hproof]
    rfl
  | @leafCvs handle t root' totalLeaves hbuild hhandle =>
    rw [bseedMerkleBuildTreeFromLeafCvs_eq C hx hroot] at hbuild
    cases hbuild
    refine ⟨siblings, ?_, hcompute⟩
    simp only [Library.proofForHandle, Crate.library, hhandle, bseedProof_eq C hx hroot,
      hrows.hostProof_eq hproof]
    rfl

/-- The matrices of a job have a size that the library takes. -/
structure Dims (config : MiningConfig) : Prop where
  m_pos : 0 < config.m.val
  n_pos : 0 < config.n.val
  k_pos : 0 < config.k.val
  a_size : config.m.val * config.k.val ≤ 2 ^ 41
  b_size : config.n.val * config.k.val ≤ 2 ^ 41

def aMatrix (a : ℕ → UInt8) {config : MiningConfig} (h : Dims config) : Matrix where
  data := matrixOf a (config.m.val * config.k.val)
  numRows := config.m.val
  rowWidth := config.k.val
  numRows_pos := h.m_pos
  rowWidth_pos := h.k_pos
  size_le := h.a_size
  length_eq := by rw [matrixOf, List.length_map, List.length_range]

def bMatrix (C : Crate) (bseed : Digest) {config : MiningConfig} (h : Dims config) : Matrix :=
  C.bMatrix bseed config.n.val config.k.val h.n_pos h.k_pos h.b_size

theorem expandsTo_bMatrix (C : Crate) (bseed : Digest) {config : MiningConfig} (h : Dims config) :
    ExpandsTo C bseed (bMatrix C bseed h) := rfl

/-- The device has done what it should. -/
structure HonestShare (C : Crate) (handles : UInt64 → Option Handle) (a : ℕ → UInt8)
    (share : ShareFound) (ctx : SigmaContext) : Prop where
  dims : Dims share.job.config
  rows : RowsOf (aMatrix a dims) share.aRowIndices
  cols : RowsOf (bMatrix C share.job.bSeed dims) share.bColIndices
  a_large : 2 ≤ (aMatrix a dims).totalLeaves
  b_large : 2 ≤ (bMatrix C share.job.bSeed dims).totalLeaves
  /-- the last chunk that is copied from the device ends with the matrix -/
  a_aligned : chunkLen ∣ share.job.config.m.val * share.job.config.k.val
  leafCvs : share.aLeafCvs = bytesOfDigests ((aMatrix a dims).leafCvs (C.withKey share.job.jobKey))
  leafData : share.aOpenedLeafData = Worker.openedLeafData a
    (Worker.computeLeafIndicesFromRows share.aRowIndices (UInt64.ofNat share.job.config.k.val))
  hashA : share.hashA.isSet →
    ((aMatrix a dims).tree (C.withKey share.job.jobKey)).root = .ok share.hashA
  tree : BuiltB C handles share.job.bSeed share.job.jobKey (bMatrix C share.job.bSeed dims)
    ctx.bMerkleTree
  hashB : ctx.bMerkleTree.root = share.hashB

theorem HonestShare.exists_aProof (h : HonestShare C handles a share ctx) (targeted : Bool) :
    ∃ aProof, ((aMatrix a h.dims).tree (C.withKey share.job.jobKey)).root = .ok aProof.root ∧
      ReachesB (C.library handles targeted) share aProof := by
  have hopened := openedLeafData_eq h.rows (rfl : _ = matrixOf a _) h.a_aligned
  have hleafData := h.leafData.trans hopened
  obtain ⟨root, hroot⟩ := (aMatrix a h.dims).exists_root (C.withKey share.job.jobKey)
  obtain ⟨siblings, -, hsiblings, hcompute⟩ := h.rows.exists_siblings
    (C.withKey share.job.jobKey) hroot
  have hcall : C.merkleProofFromLeafCvs _ _ _ share.job.config.m.val share.job.config.k.val _ = _ :=
    h.rows.merkleProofFromLeafCvs_eq C hroot hsiblings
  refine ⟨(aMatrix a h.dims).ownedProof share.aRowIndices root siblings, hroot, ?_, ?_,
    verifyProof_ownedProof h.rows (hcompute h.a_large) handles targeted⟩
  · rw [hleafData, ← List.length_pos_iff, length_bytesOfLeaves, length_leaves]
    exact Nat.mul_pos (List.length_pos_iff.mpr h.rows.leafIndices_ne_nil) (by decide)
  · simp only [Library.aProofFromLeafCvs, Crate.library, h.leafCvs, hleafData, hcall]
    rfl

/-- Both proofs of an honest share are accepted. -/
theorem HonestShare.reachesHash (h : HonestShare C handles a share ctx) (targeted : Bool) :
    ∃ aProof bProof,
      ((aMatrix a h.dims).tree (C.withKey share.job.jobKey)).root = .ok aProof.root ∧
      bProof.root = ctx.bMerkleTree.root ∧
      ReachesHash (C.library handles targeted) share ctx aProof bProof := by
  obtain ⟨aProof, hroot, hreaches⟩ := h.exists_aProof targeted
  obtain ⟨siblings, hproof, hcompute⟩ := h.tree.exists_proof (expandsTo_bMatrix ..) h.cols targeted
  have hverify := verifyProof_ownedProof h.cols (hcompute h.b_large) handles targeted
  refine ⟨aProof, _, hroot, rfl, hreaches, hproof, h.hashB, h.hashB ▸ hverify, ?_⟩
  have hashA : ¬ (share.hashA.isSet && aProof.root ≠ share.hashA) := by
    rw [Bool.and_eq_true, decide_eq_true_eq]
    rintro ⟨hset, hne⟩
    exact hne (Except.ok.inj (hroot.symm.trans (h.hashA hset)))
  have hashB : ¬ (share.hashB.isSet && ctx.bMerkleTree.root ≠ share.hashB) := by simp [h.hashB]
  rw [proofRootsForShare, if_neg hashA]
  exact if_neg hashB

/-- Of an honest share both proofs are accepted and nothing is thrown: it is verified if and only
if its hash is the one that was reported, if one was, and clears the target. -/
theorem verifyShare_honest (C : Crate) (handles : UInt64 → Option Handle) (targeted : Bool)
    (a : ℕ → UInt8) (share : ShareFound) (ctx : SigmaContext)
    (h : HonestShare C handles a share ctx) :
    ∃ aProof bProof claimed,
      ((aMatrix a h.dims).tree (C.withKey share.job.jobKey)).root = .ok aProof.root ∧
      bProof.root = ctx.bMerkleTree.root ∧
      ReachesHash (C.library handles targeted) share ctx aProof bProof ∧
      (C.library handles targeted).computeClaimedHash share.job.config share share.job.jobKey
        aProof.root ctx.bMerkleTree.root = .ok claimed ∧
      (C.library handles targeted).verifyShare share ctx =
        .ok (if share.claimedHash.isSet ∧ claimed ≠ share.claimedHash then false
          else claimedHashClearsTarget claimed share.minedNbits
            share.job.config.difficultyAdjustmentFactor) := by
  obtain ⟨aProof, bProof, hroot, hbRoot, hreaches⟩ := h.reachesHash targeted
  have hclaimed := computeClaimedHash_of_expandsAs (library_expandsAs C handles targeted) share
    h.cols.lt share.job.jobKey aProof.root ctx.bMerkleTree.root
  refine ⟨aProof, bProof, _, hroot, hbRoot, hreaches, hclaimed, ?_⟩
  rw [hreaches.verifyShare_eq, hbRoot, hclaimed]
  rfl

/-- Matrices of 16 chunks. -/
def smallJob : Job :=
  { sampleJob dim128 0 with config := { sampleConfig dim128 with m := dim128, n := dim128 } }

theorem smallDims : Dims smallJob.config :=
  ⟨by decide, by decide, by decide, by decide, by decide⟩

/-- A share of row 1 and column 0, for a matrix of zeros. -/
def smallShare (hashB : Digest) : ShareFound :=
  { sampleShare dim128 0 with
    job := smallJob
    aRowIndices := [1]
    hashA := .fill 0
    hashB := hashB
    aOpenedLeafData := Worker.openedLeafData (fun _ => 0)
      (Worker.computeLeafIndicesFromRows [1] (UInt64.ofNat smallJob.config.k.val))
    aLeafCvs := bytesOfDigests
      ((aMatrix (fun _ => 0) smallDims).leafCvs (Crate.reference.withKey smallJob.jobKey))
    claimedHash := .fill 0 }

theorem verifyShare_honest_small :
    ∃ handles hashB ctx aProof bProof claimed,
      HonestShare Crate.reference handles (fun _ => 0) (smallShare hashB) ctx ∧
      ReachesHash (Crate.reference.library handles true) (smallShare hashB) ctx aProof bProof ∧
      (Crate.reference.library handles true).verifyShare (smallShare hashB) ctx =
        .ok (claimedHashClearsTarget claimed (smallShare hashB).minedNbits
          smallJob.config.difficultyAdjustmentFactor) := by
  obtain ⟨root, hroot⟩ := (bMatrix Crate.reference (.fill 0) smallDims).exists_root
    (Crate.reference.withKey (.fill 0))
  have hbuild := bseedMerkleBuildTreeFromLeafCvs_eq Crate.reference (expandsTo_bMatrix ..) hroot
  have hunset : ¬ (Bytes32.fill 0).isSet := by decide
  have hone : ∀ r ∈ ([1] : List UInt32), r.toNat < 128 := by simp
  have hzero : ∀ r ∈ ([0] : List UInt32), r.toNat < 128 := by simp
  have honest : HonestShare Crate.reference (fun _ => some (.bseed _)) (fun _ => 0)
      (smallShare root) ⟨(smallShare root).job, ⟨0, root, _⟩⟩ :=
    { dims := smallDims
      rows := ⟨List.cons_ne_nil _ _, hone⟩
      cols := ⟨List.cons_ne_nil _ _, hzero⟩
      a_large := (by decide : 2 ≤ numChunks (128 * 128))
      b_large := (by decide : 2 ≤ numChunks (128 * 128))
      a_aligned := (by decide : 1024 ∣ 128 * 128)
      leafCvs := by dsimp only [smallShare]
      leafData := by dsimp only [smallShare]
      hashA := fun hset => absurd hset hunset
      tree := .leafCvs hbuild rfl
      hashB := rfl }
  obtain ⟨aProof, bProof, claimed, -, -, hreaches, -, hverify⟩ :=
    verifyShare_honest _ _ true _ _ _ honest
  rw [if_neg fun hset => hunset hset.1] at hverify
  exact ⟨_, root, _, aProof, bProof, claimed, honest, hreaches, hverify⟩

end Honest

end PropMiner.Merkle
