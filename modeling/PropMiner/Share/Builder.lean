import PropMiner.Share.ClaimedHash
import PropMiner.Share.PlainProof
import PropMiner.Semantics.Fallible

/-!
# The share builder

`ShareBuilder`: a share is verified, and its proof is built in one of two encodings. Each
rebuilds the Merkle proofs and the claimed hash. A check that fails is an answer; a call
of the library that fails, and audit parameters that are out of range, are exceptions.

## Main definitions

* `Library.verifyShare`, `Library.build`, `Library.buildStratumPlainProof`
* `Rebuilds` — what the three have in common: both proofs, their roots, the hash
* `VerifyAnswered`, `BuildAnswered` — the calls that must not fail

## Main results

* `Rebuilds.build_eq`, `Rebuilds.buildStratumPlainProof_eq` — what the builders do with a share that
  is rebuilt
* `verifyShare_eq_true_iff` — what `VerifyShare` checks
* `verifyShare_succeeds_iff`, `build_succeeds_iff` — when nothing is thrown
* `built_of_verifyShare` — a verified share passes every check of the builders
-/

set_option autoImplicit false

namespace PropMiner.Share

open PropMiner.Semantics

/-- `proof_roots_for_share`: the roots of the two proofs, unless one disagrees with a root
that the device reported. A root is 32 bytes, so the check for a missing root never
fails. -/
def proofRootsForShare (aProof bProof : OwnedProof) (share : ShareFound) :
    Option (Bytes32 × Bytes32) :=
  if share.hashA.isSet && aProof.root ≠ share.hashA then none
  else if share.hashB.isSet && bProof.root ≠ share.hashB then none
  else some (aProof.root, bProof.root)

namespace Library

variable (L : Library)

/-- The indices of `derive_audit_indices`: words of an output stream, each modulo the
number of leaves. -/
def auditIndices (claimedHash bSeed : Bytes32) (auditK totalLeaves : UInt32) : List UInt32 :=
  let domain : List UInt8 :=
    [0x61, 0x6B, 0x6F, 0x79, 0x61, 0x2D, 0x61, 0x75, 0x64, 0x69, 0x74, 0x2D, 0x76, 0x31]
  let xofInput := domain ++ claimedHash.bytes ++ bSeed.bytes ++
    LittleEndian.bytesOf 4 auditK.toNat
  let xof := L.blake3Xof xofInput (auditK * 4).toNat
  (List.range auditK.toNat).map fun i =>
    UInt32.ofNat (LittleEndian.value ((List.range 4).map fun j => xof (i * 4 + j))) % totalLeaves

/-- `derive_audit_indices` -/
def deriveAuditIndices (claimedHash bSeed : Bytes32) (auditK totalLeaves : UInt32) :
    Except Exception (List UInt32) :=
  if auditK = 0 then .ok []
  else if 64 < auditK then .error (.invalidArgument "audit_k exceeds spec max 64")
  else if totalLeaves = 0 ∨ totalLeaves &&& (totalLeaves - 1) ≠ 0 then
    .error (.invalidArgument "total_leaves must be a power of two")
  else .ok (L.auditIndices claimedHash bSeed auditK totalLeaves)

/-- The exception of both builders for a share without leaf data. -/
def missingLeafData : Exception :=
  .runtimeError "ShareFound.a_opened_leaf_data missing; cannot build A proof"

/-- The audit paths that `build` adds, per audit_proof v1. -/
def auditSiblings (share : ShareFound) (ctx : SigmaContext) (bProof : OwnedProof)
    (claimed : Bytes32) : Except Exception (List UInt8) :=
  if 0 < ctx.job.auditK ∧ 0 < bProof.totalLeaves then do
    let auditIndices ← L.deriveAuditIndices claimed share.job.bSeed ctx.job.auditK
      bProof.totalLeaves
    L.auditPathsForHandle ctx.bMerkleTree auditIndices
  else .ok []

/-- `build`: the gRPC proof. An empty answer is a share that failed a check. -/
def build (cfg : MiningConfig) (share : ShareFound) (ctx : SigmaContext) :
    Except Exception (List UInt8) :=
  if share.aOpenedLeafData = [] then .error missingLeafData
  else do
    let aProof ← L.aProofFromLeafCvs share.aLeafCvs share.aOpenedLeafData ctx.job.jobKey
      cfg.m.val cfg.k.val share.aRowIndices
    let bProof ← L.proofForHandle ctx.bMerkleTree share.bColIndices
    match proofRootsForShare aProof bProof share with
    | none => return []
    | some (hashA, hashB) =>
        let claimed ← L.computeClaimedHash cfg share ctx.job.jobKey hashA hashB
        let auditSiblings ← L.auditSiblings share ctx bProof claimed
        let encoded := { share with claimedHash := claimed, hashB := hashB }
        if claimedHashClearsTarget claimed share.minedNbits cfg.difficultyAdjustmentFactor then
          L.encodeShareSubmission encoded cfg aProof bProof auditSiblings
        else return []

/-- `build_stratum_plain_proof` -/
def buildStratumPlainProof (cfg : MiningConfig) (share : ShareFound) (ctx : SigmaContext)
    (certVersion : ℤ) : Except Exception (List UInt8) :=
  if share.aOpenedLeafData = [] then .error missingLeafData
  else do
    let aProof ← L.aProofFromLeafCvs share.aLeafCvs share.aOpenedLeafData ctx.job.jobKey
      cfg.m.val cfg.k.val share.aRowIndices
    let bProof ← L.proofForHandle ctx.bMerkleTree share.bColIndices
    match proofRootsForShare aProof bProof share with
    | none => return []
    | some (hashA, hashB) =>
        let claimed ← L.computeClaimedHash cfg share ctx.job.jobKey hashA hashB
        if claimedHashClearsTarget claimed share.minedNbits cfg.difficultyAdjustmentFactor then
          return encodePlainProof cfg aProof bProof share.aRowIndices share.bColIndices hashA hashB
            certVersion
        else return []

/-- `VerifyShare` -/
def verifyShare (share : ShareFound) (ctx : SigmaContext) : Except Exception Bool :=
  let cfg := share.job.config
  if share.aOpenedLeafData = [] then .ok false
  else do
    let aProof ← L.aProofFromLeafCvs share.aLeafCvs share.aOpenedLeafData share.job.jobKey
      cfg.m.val cfg.k.val share.aRowIndices
    if ¬ L.verifyProof aProof share.job.jobKey aProof.root then return false
    else
      let bProof ← L.proofForHandle ctx.bMerkleTree share.bColIndices
      if ctx.bMerkleTree.root ≠ share.hashB then return false
      else if ¬ L.verifyProof bProof share.job.jobKey share.hashB then return false
      else
        match proofRootsForShare aProof bProof share with
        | none => return false
        | some (hashA, hashB) =>
            let claimed ← L.computeClaimedHash cfg share share.job.jobKey hashA hashB
            if share.claimedHash.isSet ∧ claimed ≠ share.claimedHash then return false
            else
              return claimedHashClearsTarget claimed share.minedNbits
                cfg.difficultyAdjustmentFactor

end Library

/-! ### What an answer says -/

section Answered

variable {L : Library} {cfg : MiningConfig} {share : ShareFound} {ctx : SigmaContext}
  {jobKey : Bytes32} {tree : MerkleTree} {aProof bProof : OwnedProof} {claimed : Bytes32}

/-- Both proofs of a share, whose roots no reported root contradicts, and the hash that
those roots give. -/
structure Rebuilds (L : Library) (cfg : MiningConfig) (share : ShareFound) (jobKey : Bytes32)
    (tree : MerkleTree) (aProof bProof : OwnedProof) (claimed : Bytes32) : Prop where
  aProof_eq : L.aProofFromLeafCvs share.aLeafCvs share.aOpenedLeafData jobKey cfg.m.val cfg.k.val
    share.aRowIndices = .ok aProof
  bProof_eq : L.proofForHandle tree share.bColIndices = .ok bProof
  roots_eq : proofRootsForShare aProof bProof share = some (aProof.root, bProof.root)
  claimed_eq : L.computeClaimedHash cfg share jobKey aProof.root bProof.root = .ok claimed

theorem Rebuilds.unique {aProof' bProof' : OwnedProof} {claimed' : Bytes32}
    (h : Rebuilds L cfg share jobKey tree aProof bProof claimed)
    (h' : Rebuilds L cfg share jobKey tree aProof' bProof' claimed') :
    aProof = aProof' ∧ bProof = bProof' ∧ claimed = claimed' := by
  obtain rfl : aProof = aProof' := Except.ok.inj (h.aProof_eq.symm.trans h'.aProof_eq)
  obtain rfl : bProof = bProof' := Except.ok.inj (h.bProof_eq.symm.trans h'.bProof_eq)
  exact ⟨rfl, rfl, Except.ok.inj (h.claimed_eq.symm.trans h'.claimed_eq)⟩

/-- Of a share that is rebuilt, `build_stratum_plain_proof` only looks at the target. -/
theorem Rebuilds.buildStratumPlainProof_eq
    (h : Rebuilds L cfg share ctx.job.jobKey ctx.bMerkleTree aProof bProof claimed)
    (hleaf : share.aOpenedLeafData ≠ []) (certVersion : ℤ) :
    L.buildStratumPlainProof cfg share ctx certVersion =
      .ok (if claimedHashClearsTarget claimed share.minedNbits cfg.difficultyAdjustmentFactor then
        encodePlainProof cfg aProof bProof share.aRowIndices share.bColIndices aProof.root
          bProof.root certVersion
        else []) := by
  unfold Library.buildStratumPlainProof
  rw [if_neg hleaf, h.aProof_eq, ok_bind, h.bProof_eq, ok_bind, h.roots_eq]
  dsimp only
  rw [h.claimed_eq, ok_bind, apply_ite Except.ok]
  rfl

/-- And `build` at the audit, the target and the columns. -/
theorem Rebuilds.build_eq
    (h : Rebuilds L cfg share ctx.job.jobKey ctx.bMerkleTree aProof bProof claimed)
    (hleaf : share.aOpenedLeafData ≠ []) :
    L.build cfg share ctx = L.auditSiblings share ctx bProof claimed >>= fun siblings =>
      if claimedHashClearsTarget claimed share.minedNbits cfg.difficultyAdjustmentFactor then
        L.encodeShareSubmission { share with claimedHash := claimed, hashB := bProof.root } cfg
          aProof bProof siblings
      else .ok [] := by
  unfold Library.build
  rw [if_neg hleaf, h.aProof_eq, ok_bind, h.bProof_eq, ok_bind, h.roots_eq]
  dsimp only
  rw [h.claimed_eq]
  rfl

theorem proofRootsForShare_eq {roots : Bytes32 × Bytes32}
    (h : proofRootsForShare aProof bProof share = some roots) :
    roots = (aProof.root, bProof.root) := by
  unfold proofRootsForShare at h
  split_ifs at h
  exact (Option.some.inj h).symm

/-- `VerifyShare` has come as far as the proof for `B`. -/
structure ReachesB (L : Library) (share : ShareFound) (aProof : OwnedProof) : Prop where
  leafData : share.aOpenedLeafData ≠ []
  aProof_eq : L.aProofFromLeafCvs share.aLeafCvs share.aOpenedLeafData share.job.jobKey
    share.job.config.m.val share.job.config.k.val share.aRowIndices = .ok aProof
  aVerified : L.verifyProof aProof share.job.jobKey aProof.root = true

/-- `VerifyShare` has come as far as the claimed hash. -/
structure ReachesHash (L : Library) (share : ShareFound) (ctx : SigmaContext)
    (aProof bProof : OwnedProof) : Prop extends ReachesB L share aProof where
  bProof_eq : L.proofForHandle ctx.bMerkleTree share.bColIndices = .ok bProof
  tree_eq : ctx.bMerkleTree.root = share.hashB
  bVerified : L.verifyProof bProof share.job.jobKey share.hashB = true
  roots_eq : proofRootsForShare aProof bProof share = some (aProof.root, bProof.root)

/-- All that `VerifyShare` checks: both proofs, the reported hashes, and the target. -/
structure Verified (L : Library) (share : ShareFound) (ctx : SigmaContext)
    (aProof bProof : OwnedProof) (claimed : Bytes32) : Prop
    extends ReachesHash L share ctx aProof bProof where
  claimed_eq : L.computeClaimedHash share.job.config share share.job.jobKey aProof.root
    bProof.root = .ok claimed
  reported : share.claimedHash.isSet = true → claimed = share.claimedHash
  clears : claimedHashClearsTarget claimed share.minedNbits
    share.job.config.difficultyAdjustmentFactor = true

/-- With both proofs accepted, only the hash is left. -/
theorem ReachesHash.verifyShare_eq (h : ReachesHash L share ctx aProof bProof) :
    L.verifyShare share ctx = (L.computeClaimedHash share.job.config share share.job.jobKey
      aProof.root bProof.root).map fun claimed =>
        if share.claimedHash.isSet ∧ claimed ≠ share.claimedHash then false
        else claimedHashClearsTarget claimed share.minedNbits
          share.job.config.difficultyAdjustmentFactor := by
  unfold Library.verifyShare
  dsimp only
  rw [if_neg h.leafData, h.aProof_eq, ok_bind, if_neg (not_not.mpr h.aVerified), h.bProof_eq,
    ok_bind, if_neg (not_not.mpr h.tree_eq), if_neg (not_not.mpr h.bVerified), h.roots_eq]
  dsimp only
  cases L.computeClaimedHash share.job.config share share.job.jobKey aProof.root bProof.root with
  | error e => rfl
  | ok claimed => exact (apply_ite Except.ok ..).symm

theorem verifyShare_eq_true_iff :
    L.verifyShare share ctx = .ok true ↔
      ∃ aProof bProof claimed, Verified L share ctx aProof bProof claimed := by
  constructor
  · intro hverified
    obtain ⟨hleaf, hverified⟩ := reject_eq_ok_true.mp hverified
    obtain ⟨aProof, haProof, hverified⟩ := bind_eq_ok.mp hverified
    obtain ⟨haVerified, hverified⟩ := reject_eq_ok_true.mp hverified
    obtain ⟨bProof, hbProof, hverified⟩ := bind_eq_ok.mp hverified
    obtain ⟨htree, hverified⟩ := reject_eq_ok_true.mp hverified
    obtain ⟨hbVerified, hverified⟩ := reject_eq_ok_true.mp hverified
    split at hverified
    · cases Except.ok.inj hverified
    · rename_i hashA hashB hroots
      obtain ⟨rfl, rfl⟩ := Prod.mk.inj (proofRootsForShare_eq hroots)
      obtain ⟨claimed, hclaimed, hverified⟩ := bind_eq_ok.mp hverified
      obtain ⟨hmatch, hverified⟩ := reject_eq_ok_true.mp hverified
      exact ⟨aProof, bProof, claimed, ⟨⟨hleaf, haProof, not_not.mp haVerified⟩, hbProof,
        not_not.mp htree, not_not.mp hbVerified, hroots⟩, hclaimed,
        fun hset => not_not.mp fun hne => hmatch ⟨hset, hne⟩, Except.ok.inj hverified⟩
  · rintro ⟨aProof, bProof, claimed, h⟩
    have hmatch : ¬ (share.claimedHash.isSet = true ∧ claimed ≠ share.claimedHash) :=
      fun hne => hne.2 (h.reported hne.1)
    rw [h.toReachesHash.verifyShare_eq, h.claimed_eq, Except.map, if_neg hmatch, h.clears]

theorem Verified.rebuilds (h : Verified L share ctx aProof bProof claimed) :
    Rebuilds L share.job.config share share.job.jobKey ctx.bMerkleTree aProof bProof claimed :=
  ⟨h.aProof_eq, h.bProof_eq, h.roots_eq, h.claimed_eq⟩

/-- A verified share has the hash that its device reported, if it reported one. -/
theorem rebuilds_of_verifyShare (hverified : L.verifyShare share ctx = .ok true) :
    ∃ aProof bProof claimed,
      Rebuilds L share.job.config share share.job.jobKey ctx.bMerkleTree aProof bProof claimed ∧
      (share.claimedHash.isSet = true → claimed = share.claimedHash) ∧
      claimedHashClearsTarget claimed share.minedNbits
        share.job.config.difficultyAdjustmentFactor = true := by
  obtain ⟨aProof, bProof, claimed, h⟩ := verifyShare_eq_true_iff.mp hverified
  exact ⟨aProof, bProof, claimed, h.rebuilds, h.reported, h.clears⟩

/-- A share without leaf data is not verified. -/
theorem leafData_of_verifyShare (hverified : L.verifyShare share ctx = .ok true) :
    share.aOpenedLeafData ≠ [] :=
  (reject_eq_ok_true.mp hverified).1

end Answered

/-! ### When nothing is thrown -/

section Quiet

variable {L : Library} {cfg : MiningConfig} {share : ShareFound} {ctx : SigmaContext}
  {jobKey hashA hashB : Bytes32} {aProof bProof : OwnedProof} {claimed : Bytes32}

theorem succeeds_computeClaimedHash_iff :
    Succeeds (L.computeClaimedHash cfg share jobKey hashA hashB) ↔
      Succeeds (L.secretB cfg share.job.bSeed share.bColIndices) := by
  unfold Library.computeClaimedHash
  dsimp only
  rw [succeeds_bind_iff]
  constructor
  · rintro ⟨columns, hcolumns, -⟩
    exact ⟨columns, hcolumns⟩
  · rintro ⟨columns, hcolumns⟩
    exact ⟨columns, hcolumns, succeeds_pure _⟩

/-- The library answers each call that `VerifyShare` gets to. -/
structure VerifyAnswered (L : Library) (share : ShareFound) (ctx : SigmaContext) : Prop where
  aProof : share.aOpenedLeafData ≠ [] →
    Succeeds (L.aProofFromLeafCvs share.aLeafCvs share.aOpenedLeafData share.job.jobKey
      share.job.config.m.val share.job.config.k.val share.aRowIndices)
  bProof : ∀ aProof, ReachesB L share aProof →
    Succeeds (L.proofForHandle ctx.bMerkleTree share.bColIndices)
  columns : ∀ aProof bProof, ReachesHash L share ctx aProof bProof →
    Succeeds (L.secretB share.job.config share.job.bSeed share.bColIndices)

/-- The audit parameters of a job are in range, and the library answers the audit call. -/
structure AuditAnswered (L : Library) (share : ShareFound) (ctx : SigmaContext)
    (claimed : Bytes32) : Prop where
  auditK_le : ctx.job.auditK ≤ 64
  powerOfTwo : ctx.bMerkleTree.totalLeaves &&& (ctx.bMerkleTree.totalLeaves - 1) = 0
  paths : Succeeds (L.auditPathsForHandle ctx.bMerkleTree (L.auditIndices claimed share.job.bSeed
    ctx.job.auditK ctx.bMerkleTree.totalLeaves))

/-- The calls that `build` makes and `VerifyShare` does not: the audit, if the job asks for
one, and the columns of the encoding. -/
structure BuildAnswered (L : Library) (share : ShareFound) (ctx : SigmaContext)
    (claimed : Bytes32) : Prop where
  audit : ctx.job.auditK = 0 ∨ ctx.bMerkleTree.totalLeaves = 0 ∨ AuditAnswered L share ctx claimed
  columns : ∀ col ∈ share.bColIndices, Succeeds (L.bseedExpandRange share.job.bSeed
    (col.toUInt64 * UInt64.ofNat share.job.config.k.val) (UInt64.ofNat share.job.config.k.val))

theorem succeeds_bProof_of_reachesB (hreaches : ReachesB L share aProof)
    (h : Succeeds (L.verifyShare share ctx)) :
    Succeeds (L.proofForHandle ctx.bMerkleTree share.bColIndices) := by
  unfold Library.verifyShare at h
  dsimp only at h
  rw [if_neg hreaches.leafData] at h
  obtain ⟨aProof', haProof', h⟩ := succeeds_bind_iff.mp h
  obtain rfl : aProof = aProof' := Except.ok.inj (hreaches.aProof_eq.symm.trans haProof')
  rw [if_neg (not_not.mpr hreaches.aVerified)] at h
  obtain ⟨bProof, hbProof, -⟩ := succeeds_bind_iff.mp h
  exact ⟨bProof, hbProof⟩

theorem succeeds_columns_of_reachesHash (hreaches : ReachesHash L share ctx aProof bProof)
    (h : Succeeds (L.verifyShare share ctx)) :
    Succeeds (L.secretB share.job.config share.job.bSeed share.bColIndices) := by
  obtain ⟨answer, hanswer⟩ := h
  rw [hreaches.verifyShare_eq] at hanswer
  obtain ⟨claimed, hclaimed, -⟩ := map_eq_ok.mp hanswer
  exact succeeds_computeClaimedHash_iff.mp ⟨claimed, hclaimed⟩

/-- `VerifyShare` throws nothing iff each call it gets to is answered. -/
theorem verifyShare_succeeds_iff :
    Succeeds (L.verifyShare share ctx) ↔ VerifyAnswered L share ctx := by
  constructor
  · intro h
    refine ⟨fun hleaf => ?_, fun aProof hreaches => succeeds_bProof_of_reachesB hreaches h,
      fun aProof bProof hreaches => succeeds_columns_of_reachesHash hreaches h⟩
    unfold Library.verifyShare at h
    dsimp only at h
    rw [if_neg hleaf] at h
    obtain ⟨aProof, haProof, -⟩ := succeeds_bind_iff.mp h
    exact ⟨aProof, haProof⟩
  · -- follow the calls in their order; a check that fails ends the function with `false`
    intro h
    unfold Library.verifyShare
    dsimp only
    by_cases hleaf : share.aOpenedLeafData = []
    · rw [if_pos hleaf]
      exact succeeds_pure false
    obtain ⟨aProof, haProof⟩ := h.aProof hleaf
    rw [if_neg hleaf]
    refine succeeds_bind_iff.mpr ⟨aProof, haProof, ?_⟩
    by_cases haVerified : L.verifyProof aProof share.job.jobKey aProof.root = true
    swap
    · rw [if_pos haVerified]
      exact succeeds_pure false
    have hreachesB : ReachesB L share aProof := ⟨hleaf, haProof, haVerified⟩
    obtain ⟨bProof, hbProof⟩ := h.bProof aProof hreachesB
    rw [if_neg (not_not.mpr haVerified)]
    refine succeeds_bind_iff.mpr ⟨bProof, hbProof, ?_⟩
    by_cases htree : ctx.bMerkleTree.root = share.hashB
    swap
    · rw [if_pos htree]
      exact succeeds_pure false
    rw [if_neg (not_not.mpr htree)]
    by_cases hbVerified : L.verifyProof bProof share.job.jobKey share.hashB = true
    swap
    · rw [if_pos hbVerified]
      exact succeeds_pure false
    rw [if_neg (not_not.mpr hbVerified)]
    split
    · exact succeeds_pure false
    · rename_i hashA hashB hroots
      obtain ⟨rfl, rfl⟩ := Prod.mk.inj (proofRootsForShare_eq hroots)
      have hcolumns := h.columns aProof bProof ⟨hreachesB, hbProof, htree, hbVerified, hroots⟩
      obtain ⟨claimed, hclaimed⟩ := succeeds_computeClaimedHash_iff.mpr hcolumns
      refine succeeds_bind_iff.mpr ⟨claimed, hclaimed, ?_⟩
      split_ifs
      · exact succeeds_pure false
      · exact succeeds_pure _

/-- The audit of a job throws nothing iff its parameters are in range and its call is
answered, or there is none. -/
theorem auditSiblings_succeeds_iff
    (hleaves : bProof.totalLeaves = ctx.bMerkleTree.totalLeaves) :
    Succeeds (L.auditSiblings share ctx bProof claimed) ↔
      ctx.job.auditK = 0 ∨ ctx.bMerkleTree.totalLeaves = 0 ∨ AuditAnswered L share ctx claimed := by
  unfold Library.auditSiblings
  rw [hleaves]
  by_cases hk : ctx.job.auditK = 0
  · simp [hk, Succeeds]
  by_cases hzero : ctx.bMerkleTree.totalLeaves = 0
  · simp [hzero, Succeeds]
  have hpos : 0 < ctx.job.auditK ∧ 0 < ctx.bMerkleTree.totalLeaves :=
    ⟨UInt32.pos_iff_ne_zero.mpr hk, UInt32.pos_iff_ne_zero.mpr hzero⟩
  rw [if_pos hpos, succeeds_bind_iff]
  simp only [hk, hzero, false_or]
  unfold Library.deriveAuditIndices
  rw [if_neg hk]
  constructor
  · rintro ⟨indices, hindices, hpaths⟩
    split_ifs at hindices with hlarge hbad
    obtain rfl := Except.ok.inj hindices
    exact ⟨UInt32.not_lt.mp hlarge, not_not.mp fun hne => hbad (.inr hne), hpaths⟩
  · intro h
    refine ⟨_, ?_, h.paths⟩
    rw [if_neg (UInt32.not_lt.mpr h.auditK_le), if_neg]
    rintro (hnone | hne)
    · exact hzero hnone
    · exact hne h.powerOfTwo

/-- Once a share is rebuilt, only the audit and the columns of the encoding can fail. -/
theorem build_succeeds_iff (hleaf : share.aOpenedLeafData ≠ [])
    (hrebuilds : Rebuilds L share.job.config share ctx.job.jobKey ctx.bMerkleTree aProof bProof
      claimed)
    (hclears : claimedHashClearsTarget claimed share.minedNbits
      share.job.config.difficultyAdjustmentFactor = true) :
    Succeeds (L.build share.job.config share ctx) ↔ BuildAnswered L share ctx claimed := by
  have hleaves : bProof.totalLeaves = ctx.bMerkleTree.totalLeaves := by
    obtain ⟨raw, -, hraw⟩ := bind_eq_ok.mp hrebuilds.bProof_eq
    rw [← Except.ok.inj hraw]
  rw [hrebuilds.build_eq hleaf, succeeds_bind_iff]
  simp only [if_pos hclears, Library.encodeShareSubmission, Library.encodeSigned,
    expandColumns_signed]
  constructor
  · rintro ⟨siblings, hsiblings, hencode⟩
    obtain ⟨columns, hcolumns, -⟩ := succeeds_bind_iff.mp hencode
    exact ⟨(auditSiblings_succeeds_iff hleaves).mp ⟨siblings, hsiblings⟩,
      succeeds_mapM_iff.mp ⟨columns, hcolumns⟩⟩
  · intro h
    obtain ⟨siblings, hsiblings⟩ := (auditSiblings_succeeds_iff hleaves).mpr h.audit
    obtain ⟨columns, hcolumns⟩ := succeeds_mapM_iff.mpr h.columns
    exact ⟨siblings, hsiblings, succeeds_bind_iff.mpr ⟨columns, hcolumns, succeeds_pure _⟩⟩

end Quiet

/-! ### A verified share is built -/

section Built

variable {L : Library} {cfg : MiningConfig} {share : ShareFound} {ctx : SigmaContext}
  {aProof bProof : OwnedProof} {claimed : Bytes32} {certVersion : ℤ}

theorem auditSiblings_of_zero (h : ctx.job.auditK = 0) :
    L.auditSiblings share ctx bProof claimed = .ok [] := by
  rw [Library.auditSiblings, h, if_neg]
  rintro ⟨hpos, -⟩
  exact absurd hpos (by decide)

/-- The encoder expands the columns that `VerifyShare` has expanded, or the library expands
every range. -/
theorem succeeds_columns (hrange : L.bcolTargetedExpandEnabled = true ∨ L.ExpandsRanges)
    (hsecretB : Succeeds (L.secretB cfg share.job.bSeed share.bColIndices)) :
    Succeeds (share.bColIndices.mapM fun col => L.bseedExpandRange share.job.bSeed
      (col.toUInt64 * UInt64.ofNat cfg.k.val) (UInt64.ofNat cfg.k.val)) := by
  rcases hrange with htargeted | ⟨stream, hstream⟩
  · rw [Library.secretB, htargeted, if_pos rfl] at hsecretB
    exact hsecretB
  · refine succeeds_mapM_iff.mpr fun col _ => ?_
    rw [Library.bseedExpandRange, hstream]
    exact ⟨_, rfl⟩

theorem encodePlainProof_ne_nil {rows cols : List UInt32} {hashA hashB : Bytes32} :
    encodePlainProof cfg aProof bProof rows cols hashA hashB certVersion ≠ [] := by
  unfold encodePlainProof writeU64 LittleEndian.bytesOf
  simp

theorem shareSubmission_ne_nil {columns siblings : List UInt8} :
    (shareSubmission share cfg aProof bProof columns siblings).flatMap Wire.Field.encode ≠ [] := by
  unfold shareSubmission submissionFields
  rw [List.cons_append, List.flatMap_cons]
  exact List.append_ne_nil_of_left_ne_nil (Wire.Field.encode_ne_nil _) _

/-- **Verified shares.** A share that `VerifyShare` accepts has both proofs, with the roots and
the hash that were checked: the one for Stratum always, from which a reader gets the roots back, the
one for gRPC when no audit is asked for. No check of the builders comes out differently. -/
theorem built_of_verifyShare
    (hjob : share.job = { ctx.job with targetNbits := share.job.targetNbits })
    (hrange : L.bcolTargetedExpandEnabled = true ∨ L.ExpandsRanges)
    (hverified : L.verifyShare share ctx = .ok true) :
    ∃ aProof bProof claimed, Verified L share ctx aProof bProof claimed ∧
      (∀ certVersion, ∃ proof,
        L.buildStratumPlainProof share.job.config share ctx certVersion = .ok proof ∧ proof ≠ [] ∧
        proof = encodePlainProof share.job.config aProof bProof share.aRowIndices
          share.bColIndices aProof.root bProof.root certVersion ∧
        (proof.length < 2 ^ 64 → ∃ d, readPlainProof certVersion proof = some (d, []) ∧
          d.a.root = aProof.root.bytes ∧ d.b.root = bProof.root.bytes)) ∧
      (ctx.job.auditK = 0 → ∃ proof columns,
        L.build share.job.config share ctx = .ok proof ∧ proof ≠ [] ∧
        proof = (shareSubmission { share with claimedHash := claimed, hashB := bProof.root }
          share.job.config aProof bProof columns []).flatMap Wire.Field.encode) := by
  obtain ⟨aProof, bProof, claimed, h⟩ := verifyShare_eq_true_iff.mp hverified
  have hkey : share.job.jobKey = ctx.job.jobKey := by rw [hjob]
  have hrebuilds := h.rebuilds
  rw [hkey] at hrebuilds
  refine ⟨aProof, bProof, claimed, h, fun certVersion => ?_, fun haudit => ?_⟩
  · have hbuilt := hrebuilds.buildStratumPlainProof_eq h.leafData certVersion
    rw [if_pos h.clears] at hbuilt
    refine ⟨_, hbuilt, encodePlainProof_ne_nil, rfl, fun hlength => ?_⟩
    have hread := PlainShare.takes_encode (x := ⟨share.job.config, aProof, bProof,
      share.aRowIndices, share.bColIndices, aProof.root, bProof.root⟩) hlength
    exact ⟨_, hread.run, rfl, rfl⟩
  · obtain ⟨columns, hcolumns⟩ := succeeds_columns hrange
      (succeeds_computeClaimedHash_iff.mp ⟨claimed, h.claimed_eq⟩)
    refine ⟨_, columns.flatten, ?_, shareSubmission_ne_nil, rfl⟩
    rw [hrebuilds.build_eq h.leafData, auditSiblings_of_zero haudit, ok_bind, if_pos h.clears,
      Library.encodeShareSubmission, Library.encodeSigned, expandColumns_signed, hcolumns]
    rfl

end Built

/-! ### A share that verifies -/

section Samples

/-- A library that answers every call: all hashes of a transcript are the number one. -/
def sampleLibrary : Library where
  blake3Hash _ := .fill 0
  blake3Keyed _ _ := (Bytes32.fill 0).set 0 1
  blake3Xof _ _ _ := 0
  merkleProofFromLeafCvs _ _ _ _ _ _ := .ok (.fill 2, 1, {})
  merkleProofForHandle _ _ := .ok {}
  merkleAuditPathsForHandle _ _ := .ok []
  merkleVerifyProof _ _ _ _ _ _ := true
  bseedExpandRangeRaw _ _ _ := .ok fun _ => 0
  bcolTargetedExpandEnabled := true

/-- A shape with one row and one column of length `k`. -/
def sampleConfig (k : Dim) : MiningConfig where
  m := ⟨1, by decide⟩
  n := ⟨1, by decide⟩
  k := k
  r := k

/-- A job whose target is the number one. -/
def sampleJob (k : Dim) (auditK : UInt32) : Job where
  sigma := Vector.replicate 76 0
  jobKey := .fill 0
  bSeed := .fill 0
  targetNbits := 0x03000001
  auditK := auditK
  config := sampleConfig k

/-- A share of that job that verifies. -/
def sampleShare (k : Dim) (auditK : UInt32) : ShareFound where
  job := sampleJob k auditK
  sigmaCtx := some ⟨sampleJob k auditK, ⟨0, .fill 3, 1⟩⟩
  installedTargetNbits := 0x03000001
  nonce := 7
  tileRow := 0
  tileCol := 0
  aRowIndices := [0]
  bColIndices := [0]
  hashA := .fill 2
  hashB := .fill 3
  aSlice := List.replicate k.val 0
  aOpenedLeafData := [0]
  aLeafCvs := []
  claimedHash := (Bytes32.fill 0).set 0 1

theorem dim128_lt : 128 < 2 ^ 31 := by decide

def dim128 : Dim := ⟨128, dim128_lt⟩

/-- The context of the sample share. -/
def sampleContext (k : Dim) (auditK : UInt32) : SigmaContext :=
  ⟨sampleJob k auditK, ⟨0, .fill 3, 1⟩⟩

theorem built_sampleShare :
    sampleLibrary.verifyShare (sampleShare dim128 0) (sampleContext dim128 0) = .ok true ∧
      ∃ proof, sampleLibrary.build (sampleConfig dim128) (sampleShare dim128 0)
        (sampleContext dim128 0) = .ok proof ∧ proof ≠ [] := by
  have hverified : sampleLibrary.verifyShare (sampleShare dim128 0) (sampleContext dim128 0) =
      .ok true := by
    decide +kernel
  obtain ⟨aProof, bProof, claimed, -, -, hgrpc⟩ := built_of_verifyShare rfl (.inl rfl) hverified
  obtain ⟨proof, columns, hproof, hne, -⟩ := hgrpc rfl
  exact ⟨hverified, proof, hproof, hne⟩

end Samples

end PropMiner.Share
