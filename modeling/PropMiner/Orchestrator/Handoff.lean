import PropMiner.Orchestrator.ShareBatch

/-!
# Proofs that reach a transport

A share is checked three times on its way out: `VerifyShare` recomputes its hash from the
rebuilt Merkle roots, the guard holds the hash that the device reported against the live
target, and the builder recomputes everything once more. For a share as the GPU worker
makes it the three copies agree, so the hash that goes with the roots in the proof clears
both targets.

The difficulty adjustment factor of a shape with `k < 128` is zero, and a factor of zero
counts as one.

## Main definitions

* `Produced` — a share as `process_share_trigger_impl` submits it
* `Embeds` — the roots that stand in an encoded proof, with the hash and target that go
  with them in the gRPC encoding
* `Cleared` — the hash of the embedded roots clears the mined and the live target

## Main results

* `cleared_of_handsOver` — a proof that is handed to a transport is cleared
* `cleared_fails` — but not if a factor of zero is taken as zero
-/

set_option autoImplicit false

namespace PropMiner.ShareBatch

open PropMiner.Semantics PropMiner.Share

/-- A share as `process_share_trigger_impl` submits it: its job is that of its context at
the installed target, and its hash is that of the device's roots. -/
structure Produced (L : Library) (raw : ShareFound) (ctx : SigmaContext) : Prop where
  sigmaCtx_eq : raw.sigmaCtx = some ctx
  job_eq : raw.job = { ctx.job with targetNbits := raw.installedTargetNbits }
  claimed_isSet : raw.claimedHash.isSet = true
  claimed_eq : L.computeClaimedHash raw.job.config raw raw.job.jobKey raw.hashA raw.hashB =
    .ok raw.claimedHash

/-- The proof that an event hands to a transport. -/
def Event.handed : Event → Option (List UInt8)
  | .submitPlainProof _ proof => some proof
  | .sendEvent _ payload => some payload
  | .drop _ | .sharesSubmitted => none

def HandsOver (es : List Event) (proof : List UInt8) : Prop := ∃ e ∈ es, e.handed = some proof

/-- The values of all fields with this number. -/
def valuesOf (fs : List Wire.Field) (number : UInt32) : List Wire.Value :=
  (fs.filter (·.number = number)).map Wire.Field.value

/-- The roots that stand in a proof, in the encoding of the pool mode it was built in. In
the gRPC encoding fields 10 and 11 hold a hash and a target. -/
def Embeds (raw : ShareFound) (stratum : Bool) (proof : List UInt8)
    (hashA hashB claimed : Bytes32) : Prop :=
  match stratum with
  | true => ∃ aProof bProof, aProof.root = hashA ∧ bProof.root = hashB ∧
      proof = encodePlainProof raw.job.config aProof bProof raw.aRowIndices raw.bColIndices
        hashA hashB 1
  | false => ∃ fs, proof = fs.flatMap Wire.Field.encode ∧
      (proof.length < 2 ^ 64 → Wire.fields proof = .ok fs) ∧
      valuesOf fs 4 = [.bytes hashA.bytes] ∧ valuesOf fs 5 = [.bytes hashB.bytes] ∧
      valuesOf fs 10 = [.bytes claimed.bytes] ∧
      valuesOf fs 11 = [.fixed32 raw.installedTargetNbits]

/-- The hash that the library computes from the embedded roots is at most `factor` times
the mined target, and as many times the live target if there is one. -/
def Cleared (L : Library) (r : Reads) (raw : ShareFound) (factor : ℕ) (proof : List UInt8) : Prop :=
  ∃ hashA hashB claimed, Embeds raw r.useStratum proof hashA hashB claimed ∧
    L.computeClaimedHash raw.job.config raw raw.job.jobKey hashA hashB = .ok claimed ∧
    claimed.value ≤ factor * (nbitsToTargetLe raw.installedTargetNbits).value ∧
    (r.liveShareTargetNbits ≠ 0 →
      claimed.value ≤ factor * (nbitsToTargetLe r.liveShareTargetNbits).value)

variable {L : Library} {r : Reads} {raw : ShareFound} {ctx : SigmaContext}
  {proof bs : List UInt8}

/-! ### From the transport back to the builder -/

theorem handed_handleResult {result : Stratum.SubmitResult} {e : Event}
    (he : e ∈ handleResult result) : e.handed = none := by
  obtain he | he := List.mem_append.mp he
  · obtain ⟨kind, -, rfl⟩ := List.mem_map.mp he
    rfl
  · cases result with
    | sent => rw [List.mem_singleton.mp he]; rfl
    | supersededJob => cases he
    | notConnected => rw [List.mem_singleton.mp he]; rfl
    | sendFailed => rw [List.mem_singleton.mp he]; rfl

/-- A transport is handed the proof that was built. -/
theorem eq_of_handsOver_transmit (h : HandsOver (transmit r bs) proof) : proof = bs := by
  obtain ⟨e, he, hproof⟩ := h
  unfold transmit submitStratum sendGrpc at he
  split_ifs at he
  · rw [List.mem_singleton.mp he] at hproof
    cases hproof
  · obtain rfl | he := List.mem_cons.mp he
    · exact (Option.some.inj hproof).symm
    · rw [handed_handleResult he] at hproof
      cases hproof
  · rw [List.mem_singleton.mp he] at hproof
    exact (Option.some.inj hproof).symm
  · cases he

theorem prepare_of_handsOver (h : HandsOver (sendShare L r raw).events proof) :
    prepare L r raw = .proof proof := by
  unfold sendShare at h
  cases hprepare : prepare L r raw with
  | proof bs =>
    rw [hprepare] at h
    rw [eq_of_handsOver_transmit h]
  | dropped kind =>
    rw [hprepare] at h
    obtain ⟨e, he, hproof⟩ := h
    rw [List.mem_singleton.mp he] at hproof
    cases hproof
  | escaped e =>
    rw [hprepare] at h
    obtain ⟨e', he, -⟩ := h
    cases he

theorem ofBuilder_eq_proof {answer : Except Exception (List UInt8)}
    (h : Prepared.ofBuilder answer = .proof proof) : answer = .ok proof := by
  match answer, h with
  | .ok (b :: bs), h =>
    obtain rfl := Prepared.proof.inj h
    rfl

/-- What was checked before a proof was built, and with which builder it was. -/
structure Checked (L : Library) (r : Reads) (raw : ShareFound) (ctx : SigmaContext)
    (proof : List UInt8) : Prop where
  verified : L.verifyShare raw ctx = .ok true
  live : clearsLive raw r.liveShareTargetNbits = true
  built : (if r.useStratum then L.buildStratumPlainProof raw.job.config raw ctx 1
    else L.build raw.job.config raw ctx) = .ok proof

theorem checked_of_prepare (hctx : raw.sigmaCtx = some ctx)
    (h : prepare L r raw = .proof proof) : Checked L r raw ctx proof := by
  unfold prepare at h
  rw [hctx] at h
  dsimp only at h
  split at h
  · cases h
  · cases h
  · rename_i hverified
    split_ifs at h with hlive
    unfold buildProof at h
    split_ifs at h with hmode hjobId
    · exact ⟨hverified, hlive, by rw [if_pos hmode, ofBuilder_eq_proof h]⟩
    · exact ⟨hverified, hlive, by rw [if_neg hmode, ofBuilder_eq_proof h]⟩

/-! ### The targets -/

/-- A hash that clears the mined target and passes the guard clears the live target. -/
theorem clears_of_clearsLive {live : UInt32} (hlive : live ≠ 0)
    (hmined : claimedHashClearsTarget raw.claimedHash raw.minedNbits
      raw.job.config.difficultyAdjustmentFactor = true)
    (hguard : clearsLive raw live = true) :
    claimedHashClearsTarget raw.claimedHash live raw.job.config.difficultyAdjustmentFactor =
      true := by
  unfold clearsLive at hguard
  dsimp only at hguard
  by_cases hzero : raw.minedNbits = 0
  · -- no mined target: the guard is the live one
    have htighter : tighterTargetNbits live raw.minedNbits = live := by
      unfold tighterTargetNbits
      rw [if_neg hlive, if_pos hzero]
    rwa [htighter, if_pos ⟨hlive, hzero ▸ hlive⟩] at hguard
  obtain htighter | ⟨-, hle⟩ := tighterTargetNbits_of_ne_zero hlive hzero
  · rw [htighter] at hguard
    by_cases hsame : live = raw.minedNbits
    · rwa [hsame]
    · rwa [if_pos ⟨hlive, hsame⟩] at hguard
  · rw [claimedHashClearsTarget_iff] at hmined ⊢
    exact hmined.trans (adjustedPowTargetLe_mono _ hle)

theorem le_of_clears {claimed : Bytes32} {nbits : UInt32} {daf : UInt64}
    (h : claimedHashClearsTarget claimed nbits daf = true) :
    claimed.value ≤ max 1 daf.toNat * (nbitsToTargetLe nbits).value :=
  (claimedHashClearsTarget_iff.mp h).trans (value_adjustedPowTargetLe_le nbits daf)

/-! ### The three copies agree -/

theorem Produced.jobKey_eq (h : Produced L raw ctx) : ctx.job.jobKey = raw.job.jobKey := by
  rw [h.job_eq]

/-- Both fallbacks for a missing target give the installed one. -/
theorem Produced.minedNbits_eq (h : Produced L raw ctx) :
    raw.minedNbits = raw.installedTargetNbits := by
  unfold ShareFound.minedNbits
  split_ifs with hset
  · rfl
  · rw [h.job_eq]

/-- What is rebuilt of a share stands in its proof. -/
theorem embeds_of_rebuilds {aProof bProof : OwnedProof} {claimed : Bytes32} (h : Produced L raw ctx)
    (hchecked : Checked L r raw ctx proof)
    (hrebuilds : Rebuilds L raw.job.config raw raw.job.jobKey ctx.bMerkleTree aProof bProof claimed)
    (hclears : claimedHashClearsTarget claimed raw.minedNbits
      raw.job.config.difficultyAdjustmentFactor = true) :
    Embeds raw r.useStratum proof aProof.root bProof.root claimed := by
  have hleaf := leafData_of_verifyShare hchecked.verified
  have hbuilt := hchecked.built
  rw [← h.jobKey_eq] at hrebuilds
  cases hmode : r.useStratum with
  | true =>
    rw [hmode, if_pos rfl, hrebuilds.buildStratumPlainProof_eq hleaf, if_pos hclears] at hbuilt
    exact ⟨aProof, bProof, rfl, rfl, (Except.ok.inj hbuilt).symm⟩
  | false =>
    rw [hmode, if_neg Bool.false_ne_true, hrebuilds.build_eq hleaf] at hbuilt
    obtain ⟨siblings, -, hbuilt⟩ := bind_eq_ok.mp hbuilt
    rw [if_pos hclears] at hbuilt
    obtain ⟨columns, -, hbuilt⟩ := bind_eq_ok.mp hbuilt
    have hproof := (Except.ok.inj hbuilt).symm
    have htarget : raw.job.targetNbits = raw.installedTargetNbits := by rw [h.job_eq]
    refine ⟨_, hproof, fun hlength => ?_, ?_⟩
    · rw [hproof] at hlength ⊢
      exact Wire.fields_encode hlength
    · unfold submissionFields
      rw [← htarget]
      split_ifs
      · exact ⟨rfl, rfl, rfl, rfl⟩
      · exact ⟨rfl, rfl, rfl, rfl⟩

theorem cleared_of_handsOver (h : Produced L raw ctx)
    (hhands : HandsOver (sendShare L r raw).events proof) :
    Cleared L r raw (max 1 raw.job.config.difficultyAdjustmentFactor.toNat) proof := by
  have hchecked := checked_of_prepare h.sigmaCtx_eq (prepare_of_handsOver hhands)
  obtain ⟨aProof, bProof, claimed, hrebuilds, hreported, hclears⟩ :=
    rebuilds_of_verifyShare hchecked.verified
  have hembeds := embeds_of_rebuilds h hchecked hrebuilds hclears
  -- the verified hash is the reported one
  obtain rfl : claimed = raw.claimedHash := hreported h.claimed_isSet
  refine ⟨_, _, _, hembeds, hrebuilds.claimed_eq, ?_, fun hlive => ?_⟩
  · rw [← h.minedNbits_eq]
    exact le_of_clears hclears
  · exact le_of_clears (clears_of_clearsLive hlive hclears hchecked.live)

theorem exists_handsOver {es : List Event} (h : es.filterMap Event.handed ≠ []) :
    ∃ proof, HandsOver es proof := by
  obtain ⟨proof, hproof⟩ := List.exists_mem_of_ne_nil _ h
  exact ⟨proof, List.mem_filterMap.mp hproof⟩

theorem produced_sampleShare (k : Dim) (auditK : UInt32) :
    Produced sampleLibrary (sampleShare k auditK) (sampleContext k auditK) :=
  ⟨rfl, rfl, rfl, rfl⟩

theorem cleared_of_sampleShare :
    ∃ proof, HandsOver (sendShare sampleLibrary grpcReads (sampleShare dim128 1)).events proof ∧
      Cleared sampleLibrary grpcReads (sampleShare dim128 1) 16384 proof := by
  obtain ⟨proof, hproof⟩ : ∃ proof,
      HandsOver (sendShare sampleLibrary grpcReads (sampleShare dim128 1)).events proof :=
    exists_handsOver (by decide +kernel)
  have hfactor : max 1 (sampleShare dim128 1).job.config.difficultyAdjustmentFactor.toNat =
      16384 := by decide +kernel
  have hcleared := cleared_of_handsOver (produced_sampleShare dim128 1) hproof
  rw [hfactor] at hcleared
  exact ⟨proof, hproof, hcleared⟩

def dim64 : Dim := ⟨64, by decide⟩

/-- With rows of 64 bytes the factor is zero, and zero times any target is below the hash
of the share, which is handed over all the same. -/
theorem cleared_fails :
    (sampleShare dim64 0).job.config.difficultyAdjustmentFactor.toNat = 0 ∧
      Produced sampleLibrary (sampleShare dim64 0) (sampleContext dim64 0) ∧
      ∃ proof, HandsOver (sendShare sampleLibrary grpcReads (sampleShare dim64 0)).events proof ∧
        ¬ Cleared sampleLibrary grpcReads (sampleShare dim64 0)
          (sampleShare dim64 0).job.config.difficultyAdjustmentFactor.toNat proof := by
  have hfactor : (sampleShare dim64 0).job.config.difficultyAdjustmentFactor.toNat = 0 := by
    decide +kernel
  obtain ⟨proof, hproof⟩ : ∃ proof,
      HandsOver (sendShare sampleLibrary grpcReads (sampleShare dim64 0)).events proof :=
    exists_handsOver (by decide +kernel)
  refine ⟨hfactor, produced_sampleShare dim64 0, proof, hproof, ?_⟩
  rintro ⟨hashA, hashB, claimed, -, hclaimed, hle, -⟩
  obtain rfl : (Bytes32.fill 0).set 0 1 = claimed := Except.ok.inj hclaimed
  have hone : ((Bytes32.fill 0).set 0 1).value = 1 := by decide +kernel
  rw [hfactor, Nat.zero_mul, hone] at hle
  cases hle

end PropMiner.ShareBatch
