import PropMiner.Orchestrator.ShareSender
import PropMiner.Share.Builder

/-!
# One batch of the share sender

The loop of `share_sender_thread_func` over a batch, with the shares themselves: each is
verified, held against the live target, built and handed to a transport. What other
threads own is read from `Reads`, one value for each point at which the source reads it,
so that every way of interleaving is some choice of values. A call through
`stratum_client_` is answered here; `ShareSender` is about the pointer.

The loop has no handler. An exception in it leaves the thread, which ends the process.

## Main definitions

* `prepare` — the share loop up to the proof
* `sendShare`, `sendBatch` — the whole loop
* `Contained` — no exception escapes, and no share of the batch is left out

## Main results

* `contained_iff_quiet` — a batch is contained iff no call for its shares throws
* `contained_fails` — an audit depth above 64 ends the thread
-/

set_option autoImplicit false

namespace PropMiner.ShareBatch

open PropMiner.Semantics PropMiner.Share
open PropMiner.Stratum (SubmitResult)
open PropMiner.ShareSender (clientDrops)

/-- What the sender reads while it works on one share, line by line. -/
structure Reads where
  liveShareTargetNbits : UInt32
  useStratum : Bool
  jobId : List UInt8
  /-- `use_stratum_ && stratum_client_ && stratum_client_->connected()` -/
  submitsStratum : Bool
  jobIdAgain : List UInt8
  submitResult : SubmitResult
  /-- `++miner_event_seq_` -/
  seq : UInt64
  /-- `client_ && client_->connected()` -/
  grpcConnected : Bool
  deriving DecidableEq, Repr

inductive Event
  | drop (kind : ShareDropKind)
  /-- the call of `submit_plain_proof` -/
  | submitPlainProof (jobId proof : List UInt8)
  | sharesSubmitted
  /-- the call of `send_event` with a `Share` event -/
  | sendEvent (seq : UInt64) (payload : List UInt8)
  deriving DecidableEq, Repr

/-- How the work on one share ends. -/
inductive Ending
  | next
  | escaped (e : Exception)
  deriving DecidableEq, Repr

structure Pass where
  events : List Event
  ending : Ending
  deriving DecidableEq, Repr

/-- A share on its way to the transport. -/
inductive Prepared
  | proof (bs : List UInt8)
  | dropped (kind : ShareDropKind)
  | escaped (e : Exception)
  deriving DecidableEq, Repr

/-- The guard on a target that was tightened while the share was queued: does the share
still clear it? -/
def clearsLive (raw : ShareFound) (live : UInt32) : Bool :=
  let mined := raw.minedNbits
  let guard := tighterTargetNbits live mined
  if guard ≠ 0 ∧ guard ≠ mined then
    claimedHashClearsTarget raw.claimedHash guard raw.job.config.difficultyAdjustmentFactor
  else true

/-- The answer of a builder. An empty proof is a failed build. -/
def Prepared.ofBuilder : Except Exception (List UInt8) → Prepared
  | .error e => .escaped e
  | .ok [] => .dropped .buildFailed
  | .ok (b :: bs) => .proof (b :: bs)

/-- The proof, in the encoding of the pool mode that is read here. -/
def buildProof (L : Library) (r : Reads) (raw : ShareFound) (ctx : SigmaContext) : Prepared :=
  if r.useStratum then
    if r.jobId = [] then .dropped .noJobId
    else .ofBuilder (L.buildStratumPlainProof raw.job.config raw ctx 1)
  else .ofBuilder (L.build raw.job.config raw ctx)

/-- The share loop up to the proof. -/
def prepare (L : Library) (r : Reads) (raw : ShareFound) : Prepared :=
  match raw.sigmaCtx with
  | none => .dropped .missingSigmaContext
  | some ctx =>
      match L.verifyShare raw ctx with
      | .error e => .escaped e
      | .ok false => .dropped .verifyFailed
      | .ok true =>
          if clearsLive raw r.liveShareTargetNbits then buildProof L r raw ctx
          else .dropped .vardiffTightened

/-- The gRPC branch. -/
def sendGrpc (r : Reads) (proof : List UInt8) : List Event :=
  if r.grpcConnected then [.sendEvent r.seq proof] else []

/-- The drops that the client counts in `submit_plain_proof`, then the branches on its
result. -/
def handleResult (result : SubmitResult) : List Event :=
  (clientDrops result).map Event.drop ++
    match result with
    | .sent => [.sharesSubmitted]
    | .supersededJob => []
    | .notConnected => [.drop .connectionLost]
    | .sendFailed => [.drop .sendFailed]

/-- The Stratum branch. -/
def submitStratum (r : Reads) (proof : List UInt8) : List Event :=
  if r.jobIdAgain = [] then [.drop .noJobId]
  else .submitPlainProof r.jobIdAgain proof :: handleResult r.submitResult

def transmit (r : Reads) (proof : List UInt8) : List Event :=
  if r.submitsStratum then submitStratum r proof else sendGrpc r proof

/-- The share loop. -/
def sendShare (L : Library) (r : Reads) (raw : ShareFound) : Pass :=
  match prepare L r raw with
  | .proof bs => ⟨transmit r bs, .next⟩
  | .dropped kind => ⟨[.drop kind], .next⟩
  | .escaped e => ⟨[], .escaped e⟩

/-- The loop over the batch, with what is read for each share. -/
def sendBatch (L : Library) : List (Reads × ShareFound) → List Pass
  | [] => []
  | (r, raw) :: rest =>
      let pass := sendShare L r raw
      pass :: match pass.ending with
        | .next => sendBatch L rest
        | .escaped _ => []

/-! ### Containment -/

section Containment

variable {L : Library} {r : Reads} {raw : ShareFound} {ctx : SigmaContext}
  {batch : List (Reads × ShareFound)}

/-- No exception escapes, every share of the batch is worked on, and a share that gets no
proof is dropped for one counted reason. -/
structure Contained (L : Library) (batch : List (Reads × ShareFound)) : Prop where
  noEscape : ∀ pass ∈ sendBatch L batch, ∀ e, pass.ending ≠ .escaped e
  allProcessed : sendBatch L batch = batch.map fun x => sendShare L x.1 x.2
  oneReason : ∀ x ∈ batch, (∀ bs, prepare L x.1 x.2 ≠ .proof bs) →
    ∃ kind, sendShare L x.1 x.2 = ⟨[.drop kind], .next⟩

/-- A share as it is queued: its job is that of its context, at the installed target. -/
def Queued (raw : ShareFound) : Prop :=
  ∀ ctx, raw.sigmaCtx = some ctx →
    raw.job = { ctx.job with targetNbits := raw.installedTargetNbits }

/-- The library answers each call that `VerifyShare` gets to, and those that `build` adds
for a share that is verified, clears the live target and goes to a gRPC pool. -/
structure Quiet (L : Library) (r : Reads) (raw : ShareFound) : Prop where
  verify : ∀ ctx, raw.sigmaCtx = some ctx → VerifyAnswered L raw ctx
  build : ∀ ctx, raw.sigmaCtx = some ctx → r.useStratum = false →
    L.verifyShare raw ctx = .ok true → clearsLive raw r.liveShareTargetNbits = true →
    ∀ aProof bProof claimed,
      Rebuilds L raw.job.config raw raw.job.jobKey ctx.bMerkleTree aProof bProof claimed →
      BuildAnswered L raw ctx claimed

/-- Something other than an exception. -/
def Prepared.Calm (p : Prepared) : Prop := ∀ e, p ≠ .escaped e

theorem calm_ofBuilder_iff {answer : Except Exception (List UInt8)} :
    (Prepared.ofBuilder answer).Calm ↔ Succeeds answer := by
  match answer with
  | .error e => exact ⟨fun h => absurd rfl (h e), fun ⟨_, h⟩ => by cases h⟩
  | .ok [] => exact ⟨fun _ => ⟨_, rfl⟩, fun _ => nofun⟩
  | .ok (b :: bs) => exact ⟨fun _ => ⟨_, rfl⟩, fun _ => nofun⟩

theorem Queued.jobKey_eq (h : Queued raw) (hctx : raw.sigmaCtx = some ctx) :
    ctx.job.jobKey = raw.job.jobKey := by
  rw [h ctx hctx]

/-- A verified share has been rebuilt once, so the builders make no new calls but those of
`BuildAnswered`. -/
theorem calm_buildProof_iff (hqueued : Queued raw) (hctx : raw.sigmaCtx = some ctx)
    (hverified : L.verifyShare raw ctx = .ok true) :
    (buildProof L r raw ctx).Calm ↔ (r.useStratum = false →
      ∀ aProof bProof claimed,
        Rebuilds L raw.job.config raw raw.job.jobKey ctx.bMerkleTree aProof bProof claimed →
        BuildAnswered L raw ctx claimed) := by
  obtain ⟨aProof, bProof, claimed, hrebuilds, -, hclears⟩ := rebuilds_of_verifyShare hverified
  have hleaf := leafData_of_verifyShare hverified
  have hbuilder := hrebuilds
  rw [← hqueued.jobKey_eq hctx] at hbuilder
  unfold buildProof
  cases hmode : r.useStratum with
  | true =>
    simp only [if_true, Bool.true_eq_false, false_imp_iff, iff_true]
    split_ifs
    · exact nofun
    · exact calm_ofBuilder_iff.mpr ⟨_, hbuilder.buildStratumPlainProof_eq hleaf _⟩
  | false =>
    rw [if_neg Bool.false_ne_true, calm_ofBuilder_iff, build_succeeds_iff hleaf hbuilder hclears]
    constructor
    · intro h _ aProof' bProof' claimed' hrebuilds'
      obtain ⟨-, -, rfl⟩ := hrebuilds.unique hrebuilds'
      exact h
    · intro h
      exact h rfl aProof bProof claimed hrebuilds

theorem calm_prepare_iff (hqueued : Queued raw) : (prepare L r raw).Calm ↔ Quiet L r raw := by
  unfold prepare
  cases hctx : raw.sigmaCtx with
  | none =>
    refine ⟨fun _ => ⟨fun ctx h => ?_, fun ctx h => ?_⟩, fun _ => nofun⟩
    · cases hctx.symm.trans h
    · cases hctx.symm.trans h
  | some ctx =>
    dsimp only
    constructor
    · intro hcalm
      have hanswer : Succeeds (L.verifyShare raw ctx) := by
        cases hverify : L.verifyShare raw ctx with
        | error e =>
          rw [hverify] at hcalm
          exact absurd rfl (hcalm e)
        | ok verified => exact ⟨verified, rfl⟩
      refine ⟨fun ctx' hctx' => ?_, fun ctx' hctx' hmode hverified hlive => ?_⟩
      · obtain rfl := Option.some.inj (hctx.symm.trans hctx')
        exact verifyShare_succeeds_iff.mp hanswer
      · obtain rfl := Option.some.inj (hctx.symm.trans hctx')
        rw [hverified] at hcalm
        dsimp only at hcalm
        rw [if_pos hlive] at hcalm
        exact (calm_buildProof_iff hqueued hctx hverified).mp hcalm hmode
    · intro h
      obtain ⟨verified, hverified⟩ := verifyShare_succeeds_iff.mpr (h.verify ctx hctx)
      rw [hverified]
      cases verified with
      | false => exact nofun
      | true =>
        dsimp only
        split_ifs with hlive
        · refine (calm_buildProof_iff hqueued hctx hverified).mpr fun hmode => ?_
          exact h.build ctx hctx hmode hverified hlive
        · exact nofun

theorem ending_sendShare_iff :
    (sendShare L r raw).ending = .next ↔ (prepare L r raw).Calm := by
  unfold sendShare
  cases hprepare : prepare L r raw with
  | proof bs => exact ⟨fun _ => nofun, fun _ => rfl⟩
  | dropped kind => exact ⟨fun _ => nofun, fun _ => rfl⟩
  | escaped e => exact ⟨nofun, fun h => absurd rfl (h e)⟩

theorem sendBatch_eq_map (h : ∀ x ∈ batch, (prepare L x.1 x.2).Calm) :
    sendBatch L batch = batch.map fun x => sendShare L x.1 x.2 := by
  induction batch with
  | nil => rfl
  | cons x rest ih =>
    obtain ⟨r, raw⟩ := x
    have hnext := ending_sendShare_iff.mpr (h _ List.mem_cons_self)
    rw [sendBatch, hnext, ih fun y hy => h y (List.mem_cons_of_mem _ hy), List.map_cons]

/-- A batch is contained iff each of its shares is prepared without an exception. -/
theorem contained_iff_calm :
    Contained L batch ↔ ∀ x ∈ batch, (prepare L x.1 x.2).Calm := by
  constructor
  · intro h x hx
    have hpass : sendShare L x.1 x.2 ∈ sendBatch L batch := by
      rw [h.allProcessed]
      exact List.mem_map_of_mem hx
    rw [← ending_sendShare_iff]
    cases hending : (sendShare L x.1 x.2).ending with
    | next => rfl
    | escaped e => exact absurd hending (h.noEscape _ hpass e)
  · intro h
    refine ⟨?_, sendBatch_eq_map h, ?_⟩
    · intro pass hpass e hescaped
      rw [sendBatch_eq_map h] at hpass
      obtain ⟨x, hx, rfl⟩ := List.mem_map.mp hpass
      rw [ending_sendShare_iff.mpr (h x hx)] at hescaped
      cases hescaped
    · intro x hx hnone
      unfold sendShare
      cases hprepare : prepare L x.1 x.2 with
      | proof bs => exact absurd hprepare (hnone bs)
      | dropped kind => exact ⟨kind, rfl⟩
      | escaped e => exact absurd hprepare (h x hx e)

theorem contained_iff_quiet (hqueued : ∀ x ∈ batch, Queued x.2) :
    Contained L batch ↔ ∀ x ∈ batch, Quiet L x.1 x.2 := by
  rw [contained_iff_calm]
  exact forall₂_congr fun x hx => calm_prepare_iff (hqueued x hx)

end Containment

/-! ### Two shares with a deep audit -/

section Samples

/-- Connected to a gRPC pool, with no live target. -/
def grpcReads : Reads where
  liveShareTargetNbits := 0
  useStratum := false
  jobId := []
  submitsStratum := false
  jobIdAgain := []
  submitResult := .notConnected
  seq := 1
  grpcConnected := true

/-- Two shares of a job that asks for this many audit leaves. -/
def auditedBatch (auditK : UInt32) : List (Reads × ShareFound) :=
  [(grpcReads, sampleShare dim128 auditK), (grpcReads, sampleShare dim128 auditK)]

theorem queued_auditedBatch (auditK : UInt32) : ∀ x ∈ auditedBatch auditK, Queued x.2 := by
  intro x hx
  obtain rfl : x = (grpcReads, sampleShare dim128 auditK) := by
    simpa [auditedBatch] using hx
  rintro ctx hctx
  obtain rfl := Option.some.inj hctx
  rfl

theorem quiet_sampleShare (k : Dim) {auditK : UInt32} (hk : auditK ≤ 64) :
    Quiet sampleLibrary grpcReads (sampleShare k auditK) where
  verify ctx hctx := by
    obtain rfl := Option.some.inj hctx
    exact ⟨fun _ => ⟨_, rfl⟩, fun _ _ => ⟨_, rfl⟩, fun _ _ _ => ⟨_, rfl⟩⟩
  build ctx hctx _ _ _ aProof bProof claimed _ := by
    obtain rfl := Option.some.inj hctx
    have hone : (1 : UInt32) &&& (1 - 1) = 0 := by decide
    exact ⟨.inr (.inr ⟨hk, hone, ⟨_, rfl⟩⟩), fun _ _ => ⟨_, rfl⟩⟩

theorem contained_auditedBatch :
    Contained sampleLibrary (auditedBatch 64) ∧
      (sendBatch sampleLibrary (auditedBatch 64)).length = 2 := by
  have hquiet : ∀ x ∈ auditedBatch 64, Quiet sampleLibrary x.1 x.2 := by
    intro x hx
    obtain rfl : x = (grpcReads, sampleShare dim128 64) := by simpa [auditedBatch] using hx
    exact quiet_sampleShare dim128 (by decide)
  have hcontained := (contained_iff_quiet (queued_auditedBatch 64)).mpr hquiet
  refine ⟨hcontained, ?_⟩
  rw [hcontained.allProcessed]
  rfl

/-- An audit of 65 leaves: the exception of the first share ends the thread, and the second
is never looked at. -/
theorem contained_fails :
    sendBatch sampleLibrary (auditedBatch 65) =
        [⟨[], .escaped (.invalidArgument "audit_k exceeds spec max 64")⟩] ∧
      ¬ Contained sampleLibrary (auditedBatch 65) := by
  have hbatch : sendBatch sampleLibrary (auditedBatch 65) =
      [⟨[], .escaped (.invalidArgument "audit_k exceeds spec max 64")⟩] := rfl
  refine ⟨hbatch, fun h => ?_⟩
  have hmem := List.mem_cons_self (a := (⟨[], .escaped
    (.invalidArgument "audit_k exceeds spec max 64")⟩ : Pass)) (l := [])
  rw [← hbatch] at hmem
  exact h.noEscape _ hmem _ rfl

end Samples

end PropMiner.ShareBatch
