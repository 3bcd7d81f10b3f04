import PropMiner.Stratum.Client

/-!
# The share sender and the network thread

`WorkerOrchestrator` as far as a found share is concerned. GPU threads `submit`
shares into a queue; the share sender takes the whole queue and works through it;
the network thread makes, connects and resets the Stratum client that the sender
uses, and may switch from gRPC to Stratum.

The sender is modelled line by line from the test of the pool mode on, because
every line that touches `stratum_client_` reads the pointer anew. A method called
through the null pointer is an event of its own and the end of the sender. What
verification, the target guard, the proof builder and the pools answer is part of
the input.

## Main definitions

* `Line`, `SenderPc` — where the sender is, and with which share
* `Orchestrator.senderStep`, `Orchestrator.netStep`, `machine`

## Main results

* `senderStep_cases` — the case rule for the sender
* `drops_submitPlainProof`, `drops_sendSubmit` — the drops that the Stratum client
  itself counts before it returns are those of `clientDrops`
-/

set_option autoImplicit false

namespace PropMiner.ShareSender

open PropMiner.Semantics (Machine)
open PropMiner.Share (ShareDropKind)
open PropMiner.Stratum (SubmitResult)

/-- What the sender looks at in a `ShareFound`. The number is the value of
`shares_found_` when the share was counted. -/
structure ShareFound where
  id : ℕ
  nonce : UInt64
  sigmaCtx : Bool
  deriving DecidableEq, Repr

/-- The points of `share_sender_thread_func` between which other threads can move,
from the first test of the pool mode on. -/
inductive Line
  /-- `if (use_stratum_.load())` -/
  | mode
  /-- `stratum_client_->job_id_for_sigma`, before the proof is built -/
  | jobId
  | build
  /-- the three parts of the test before a Stratum submit -/
  | modeAgain
  | testClient
  | testConnected
  /-- `stratum_client_->job_id_for_sigma`, before the submit -/
  | jobIdAgain
  | submit
  /-- `stratum_client_->last_error`, after a failed send -/
  | lastError
  /-- the gRPC path -/
  | grpc
  deriving DecidableEq, Repr

inductive SenderPc
  | idle
  | ended
  | loop (todo : List ShareFound)
  /-- `stratum` is the pool mode that was read for this share -/
  | busy (line : Line) (share : ShareFound) (todo : List ShareFound) (stratum : Bool)
  | crashed (share : ShareFound) (todo : List ShareFound)
  deriving DecidableEq, Repr

/-- Where the network thread is. -/
inductive NetPc
  | top
  /-- the loop over Stratum endpoints, with this many left -/
  | endpoints (left : ℕ)
  | connecting (left : ℕ)
  | session (left : ℕ)
  /-- the client is disconnected and about to be reset -/
  | resetting (left : ℕ)
  | grpc
  | ended
  deriving DecidableEq, Repr

structure Orchestrator where
  stopFlag : Bool := false
  useStratum : Bool := true
  /-- `cfg_.stratum_endpoints.size()` -/
  endpoints : ℕ := 1
  /-- `stratum_client_`: null, or a client that is connected or not -/
  stratumClient : Option Bool := none
  net : NetPc := .top
  sharesFound : ℕ := 0
  sharesSubmitted : ℕ := 0
  /-- the drops counted for shares before they were sent -/
  shareDrops : ℕ := 0
  /-- shares that `submit` has counted and not yet queued -/
  submitting : List ShareFound := []
  pendingShareFound : List ShareFound := []
  sender : SenderPc := .idle
  deriving DecidableEq, Repr

/-- What can be seen of a run. -/
inductive Event
  | found (id : ℕ)
  | submitted (id : ℕ)
  | dropped (kind : ShareDropKind) (id : ℕ)
  /-- the sender is done with a share it took up in this mode, and a Stratum client
  does or does not exist at that point -/
  | finished (id : ℕ) (stratum : Bool) (client : Bool)
  /-- a method of `stratum_client_` was called through the null pointer -/
  | nullCall (id : ℕ)
  deriving DecidableEq, Repr

/-- The steps of the sender, with the answers it gets. -/
inductive SenderInput
  | exit
  | swap
  | batchDone
  /-- up to the test of the pool mode: does the share verify, and does its hash clear
  the tighter target -/
  | takeUp (verified clears : Bool)
  | mode
  | jobId (empty : Bool)
  | build (empty : Bool)
  | modeAgain
  | testClient
  | testConnected
  | jobIdAgain (empty : Bool)
  | submit (result : SubmitResult)
  | lastError
  | grpc
  deriving DecidableEq, Repr

/-- The steps of the network thread, and the loss of a connection. -/
inductive NetInput
  | top
  | create
  | connect (ok : Bool)
  | connectionLost
  | sessionEnd
  | reset
  | backoff
  | grpcSession (ok : Bool)
  deriving DecidableEq, Repr

inductive Input
  | found (nonce : UInt64) (sigmaCtx : Bool)
  | push (i : ℕ)
  | stop
  | sender (a : SenderInput)
  | net (a : NetInput)
  deriving DecidableEq, Repr

/-- The drops that `submit_plain_proof` counts itself before it returns. -/
def clientDrops : SubmitResult → List ShareDropKind
  | .supersededJob => [.supersededJob]
  | .sendFailed => [.sendFailed]
  | .sent | .notConnected => []

namespace Orchestrator

/-! ### The sender -/

/-- The end of one round of the share loop. -/
def finish (s : Orchestrator) (x : ShareFound) (todo : List ShareFound) (stratum : Bool)
    (es : List Event) : Orchestrator × List Event :=
  ({ s with sender := .loop todo }, es ++ [.finished x.id stratum s.stratumClient.isSome])

/-- `share_drop(kind, ...); continue;` -/
def dropShare (s : Orchestrator) (kind : ShareDropKind) (x : ShareFound) (todo : List ShareFound)
    (stratum : Bool) : Orchestrator × List Event :=
  { s with shareDrops := s.shareDrops + 1 }.finish x todo stratum [.dropped kind x.id]

/-- Go on with the same share at another line. -/
def goto (s : Orchestrator) (line : Line) (x : ShareFound) (todo : List ShareFound)
    (stratum : Bool) : Orchestrator × List Event :=
  ({ s with sender := .busy line x todo stratum }, [])

/-- A method call through `stratum_client_`. -/
def callClient (s : Orchestrator) (x : ShareFound) (todo : List ShareFound)
    (next : Bool → Orchestrator × List Event) : Orchestrator × List Event :=
  match s.stratumClient with
  | none => ({ s with sender := .crashed x todo }, [.nullCall x.id])
  | some connected => next connected

/-- The drops that the client counted, then the branches on the result of
`submit_plain_proof`. -/
def handleResult (s : Orchestrator) (x : ShareFound) (todo : List ShareFound) (stratum : Bool)
    (result : SubmitResult) : Orchestrator × List Event :=
  let s := { s with shareDrops := s.shareDrops + (clientDrops result).length }
  let es := (clientDrops result).map (Event.dropped · x.id)
  match result with
  | .sent =>
      { s with sharesSubmitted := s.sharesSubmitted + 1 }.finish x todo stratum
        (es ++ [Event.submitted x.id])
  | .supersededJob => s.finish x todo stratum es
  | .notConnected => s.dropShare .connectionLost x todo stratum
  | .sendFailed => ({ s with sender := .busy .lastError x todo stratum }, es)

def senderStep (s : Orchestrator) (a : SenderInput) : Option (Orchestrator × List Event) :=
  match s.sender, a with
  | .idle, .exit => if s.stopFlag then some ({ s with sender := .ended }, []) else none
  | .idle, .swap =>
      if s.stopFlag then some ({ s with sender := .ended, pendingShareFound := [] }, [])
      else if s.pendingShareFound = [] then none
      else some ({ s with sender := .loop s.pendingShareFound, pendingShareFound := [] }, [])
  | .loop [], .batchDone => some ({ s with sender := .idle }, [])
  | .loop (x :: todo), .takeUp verified clears =>
      if !x.sigmaCtx then some (s.dropShare .missingSigmaContext x todo s.useStratum)
      else if !verified then some (s.dropShare .verifyFailed x todo s.useStratum)
      else if !clears then some (s.dropShare .vardiffTightened x todo s.useStratum)
      else some (s.goto .mode x todo s.useStratum)
  | .busy .mode x todo _, .mode =>
      some (s.goto (if s.useStratum then .jobId else .build) x todo s.useStratum)
  | .busy .jobId x todo stratum, .jobId empty =>
      some (s.callClient x todo fun _ =>
        if empty then s.dropShare .noJobId x todo stratum else s.goto .build x todo stratum)
  | .busy .build x todo stratum, .build empty =>
      some (if empty then s.dropShare .buildFailed x todo stratum
        else s.goto .modeAgain x todo stratum)
  | .busy .modeAgain x todo stratum, .modeAgain =>
      some (s.goto (if s.useStratum then .testClient else .grpc) x todo stratum)
  | .busy .testClient x todo stratum, .testClient =>
      some (s.goto (if s.stratumClient.isSome then .testConnected else .grpc) x todo stratum)
  | .busy .testConnected x todo stratum, .testConnected =>
      some (s.callClient x todo fun connected =>
        s.goto (if connected then .jobIdAgain else .grpc) x todo stratum)
  | .busy .jobIdAgain x todo stratum, .jobIdAgain empty =>
      some (s.callClient x todo fun _ =>
        if empty then s.dropShare .noJobId x todo stratum else s.goto .submit x todo stratum)
  | .busy .submit x todo stratum, .submit result =>
      some (s.callClient x todo fun _ => s.handleResult x todo stratum result)
  | .busy .lastError x todo stratum, .lastError =>
      some (s.callClient x todo fun _ => s.dropShare .sendFailed x todo stratum)
  -- sent or not, the gRPC path counts nothing
  | .busy .grpc x todo stratum, .grpc => some (s.finish x todo stratum [])
  | _, _ => none

/-! ### The network thread -/

def netStep (s : Orchestrator) (a : NetInput) : Option Orchestrator :=
  match s.net, a with
  | .top, .top =>
      if s.stopFlag then some { s with net := .ended }
      else some { s with net := if s.useStratum then .endpoints s.endpoints else .grpc }
  | .endpoints (left + 1), .create =>
      some { s with stratumClient := some false, net := .connecting left }
  | .connecting left, .connect true =>
      some { s with stratumClient := some true, net := .session left }
  | .connecting left, .connect false => some { s with net := .resetting left }
  -- the receive thread of the client sees the socket closed
  | .session _, .connectionLost =>
      some { s with stratumClient := s.stratumClient.map fun _ => false }
  | .session left, .sessionEnd =>
      if s.stopFlag || s.stratumClient == some false then
        some { s with stratumClient := s.stratumClient.map fun _ => false, net := .resetting left }
      else none
  | .resetting left, .reset => some { s with stratumClient := none, net := .endpoints left }
  | .endpoints left, .backoff =>
      if left = 0 || s.stopFlag then some { s with net := .top } else none
  | .grpc, .grpcSession true => some { s with net := .top }
  | .grpc, .grpcSession false =>
      some { s with net := .top, useStratum := s.useStratum || decide (0 < s.endpoints) }
  | _, _ => none

/-! ### Steps -/

def step (s : Orchestrator) : Input → Option (Orchestrator × List Event)
  | .found nonce sigmaCtx =>
      some ({ s with
          sharesFound := s.sharesFound + 1
          submitting := ⟨s.sharesFound, nonce, sigmaCtx⟩ :: s.submitting },
        [.found s.sharesFound])
  | .push i =>
      (s.submitting[i]?).map fun x =>
        ({ s with
            submitting := s.submitting.erase x
            pendingShareFound := s.pendingShareFound ++ [x] }, [])
  | .stop => some ({ s with stopFlag := true }, [])
  | .sender a => s.senderStep a
  | .net a => (s.netStep a).map fun s => (s, [])

end Orchestrator

def machine : Machine Orchestrator Input Event := ⟨Orchestrator.step⟩

/-! ### The steps of the sender, one by one -/

section Cases

variable {s : Orchestrator} {a : SenderInput} {r : Orchestrator × List Event}

/-- The case rule for `senderStep`: one case for each line, two for the checks before the
pool mode is read, and three for the loop around the batches. -/
theorem senderStep_cases {P : SenderInput → Orchestrator × List Event → Prop}
    (hstep : s.senderStep a = some r)
    (exit : s.sender = .idle → s.stopFlag = true → P .exit ({ s with sender := .ended }, []))
    (quit : s.sender = .idle → s.stopFlag = true →
      P .swap ({ s with sender := .ended, pendingShareFound := [] }, []))
    (swap : s.sender = .idle → P .swap
      ({ s with sender := .loop s.pendingShareFound, pendingShareFound := [] }, []))
    (batchDone : s.sender = .loop [] → P .batchDone ({ s with sender := .idle }, []))
    (reject : ∀ x todo verified clears kind, s.sender = .loop (x :: todo) →
      P (.takeUp verified clears) (s.dropShare kind x todo s.useStratum))
    (take : ∀ x todo, s.sender = .loop (x :: todo) →
      P (.takeUp true true) (s.goto .mode x todo s.useStratum))
    (mode : ∀ x todo old, s.sender = .busy .mode x todo old →
      P .mode (s.goto (if s.useStratum then .jobId else .build) x todo s.useStratum))
    (jobId : ∀ x todo stratum empty, s.sender = .busy .jobId x todo stratum →
      P (.jobId empty) (s.callClient x todo fun _ =>
        if empty then s.dropShare .noJobId x todo stratum else s.goto .build x todo stratum))
    (build : ∀ x todo stratum empty, s.sender = .busy .build x todo stratum →
      P (.build empty) (if empty then s.dropShare .buildFailed x todo stratum
        else s.goto .modeAgain x todo stratum))
    (modeAgain : ∀ x todo stratum, s.sender = .busy .modeAgain x todo stratum →
      P .modeAgain (s.goto (if s.useStratum then .testClient else .grpc) x todo stratum))
    (testClient : ∀ x todo stratum, s.sender = .busy .testClient x todo stratum →
      P .testClient
        (s.goto (if s.stratumClient.isSome then .testConnected else .grpc) x todo stratum))
    (testConnected : ∀ x todo stratum, s.sender = .busy .testConnected x todo stratum →
      P .testConnected (s.callClient x todo fun connected =>
        s.goto (if connected then .jobIdAgain else .grpc) x todo stratum))
    (jobIdAgain : ∀ x todo stratum empty, s.sender = .busy .jobIdAgain x todo stratum →
      P (.jobIdAgain empty) (s.callClient x todo fun _ =>
        if empty then s.dropShare .noJobId x todo stratum else s.goto .submit x todo stratum))
    (submit : ∀ x todo stratum result, s.sender = .busy .submit x todo stratum →
      P (.submit result) (s.callClient x todo fun _ => s.handleResult x todo stratum result))
    (lastError : ∀ x todo stratum, s.sender = .busy .lastError x todo stratum →
      P .lastError (s.callClient x todo fun _ => s.dropShare .sendFailed x todo stratum))
    (grpc : ∀ x todo stratum, s.sender = .busy .grpc x todo stratum →
      P .grpc (s.finish x todo stratum [])) : P a r := by
  unfold Orchestrator.senderStep at hstep
  split at hstep
  case h_1 hsender =>
    split_ifs at hstep with hstop
    obtain rfl := Option.some.inj hstep
    exact exit hsender hstop
  case h_2 hsender =>
    split_ifs at hstep with hstop
    all_goals obtain rfl := Option.some.inj hstep
    · exact quit hsender hstop
    · exact swap hsender
  case h_4 x todo verified clears hsender =>
    split_ifs at hstep with hctx hverified hclears
    all_goals obtain rfl := Option.some.inj hstep
    · exact reject _ _ _ _ _ hsender
    · exact reject _ _ _ _ _ hsender
    · exact reject _ _ _ _ _ hsender
    · obtain rfl : verified = true := by simpa using hverified
      obtain rfl : clears = true := by simpa using hclears
      exact take _ _ hsender
  case h_15 => cases hstep
  all_goals obtain rfl := Option.some.inj hstep
  case h_3 hsender => exact batchDone hsender
  case h_5 hsender => exact mode _ _ _ hsender
  case h_6 hsender => exact jobId _ _ _ _ hsender
  case h_7 hsender => exact build _ _ _ _ hsender
  case h_8 hsender => exact modeAgain _ _ _ hsender
  case h_9 hsender => exact testClient _ _ _ hsender
  case h_10 hsender => exact testConnected _ _ _ hsender
  case h_11 hsender => exact jobIdAgain _ _ _ _ hsender
  case h_12 hsender => exact submit _ _ _ _ hsender
  case h_13 hsender => exact lastError _ _ _ hsender
  case h_14 hsender => exact grpc _ _ _ hsender

end Cases

/-! ### The drops of the client -/

/-- The drops among the events of a client. -/
def dropKinds (es : List Stratum.Event) : List ShareDropKind :=
  es.filterMap fun
    | .drop kind _ _ => some kind
    | _ => none

/-- A submit that ends at its checks has counted what its result says. -/
theorem drops_submitPlainProof {c c' : Stratum.Client} {jobId : Stratum.Bytes}
    {nonce : Stratum.Nonce} {es : List Stratum.Event} {r : SubmitResult}
    (h : c.submitPlainProof jobId nonce = (c', es)) (hr : .returned none r ∈ es) :
    dropKinds es = clientDrops r := by
  unfold Stratum.Client.submitPlainProof at h
  split_ifs at h
  all_goals obtain ⟨rfl, rfl⟩ := Prod.mk.inj h
  · obtain rfl : r = .notConnected := by simpa using hr
    rfl
  · obtain rfl : r = .supersededJob := by simpa using hr
    rfl
  · cases hr

/-- A submit that gets as far as its send has counted what its result says. -/
theorem drops_sendSubmit {c c' : Stratum.Client} {call : ℤ × Stratum.Nonce} {ok : Bool}
    {es : List Stratum.Event} (h : c.sendSubmit call ok = some (c', es)) :
    dropKinds es = clientDrops (if ok then .sent else .sendFailed) := by
  cases ok with
  | false =>
    obtain ⟨rfl, rfl⟩ := Prod.mk.inj (Option.some.inj h)
    rfl
  | true =>
    simp only [Stratum.Client.sendSubmit, if_true] at h
    split at h
    · obtain ⟨rfl, rfl⟩ := Prod.mk.inj (Option.some.inj h)
      rfl
    · cases h

end PropMiner.ShareSender
