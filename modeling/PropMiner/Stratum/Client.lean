import PropMiner.Semantics.Ledger
import PropMiner.Semantics.Machine
import PropMiner.Share.Diagnostics
import PropMiner.Stratum.JsonParser

/-!
# The Stratum client

`PearlStratumClient` as a machine. Three threads use it: the network thread
connects it (once; a new client is made for every connection) and disconnects it,
the receive thread reads the pool's lines, and the share sender submits. The
inputs say which of them moves and what the environment answers: what a read
returns, whether a send succeeds, how a challenge ends, how much time passes.

A section under a mutex is one step, and so is the removal of a pending submit
with the outcome it leads to. Where another thread can come in between, the
function is cut: `submit_plain_proof` checks, registers and sends in three steps,
`handle_message` decides that a response is a share result in one step and takes
the pending entry in the next, `disconnect` flushes, clears its flags and joins.

An exception in a message handler ends the process, and the run with it.

## Main definitions

* `Client` — the fields of the client and the state of its threads
* `Client.step`, `machine` — what one input does
* `ledger` — submits as accounts: opened when registered, closed by an outcome
-/

set_option autoImplicit false

namespace PropMiner.Stratum

open PropMiner.Semantics (Machine Ledger)
open PropMiner.Share (ShareDropKind)

/-- A submit that waits for its answer. Times are in milliseconds. -/
structure PendingSubmit where
  nonce : UInt64
  sentAt : ℕ
  deriving DecidableEq, Repr

inductive SubmitResult
  | sent | supersededJob | notConnected | sendFailed
  deriving DecidableEq, Repr

/-- The nonces a share can have: 0 stands for "no nonce". -/
abbrev Nonce := { n : UInt64 // n ≠ 0 }

/-- Where the network thread stands with this client. -/
inductive Phase
  | created
  /-- `try_challenge_handshake` waits for the pool's first line -/
  | awaitFirst
  /-- the read loop of `authorize` -/
  | authorizing (attempt : ℕ)
  /-- the read loop of `pearl_v1_finish_handshake` -/
  | finishing (round : ℕ)
  | up
  /-- `disconnect` has flushed -/
  | stopping
  /-- `disconnect` has cleared the flags and waits for the receive thread -/
  | joining
  | closed
  deriving DecidableEq, Repr

/-- Where the receive thread stands. -/
inductive RecvPhase
  | absent
  | reading
  /-- `handle_message` takes the response with this id for a share result -/
  | acking (id : ℤ) (accepted : Bool)
  | flushing
  | done
  deriving DecidableEq, Repr

/-- The client. `ready` are the calls of `submit_plain_proof` that have passed their
checks, `sending` those that have an id and have not returned. -/
structure Client where
  now : ℕ := 0
  phase : Phase := .created
  recv : RecvPhase := .absent
  connected : Bool := false
  running : Bool := false
  sock : Bool := false
  pearlV1 : Bool := false
  useObjectSubmit : Bool := true
  requestId : ℤ := 1
  challengeRespIds : List ℤ := []
  pending : List (ℤ × PendingSubmit) := []
  sigmaHexToJobId : List (Bytes × Bytes) := []
  jobReceivedAt : List (Bytes × ℕ) := []
  jobCertVersion : List (Bytes × ℤ) := []
  currentJobId : Bytes := []
  ready : List Nonce := []
  sending : List (ℤ × Nonce) := []
  deriving DecidableEq, Repr

/-- What can be seen of a run. -/
inductive Event
  /-- a submit got this id and is pending under it -/
  | registered (id : ℤ) (nonce : UInt64)
  /-- a submit returned; it has an id if it got that far -/
  | returned (id : Option ℤ) (result : SubmitResult)
  | shareCb (id : ℤ) (accepted : Bool)
  | drop (kind : ShareDropKind) (id : Option ℤ) (nonce : UInt64)
  deriving DecidableEq, Repr

/-- What `read_line_status` returns. A line that is empty or does not parse is the
null value. -/
inductive ReadResult
  | timeout
  | closed
  | line (parsed : JsonValue)

/-- How `solve_and_respond_challenge` ends: the challenge is malformed or too hard,
no nonce was found, the answer could not be sent, or it was sent. -/
inductive ChallengeAnswer
  | refused | unsolved | sendFailed | answered
  deriving DecidableEq, Repr

inductive Input
  | tick (ms : ℕ)
  | connect (ok : Bool)
  | firstLine (read : ReadResult) (challenge : ChallengeAnswer) (sends : Bool)
  | handshakeLine (read : ReadResult) (challenge : ChallengeAnswer)
  | submit (jobId : Bytes) (nonce : Nonce)
  | register (call : ℕ)
  | send (call : ℕ) (ok : Bool)
  | recvLine (read : ReadResult) (challenge : ChallengeAnswer)
  | ack
  | flush
  | disconnectFlush
  | disconnectStop
  | disconnectJoin

namespace Client

/-- The ids under which submits are pending. -/
def pendingIds (s : Client) : List ℤ := s.pending.map Prod.fst

/-! ### Pending submits -/

def kAckTimeout : ℕ := 45000

def isStale (s : Client) (p : ℤ × PendingSubmit) : Bool := decide (kAckTimeout ≤ s.now - p.2.sentAt)

def dropEvent (kind : ShareDropKind) (p : ℤ × PendingSubmit) : Event :=
  .drop kind (some p.1) p.2.nonce

/-- `flush_stale_pending_submits`. -/
def flushStalePendingSubmits (s : Client) : Client × List Event :=
  ({ s with pending := s.pending.filter fun p => !s.isStale p },
    (s.pending.filter s.isStale).map (dropEvent .poolAckTimeout))

/-- `flush_all_pending_submits`. -/
def flushAllPendingSubmits (s : Client) : Client × List Event :=
  ({ s with pending := [] }, s.pending.map (dropEvent .connectionLost))

/-! ### Jobs and challenges -/

/-- `m[key] = value`. -/
def insertKey {κ ρ : Type*} [DecidableEq κ] (m : List (κ × ρ)) (key : κ) (value : ρ) :
    List (κ × ρ) :=
  (key, value) :: m.filter fun p => p.1 ≠ key

def toLower (c : UInt8) : UInt8 := if 65 ≤ c ∧ c ≤ 90 then c + 32 else c

/-- What `make_job` records of a job. -/
def makeJob (s : Client) (jobId header : Bytes) (certVersion : ℤ) : Client :=
  { s with
    sigmaHexToJobId := insertKey s.sigmaHexToJobId (header.map toLower) jobId
    jobReceivedAt := insertKey s.jobReceivedAt jobId s.now
    jobCertVersion := insertKey s.jobCertVersion jobId certVersion
    currentJobId := jobId }

/-- `parse_notify_object`, which parses the parameters a second time. -/
def parseNotifyObject (s : Client) (paramsJson : Bytes) : Option Client :=
  match JsonValue.parse paramsJson with
  | .error _ => none
  | .ok (obj, _) =>
      match (obj.get (bytes "job_id")).toString, (obj.get (bytes "header")).toString with
      | some jobId, some header =>
          let s := { s with useObjectSubmit := if s.pearlV1 then s.useObjectSubmit else true }
          let certVersion := ((obj.get (bytes "cert_version")).toInt.map toInt32).getD 1
          some (s.makeJob jobId header certVersion)
      | _, _ => some s

/-- `parse_notify_array`; the accessors throw on a job id or header that is not a
string. -/
def parseNotifyArray (s : Client) (params : JsonValue) : Option Client :=
  if params.size < 4 then some s
  else
    let s := { s with useObjectSubmit := if s.pearlV1 then false else s.useObjectSubmit }
    match (params.at_ 0).toString, (params.at_ 2).toString with
    | some jobId, some header => some (s.makeJob jobId header 1)
    | _, _ => none

/-- `solve_and_respond_challenge`: whether it succeeds. -/
def solveAndRespondChallenge (s : Client) (respId : ℤ) (answer : ChallengeAnswer) :
    Bool × Client :=
  match answer with
  | .refused => (false, s)
  | .unsolved | .sendFailed =>
      (false, { s with challengeRespIds := s.challengeRespIds.insert respId })
  | .answered => (true, { s with challengeRespIds := s.challengeRespIds.insert respId })

/-- `handle_challenge_async`. -/
def handleChallengeAsync (s : Client) (answer : ChallengeAnswer) : Client :=
  let respId := s.requestId + 1
  (solveAndRespondChallenge { s with requestId := respId } respId answer).2

/-- The branch of `handle_message` for a message with a method. -/
def handleNotification (s : Client) (method : Bytes) (params : JsonValue)
    (answer : ChallengeAnswer) : Option Client :=
  if method = bytes "mining.notify" then
    match params with
    | .array _ => s.parseNotifyArray params
    | _ => s.parseNotifyObject params.serialize
  else if method = bytes "pearl.challenge" then some (s.handleChallengeAsync answer)
  -- a new difficulty changes the targets of later jobs, nothing that is kept here
  else some s

/-- The branch of `handle_message` for a response, up to the decision whether it is a
share result. -/
def handleResponse (s : Client) (parsed : JsonValue) : Client :=
  match parseRequestId (parsed.get (bytes "id")) with
  | none => { s with recv := .flushing }
  | some id =>
      if id ∈ s.challengeRespIds then
        { s with challengeRespIds := s.challengeRespIds.erase id, recv := .flushing }
      else if 2 < id ∨ id ∈ s.pendingIds then
        { s with recv := .acking id (shareResultAccepted parsed).1 }
      else { s with recv := .flushing }

/-- `handle_message`, called by the receive thread. -/
def handleMessage (s : Client) (parsed : JsonValue) (answer : ChallengeAnswer) : Option Client :=
  if parsed.isNull then some { s with recv := .flushing }
  else match parsed.get (bytes "method") with
    | .string method =>
        (s.handleNotification method (parsed.get (bytes "params")) answer).map fun s =>
          { s with recv := .flushing }
    | _ => some (s.handleResponse parsed)

/-! ### The handshake -/

/-- `disconnect` at the end of a failed handshake, where there is no receive thread. -/
def failConnect (s : Client) : Client × List Event :=
  let r := s.flushAllPendingSubmits
  ({ r.1 with running := false, connected := false, sock := false, phase := .closed }, r.2)

/-- The end of `connect`. -/
def goUp (s : Client) : Client :=
  { s with connected := true, running := true, recv := .reading, phase := .up }

/-- The first lines of `authorize`. -/
def authorize (s : Client) (sends : Bool) : Client × List Event :=
  let s := { s with requestId := 2 }
  if sends then ({ s with phase := .authorizing 0 }, []) else s.failConnect

/-- `try_challenge_handshake` on its first read. A line that is not a challenge is put
back, and the next read may return it. -/
def tryChallengeHandshake (s : Client) (read : ReadResult) (answer : ChallengeAnswer)
    (sends : Bool) : Client × List Event :=
  match read with
  | .timeout => s.authorize sends
  | .closed => s.failConnect
  | .line parsed =>
      match parsed.get (bytes "method") with
      | .string method =>
          if method = bytes "pearl.challenge" then
            let (ok, s) := solveAndRespondChallenge
              { s with pearlV1 := true, useObjectSubmit := false, requestId := 1 } 1 answer
            if ok && sends then
              -- configure is 2, subscribe 3, authorize 4
              ({ s with requestId := 4, phase := .finishing 0 }, [])
            else s.failConnect
          else s.authorize sends
      | _ => s.authorize sends

/-- A response that says no: an error, or the result `false`. -/
def isRefusal (parsed : JsonValue) : Bool :=
  !(parsed.get (bytes "error")).isNull ||
    (parsed.get (bytes "result")).toBool == some false

/-- The next round of a handshake loop, if there is one. -/
def nextRound (s : Client) (rounds : ℕ) (n : ℕ) (phase : ℕ → Phase) : Client × List Event :=
  if n + 1 < rounds then ({ s with phase := phase (n + 1) }, []) else s.failConnect

/-- One round of the loop in `authorize`. -/
def authorizeRound (s : Client) (attempt : ℕ) (read : ReadResult) (answer : ChallengeAnswer) :
    Option (Client × List Event) :=
  match read with
  | .timeout | .closed => some s.failConnect
  | .line parsed =>
      match parsed.get (bytes "method") with
      | .string method =>
          (s.handleNotification method (parsed.get (bytes "params")) answer).map fun s =>
            s.nextRound 30 attempt .authorizing
      | _ =>
          if (parsed.get (bytes "id")).toInt = some 2 then
            if isRefusal parsed then some s.failConnect else some (s.goUp, [])
          else some (s.nextRound 30 attempt .authorizing)

/-- One round of the loop in `pearl_v1_finish_handshake`. -/
def finishRound (s : Client) (round : ℕ) (read : ReadResult) (answer : ChallengeAnswer) :
    Option (Client × List Event) :=
  match read with
  | .timeout | .closed => some s.failConnect
  | .line parsed =>
      match parsed.get (bytes "method") with
      | .string method =>
          (s.handleNotification method (parsed.get (bytes "params")) answer).map fun s =>
            s.nextRound 200 round .finishing
      | _ =>
          match parseRequestId (parsed.get (bytes "id")) with
          | none => some (s.nextRound 200 round .finishing)
          | some id =>
              if id = 4 then
                if isRefusal parsed then some s.failConnect else some (s.goUp, [])
              else if id ∈ s.challengeRespIds then
                let s := { s with challengeRespIds := s.challengeRespIds.erase id }
                if (parsed.get (bytes "result")).toBool = some false then some s.failConnect
                else some (s.nextRound 200 round .finishing)
              else some (s.nextRound 200 round .finishing)

/-! ### Submitting -/

/-- The checks at the top of `submit_plain_proof`. -/
def submitPlainProof (s : Client) (jobId : Bytes) (nonce : Nonce) : Client × List Event :=
  if !s.connected then (s, [.returned none .notConnected])
  else if s.currentJobId ≠ [] ∧ jobId ≠ s.currentJobId then
    (s, [.drop .supersededJob none nonce, .returned none .supersededJob])
  else ({ s with ready := nonce :: s.ready }, [])

/-- `++request_id_` and the entry in `pending_submit_nonces_`. -/
def registerSubmit (s : Client) (nonce : Nonce) : Client × List Event :=
  let id := s.requestId + 1
  ({ s with
      requestId := id
      pending := insertKey s.pending id ⟨nonce, s.now⟩
      ready := s.ready.erase nonce
      sending := (id, nonce) :: s.sending },
    [.registered id nonce])

/-- `send_line` and the return; a closed socket cannot be sent on. -/
def sendSubmit (s : Client) (call : ℤ × Nonce) (ok : Bool) : Option (Client × List Event) :=
  let s' := { s with sending := s.sending.erase call }
  if ok then if s.sock then some (s', [.returned (some call.1) .sent]) else none
  else some (s', [.drop .sendFailed (some call.1) call.2, .returned (some call.1) .sendFailed])

/-! ### The receive thread -/

/-- The loop test of `receive_loop`. -/
def recvNext (s : Client) : Client :=
  { s with recv := if s.running then .reading else .done }

/-- `receive_loop` after its read. -/
def receive (s : Client) (read : ReadResult) (answer : ChallengeAnswer) :
    Option (Client × List Event) :=
  match read with
  | .timeout =>
      let r := s.flushStalePendingSubmits
      some (r.1.recvNext, r.2)
  | .closed =>
      if s.running then
        let r := s.flushAllPendingSubmits
        some ({ r.1 with connected := false, recv := .done }, r.2)
      else some ({ s with recv := .done }, [])
  | .line parsed => (s.handleMessage parsed answer).map fun s => (s, [])

/-- The rest of `handle_message` on a share result: take the entry and call back. -/
def takeAck (s : Client) (id : ℤ) (accepted : Bool) : Client × List Event :=
  ({ s with pending := s.pending.filter fun p => p.1 ≠ id, recv := .flushing },
    [.shareCb id accepted])

/-! ### Steps -/

def step (s : Client) : Input → Option (Client × List Event)
  | .tick ms => some ({ s with now := s.now + ms }, [])
  | .connect ok =>
      if s.phase = .created then
        if ok then some ({ s with sock := true, phase := .awaitFirst }, [])
        else some ({ s with phase := .closed }, [])
      else none
  | .firstLine read answer sends =>
      if s.phase = .awaitFirst then some (s.tryChallengeHandshake read answer sends) else none
  | .handshakeLine read answer =>
      match s.phase with
      | .authorizing attempt => s.authorizeRound attempt read answer
      | .finishing round => s.finishRound round read answer
      | _ => none
  | .submit jobId nonce => some (s.submitPlainProof jobId nonce)
  | .register call => (s.ready[call]?).map s.registerSubmit
  | .send call ok => (s.sending[call]?).bind fun c => s.sendSubmit c ok
  | .recvLine read answer => if s.recv = .reading then s.receive read answer else none
  | .ack =>
      match s.recv with
      | .acking id accepted => some (s.takeAck id accepted)
      | _ => none
  | .flush =>
      if s.recv = .flushing then
        let r := s.flushStalePendingSubmits
        some (r.1.recvNext, r.2)
      else none
  -- a second `disconnect`, by the destructor, finds the client closed and only flushes
  | .disconnectFlush =>
      if s.phase = .up then
        let r := s.flushAllPendingSubmits
        some ({ r.1 with phase := .stopping }, r.2)
      else if s.phase = .closed then some s.flushAllPendingSubmits
      else none
  | .disconnectStop =>
      if s.phase = .stopping then
        some ({ s with running := false, connected := false, phase := .joining }, [])
      else none
  | .disconnectJoin =>
      if s.phase = .joining ∧ s.recv = .done then
        some ({ s with sock := false, phase := .closed }, [])
      else none

end Client

def machine : Machine Client Input Event := ⟨Client.step⟩

/-- A submit is opened when it is registered and closed by any of its four outcomes. -/
def ledger : Ledger Event ℤ where
  opens
    | .registered id _ => some id
    | _ => none
  closes
    | .shareCb id _ => some id
    | .drop .poolAckTimeout id _ => id
    | .drop .connectionLost id _ => id
    | _ => none

end PropMiner.Stratum
