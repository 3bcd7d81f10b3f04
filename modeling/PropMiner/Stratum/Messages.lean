import PropMiner.Proto.Messages
import PropMiner.Share.Target
import PropMiner.Stratum.Rejects

/-!
# The message handler

`handle_message` on a line of the pool, with what it reads from the line and the callbacks it
makes: a job for the workers, a share target, the verdict on a share. `Client` keeps of a
message what concerns the client's threads; here the line is parsed, jobs are built, and the
callbacks run on the receive thread, where nothing catches what they throw.

A notification with an array of parameters is read by accessors that throw on a job id or
header that is not a string; one with an object is tested first. Neither is tested for the
length of the header, and a short one gives a job with an empty sigma.

## Main definitions

* `Receive.makeJob`, `Receive.handleMessage`
* `HandledWell` — the handler returns, and drops a bad notification
* `Handles` — the messages for which that is so

## Main results

* `handleMessage_simulated` — the client's machine does the same
* `handledWell_iff` — exactly the messages of `Handles` are handled well
-/

set_option autoImplicit false

namespace PropMiner.Stratum

open PropMiner.Proto (JobAssignment kSigmaHeaderBytes)

/-- What a call of `handle_message` takes from elsewhere: how a challenge ends, and what the
arithmetic of difficulties, which are doubles, gives. -/
structure Surroundings where
  answer : ChallengeAnswer
  /-- `share_target_nbits` -/
  shareNbits : UInt32
  /-- the target for the parameters of `mining.set_difficulty`, if they hold a positive number -/
  vardiffNbits : JsonValue → Option UInt32

inductive Callback
  | job (ja : JobAssignment) (jobId : Bytes)
  | vardiff (nbits : UInt32)
  | share (accepted : Bool) (msg : Bytes)

def Callback.isJob : Callback → Bool
  | .job _ _ => true
  | _ => false

namespace Receive

/-! ### Jobs -/

/-- `job_id_bytes`. -/
def jobIdBytes (jobId : Bytes) : Vector UInt8 16 :=
  if jobId.length = 32 then
    let raw := hexToBytes jobId
    Vector.ofFn fun i => if raw.length = 16 then raw.getD i 0 else 0
  else
    let h := jobId.foldl (fun h c => h * 131 + c.toUInt64) (0 : UInt64)
    Vector.ofFn fun i => (h >>> UInt64.ofNat (8 * (i % 8))).toUInt8

/-- The first 76 bytes of the header, or zeros if there are not as many. -/
def sigmaOf (headerHex : Bytes) : Vector UInt8 kSigmaHeaderBytes :=
  let raw := hexToBytes headerHex
  Vector.ofFn fun i => if kSigmaHeaderBytes ≤ raw.length then raw.getD i 0 else 0

/-- `network_nbits_from_sigma`: the last four bytes. -/
def networkNbitsFromSigma (sigma : Vector UInt8 kSigmaHeaderBytes) : UInt32 :=
  UInt32.ofNat (Semantics.LittleEndian.value (sigma.toList.drop 72))

/-- `make_job`. -/
def makeJob (env : Surroundings) (s : Client) (jobId headerHex targetHex : Bytes) (height : ℤ)
    (certVersion : ℤ) : Client × JobAssignment :=
  let sigma := sigmaOf headerHex
  let wire := if targetHex = [] then 0 else Share.hexTargetToNbits targetHex
  let network := networkNbitsFromSigma sigma
  (s.makeJob jobId headerHex certVersion,
    { jobId := jobIdBytes jobId
      sigma := sigma
      targetNbits := if wire ≠ 0 then wire else env.shareNbits
      networkTargetNbits := if network = 0 then env.shareNbits else network
      blockHeight := Int64.ofInt height
      protocolVersion := 2
      bSeed := Vector.replicate 32 0
      auditK := 0 })

/-- `parse_notify_object`. -/
def parseNotifyObject (env : Surroundings) (s : Client) (paramsJson : Bytes) :
    Option (Client × List Callback) :=
  match JsonValue.parse paramsJson with
  | .error _ => none
  | .ok (obj, _) =>
      match (obj.get (bytes "job_id")).toString, (obj.get (bytes "header")).toString with
      | some jobId, some header =>
          let s := { s with useObjectSubmit := if s.pearlV1 then s.useObjectSubmit else true }
          let height := (obj.get (bytes "height")).toInt.getD 0
          let certVersion := ((obj.get (bytes "cert_version")).toInt.map toInt32).getD 1
          let targetHex := (obj.get (bytes "target")).toString.getD []
          let r := makeJob env s jobId header targetHex height certVersion
          some (r.1, [.job r.2 jobId])
      | _, _ => some (s, [])

/-- `parse_notify_array`. -/
def parseNotifyArray (env : Surroundings) (s : Client) (params : JsonValue) :
    Option (Client × List Callback) :=
  if params.size < 4 then some (s, [])
  else
    let s := { s with useObjectSubmit := if s.pearlV1 then false else s.useObjectSubmit }
    match (params.at_ 0).toString, (params.at_ 2).toString with
    | some jobId, some header =>
        let height := (params.at_ 3).toInt.getD 0
        let r := makeJob env s jobId header [] height 1
        some (r.1, [.job r.2 jobId])
    | _, _ => none

/-! ### Messages -/

/-- The branch of `handle_message` for a message with a method. -/
def handleNotification (env : Surroundings) (s : Client) (method : Bytes) (params : JsonValue) :
    Option (Client × List Callback) :=
  if method = bytes "mining.notify" then
    if params.isArray then parseNotifyArray env s params
    else parseNotifyObject env s params.serialize
  else if method = bytes "mining.set_difficulty" then
    some (s, ((env.vardiffNbits params).map Callback.vardiff).toList)
  else if method = bytes "pearl.challenge" then some (s.handleChallengeAsync env.answer, [])
  -- `pearl.set_mining_params` and what is not known is only logged
  else some (s, [])

/-- The share callback for a response, with what the orchestrator does in it. -/
def reportShare (parsed : JsonValue) : Option (List Callback) :=
  let verdict := shareResultAccepted parsed
  if verdict.1 then some [.share true (bytes "Accepted")]
  else
    match parsePoolReject verdict.2.text with
    | .error _ => none
    | .ok rej =>
        match shareCallback (callbackMessage rej) with
        | .error _ => none
        | .ok _ => some [.share false (callbackMessage rej)]

/-- The branch of `handle_message` for a response. -/
def handleResponse (s : Client) (parsed : JsonValue) : Option (Client × List Callback) :=
  match parseRequestId (parsed.get (bytes "id")) with
  | none => some (s, [])
  | some id =>
      if id ∈ s.challengeRespIds then
        some ({ s with challengeRespIds := s.challengeRespIds.erase id }, [])
      else if 2 < id ∨ id ∈ s.pendingIds then
        (reportShare parsed).map fun cbs =>
          ({ s with pending := s.pending.filter fun p => p.1 ≠ id }, cbs)
      else some (s, [])

/-- `handle_message`. -/
def handleMessage (env : Surroundings) (s : Client) (line : Bytes) :
    Option (Client × List Callback) :=
  match JsonValue.parse line with
  | .error _ => none
  | .ok (parsed, _) =>
      if parsed.isNull then some (s, [])
      else
        match parsed.get (bytes "method") with
        | .string method => handleNotification env s method (parsed.get (bytes "params"))
        | _ => handleResponse s parsed

/-! ### The client's machine -/

variable {env : Surroundings} {s s' : Client} {cbs : List Callback}

theorem parseNotifyObject_simulated (paramsJson : Bytes) :
    (parseNotifyObject env s paramsJson).map Prod.fst = s.parseNotifyObject paramsJson := by
  unfold parseNotifyObject Client.parseNotifyObject
  cases JsonValue.parse paramsJson with
  | error e => rfl
  | ok r =>
    dsimp only
    cases (r.1.get (bytes "job_id")).toString with
    | none => rfl
    | some jobId => cases (r.1.get (bytes "header")).toString <;> rfl

theorem parseNotifyArray_simulated (params : JsonValue) :
    (parseNotifyArray env s params).map Prod.fst = s.parseNotifyArray params := by
  unfold parseNotifyArray Client.parseNotifyArray
  by_cases hsize : params.size < 4
  · rw [if_pos hsize, if_pos hsize]
    rfl
  · rw [if_neg hsize, if_neg hsize]
    cases (params.at_ 0).toString with
    | none => rfl
    | some jobId => cases (params.at_ 2).toString <;> rfl

theorem handleNotification_simulated (method : Bytes) (params : JsonValue) :
    (handleNotification env s method params).map Prod.fst =
      s.handleNotification method params env.answer := by
  unfold handleNotification Client.handleNotification
  by_cases hnotify : method = bytes "mining.notify"
  · rw [if_pos hnotify, if_pos hnotify]
    cases params with
    | array vs => exact parseNotifyArray_simulated _
    | _ => exact parseNotifyObject_simulated _
  · rw [if_neg hnotify, if_neg hnotify]
    by_cases hdifficulty : method = bytes "mining.set_difficulty"
    · have hchallenge : method ≠ bytes "pearl.challenge" := by
        rintro rfl
        exact absurd hdifficulty (by decide +kernel)
      rw [if_pos hdifficulty, if_neg hchallenge]
      rfl
    · rw [if_neg hdifficulty]
      split_ifs <;> rfl

/-- The verdict that a callback reports. -/
def verdict : Callback → Option Bool
  | .share accepted _ => some accepted
  | _ => none

/-- The verdict that an event of the machine shows. -/
def eventVerdict : Event → Option Bool
  | .shareCb _ accepted => some accepted
  | _ => none

theorem filterMap_verdict_parseNotifyObject {paramsJson : Bytes}
    (h : parseNotifyObject env s paramsJson = some (s', cbs)) : cbs.filterMap verdict = [] := by
  unfold parseNotifyObject at h
  split at h
  · cases h
  · split at h <;> cases h <;> rfl

theorem filterMap_verdict_parseNotifyArray {params : JsonValue}
    (h : parseNotifyArray env s params = some (s', cbs)) : cbs.filterMap verdict = [] := by
  unfold parseNotifyArray at h
  by_cases hsize : params.size < 4
  · rw [if_pos hsize] at h
    cases h
    rfl
  · rw [if_neg hsize] at h
    dsimp only at h
    split at h <;> cases h
    rfl

/-- A notification is no verdict. -/
theorem filterMap_verdict_handleNotification {method : Bytes} {params : JsonValue}
    (h : handleNotification env s method params = some (s', cbs)) :
    cbs.filterMap verdict = [] := by
  unfold handleNotification at h
  split_ifs at h
  · exact filterMap_verdict_parseNotifyArray h
  · exact filterMap_verdict_parseNotifyObject h
  · cases h
    cases env.vardiffNbits params <;> rfl
  · cases h
    rfl
  · cases h
    rfl

theorem filterMap_verdict_reportShare {parsed : JsonValue} (h : reportShare parsed = some cbs) :
    cbs.filterMap verdict = [(shareResultAccepted parsed).1] := by
  unfold reportShare at h
  dsimp only at h
  cases haccepted : (shareResultAccepted parsed).1 with
  | true =>
    rw [if_pos haccepted] at h
    cases h
    rfl
  | false =>
    rw [if_neg (by rw [haccepted]; exact Bool.false_ne_true)] at h
    split at h
    · cases h
    · split at h <;> cases h
      rfl

open PropMiner.Semantics (Machine)

/-- A verdict is decided in one step of the machine and reported in the next. -/
theorem handleResponse_simulated {parsed : JsonValue}
    (hrun : machine.Run Machine.anyStep s [] (s.handleResponse parsed))
    (h : handleResponse s parsed = some (s', cbs)) :
    ∃ es, machine.Run Machine.anyStep s es { s' with recv := .flushing } ∧
      es.filterMap eventVerdict = cbs.filterMap verdict := by
  unfold Client.handleResponse at hrun
  unfold handleResponse at h
  cases hid : parseRequestId (parsed.get (bytes "id")) with
  | none =>
    rw [hid] at h hrun
    cases h
    exact ⟨[], hrun, rfl⟩
  | some id =>
    rw [hid] at h hrun
    dsimp only at h hrun
    split_ifs at h hrun
    · cases h
      exact ⟨[], hrun, rfl⟩
    · obtain ⟨cbs', hreport, hs⟩ := Option.map_eq_some_iff.mp h
      cases hs
      have hack : machine.step
          { s with recv := .acking id (shareResultAccepted parsed).1 } .ack =
            some ({ s with pending := s.pending.filter fun p => p.1 ≠ id, recv := .flushing },
              [.shareCb id (shareResultAccepted parsed).1]) := rfl
      refine ⟨_, hrun.snoc trivial hack, ?_⟩
      rw [filterMap_verdict_reportShare hreport]
      rfl
    · cases h
      exact ⟨[], hrun, rfl⟩

/-- What the handler does, the client's machine does in one step or, on a verdict, in two. -/
theorem handleMessage_simulated {line : Bytes} {parsed : JsonValue} {n : ℕ}
    (hparse : JsonValue.parse line = .ok (parsed, n)) (hrecv : s.recv = .reading)
    (h : handleMessage env s line = some (s', cbs)) :
    ∃ es, machine.Run Machine.anyStep s es { s' with recv := .flushing } ∧
      es.filterMap eventVerdict = cbs.filterMap verdict := by
  have hone : ∀ {t : Client}, s.handleMessage parsed env.answer = some t →
      machine.Run Machine.anyStep s [] t := by
    intro t ht
    have hstep : machine.step s (.recvLine (.line parsed) env.answer) = some (t, []) := by
      change (if s.recv = .reading then s.receive (.line parsed) env.answer else none) = _
      rw [if_pos hrecv, Client.receive, ht]
      rfl
    exact Machine.Run.refl.snoc trivial hstep
  unfold Client.handleMessage at hone
  unfold handleMessage at h
  rw [hparse] at h
  dsimp only at h
  by_cases hnull : parsed.isNull = true
  · rw [if_pos hnull] at h hone
    cases h
    exact ⟨[], hone rfl, rfl⟩
  rw [if_neg hnull] at h hone
  cases hmethod : parsed.get (bytes "method") with
  | string method =>
    rw [hmethod] at h hone
    have hsim := @handleNotification_simulated env s method
      (parsed.get (bytes "params"))
    dsimp only at h hone
    rw [h] at hsim
    rw [← hsim] at hone
    exact ⟨[], hone rfl, (filterMap_verdict_handleNotification h).symm⟩
  | _ =>
    rw [hmethod] at h hone
    exact handleResponse_simulated (hone rfl) h

theorem handleMessage_simulated_accepted :
    ∃ s es, machine.Run Machine.anyStep { recv := .reading } es s ∧
      es.filterMap eventVerdict = [true] := by
  obtain ⟨n, hparse⟩ := parse_serialize_of_integral
    (v := .object [(bytes "id", .string (bytes "9")), (bytes "result", .bool true)])
    ⟨trivial, trivial, trivial⟩
  exact ⟨_, @handleMessage_simulated ⟨.refused, 0, fun _ => none⟩ { recv := .reading }
    { recv := .reading } [.share true (bytes "Accepted")] _ _ n hparse rfl
    (by rw [handleMessage, hparse]; rfl)⟩

end Receive

/-! ### Bad notifications -/

section Notify

open Receive

variable {env : Surroundings} {s s' : Client} {cbs : List Callback}

/-- The job id and the header of a notification, where they are strings. -/
def notifyJob (params : JsonValue) : Option (Bytes × Bytes) :=
  let jobId := if params.isArray then params.at_ 0 else params.get (bytes "job_id")
  let header := if params.isArray then params.at_ 2 else params.get (bytes "header")
  match jobId.toString, header.toString with
  | some jobId, some header => some (jobId, header)
  | _, _ => none

/-- The header is decoded to as many bytes as sigma has. -/
def LongHeader (header : Bytes) : Prop := kSigmaHeaderBytes ≤ (hexToBytes header).length

/-- There is no job in the notification, or its header is too short. -/
def NoJob (params : JsonValue) : Prop :=
  ∀ jobId header, notifyJob params = some (jobId, header) → ¬ LongHeader header

/-- The fields in which jobs are kept. -/
def jobs (s : Client) : List (Bytes × Bytes) × List (Bytes × ℕ) × List (Bytes × ℤ) × Bytes :=
  (s.sigmaHexToJobId, s.jobReceivedAt, s.jobCertVersion, s.currentJobId)

/-- Nothing has come of a notification. -/
def Dropped (s s' : Client) (cbs : List Callback) : Prop :=
  jobs s' = jobs s ∧ ∀ cb ∈ cbs, cb.isJob = false

/-- `parse_notify_array` returns at once. -/
def shortArray (params : JsonValue) : Bool := params.isArray && decide (params.size < 4)

/-- The notifications that `handle_message` handles well: an array that is too short to be looked
at, a job with a long header, and an object without a job. -/
def HandledNotify (params : JsonValue) : Prop :=
  shortArray params = true ∨
    (∃ jobId header, notifyJob params = some (jobId, header) ∧ LongHeader header) ∨
    (notifyJob params = none ∧ params.isArray = false)

/-- A job is made and published, with the sigma of this header. -/
def Makes (s : Client) (jobId header : Bytes) (r : Option (Client × List Callback)) : Prop :=
  ∃ ja useObjectSubmit certVersion, ja.sigma = sigmaOf header ∧
    r = some (({ s with useObjectSubmit } : Client).makeJob jobId header certVersion,
      [.job ja jobId])

theorem handleNotify_of_short {params : JsonValue} (h : shortArray params = true) :
    handleNotification env s (bytes "mining.notify") params = some (s, []) := by
  rw [shortArray, Bool.and_eq_true, decide_eq_true_iff] at h
  rw [handleNotification, if_pos rfl, if_pos h.1, parseNotifyArray, if_pos h.2]

theorem size_of_not_shortArray {params : JsonValue} (harray : params.isArray = true)
    (h : shortArray params = false) : ¬ params.size < 4 := by
  rw [shortArray, harray, Bool.true_and] at h
  exact of_decide_eq_false h

theorem makes_makeJob (env : Surroundings) (s : Client) (useObjectSubmit : Bool)
    (jobId header targetHex : Bytes) (height certVersion : ℤ) :
    Makes s jobId header
      (some ((makeJob env { s with useObjectSubmit } jobId header targetHex height certVersion).1,
        [.job (makeJob env { s with useObjectSubmit } jobId header targetHex height
          certVersion).2 jobId])) :=
  ⟨(makeJob env { s with useObjectSubmit } jobId header targetHex height certVersion).2,
    useObjectSubmit, certVersion, rfl, rfl⟩

/-- A notification with an array that is looked at. -/
theorem parseNotifyArray_eq {params : JsonValue} (harray : params.isArray = true)
    (hshort : shortArray params = false) :
    match notifyJob params with
    | some (jobId, header) => Makes s jobId header (parseNotifyArray env s params)
    | none => parseNotifyArray env s params = none := by
  unfold parseNotifyArray notifyJob
  rw [if_neg (size_of_not_shortArray harray hshort), if_pos harray, if_pos harray]
  dsimp only
  cases (params.at_ 0).toString with
  | none => rfl
  | some jobId =>
    cases (params.at_ 2).toString with
    | none => rfl
    | some header => exact makes_makeJob env s _ jobId header [] _ 1

/-- A notification with an object, or with neither. -/
theorem parseNotifyObject_eq {params : JsonValue} (hfinite : params.Finite)
    (harray : params.isArray = false) :
    match notifyJob params with
    | some (jobId, header) => Makes s jobId header (parseNotifyObject env s params.serialize)
    | none => parseNotifyObject env s params.serialize = some (s, []) := by
  obtain ⟨n, hparse⟩ := parse_serialize hfinite
  unfold parseNotifyObject notifyJob
  rw [hparse, harray, if_neg Bool.false_ne_true, if_neg Bool.false_ne_true]
  dsimp only
  rw [get_reread, get_reread _ (bytes "header"), toString_reread, toString_reread]
  cases (params.get (bytes "job_id")).toString with
  | none => rfl
  | some jobId =>
    cases (params.get (bytes "header")).toString with
    | none => rfl
    | some header => exact makes_makeJob env s _ jobId header _ _ _

/-- A job of either form is made. -/
theorem handleNotify_makes {params : JsonValue} {jobId header : Bytes} (hfinite : params.Finite)
    (hshort : shortArray params = false) (hjob : notifyJob params = some (jobId, header)) :
    Makes s jobId header (handleNotification env s (bytes "mining.notify") params) := by
  rw [handleNotification, if_pos rfl]
  cases harray : params.isArray with
  | true =>
    have heq := @parseNotifyArray_eq env s params harray hshort
    rw [hjob] at heq
    exact heq
  | false =>
    have heq := @parseNotifyObject_eq env s params hfinite harray
    rw [hjob] at heq
    exact heq

/-- A job that was made is no dropped one. -/
theorem not_dropped_job (s s' : Client) (ja : JobAssignment) (jobId : Bytes) :
    ¬ Dropped s s' [.job ja jobId] :=
  fun h => Bool.noConfusion (h.2 _ List.mem_cons_self)

theorem dropped_self (s : Client) : Dropped s s [] := ⟨rfl, nofun⟩

/-- A made job is right if and only if its header is long. -/
theorem Makes.iff {params : JsonValue} {jobId header : Bytes} {r : Option (Client × List Callback)}
    (h : Makes s jobId header r) (hjob : notifyJob params = some (jobId, header)) :
    (∃ s' cbs, r = some (s', cbs) ∧ (NoJob params → Dropped s s' cbs)) ↔ LongHeader header := by
  obtain ⟨ja, u, certVersion, -, rfl⟩ := h
  constructor
  · rintro ⟨s', cbs, hr, hdropped⟩
    obtain ⟨rfl, rfl⟩ := Prod.mk.inj (Option.some.inj hr)
    by_contra hshort
    refine not_dropped_job _ _ _ _ (hdropped fun jobId' header' hjob' => ?_)
    obtain ⟨-, rfl⟩ := Prod.mk.inj (Option.some.inj (hjob.symm.trans hjob'))
    exact hshort
  · exact fun hlong => ⟨_, _, rfl, fun hno => absurd hlong (hno jobId header hjob)⟩

theorem handledNotify_iff_of_job {params : JsonValue} {jobId header : Bytes}
    (hshort : shortArray params = false) (hjob : notifyJob params = some (jobId, header)) :
    HandledNotify params ↔ LongHeader header := by
  constructor
  · rintro (h | ⟨_, _, hjob', hlong⟩ | ⟨hnone, -⟩)
    · exact absurd (hshort.symm.trans h) Bool.false_ne_true
    · obtain ⟨-, rfl⟩ := Prod.mk.inj (Option.some.inj (hjob.symm.trans hjob'))
      exact hlong
    · exact absurd (hjob.symm.trans hnone) nofun
  · exact fun hlong => .inr (.inl ⟨jobId, header, hjob, hlong⟩)

theorem handleNotify_iff {params : JsonValue} (hfinite : params.Finite) :
    (∃ s' cbs, handleNotification env s (bytes "mining.notify") params = some (s', cbs) ∧
      (NoJob params → Dropped s s' cbs)) ↔ HandledNotify params := by
  cases hshort : shortArray params with
  | true =>
    rw [handleNotify_of_short hshort]
    exact ⟨fun _ => .inl hshort, fun _ => ⟨s, [], rfl, fun _ => dropped_self s⟩⟩
  | false =>
    cases hjob : notifyJob params with
    | some job => rw [(handleNotify_makes hfinite hshort hjob).iff hjob,
        handledNotify_iff_of_job hshort hjob]
    | none =>
      rw [handleNotification, if_pos rfl, HandledNotify, hshort, hjob]
      cases harray : params.isArray with
      | true =>
        have heq := @parseNotifyArray_eq env s params harray hshort
        rw [hjob] at heq
        rw [if_pos rfl, heq]
        constructor
        · rintro ⟨_, _, hsome, -⟩
          cases hsome
        · rintro (h | ⟨_, _, h, -⟩ | ⟨-, h⟩)
          · cases h
          · cases h
          · cases h
      | false =>
        have heq := @parseNotifyObject_eq env s params hfinite harray
        rw [hjob] at heq
        rw [if_neg Bool.false_ne_true, heq]
        constructor
        · intro _
          exact .inr (.inr ⟨rfl, rfl⟩)
        · intro _
          exact ⟨s, [], rfl, fun _ => dropped_self s⟩

/-! ### Verdicts -/

/-- `handle_message` takes the response for the result of a share. -/
def IsShareResult (s : Client) (parsed : JsonValue) : Prop :=
  ∃ id, parseRequestId (parsed.get (bytes "id")) = some id ∧ id ∉ s.challengeRespIds ∧
    (2 < id ∨ id ∈ s.pendingIds)

/-- The orchestrator can read what the callback is called with. -/
def Deliverable (t : RejectText) : Prop := t.raw = bytes "rejected" ∨ Readable t.raw

theorem exists_rejectedAs_iff {t : Bytes} :
    (∃ kind, RejectedAs t kind) ↔ t = bytes "rejected" ∨ Readable t := by
  rw [← exists_parsePoolReject_iff]
  constructor
  · rintro ⟨kind, h⟩
    obtain ⟨rej, hrej, -⟩ := parsePoolReject_iff.mpr h
    exact ⟨rej, hrej⟩
  · rintro ⟨rej, hrej⟩
    exact ⟨rej.kind, parsePoolReject_iff.mp ⟨rej, hrej, rfl⟩⟩

theorem reportShare_iff {parsed : JsonValue} (hfinite : parsed.Finite) :
    (∃ cbs, reportShare parsed = some cbs) ↔
      ((shareResultAccepted parsed).1 = false → Deliverable (shareResultAccepted parsed).2) := by
  have hrej := parsePoolReject_text (finite_shareResultAccepted hfinite)
  rw [reportShare, Deliverable, ← exists_rejectedAs_iff]
  simp only [← shareCallback_text_iff]
  cases (shareResultAccepted parsed).1 with
  | true => exact ⟨fun _ => nofun, fun _ => ⟨_, rfl⟩⟩
  | false =>
    rw [if_neg Bool.false_ne_true, hrej]
    dsimp only
    cases shareCallback (callbackMessage _) with
    | error e => exact ⟨nofun, fun h => absurd (h rfl) nofun⟩
    | ok kind => exact ⟨fun _ _ => ⟨kind, rfl⟩, fun _ => ⟨_, rfl⟩⟩

theorem handleResponse_iff {parsed : JsonValue} (hfinite : parsed.Finite) :
    (∃ s' cbs, handleResponse s parsed = some (s', cbs)) ↔
      (IsShareResult s parsed → (shareResultAccepted parsed).1 = false →
        Deliverable (shareResultAccepted parsed).2) := by
  rw [handleResponse, IsShareResult]
  cases parseRequestId (parsed.get (bytes "id")) with
  | none => exact ⟨fun _ => nofun, fun _ => ⟨_, _, rfl⟩⟩
  | some id =>
    dsimp only
    split_ifs with hchallenge hshare
    · exact ⟨fun _ ⟨_, heq, hno, _⟩ => absurd hchallenge (Option.some.inj heq ▸ hno),
        fun _ => ⟨_, _, rfl⟩⟩
    · have hshareResult : ∃ id', some id = some id' ∧ id' ∉ s.challengeRespIds ∧
          (2 < id' ∨ id' ∈ s.pendingIds) := ⟨id, rfl, hchallenge, hshare⟩
      rw [← reportShare_iff hfinite]
      constructor
      · rintro ⟨s', cbs, h⟩ -
        obtain ⟨cbs', hreport, -⟩ := Option.map_eq_some_iff.mp h
        exact ⟨cbs', hreport⟩
      · intro h
        obtain ⟨cbs, hreport⟩ := h hshareResult
        exact ⟨_, cbs, by rw [hreport]; rfl⟩
    · exact ⟨fun _ ⟨_, heq, _, h⟩ => absurd (Option.some.inj heq ▸ h) hshare,
        fun _ => ⟨_, _, rfl⟩⟩

/-! ### Every message -/

/-- A notification without a job, or with a header that is too short. -/
def BadNotify (parsed : JsonValue) : Prop :=
  parsed.get (bytes "method") = .string (bytes "mining.notify") ∧
    NoJob (parsed.get (bytes "params"))

/-- `handle_message` returns, and nothing comes of a bad notification. -/
def HandledWell (env : Surroundings) (s : Client) (line : Bytes) (parsed : JsonValue) : Prop :=
  ∃ s' cbs, handleMessage env s line = some (s', cbs) ∧ (BadNotify parsed → Dropped s s' cbs)

/-- The messages for which that is so. -/
def Handles (s : Client) (parsed : JsonValue) : Prop :=
  match parsed.get (bytes "method") with
  | .string method => method = bytes "mining.notify" → HandledNotify (parsed.get (bytes "params"))
  | _ => IsShareResult s parsed → (shareResultAccepted parsed).1 = false →
      Deliverable (shareResultAccepted parsed).2

/-- Other notifications are handled, whatever their parameters are. -/
theorem exists_handleNotification {method : Bytes} (hmethod : method ≠ bytes "mining.notify")
    (params : JsonValue) : ∃ s' cbs, handleNotification env s method params = some (s', cbs) := by
  rw [handleNotification, if_neg hmethod]
  split_ifs
  · exact ⟨_, _, rfl⟩
  · exact ⟨_, _, rfl⟩
  · exact ⟨_, _, rfl⟩

/-- Messages are handled well if and only if they are of this kind. -/
theorem handledWell_iff {line : Bytes} {parsed : JsonValue} {n : ℕ}
    (h : JsonValue.parse line = .ok (parsed, n)) (env : Surroundings) (s : Client) :
    HandledWell env s line parsed ↔ Handles s parsed := by
  have hfinite := finite_of_parse h
  unfold HandledWell handleMessage Handles BadNotify
  rw [h]
  dsimp only
  by_cases hnull : parsed.isNull = true
  · cases parsed with
    | null => exact ⟨fun _ => nofun, fun _ => ⟨s, [], rfl, fun _ => dropped_self s⟩⟩
    | _ => exact absurd hnull Bool.false_ne_true
  rw [if_neg hnull]
  cases hmethod : parsed.get (bytes "method") with
  | string method =>
    dsimp only
    by_cases hnotify : method = bytes "mining.notify"
    · subst hnotify
      rw [← @handleNotify_iff env s _ (hfinite.get _)]
      simp
    · obtain ⟨s', cbs, hs⟩ := @exists_handleNotification env s method hnotify
        (parsed.get (bytes "params"))
      exact ⟨fun _ heq => absurd heq hnotify,
        fun _ => ⟨s', cbs, hs, fun hbad => absurd (JsonValue.string.inj hbad.1) hnotify⟩⟩
  | _ =>
    dsimp only
    rw [← handleResponse_iff hfinite]
    exact ⟨fun ⟨s', cbs, hs, _⟩ => ⟨s', cbs, hs⟩, fun ⟨s', cbs, hs⟩ => ⟨s', cbs, hs, nofun⟩⟩

/-- A notification with these parameters. -/
def notification (params : JsonValue) : JsonValue :=
  .object [(bytes "method", .string (bytes "mining.notify")), (bytes "params", params)]

theorem handleMessage_notification {line : Bytes} {params : JsonValue} {n : ℕ}
    (h : JsonValue.parse line = .ok (notification params, n)) :
    handleMessage env s line = handleNotification env s (bytes "mining.notify") params := by
  rw [handleMessage, h]
  rfl

/-- An object with a header only is dropped. -/
theorem handledWell_withoutJobId :
    ∃ line n, JsonValue.parse line =
        .ok (notification (.object [(bytes "header", .string (bytes "00"))]), n) ∧
      HandledWell ⟨.refused, 0, fun _ => none⟩ {} line
        (notification (.object [(bytes "header", .string (bytes "00"))])) := by
  obtain ⟨n, hparse⟩ := parse_serialize_of_integral
    (v := notification (.object [(bytes "header", .string (bytes "00"))]))
    ⟨trivial, ⟨trivial, trivial⟩, trivial⟩
  exact ⟨_, n, hparse, (handledWell_iff hparse _ _).mpr fun _ => .inr (.inr ⟨rfl, rfl⟩)⟩

/-- A job with a header of one byte. -/
def oneByteJob : JsonValue :=
  .object [(bytes "job_id", .string (bytes "a")), (bytes "header", .string (bytes "00"))]

/-- An array of four nulls makes the handler throw, and a header of one byte gives a job. -/
theorem not_handledWell :
    (∃ line n, JsonValue.parse line =
        .ok (notification (.array [.null, .null, .null, .null]), n) ∧
      handleMessage ⟨.refused, 0, fun _ => none⟩ {} line = none) ∧
    ∃ line n, JsonValue.parse line = .ok (notification oneByteJob, n) ∧
      ¬ HandledWell ⟨.refused, 0, fun _ => none⟩ {} line (notification oneByteJob) := by
  constructor
  · obtain ⟨n, hparse⟩ := parse_serialize_of_integral
      (v := notification (.array [.null, .null, .null, .null]))
      ⟨trivial, ⟨trivial, trivial, trivial, trivial, trivial⟩, trivial⟩
    exact ⟨_, n, hparse, handleMessage_notification hparse⟩
  · obtain ⟨n, hparse⟩ := parse_serialize_of_integral (v := notification oneByteJob)
      ⟨trivial, ⟨trivial, trivial, trivial⟩, trivial⟩
    have hfinite : oneByteJob.Finite := ⟨trivial, trivial, trivial⟩
    have hjob : notifyJob oneByteJob = some (bytes "a", bytes "00") := rfl
    refine ⟨_, n, hparse, ?_⟩
    rintro ⟨s', cbs, h, hdropped⟩
    rw [handleMessage_notification hparse] at h
    have hhandled : HandledNotify oneByteJob :=
      (handleNotify_iff hfinite).mp ⟨s', cbs, h, fun hno => hdropped ⟨rfl, hno⟩⟩
    rw [handledNotify_iff_of_job rfl hjob, LongHeader] at hhandled
    exact absurd hhandled (by decide +kernel)

end Notify

end PropMiner.Stratum
