import PropMiner.Stratum.Client

/-!
# Every submit has one outcome

A submit that was sent should be accepted, rejected, timed out or lost, exactly
once, or still be pending; a submit whose send failed should not stay pending; and
the share callback should only ever run for a submit that waits.

The client breaks all three. `handle_message` takes any response with an id above
2 for a share result, whether or not that id is pending, so a late, repeated or
handshake response is counted as a share; and a failed send leaves its entry
behind. In a run without these two steps the table of pending submits is balanced
with the trace, and the three properties are read off that.

## Main definitions

* `Accounted` — the three properties, of a trace and the client it leads to
* `orderly` — the steps that do not hit either defect

## Main results

* `accounted_of_orderly` — along every orderly run submits are accounted for
* `accounted_fails` — a response after the timeout gives a submit two outcomes
-/

set_option autoImplicit false

namespace PropMiner.Stratum

open PropMiner.Semantics (Machine Ledger)
open PropMiner.Share (ShareDropKind)

/-- The promise about submits. -/
structure Accounted (tr : List Event) (s : Client) : Prop where
  sent : ∀ id, .returned (some id) .sent ∈ tr →
    id ∈ s.pendingIds ∧ ledger.closings tr id = 0 ∨
      id ∉ s.pendingIds ∧ ledger.closings tr id = 1
  failed : ∀ id, .returned (some id) .sendFailed ∈ tr → id ∉ s.pendingIds
  acked : ∀ pre id accepted post, tr = pre ++ .shareCb id accepted :: post →
    ledger.Outstanding pre id

/-- The steps that the promise needs: a response taken for a share result has a
pending entry when it is taken, and a send fails only if its entry is gone. -/
def isOrderly (s : Client) : Input → Bool
  | .ack =>
      match s.recv with
      | .acking id _ => id ∈ s.pendingIds
      | _ => true
  | .send call false => (s.sending[call]?).all fun c => c.1 ∉ s.pendingIds
  | _ => true

/-- The guard of the runs in which neither defect is hit. -/
def orderly (s : Client) (a : Input) : Prop := isOrderly s a = true

instance (s : Client) (a : Input) : Decidable (orderly s a) :=
  inferInstanceAs (Decidable (isOrderly s a = true))

/-! ### What a step can do -/

/-- The network thread is still connecting. -/
def Phase.IsHandshake : Phase → Prop
  | .created | .awaitFirst | .authorizing _ | .finishing _ => True
  | _ => False

/-- Nothing has been submitted, and nothing can be while connecting. -/
structure Idle (s : Client) : Prop where
  pending : s.pending = []
  ready : s.ready = []
  sending : s.sending = []
  connected : s.phase.IsHandshake → s.connected = false
  recv : s.phase.IsHandshake → s.recv = .absent

/-- A submit that never got an id. -/
def Event.IsRefusal : Event → Prop
  | .returned none _ => True
  | .drop .supersededJob none _ => True
  | _ => False

/-- What one orderly step does to the submits. -/
inductive Effect (s s' : Client) : List Event → Prop
  /-- still connecting, or just done with it -/
  | handshake (h : s.phase.IsHandshake) (hidle : Idle s') : Effect s s' []
  | quiet {es : List Event} (hpending : s'.pending = s.pending) (hsending : s'.sending = s.sending)
      (hid : s.requestId ≤ s'.requestId) (hes : ∀ e ∈ es, e.IsRefusal) : Effect s s' es
  | flush {kind : ShareDropKind} {drop : ℤ × PendingSubmit → Bool}
      (hkind : kind = .poolAckTimeout ∨ kind = .connectionLost)
      (hpending : s'.pending = s.pending.filter fun p => !drop p)
      (hsending : s'.sending = s.sending) (hid : s'.requestId = s.requestId) :
      Effect s s' ((s.pending.filter drop).map (Client.dropEvent kind))
  | register {nonce : Nonce} (hready : nonce ∈ s.ready) (hpending : s'.pending =
        Client.insertKey s.pending (s.requestId + 1) ⟨nonce, s.now⟩)
      (hsending : s'.sending = (s.requestId + 1, nonce) :: s.sending)
      (hid : s'.requestId = s.requestId + 1) :
      Effect s s' [.registered (s.requestId + 1) nonce]
  | ack {id : ℤ} {accepted : Bool} (hmem : id ∈ s.pendingIds)
      (hpending : s'.pending = s.pending.filter fun p => p.1 ≠ id)
      (hsending : s'.sending = s.sending) (hid : s'.requestId = s.requestId) :
      Effect s s' [.shareCb id accepted]
  | sent {call : ℤ × Nonce} (hcall : call ∈ s.sending) (hpending : s'.pending = s.pending)
      (hsending : s'.sending = s.sending.erase call) (hid : s'.requestId = s.requestId) :
      Effect s s' [.returned (some call.1) .sent]
  | failed {call : ℤ × Nonce} (hcall : call ∈ s.sending) (hgone : call.1 ∉ s.pendingIds)
      (hpending : s'.pending = s.pending) (hsending : s'.sending = s.sending.erase call)
      (hid : s'.requestId = s.requestId) :
      Effect s s' [.drop .sendFailed (some call.1) call.2, .returned (some call.1) .sendFailed]

section Steps

variable {s s' : Client} {a : Input} {es : List Event} {tr : List Event}

/-- Changes that neither submits nor the threads see. -/
structure Aside (s s' : Client) : Prop where
  pending : s'.pending = s.pending
  ready : s'.ready = s.ready
  sending : s'.sending = s.sending
  connected : s'.connected = s.connected
  phase : s'.phase = s.phase
  recv : s'.recv = s.recv
  requestId : s.requestId ≤ s'.requestId

theorem Aside.refl (s : Client) : Aside s s := ⟨rfl, rfl, rfl, rfl, rfl, rfl, Int.le_refl _⟩

theorem aside_parseNotifyObject {paramsJson : Bytes}
    (h : s.parseNotifyObject paramsJson = some s') :
    Aside s s' := by
  unfold Client.parseNotifyObject at h
  split at h
  · cases h
  · split at h
    · obtain rfl := Option.some.inj h
      exact ⟨rfl, rfl, rfl, rfl, rfl, rfl, Int.le_refl _⟩
    · obtain rfl := Option.some.inj h
      exact .refl s

theorem aside_parseNotifyArray {params : JsonValue} (h : s.parseNotifyArray params = some s') :
    Aside s s' := by
  unfold Client.parseNotifyArray at h
  split at h
  · obtain rfl := Option.some.inj h
    exact .refl s
  · rcases hjob : (params.at_ 0).toString with _ | jobId
    · simp only [hjob] at h
      cases h
    rcases hheader : (params.at_ 2).toString with _ | header
    · simp only [hjob, hheader] at h
      cases h
    simp only [hjob, hheader] at h
    obtain rfl := Option.some.inj h
    exact ⟨rfl, rfl, rfl, rfl, rfl, rfl, Int.le_refl _⟩

theorem aside_handleChallengeAsync (s : Client) (answer : ChallengeAnswer) :
    Aside s (s.handleChallengeAsync answer) := by
  cases answer <;> exact ⟨rfl, rfl, rfl, rfl, rfl, rfl, Int.le.intro 1 rfl⟩

/-- A notification leaves submits and threads alone. -/
theorem aside_handleNotification {method : Bytes} {params : JsonValue} {answer : ChallengeAnswer}
    (h : s.handleNotification method params answer = some s') : Aside s s' := by
  unfold Client.handleNotification at h
  split at h
  · split at h
    · exact aside_parseNotifyArray h
    · exact aside_parseNotifyObject h
  · split at h
    · obtain rfl := Option.some.inj h
      exact aside_handleChallengeAsync s answer
    · obtain rfl := Option.some.inj h
      exact .refl s

/-! ### Connecting -/

theorem Idle.of_aside (hidle : Idle s) (ha : Aside s s') : Idle s' where
  pending := ha.pending.trans hidle.pending
  ready := ha.ready.trans hidle.ready
  sending := ha.sending.trans hidle.sending
  connected h := ha.connected.trans (hidle.connected (ha.phase ▸ h))
  recv h := ha.recv.trans (hidle.recv (ha.phase ▸ h))

/-- What a step of the handshake returns: no events, and a client that is idle. -/
structure Quiet (r : Client × List Event) : Prop where
  events : r.2 = []
  idle : Idle r.1

theorem quiet_failConnect (hidle : Idle s) : Quiet s.failConnect where
  events := by simp [Client.failConnect, Client.flushAllPendingSubmits, hidle.pending]
  idle := ⟨rfl, hidle.ready, hidle.sending, nofun, nofun⟩

theorem quiet_goUp (hidle : Idle s) : Quiet (s.goUp, []) where
  events := rfl
  idle := ⟨hidle.pending, hidle.ready, hidle.sending, nofun, nofun⟩

/-- Nothing but the phase, the ids and the dialect changes while connecting. -/
theorem Idle.in_phase (hidle : Idle s) (hs : s.phase.IsHandshake) (phase : Phase) :
    Idle { s with phase } :=
  ⟨hidle.pending, hidle.ready, hidle.sending, fun _ => hidle.connected hs,
    fun _ => hidle.recv hs⟩

theorem quiet_nextRound {rounds n : ℕ} {phase : ℕ → Phase} (hidle : Idle s)
    (hs : s.phase.IsHandshake) : Quiet (s.nextRound rounds n phase) := by
  unfold Client.nextRound
  split
  · exact ⟨rfl, hidle.in_phase hs _⟩
  · exact quiet_failConnect hidle

theorem quiet_authorize {sends : Bool} (hidle : Idle s) (hs : s.phase.IsHandshake) :
    Quiet (s.authorize sends) := by
  have hidle' : Idle { s with requestId := 2 } :=
    ⟨hidle.pending, hidle.ready, hidle.sending, hidle.connected, hidle.recv⟩
  unfold Client.authorize
  split
  · exact ⟨rfl, hidle'.in_phase hs _⟩
  · exact quiet_failConnect hidle'

theorem quiet_tryChallengeHandshake {read : ReadResult} {answer : ChallengeAnswer} {sends : Bool}
    (hidle : Idle s) (hs : s.phase.IsHandshake) :
    Quiet (s.tryChallengeHandshake read answer sends) := by
  unfold Client.tryChallengeHandshake
  split
  · exact quiet_authorize hidle hs
  · exact quiet_failConnect hidle
  · split
    · split
      · -- whatever becomes of the challenge, only ids and flags change
        have hidle' (ids : List ℤ) (id : ℤ) : Idle { s with
            pearlV1 := true, useObjectSubmit := false, requestId := id,
            challengeRespIds := ids } :=
          ⟨hidle.pending, hidle.ready, hidle.sending, hidle.connected, hidle.recv⟩
        cases answer <;> cases sends
        all_goals first
          | exact quiet_failConnect (hidle' _ _)
          | exact ⟨rfl, (hidle' _ 4).in_phase hs _⟩
      · exact quiet_authorize hidle hs
    · exact quiet_authorize hidle hs

theorem quiet_authorizeRound {attempt : ℕ} {read : ReadResult} {answer : ChallengeAnswer}
    {r : Client × List Event} (hidle : Idle s) (hs : s.phase.IsHandshake)
    (hr : s.authorizeRound attempt read answer = some r) : Quiet r := by
  unfold Client.authorizeRound at hr
  split at hr
  · obtain rfl := Option.some.inj hr
    exact quiet_failConnect hidle
  · obtain rfl := Option.some.inj hr
    exact quiet_failConnect hidle
  · split at hr
    · obtain ⟨s₁, hs₁, rfl⟩ := Option.map_eq_some_iff.mp hr
      have ha := aside_handleNotification hs₁
      exact quiet_nextRound (hidle.of_aside ha) (ha.phase.symm ▸ hs)
    · split_ifs at hr
      all_goals obtain rfl := Option.some.inj hr
      · exact quiet_failConnect hidle
      · exact quiet_goUp hidle
      · exact quiet_nextRound hidle hs

theorem quiet_finishRound {round : ℕ} {read : ReadResult} {answer : ChallengeAnswer}
    {r : Client × List Event} (hidle : Idle s) (hs : s.phase.IsHandshake)
    (hr : s.finishRound round read answer = some r) : Quiet r := by
  have hidle' (ids : List ℤ) : Idle { s with challengeRespIds := ids } :=
    ⟨hidle.pending, hidle.ready, hidle.sending, hidle.connected, hidle.recv⟩
  unfold Client.finishRound at hr
  split at hr
  · obtain rfl := Option.some.inj hr
    exact quiet_failConnect hidle
  · obtain rfl := Option.some.inj hr
    exact quiet_failConnect hidle
  · split at hr
    · obtain ⟨s₁, hs₁, rfl⟩ := Option.map_eq_some_iff.mp hr
      have ha := aside_handleNotification hs₁
      exact quiet_nextRound (hidle.of_aside ha) (ha.phase.symm ▸ hs)
    · split at hr
      · obtain rfl := Option.some.inj hr
        exact quiet_nextRound hidle hs
      · split_ifs at hr
        all_goals obtain rfl := Option.some.inj hr
        · exact quiet_failConnect hidle
        · exact quiet_goUp hidle
        · exact quiet_failConnect (hidle' _)
        · exact quiet_nextRound (hidle' _) hs
        · exact quiet_nextRound hidle hs

theorem Quiet.effect {r : Client × List Event} (hq : Quiet r) (hs : s.phase.IsHandshake)
    (hr : r = (s', es)) : Effect s s' es := by
  obtain ⟨hevents, hidle⟩ := hq
  subst hr
  obtain rfl : es = [] := hevents
  exact .handshake hs hidle

/-! ### Every step has an effect -/

theorem effect_flushStale (s : Client) (recv : RecvPhase) :
    Effect s { s.flushStalePendingSubmits.1 with recv } s.flushStalePendingSubmits.2 :=
  .flush (.inl rfl) rfl rfl rfl

/-- Flushing everything is flushing whatever is there. -/
theorem effect_flushAll (hpending : s'.pending = []) (hsending : s'.sending = s.sending)
    (hid : s'.requestId = s.requestId) : Effect s s' s.flushAllPendingSubmits.2 := by
  have heq : s.flushAllPendingSubmits.2 =
      (s.pending.filter fun _ => true).map (Client.dropEvent .connectionLost) := by
    simp [Client.flushAllPendingSubmits]
  rw [heq]
  exact .flush (.inr rfl) (by simp [hpending]) hsending hid

theorem effect_submit {jobId : Bytes} {nonce : Nonce}
    (h : s.submitPlainProof jobId nonce = (s', es)) : Effect s s' es := by
  unfold Client.submitPlainProof at h
  split_ifs at h
  all_goals
    obtain ⟨rfl, rfl⟩ := Prod.mk.inj h
    refine .quiet rfl rfl (Int.le_refl _) ?_
    simp [Event.IsRefusal]

theorem effect_send {call : ℤ × Nonce} {ok : Bool} (hcall : call ∈ s.sending)
    (hord : ok = false → call.1 ∉ s.pendingIds) (h : s.sendSubmit call ok = some (s', es)) :
    Effect s s' es := by
  cases ok with
  | false =>
    obtain ⟨rfl, rfl⟩ := Prod.mk.inj (Option.some.inj h)
    exact .failed hcall (hord rfl) rfl rfl rfl
  | true =>
    simp only [Client.sendSubmit, if_true] at h
    split at h
    · obtain ⟨rfl, rfl⟩ := Prod.mk.inj (Option.some.inj h)
      exact .sent hcall rfl rfl rfl
    · cases h

theorem effect_handleMessage {parsed : JsonValue} {answer : ChallengeAnswer}
    (h : s.handleMessage parsed answer = some s') : Effect s s' [] := by
  unfold Client.handleMessage at h
  split at h
  · obtain rfl := Option.some.inj h
    exact .quiet rfl rfl (Int.le_refl _) nofun
  · split at h
    · obtain ⟨s₁, hs₁, rfl⟩ := Option.map_eq_some_iff.mp h
      have ha := aside_handleNotification hs₁
      exact .quiet ha.pending ha.sending ha.requestId nofun
    · obtain rfl := Option.some.inj h
      unfold Client.handleResponse
      split
      · exact .quiet rfl rfl (Int.le_refl _) nofun
      · split_ifs
        all_goals exact .quiet rfl rfl (Int.le_refl _) nofun

theorem effect_receive {read : ReadResult} {answer : ChallengeAnswer}
    (h : s.receive read answer = some (s', es)) : Effect s s' es := by
  unfold Client.receive at h
  split at h
  · obtain ⟨rfl, rfl⟩ := Prod.mk.inj (Option.some.inj h)
    exact effect_flushStale s _
  · split at h
    · obtain ⟨rfl, rfl⟩ := Prod.mk.inj (Option.some.inj h)
      exact effect_flushAll rfl rfl rfl
    · obtain ⟨rfl, rfl⟩ := Prod.mk.inj (Option.some.inj h)
      exact .quiet rfl rfl (Int.le_refl _) nofun
  · obtain ⟨s₁, hs₁, heq⟩ := Option.map_eq_some_iff.mp h
    obtain ⟨rfl, rfl⟩ := Prod.mk.inj heq
    exact effect_handleMessage hs₁

theorem effect_of_step (hidle : s.phase.IsHandshake → Idle s) (hord : orderly s a)
    (hstep : s.step a = some (s', es)) : Effect s s' es := by
  cases a with
  | tick ms =>
    cases hstep
    exact .quiet rfl rfl (Int.le_refl _) nofun
  | connect ok =>
    simp only [Client.step] at hstep
    split_ifs at hstep
    all_goals
      cases hstep
      exact .quiet rfl rfl (Int.le_refl _) nofun
  | firstLine read answer sends =>
    simp only [Client.step] at hstep
    split_ifs at hstep with hphase
    have hs : s.phase.IsHandshake := by rw [hphase]; trivial
    exact (quiet_tryChallengeHandshake (hidle hs) hs).effect hs (Option.some.inj hstep)
  | handshakeLine read answer =>
    simp only [Client.step] at hstep
    split at hstep
    · rename_i hphase
      have hs : s.phase.IsHandshake := by rw [hphase]; trivial
      exact (quiet_authorizeRound (hidle hs) hs hstep).effect hs rfl
    · rename_i hphase
      have hs : s.phase.IsHandshake := by rw [hphase]; trivial
      exact (quiet_finishRound (hidle hs) hs hstep).effect hs rfl
    · cases hstep
  | submit jobId nonce => exact effect_submit (Option.some.inj hstep)
  | register call =>
    obtain ⟨nonce, hnonce, heq⟩ := Option.map_eq_some_iff.mp hstep
    obtain ⟨rfl, rfl⟩ := Prod.mk.inj heq
    exact .register (List.mem_of_getElem? hnonce) rfl rfl rfl
  | send call ok =>
    obtain ⟨c, hc, hsend⟩ := Option.bind_eq_some_iff.mp hstep
    refine effect_send (List.mem_of_getElem? hc) ?_ hsend
    rintro rfl
    simpa [orderly, isOrderly, hc] using hord
  | recvLine read answer =>
    simp only [Client.step] at hstep
    split_ifs at hstep
    exact effect_receive hstep
  | ack =>
    simp only [Client.step] at hstep
    split at hstep
    · rename_i id accepted hrecv
      cases hstep
      exact .ack (by simpa [orderly, isOrderly, hrecv] using hord) rfl rfl rfl
    · cases hstep
  | flush =>
    simp only [Client.step] at hstep
    split_ifs at hstep
    cases hstep
    exact effect_flushStale s _
  | disconnectFlush =>
    simp only [Client.step] at hstep
    split_ifs at hstep
    all_goals
      cases hstep
      exact effect_flushAll rfl rfl rfl
  | disconnectStop =>
    simp only [Client.step] at hstep
    split_ifs at hstep
    cases hstep
    exact .quiet rfl rfl (Int.le_refl _) nofun
  | disconnectJoin =>
    simp only [Client.step] at hstep
    split_ifs at hstep
    cases hstep
    exact .quiet rfl rfl (Int.le_refl _) nofun

theorem phase_receive {read : ReadResult} {answer : ChallengeAnswer}
    (h : s.receive read answer = some (s', es)) : s'.phase = s.phase := by
  unfold Client.receive at h
  split at h
  · obtain ⟨rfl, rfl⟩ := Prod.mk.inj (Option.some.inj h)
    rfl
  · split_ifs at h
    all_goals
      obtain ⟨rfl, rfl⟩ := Prod.mk.inj (Option.some.inj h)
      rfl
  · obtain ⟨s₁, hs₁, heq⟩ := Option.map_eq_some_iff.mp h
    obtain ⟨rfl, rfl⟩ := Prod.mk.inj heq
    unfold Client.handleMessage at hs₁
    split at hs₁
    · obtain rfl := Option.some.inj hs₁
      rfl
    · split at hs₁
      · obtain ⟨s₂, hs₂, rfl⟩ := Option.map_eq_some_iff.mp hs₁
        exact (aside_handleNotification hs₂).phase
      · obtain rfl := Option.some.inj hs₁
        unfold Client.handleResponse
        split
        · rfl
        · split_ifs <;> rfl

/-- A client that is connecting after a step was connecting before it, and is idle. -/
theorem idle_of_step (hidle : s.phase.IsHandshake → Idle s) (hstep : s.step a = some (s', es))
    (hs' : s'.phase.IsHandshake) : s.phase.IsHandshake ∧ Idle s' := by
  cases a with
  | tick ms =>
    cases hstep
    obtain ⟨hpending, hready, hsending, hconnected, hrecv⟩ := hidle hs'
    exact ⟨hs', hpending, hready, hsending, hconnected, hrecv⟩
  | connect ok =>
    simp only [Client.step] at hstep
    split_ifs at hstep with hphase
    all_goals
      have hs : s.phase.IsHandshake := by rw [hphase]; trivial
      obtain ⟨hpending, hready, hsending, hconnected, hrecv⟩ := hidle hs
      cases hstep
      exact ⟨hs, hpending, hready, hsending, fun _ => hconnected hs, fun _ => hrecv hs⟩
  | firstLine read answer sends =>
    simp only [Client.step] at hstep
    split_ifs at hstep with hphase
    have hs : s.phase.IsHandshake := by rw [hphase]; trivial
    have hidle' := (@quiet_tryChallengeHandshake s read answer sends (hidle hs) hs).idle
    rw [Option.some.inj hstep] at hidle'
    exact ⟨hs, hidle'⟩
  | handshakeLine read answer =>
    simp only [Client.step] at hstep
    split at hstep
    · rename_i hphase
      have hs : s.phase.IsHandshake := by rw [hphase]; trivial
      exact ⟨hs, (quiet_authorizeRound (hidle hs) hs hstep).idle⟩
    · rename_i hphase
      have hs : s.phase.IsHandshake := by rw [hphase]; trivial
      exact ⟨hs, (quiet_finishRound (hidle hs) hs hstep).idle⟩
    · cases hstep
  | submit jobId nonce =>
    have hstep' : s.submitPlainProof jobId nonce = (s', es) := Option.some.inj hstep
    unfold Client.submitPlainProof at hstep'
    split_ifs at hstep' with hconnected
    · obtain ⟨rfl, rfl⟩ := Prod.mk.inj hstep'
      exact ⟨hs', hidle hs'⟩
    all_goals
      obtain ⟨rfl, rfl⟩ := Prod.mk.inj hstep'
      exact absurd ((hidle hs').connected hs') (by simpa using hconnected)
  | register call =>
    obtain ⟨nonce, hnonce, heq⟩ := Option.map_eq_some_iff.mp hstep
    obtain ⟨rfl, rfl⟩ := Prod.mk.inj heq
    -- a call is ready only after the handshake
    rw [(hidle hs').ready] at hnonce
    cases hnonce
  | send call ok =>
    obtain ⟨c, hc, hsend⟩ := Option.bind_eq_some_iff.mp hstep
    have hs : s.phase.IsHandshake := by
      unfold Client.sendSubmit at hsend
      split_ifs at hsend
      all_goals
        obtain ⟨rfl, rfl⟩ := Prod.mk.inj (Option.some.inj hsend)
        exact hs'
    rw [(hidle hs).sending] at hc
    cases hc
  | recvLine read answer =>
    simp only [Client.step] at hstep
    split_ifs at hstep with hrecv
    -- the receive thread is not started before the handshake is over
    have hs : s.phase.IsHandshake := phase_receive hstep ▸ hs'
    cases hrecv.symm.trans ((hidle hs).recv hs)
  | ack =>
    simp only [Client.step] at hstep
    split at hstep
    · rename_i id accepted hrecv
      cases hstep
      cases hrecv.symm.trans ((hidle hs').recv hs')
    · cases hstep
  | flush =>
    simp only [Client.step] at hstep
    split_ifs at hstep with hrecv
    cases hstep
    cases hrecv.symm.trans ((hidle hs').recv hs')
  | disconnectFlush =>
    simp only [Client.step] at hstep
    split_ifs at hstep with hup hclosed
    · cases hstep
      cases hs'
    · cases hstep
      have hs : s.phase.IsHandshake := hs'
      rw [hclosed] at hs
      cases hs
  | disconnectStop =>
    simp only [Client.step] at hstep
    split_ifs at hstep
    cases hstep
    cases hs'
  | disconnectJoin =>
    simp only [Client.step] at hstep
    split_ifs at hstep
    cases hstep
    cases hs'

/-! ### The invariant -/

/-- The table of pending submits is balanced with the trace, and ids only grow. -/
structure Inv (tr : List Event) (s : Client) : Prop where
  balanced : ledger.Balanced tr s.pendingIds
  opened_le : ∀ id, ledger.Opened tr id → id ≤ s.requestId
  early : s.phase.IsHandshake → Idle s ∧ ∀ id, ¬ ledger.Opened tr id
  sending : ∀ c ∈ s.sending, ledger.Opened tr c.1
  returned : ∀ id r, .returned (some id) r ∈ tr → ledger.Opened tr id
  failed : ∀ id, .returned (some id) .sendFailed ∈ tr → ledger.closings tr id ≠ 0

theorem inv_new (useObjectSubmit : Bool) : Inv [] { useObjectSubmit } where
  balanced := Ledger.balanced_nil ledger
  opened_le _ h := absurd h Ledger.not_opened_nil
  early _ := ⟨⟨rfl, rfl, rfl, fun _ => rfl, fun _ => rfl⟩, fun _ => Ledger.not_opened_nil⟩
  sending := nofun
  returned := nofun
  failed := nofun

/-- What a step has to show for its own events. -/
structure Extends (tr : List Event) (s s' : Client) (es : List Event) : Prop where
  balanced : ledger.Balanced (tr ++ es) s'.pendingIds
  old_le : ∀ id, ledger.Opened tr id → id ≤ s'.requestId
  opened_le : ∀ id, ledger.Opened es id → id ≤ s'.requestId
  sending : ∀ c ∈ s'.sending, c ∈ s.sending ∨ ledger.Opened es c.1
  returned : ∀ id r, .returned (some id) r ∈ es → ledger.Opened tr id
  failed : ∀ id, .returned (some id) .sendFailed ∈ es → ledger.closings tr id ≠ 0

theorem Inv.extend (h : Inv tr s) (he : Extends tr s s' es)
    (hearly : s'.phase.IsHandshake → Idle s' ∧ ∀ id, ¬ ledger.Opened (tr ++ es) id) :
    Inv (tr ++ es) s' where
  balanced := he.balanced
  opened_le id hid := by
    rcases Ledger.opened_append.mp hid with hold | hnew
    · exact he.old_le id hold
    · exact he.opened_le id hnew
  early := hearly
  sending c hc := by
    rcases he.sending c hc with hold | hnew
    · exact Ledger.opened_append.mpr (.inl (h.sending c hold))
    · exact Ledger.opened_append.mpr (.inr hnew)
  returned id r hr := by
    rcases List.mem_append.mp hr with hold | hnew
    · exact Ledger.opened_append.mpr (.inl (h.returned id r hold))
    · exact Ledger.opened_append.mpr (.inl (he.returned id r hnew))
  failed id hid := by
    rw [Ledger.closings_append]
    rcases List.mem_append.mp hid with hold | hnew
    · exact fun hzero => h.failed id hold (Nat.eq_zero_of_add_eq_zero_right hzero)
    · exact fun hzero => he.failed id hnew (Nat.eq_zero_of_add_eq_zero_right hzero)

theorem not_opened_of_forall {es : List Event} (h : ∀ e ∈ es, ledger.opens e = none) (id : ℤ) :
    ¬ ledger.Opened es id := by
  rintro ⟨e, he, hopen⟩
  cases (h e he).symm.trans hopen

theorem mem_pendingIds {id : ℤ} : id ∈ s.pendingIds ↔ ∃ p ∈ s.pending, p.1 = id :=
  List.mem_map

theorem closes_dropEvent {kind : ShareDropKind}
    (hkind : kind = .poolAckTimeout ∨ kind = .connectionLost) (p : ℤ × PendingSubmit) :
    ledger.closes (Client.dropEvent kind p) = some p.1 := by
  rcases hkind with rfl | rfl <;> rfl

/-- Filtering the table by a test on entries filters the ids, for ids are distinct. -/
theorem mem_filter_ids {m : List (ℤ × PendingSubmit)} (hnodup : (m.map Prod.fst).Nodup)
    (drop : ℤ × PendingSubmit → Bool) (id : ℤ) :
    id ∈ (m.filter fun p => !drop p).map Prod.fst ↔
      id ∈ m.map Prod.fst ∧ id ∉ (m.filter drop).map Prod.fst := by
  induction m with
  | nil => simp
  | cons p m ih =>
    rw [List.map_cons, List.nodup_cons] at hnodup
    have ih := ih hnodup.2
    have hsub : ∀ q : (ℤ × PendingSubmit) → Bool, p.1 ∉ (m.filter q).map Prod.fst := fun q hq =>
      hnodup.1 (((List.filter_sublist).map _).subset hq)
    by_cases hid : id = p.1
    · subst hid
      cases hdrop : drop p <;> simp [hdrop, hsub]
    · cases hdrop : drop p <;> simp [hdrop, hid, ih]

/-- A step without new ids shows little: its balance, and what it returns. -/
theorem extends_of_no_opening (hinv : Inv tr s)
    (hbalanced : ledger.Balanced (tr ++ es) s'.pendingIds)
    (hid : s.requestId ≤ s'.requestId) (hes : ∀ e ∈ es, ledger.opens e = none)
    (hsending : ∀ c ∈ s'.sending, c ∈ s.sending)
    (hreturned : ∀ id r, .returned (some id) r ∈ es → ledger.Opened tr id)
    (hfailed : ∀ id, .returned (some id) .sendFailed ∈ es → ledger.closings tr id ≠ 0) :
    Extends tr s s' es where
  balanced := hbalanced
  old_le id h := Int.le_trans (hinv.opened_le id h) hid
  opened_le id h := absurd h (not_opened_of_forall hes id)
  sending c hc := .inl (hsending c hc)
  returned := hreturned
  failed := hfailed

theorem extends_handshake (hinv : Inv tr s) (hs : s.phase.IsHandshake) (hidle : Idle s') :
    Extends tr s s' [] := by
  obtain ⟨hidle₀, hnone⟩ := hinv.early hs
  refine ⟨?_, fun id h => absurd h (hnone id), fun id h => absurd h Ledger.not_opened_nil, ?_,
    nofun, nofun⟩
  · have hbalanced := hinv.balanced
    rw [Client.pendingIds, hidle₀.pending] at hbalanced
    rw [List.append_nil, Client.pendingIds, hidle.pending]
    exact hbalanced
  · rw [hidle.sending]
    nofun

theorem extends_quiet (hinv : Inv tr s) (hpending : s'.pending = s.pending)
    (hsending : s'.sending = s.sending) (hid : s.requestId ≤ s'.requestId)
    (hes : ∀ e ∈ es, e.IsRefusal) : Extends tr s s' es := by
  have hsilent : ∀ e ∈ es, ledger.opens e = none ∧ ledger.closes e = none := by
    intro e he
    have href := hes e he
    unfold Event.IsRefusal at href
    split at href
    · exact ⟨rfl, rfl⟩
    · exact ⟨rfl, rfl⟩
    · exact href.elim
  have hreturned : ∀ id r, .returned (some id) r ∉ es := fun id r h => hes _ h
  refine extends_of_no_opening hinv ?_ hid (fun e he => (hsilent e he).1) ?_
    (fun id r h => absurd h (hreturned id r)) (fun id h => absurd h (hreturned id _))
  · rw [Client.pendingIds, hpending]
    exact hinv.balanced.silent hsilent
  · rw [hsending]
    exact fun c hc => hc

theorem extends_flush {kind : ShareDropKind} {drop : ℤ × PendingSubmit → Bool} (hinv : Inv tr s)
    (hkind : kind = .poolAckTimeout ∨ kind = .connectionLost)
    (hpending : s'.pending = s.pending.filter fun p => !drop p)
    (hsending : s'.sending = s.sending) (hid : s'.requestId = s.requestId) :
    Extends tr s s' ((s.pending.filter drop).map (Client.dropEvent kind)) := by
  have hnodup := hinv.balanced.nodup
  have hsub : ((s.pending.filter drop).map Prod.fst).Sublist s.pendingIds :=
    List.filter_sublist.map _
  refine extends_of_no_opening hinv ?_ (Int.le_of_eq hid.symm) ?_ (fun c hc => hsending ▸ hc) ?_ ?_
  · refine hinv.balanced.closeAll (fun p _ => rfl) (fun p _ => closes_dropEvent hkind p) ?_
      (hnodup.sublist hsub) ?_ ?_
    · intro p hp
      exact hsub.subset (List.mem_map_of_mem hp)
    · rw [Client.pendingIds, hpending]
      exact hnodup.sublist (List.filter_sublist.map _)
    · intro id
      rw [Client.pendingIds, hpending]
      exact mem_filter_ids hnodup drop id
  · intro e he
    obtain ⟨p, -, rfl⟩ := List.mem_map.mp he
    rfl
  · intro id r h
    obtain ⟨p, -, hp⟩ := List.mem_map.mp h
    cases hp
  · intro id h
    obtain ⟨p, -, hp⟩ := List.mem_map.mp h
    cases hp

theorem extends_register {nonce : Nonce} (hinv : Inv tr s)
    (hpending : s'.pending = Client.insertKey s.pending (s.requestId + 1) ⟨nonce, s.now⟩)
    (hsending : s'.sending = (s.requestId + 1, nonce) :: s.sending)
    (hid : s'.requestId = s.requestId + 1) :
    Extends tr s s' [.registered (s.requestId + 1) nonce] := by
  -- the next id was never used, since ids in use are at most the current one
  have hnew : ¬ ledger.Opened tr (s.requestId + 1) := fun h => by
    have hle := hinv.opened_le _ h
    omega
  have hids : s'.pendingIds = (s.requestId + 1) :: s.pendingIds := by
    rw [Client.pendingIds, hpending, Client.insertKey, List.map_cons]
    congr 1
    have hfilter : s.pending.filter (fun p => p.1 ≠ s.requestId + 1) = s.pending := by
      refine List.filter_eq_self.mpr fun p hp => ?_
      have hne : p.1 ≠ s.requestId + 1 := fun heq =>
        hnew ((hinv.balanced.mem_iff _).mp (heq ▸ List.mem_map_of_mem hp)).1
      simpa using hne
    rw [hfilter]
    rfl
  refine ⟨?_, fun id h => ?_, fun id h => ?_, fun c hc => ?_, ?_, ?_⟩
  · rw [hids]
    exact hinv.balanced.openOne rfl rfl hnew
  · have hle := hinv.opened_le id h
    omega
  · obtain rfl : s.requestId + 1 = id := Option.some.inj (Ledger.opened_singleton.mp h)
    exact Int.le_of_eq hid.symm
  · rw [hsending] at hc
    rcases List.mem_cons.mp hc with rfl | hold
    · exact .inr (Ledger.opened_singleton.mpr rfl)
    · exact .inl hold
  · intro id r h
    simp at h
  · intro id h
    simp at h

theorem extends_ack {id : ℤ} {accepted : Bool} (hinv : Inv tr s) (hmem : id ∈ s.pendingIds)
    (hpending : s'.pending = s.pending.filter fun p => p.1 ≠ id)
    (hsending : s'.sending = s.sending) (hid : s'.requestId = s.requestId) :
    Extends tr s s' [.shareCb id accepted] := by
  have hnodup := hinv.balanced.nodup
  refine extends_of_no_opening hinv ?_ (Int.le_of_eq hid.symm) (by simp [ledger])
    (fun c hc => hsending ▸ hc) (by simp) (by simp)
  refine hinv.balanced.closeOne rfl rfl hmem ?_ fun id' => ?_
  · rw [Client.pendingIds, hpending]
    exact hnodup.sublist (List.filter_sublist.map _)
  · rw [mem_pendingIds, mem_pendingIds, hpending]
    constructor
    · rintro ⟨p, hp, rfl⟩
      obtain ⟨hp, hne⟩ := List.mem_filter.mp hp
      exact ⟨⟨p, hp, rfl⟩, by simpa using hne⟩
    · rintro ⟨⟨p, hp, rfl⟩, hne⟩
      exact ⟨p, List.mem_filter.mpr ⟨hp, by simpa using hne⟩, rfl⟩

theorem extends_of_effect (hinv : Inv tr s) (heff : Effect s s' es) : Extends tr s s' es := by
  cases heff with
  | handshake hs hidle => exact extends_handshake hinv hs hidle
  | quiet hpending hsending hid hes => exact extends_quiet hinv hpending hsending hid hes
  | flush hkind hpending hsending hid => exact extends_flush hinv hkind hpending hsending hid
  | register _ hpending hsending hid => exact extends_register hinv hpending hsending hid
  | ack hmem hpending hsending hid => exact extends_ack hinv hmem hpending hsending hid
  | @sent call hcall hpending hsending hid =>
    refine extends_of_no_opening hinv ?_ (Int.le_of_eq hid.symm) (by simp [ledger])
      (fun c hc => List.mem_of_mem_erase (hsending ▸ hc)) ?_ (by simp)
    · rw [Client.pendingIds, hpending]
      exact hinv.balanced.silentOne rfl rfl
    · intro id r h
      obtain ⟨rfl, rfl⟩ : id = call.1 ∧ r = .sent := by simpa using h
      exact hinv.sending call hcall
  | @failed call hcall hgone hpending hsending hid =>
    have hopened := hinv.sending call hcall
    refine extends_of_no_opening hinv ?_ (Int.le_of_eq hid.symm) (by simp [ledger])
      (fun c hc => List.mem_of_mem_erase (hsending ▸ hc)) ?_ ?_
    · rw [Client.pendingIds, hpending]
      exact hinv.balanced.silent (by simp [ledger])
    · intro id r h
      obtain ⟨rfl, rfl⟩ : id = call.1 ∧ r = .sendFailed := by simpa using h
      exact hopened
    · intro id h
      obtain rfl : id = call.1 := by simpa using h
      -- its entry is gone, so an outcome has already been recorded
      rcases hinv.balanced.open_or_closed hopened with ⟨hmem, -⟩ | ⟨-, hone⟩
      · exact absurd hmem hgone
      · rw [hone]
        exact Nat.one_ne_zero

/-- A step that opens an account takes it from `ready`. -/
theorem not_opened_of_idle (hidle : Idle s) (heff : Effect s s' es) (id : ℤ) :
    ¬ ledger.Opened es id := by
  cases heff with
  | handshake => exact Ledger.not_opened_nil
  | quiet _ _ _ hes =>
    rintro ⟨e, he, hopen⟩
    have href := hes e he
    cases e with
    | registered => exact href
    | returned => cases hopen
    | shareCb => cases hopen
    | drop => cases hopen
  | flush =>
    rintro ⟨e, he, hopen⟩
    obtain ⟨p, -, rfl⟩ := List.mem_map.mp he
    cases hopen
  | register hready =>
    rw [hidle.ready] at hready
    cases hready
  | ack => exact not_opened_of_forall (by simp [ledger]) id
  | sent => exact not_opened_of_forall (by simp [ledger]) id
  | failed => exact not_opened_of_forall (by simp [ledger]) id

theorem inv_step (hinv : Inv tr s) (hord : orderly s a) (hstep : s.step a = some (s', es)) :
    Inv (tr ++ es) s' := by
  have hidle : s.phase.IsHandshake → Idle s := fun hs => (hinv.early hs).1
  refine hinv.extend (extends_of_effect hinv (effect_of_step hidle hord hstep)) fun hs' => ?_
  obtain ⟨hs, hidle'⟩ := idle_of_step hidle hstep hs'
  refine ⟨hidle', fun id hopened => ?_⟩
  rcases Ledger.opened_append.mp hopened with hold | hnew
  · exact (hinv.early hs).2 id hold
  · exact not_opened_of_idle (hidle hs) (effect_of_step hidle hord hstep) id hnew

end Steps

/-! ### Runs -/

theorem accounted_of_inv {tr : List Event} {s : Client} (hinv : Inv tr s) : Accounted tr s where
  sent id h := hinv.balanced.open_or_closed (hinv.returned id _ h)
  failed id h hmem := hinv.failed id h ((hinv.balanced.mem_iff id).mp hmem).2
  acked pre id _ post h := hinv.balanced.closed_outstanding pre _ post id h rfl

/-- Along every orderly run of a new client, each submit that returned `Sent` has
exactly one outcome or is pending, no submit that returned `SendFailed` is pending, and
the share callback only runs for outstanding submits. -/
theorem accounted_of_orderly (useObjectSubmit : Bool) (tr : List Event) (s : Client)
    (hrun : machine.Run orderly { useObjectSubmit } tr s) : Accounted tr s :=
  accounted_of_inv <| hrun.invariant (inv_new useObjectSubmit)
    fun _ _ _ _ _ hinv hord hstep => inv_step hinv hord hstep

/-- A response with this id and the result `true`. -/
def okResponse (id : ℚ) : JsonValue :=
  .object [(bytes "id", .number id), (bytes "result", .bool true)]

/-- Connect to a client-first pool, submit nonce 7 and send it: it gets id 3. -/
def submitted : List Input :=
  [.connect true, .firstLine .timeout .refused true,
    .handshakeLine (.line (okResponse 2)) .refused, .submit (bytes "job") ⟨7, by decide⟩,
    .register 0, .send 0 true]

/-- A submit that is sent and accepted. -/
theorem accounted_of_accepted :
    ∃ tr s, machine.Run orderly { useObjectSubmit := true } tr s ∧
      .shareCb 3 true ∈ tr ∧ Accounted tr s := by
  have hexec : machine.exec orderly
      (submitted ++ [.recvLine (.line (okResponse 3)) .refused, .ack]) { useObjectSubmit := true } =
        some _ := rfl
  exact ⟨_, _, Machine.run_of_exec hexec, by decide,
    accounted_of_orderly true _ _ (Machine.run_of_exec hexec)⟩

/-- The pool answers after 45 seconds: the submit has timed out, and then the share
callback reports it accepted. -/
theorem accounted_fails :
    ∃ tr s, machine.Run Machine.anyStep { useObjectSubmit := true } tr s ∧
      .returned (some 3) .sent ∈ tr ∧ ledger.closings tr 3 = 2 ∧ ¬ Accounted tr s := by
  have hexec : machine.exec Machine.anyStep
      (submitted ++ [.tick 45000, .recvLine .timeout .refused,
        .recvLine (.line (okResponse 3)) .refused, .ack]) { useObjectSubmit := true } =
        some _ := rfl
  refine ⟨_, _, Machine.run_of_exec hexec, by decide, by decide, fun haccounted => ?_⟩
  have hsent := haccounted.sent 3 (by decide)
  revert hsent
  decide

end PropMiner.Stratum
