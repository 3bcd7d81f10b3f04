import PropMiner.Orchestrator.ShareSender

/-!
# The Stratum client under the sender

The network thread makes a new `stratum_client_` for every endpoint and resets the
pointer when the session ends; the sender dereferences it while it works on a share.
The promise is that the pointer is never null then, and that a share which finds no
client is dropped and counted.

Nothing in the source orders the two threads. Before the first connection, and
between two of them, the pointer is null while `use_stratum_` is set, and the first
`job_id_for_sigma` is called without a test. The promise holds as long as a client
exists when the sender settles for Stratum and is not reset before that share is
done.

## Main definitions

* `ClientSafe` — the promise, of a trace
* `SenderPc.needsClient` — the sender relies on the client
* `owned` — the steps that respect this

## Main results

* `clientSafe_of_owned` — along every such run the promise holds
* `clientSafe_fails` — a share that is taken up after the session is a null call
-/

set_option autoImplicit false

namespace PropMiner.ShareSender

open PropMiner.Semantics (Machine)
open PropMiner.Share (ShareDropKind)
open PropMiner.Stratum (SubmitResult)

/-- The promise about the pointer. -/
structure ClientSafe (tr : List Event) : Prop where
  noNullCall : ∀ id, .nullCall id ∉ tr
  dropped : ∀ id, .finished id true false ∈ tr → ∃ kind, .dropped kind id ∈ tr

/-- The lines whose next statement goes through the pointer. -/
def Line.derefs : Line → Bool
  | .jobId | .testConnected | .jobIdAgain | .submit | .lastError => true
  | .mode | .build | .modeAgain | .testClient | .grpc => false

/-- The sender has settled for Stratum, or is about to use the pointer. -/
def SenderPc.needsClient : SenderPc → Bool
  | .busy .mode .. => false
  | .busy line _ _ stratum => stratum || line.derefs
  | _ => false

/-- The client exists when the sender settles for Stratum, and is not reset while the
sender needs it. -/
def isOwned (s : Orchestrator) : Input → Bool
  | .sender .mode => !s.useStratum || s.stratumClient.isSome
  | .net .reset => !s.sender.needsClient
  | _ => true

def owned (s : Orchestrator) (a : Input) : Prop := isOwned s a = true

instance (s : Orchestrator) (a : Input) : Decidable (owned s a) :=
  inferInstanceAs (Decidable (isOwned s a = true))

/-! ### What a step can do -/

section Steps

variable {s s' : Orchestrator} {a : Input} {es tr : List Event} {x : ShareFound}
  {todo : List ShareFound} {stratum : Bool} {line : Line}

/-- The client is there whenever the sender needs it. -/
def Orchestrator.Covered (s : Orchestrator) : Prop :=
  s.sender.needsClient = true → s.stratumClient.isSome = true

/-- A step that leaves the client in place and whose events keep the promise. -/
structure Safe (r : Orchestrator × List Event) : Prop where
  covered : r.1.Covered
  events : ClientSafe r.2

theorem clientSafe_nil : ClientSafe [] := ⟨nofun, nofun⟩

theorem safe_goto (hneeds : line ≠ .mode → (stratum || line.derefs) = true →
    s.stratumClient.isSome = true) : Safe (s.goto line x todo stratum) where
  covered := by
    intro h
    refine hneeds (fun hmode => ?_) ?_
    · rw [hmode] at h
      cases h
    · cases line
      case mode => cases h
      all_goals exact h
  events := clientSafe_nil

/-- With a client in place the sender can go on anywhere. -/
theorem safe_goto_of_client (hclient : s.stratumClient.isSome = true) :
    Safe (s.goto line x todo stratum) := safe_goto fun _ _ => hclient

theorem safe_dropShare {kind : ShareDropKind} : Safe (s.dropShare kind x todo stratum) where
  covered := nofun
  events := by
    refine ⟨fun id hmem => ?_, fun id hmem => ⟨kind, ?_⟩⟩
    · simp [Orchestrator.dropShare, Orchestrator.finish] at hmem
    · simp only [Orchestrator.dropShare, Orchestrator.finish, List.cons_append, List.nil_append,
        List.mem_cons, reduceCtorEq, Event.finished.injEq, List.not_mem_nil, or_false,
        false_or] at hmem ⊢
      rw [hmem.1]

theorem safe_callClient {next : Bool → Orchestrator × List Event}
    (hclient : s.stratumClient.isSome = true) (hnext : ∀ connected, Safe (next connected)) :
    Safe (s.callClient x todo next) := by
  obtain ⟨connected, hsome⟩ := Option.isSome_iff_exists.mp hclient
  simp only [Orchestrator.callClient, hsome]
  exact hnext connected

/-- Counting a share one way or the other. -/
def Counts (x : ShareFound) (e : Event) : Prop :=
  e = .submitted x.id ∨ ∃ kind, e = .dropped kind x.id

theorem clientSafe_of_counts (hes : ∀ e ∈ es, Counts x e) : ClientSafe es := by
  refine ⟨fun id hmem => ?_, fun id hmem => ?_⟩
  · rcases hes _ hmem with h | ⟨kind, h⟩ <;> cases h
  · rcases hes _ hmem with h | ⟨kind, h⟩ <;> cases h

theorem ClientSafe.append (h : ClientSafe tr) (h' : ClientSafe es) : ClientSafe (tr ++ es) := by
  refine ⟨fun id hmem => ?_, fun id hmem => ?_⟩
  · rcases List.mem_append.mp hmem with hold | hnew
    · exact h.noNullCall id hold
    · exact h'.noNullCall id hnew
  · rcases List.mem_append.mp hmem with hold | hnew
    · obtain ⟨kind, hkind⟩ := h.dropped id hold
      exact ⟨kind, List.mem_append_left _ hkind⟩
    · obtain ⟨kind, hkind⟩ := h'.dropped id hnew
      exact ⟨kind, List.mem_append_right _ hkind⟩

/-- The end of a share whose client is still there needs no drop. -/
theorem safe_finish (hes : ∀ e ∈ es, Counts x e)
    (hclient : stratum = true → s.stratumClient.isSome = true) :
    Safe (s.finish x todo stratum es) where
  covered := nofun
  events := by
    refine (clientSafe_of_counts hes).append ⟨fun id hmem => ?_, fun id hmem => ?_⟩
    · simp at hmem
    · simp only [List.mem_singleton, Event.finished.injEq] at hmem
      rw [hclient hmem.2.1.symm] at hmem
      cases hmem.2.2

theorem safe_handleResult {result : SubmitResult} (hclient : s.stratumClient.isSome = true) :
    Safe (s.handleResult x todo stratum result) := by
  cases result with
  | sent =>
    refine safe_finish (fun e he => .inl ?_) fun _ => hclient
    simpa [clientDrops] using he
  | supersededJob =>
    refine safe_finish (fun e he => .inr ⟨.supersededJob, ?_⟩) fun _ => hclient
    simpa [clientDrops] using he
  | notConnected => exact safe_dropShare
  | sendFailed =>
    refine ⟨fun _ => hclient, clientSafe_of_counts (x := x) fun e he => .inr ⟨.sendFailed, ?_⟩⟩
    simpa [Orchestrator.handleResult, clientDrops] using he

theorem client_of_busy (hcovered : s.Covered) (hsender : s.sender = .busy line x todo stratum)
    (hline : line ≠ .mode) (hneeds : (stratum || line.derefs) = true) :
    s.stratumClient.isSome = true := by
  apply hcovered
  rw [hsender]
  cases line
  case mode => exact absurd rfl hline
  all_goals exact hneeds

theorem safe_senderStep {a : SenderInput} {r : Orchestrator × List Event} (hcovered : s.Covered)
    (howned : owned s (.sender a)) (hstep : s.senderStep a = some r) : Safe r := by
  revert howned
  refine senderStep_cases (P := fun a r => owned s (.sender a) → Safe r) hstep
    ?exit ?quit ?swap ?batchDone ?reject ?take ?mode ?jobId ?build ?modeAgain ?testClient
    ?testConnected ?jobIdAgain ?submit ?lastError ?grpc
  case exit | quit => exact fun _ _ _ => ⟨nofun, clientSafe_nil⟩
  case swap | batchDone => exact fun _ _ => ⟨nofun, clientSafe_nil⟩
  case reject => exact fun _ _ _ _ _ _ _ => safe_dropShare
  case take => exact fun _ _ _ _ => safe_goto fun hmode => absurd rfl hmode
  case mode =>
    intro x todo old _ howned
    refine safe_goto fun _ hneeds => ?_
    -- without Stratum mode the next line is `build`, which needs no client
    cases hmode : s.useStratum with
    | false => simp [hmode, Line.derefs] at hneeds
    | true => simpa [owned, isOwned, hmode] using howned
  case jobId | jobIdAgain =>
    intro x todo stratum empty hsender _
    have hclient := client_of_busy hcovered hsender (by decide) (Bool.or_true _)
    refine safe_callClient hclient fun _ => ?_
    split_ifs
    · exact safe_dropShare
    · exact safe_goto_of_client hclient
  case build =>
    intro x todo stratum empty hsender _
    split_ifs
    · exact safe_dropShare
    · exact safe_goto fun _ hneeds => client_of_busy hcovered hsender (by decide) hneeds
  case modeAgain =>
    intro x todo stratum hsender _
    refine safe_goto fun _ hneeds => client_of_busy hcovered hsender (by decide) ?_
    split_ifs at hneeds <;> exact hneeds
  case testClient =>
    intro x todo stratum hsender _
    refine safe_goto fun _ hneeds => ?_
    split_ifs at hneeds with hclient
    · exact hclient
    · exact client_of_busy hcovered hsender (by decide) hneeds
  case testConnected =>
    intro x todo stratum hsender _
    have hclient := client_of_busy hcovered hsender (by decide) (Bool.or_true _)
    exact safe_callClient hclient fun _ => safe_goto_of_client hclient
  case submit =>
    intro x todo stratum result hsender _
    have hclient := client_of_busy hcovered hsender (by decide) (Bool.or_true _)
    exact safe_callClient hclient fun _ => safe_handleResult hclient
  case lastError =>
    intro x todo stratum hsender _
    have hclient := client_of_busy hcovered hsender (by decide) (Bool.or_true _)
    exact safe_callClient hclient fun _ => safe_dropShare
  case grpc =>
    intro x todo stratum hsender _
    refine safe_finish nofun fun hstratum => ?_
    exact client_of_busy hcovered hsender (by decide) (by rw [hstratum]; rfl)

/-- Only a reset takes the client away. -/
theorem covered_netStep {a : NetInput} (hcovered : s.Covered) (howned : owned s (.net a))
    (hstep : s.netStep a = some s') : s'.Covered := by
  intro hneeds
  unfold Orchestrator.netStep at hstep
  split at hstep
  case h_7 =>
    obtain rfl := Option.some.inj hstep
    have hfree : s.sender.needsClient = false := by simpa [owned, isOwned] using howned
    exact absurd hneeds (by simp [hfree])
  all_goals try split_ifs at hstep
  all_goals cases hstep
  all_goals first
    | rfl
    | exact hcovered hneeds
    | simpa using hcovered hneeds

theorem safe_step {r : Orchestrator × List Event} (hcovered : s.Covered) (howned : owned s a)
    (hstep : s.step a = some r) : Safe r := by
  cases a with
  | found nonce sigmaCtx =>
    obtain rfl := Option.some.inj hstep
    refine ⟨hcovered, ⟨fun id hmem => ?_, fun id hmem => ?_⟩⟩ <;> simp at hmem
  | push i =>
    simp only [Orchestrator.step, Option.map_eq_some_iff] at hstep
    obtain ⟨x, -, rfl⟩ := hstep
    exact ⟨hcovered, clientSafe_nil⟩
  | stop =>
    obtain rfl := Option.some.inj hstep
    exact ⟨hcovered, clientSafe_nil⟩
  | sender a => exact safe_senderStep hcovered howned hstep
  | net a =>
    simp only [Orchestrator.step, Option.map_eq_some_iff] at hstep
    obtain ⟨s', hnet, rfl⟩ := hstep
    exact ⟨covered_netStep hcovered howned hnet, clientSafe_nil⟩

end Steps

/-- Along every run in which the client outlives the shares that rely on it, no method
is called through the null pointer, and a share that is finished without a client was
dropped. -/
theorem clientSafe_of_owned {useStratum : Bool} {endpoints : ℕ} {tr : List Event}
    {s : Orchestrator} (hrun : machine.Run owned { useStratum, endpoints } tr s) :
    ClientSafe tr := by
  have hinv : s.Covered ∧ ClientSafe tr := by
    refine hrun.invariant (I := fun tr s => s.Covered ∧ ClientSafe tr) ⟨nofun, clientSafe_nil⟩ ?_
    intro tr s a s' es hinv howned hstep
    have hsafe : Safe (s', es) := safe_step hinv.1 howned hstep
    exact ⟨hsafe.covered, hinv.2.append hsafe.events⟩
  exact hinv.2

/-- A share that is sent, after which the connection is lost and the client reset; and
one that fails to verify while there is no client. -/
def outageRun : List Input :=
  [.net .top, .net .create, .net (.connect true), .found 7 true, .push 0, .sender .swap,
    .sender (.takeUp true true), .sender .mode, .sender (.jobId false), .sender (.build false),
    .sender .modeAgain, .sender .testClient, .sender .testConnected, .sender (.jobIdAgain false),
    .sender (.submit .sent), .sender .batchDone, .net .connectionLost, .net .sessionEnd,
    .net .reset, .found 8 true, .push 0, .sender .swap, .sender (.takeUp false true)]

theorem clientSafe_of_outage :
    ∃ tr s, machine.Run owned {} tr s ∧ .finished 1 true false ∈ tr ∧ ClientSafe tr := by
  have hexec : machine.exec owned outageRun {} = some (_, _) := rfl
  have hrun := Machine.run_of_exec hexec
  exact ⟨_, _, hrun, by decide, clientSafe_of_owned hrun⟩

/-- A share of a session that is taken up when its client has been reset. -/
def lateShareRun : List Input :=
  [.net .top, .net .create, .net (.connect true), .found 7 true, .push 0, .net .connectionLost,
    .net .sessionEnd, .net .reset, .sender .swap, .sender (.takeUp true true), .sender .mode,
    .sender (.jobId false)]

theorem clientSafe_fails :
    ∃ tr s, machine.Run Machine.anyStep {} tr s ∧ .nullCall 0 ∈ tr ∧ ¬ ClientSafe tr := by
  have hexec : machine.exec Machine.anyStep lateShareRun {} = some (_, _) := rfl
  refine ⟨_, _, Machine.run_of_exec hexec, by decide, fun hsafe => ?_⟩
  exact hsafe.noNullCall 0 (by decide)

end PropMiner.ShareSender
