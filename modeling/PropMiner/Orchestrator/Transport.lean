import PropMiner.Orchestrator.ShareBatch

/-!
# Proofs and the transports they are sent over

The machine of `ShareSender` with the shares themselves: the sender keeps the proof it
built in a local variable, and what verification and the builders answer is computed. The
pool mode is read once to choose a builder and again to choose a transport, and the
network thread may switch it in between. A Stratum proof whose connection is lost goes on
to the gRPC branch, but by then there is no gRPC client any more.

## Main definitions

* `Sender`, `Sender.step`, `transport` — the machine with proofs
* `Matched` — each proof is sent over the transport it was built for

## Main results

* `apart_step` — while a gRPC client exists, the pool mode is gRPC
* `matched_of_steady` — as long as no switch falls between the two reads, each proof goes
  over its own transport
* `matched_fails` — a switch between the two reads sends a gRPC proof to a Stratum pool
-/

set_option autoImplicit false

namespace PropMiner.ShareSender

open PropMiner.Semantics (Machine)
open PropMiner.Share (Library Exception)

/-- The orchestrator, and the local `proof` of the sender. -/
structure Sender where
  base : Orchestrator
  proof : List UInt8 := []
  deriving DecidableEq, Repr

/-- A step of the orchestrator, and whether `client_`, the gRPC client, exists and is
connected at that point. -/
abbrev TransportInput := Input × Bool

inductive TransportEvent
  | base (e : Event)
  /-- `submit_plain_proof` is called with this proof -/
  | submitPlainProof (id : ℕ) (proof : List UInt8)
  /-- `send_event` is called with a `Share` event -/
  | sendEvent (id : ℕ) (payload : List UInt8)
  deriving DecidableEq, Repr

section Model

variable (L : Library) (found : ℕ → Share.ShareFound)

/-- The builder of a pool mode, for the share with this number. A share without a context
does not get that far. -/
def built (stratum : Bool) (id : ℕ) : Except Exception (List UInt8) :=
  match (found id).sigmaCtx with
  | none => .ok []
  | some ctx =>
      if stratum then L.buildStratumPlainProof (found id).job.config (found id) ctx 1
      else L.build (found id).job.config (found id) ctx

/-- The answer of `VerifyShare` for the share with this number. -/
def verified (id : ℕ) : Except Exception Bool :=
  match (found id).sigmaCtx with
  | none => .ok false
  | some ctx => L.verifyShare (found id) ctx

/-- The answers in an input are those that the shares give. -/
def answers (s : Orchestrator) : Input → Bool
  | .found nonce sigmaCtx =>
      nonce = (found s.sharesFound).nonce && sigmaCtx = (found s.sharesFound).sigmaCtx.isSome
  | .sender (.takeUp ok _) =>
      match s.sender with
      | .loop (x :: _) => verified L found x.id = .ok ok
      | _ => true
  | .sender (.build empty) =>
      match s.sender with
      | .busy .build x _ stratum =>
          match built L found stratum x.id with
          | .ok bs => bs.isEmpty = empty
          | .error _ => false
      | _ => true
  | _ => true

/-- The gRPC client is made in `run_grpc_session`, and every way out of it resets the
client. -/
def fits (s : Orchestrator) (a : TransportInput) : Bool :=
  answers L found s a.1 && (!a.2 || s.net == .grpc)

namespace Sender

/-- The local `proof` after a step. -/
def proofAfter (s : Sender) : Input → List UInt8
  | .sender (.build _) =>
      match s.base.sender with
      | .busy .build x _ stratum =>
          match built L found stratum x.id with
          | .ok bs => bs
          | .error _ => s.proof
      | _ => s.proof
  | _ => s.proof

/-- What a step hands to a transport. -/
def handed (s : Sender) : TransportInput → List TransportEvent
  | (.sender (.submit _), _) =>
      match s.base.sender with
      | .busy .submit x _ _ =>
          if s.base.stratumClient.isSome then [.submitPlainProof x.id s.proof] else []
      | _ => []
  | (.sender .grpc, connected) =>
      match s.base.sender with
      | .busy .grpc x _ _ => if connected then [.sendEvent x.id s.proof] else []
      | _ => []
  | _ => []

def step (s : Sender) (a : TransportInput) : Option (Sender × List TransportEvent) :=
  if fits L found s.base a then
    (s.base.step a.1).map fun r =>
      (⟨r.1, s.proofAfter L found a.1⟩, s.handed a ++ r.2.map .base)
  else none

end Sender

def transport : Machine Sender TransportInput TransportEvent := ⟨Sender.step L found⟩

/-- Each proof that is handed over is the output of the transport's own builder. -/
structure Matched (tr : List TransportEvent) : Prop where
  stratum : ∀ id proof, .submitPlainProof id proof ∈ tr → built L found true id = .ok proof
  grpc : ∀ id payload, .sendEvent id payload ∈ tr → built L found false id = .ok payload

end Model

/-- The lines between the two reads of the pool mode. -/
def Line.choosing : Line → Bool
  | .jobId | .build | .modeAgain => true
  | _ => false

def isSteady (s : Sender) : TransportInput → Bool
  | (.net (.grpcSession false), _) =>
      match s.base.sender with
      | .busy line _ _ _ => !line.choosing
      | _ => true
  | _ => true

/-- The network thread does not switch the mode between the two reads of one share. -/
def steady (s : Sender) (a : TransportInput) : Prop := isSteady s a = true

instance (s : Sender) (a : TransportInput) : Decidable (steady s a) :=
  inferInstanceAs (Decidable (isSteady s a = true))

/-! ### What holds line by line -/

section Lines

variable {L : Library} {found : ℕ → Share.ShareFound} {s : Sender} {a : TransportInput}
  {x : ShareFound} {todo : List ShareFound} {stratum : Bool}

/-- What the sender may rely on at a line: the mode it read is still the mode, and the
proof it holds is that of the mode it read. -/
def Holds (L : Library) (found : ℕ → Share.ShareFound) (useStratum : Bool) (proof : List UInt8) :
    SenderPc → Prop
  | .busy .jobId _ _ stratum => stratum = useStratum
  | .busy .build _ _ stratum => stratum = useStratum
  | .busy .modeAgain x _ stratum => stratum = useStratum ∧ built L found stratum x.id = .ok proof
  | .busy .testClient x _ stratum | .busy .testConnected x _ stratum
  | .busy .jobIdAgain x _ stratum | .busy .submit x _ stratum =>
      stratum = true ∧ useStratum = true ∧ built L found stratum x.id = .ok proof
  | .busy .grpc x _ stratum =>
      (stratum = true → useStratum = true) ∧ built L found stratum x.id = .ok proof
  | _ => True

/-- What holds after a step that leaves the sender with this proof. -/
def HoldsAfter (L : Library) (found : ℕ → Share.ShareFound) (proof : List UInt8)
    (r : Orchestrator × List Event) : Prop :=
  Holds L found r.1.useStratum proof r.1.sender

theorem holdsAfter_callClient {b : Orchestrator} {proof : List UInt8}
    {next : Bool → Orchestrator × List Event}
    (hnext : ∀ connected, HoldsAfter L found proof (next connected)) :
    HoldsAfter L found proof (b.callClient x todo next) := by
  unfold Orchestrator.callClient
  split
  · trivial
  · exact hnext _

theorem holdsAfter_handleResult {b : Orchestrator} {proof : List UInt8}
    {result : Stratum.SubmitResult} :
    HoldsAfter L found proof (b.handleResult x todo stratum result) := by
  cases result <;> trivial

/-- A proof that is not rejected as empty is the output of its builder. -/
theorem built_of_answers {empty : Bool} (hsender : s.base.sender = .busy .build x todo stratum)
    (hfits : answers L found s.base (.sender (.build empty)) = true) :
    built L found stratum x.id = .ok (s.proofAfter L found (.sender (.build empty))) := by
  simp only [answers, hsender] at hfits
  simp only [Sender.proofAfter, hsender]
  split at hfits
  · rename_i bs hbuilt
    rw [hbuilt]
  · cases hfits

theorem holdsAfter_senderStep {i : SenderInput} {r : Orchestrator × List Event}
    (hholds : Holds L found s.base.useStratum s.proof s.base.sender)
    (hfits : answers L found s.base (.sender i) = true) (hstep : s.base.senderStep i = some r) :
    HoldsAfter L found (s.proofAfter L found (.sender i)) r := by
  revert hfits
  refine senderStep_cases (P := fun i r => answers L found s.base (.sender i) = true →
      HoldsAfter L found (s.proofAfter L found (.sender i)) r) hstep
    ?exit ?quit ?swap ?batchDone ?reject ?take ?mode ?jobId ?build ?modeAgain ?testClient
    ?testConnected ?jobIdAgain ?submit ?lastError ?grpc
  case exit => exact fun _ _ _ => trivial
  case quit => exact fun _ _ _ => trivial
  case swap => exact fun _ _ => trivial
  case batchDone => exact fun _ _ => trivial
  case reject => exact fun _ _ _ _ _ _ _ => trivial
  case take => exact fun _ _ _ _ => trivial
  case mode =>
    intro x todo old _ _
    unfold HoldsAfter Orchestrator.goto
    cases s.base.useStratum <;> rfl
  case jobId =>
    intro x todo stratum empty hsender _
    rw [hsender] at hholds
    refine holdsAfter_callClient fun _ => ?_
    split_ifs
    · trivial
    · exact hholds
  case build =>
    intro x todo stratum empty hsender hfits
    have hbuilt := built_of_answers hsender hfits
    rw [hsender] at hholds
    split_ifs
    · trivial
    · exact ⟨hholds, hbuilt⟩
  case modeAgain =>
    intro x todo stratum hsender _
    rw [hsender] at hholds
    obtain ⟨hmode, hbuilt⟩ := hholds
    unfold HoldsAfter Orchestrator.goto
    split_ifs with hstratum
    · exact ⟨hmode.trans hstratum, hstratum, hbuilt⟩
    · exact ⟨hmode.symm.trans, hbuilt⟩
  case testClient =>
    intro x todo stratum hsender _
    rw [hsender] at hholds
    unfold HoldsAfter Orchestrator.goto
    split_ifs
    · exact hholds
    · exact ⟨fun _ => hholds.2.1, hholds.2.2⟩
  case testConnected =>
    intro x todo stratum hsender _
    rw [hsender] at hholds
    refine holdsAfter_callClient fun connected => ?_
    unfold HoldsAfter Orchestrator.goto
    split_ifs
    · exact hholds
    · exact ⟨fun _ => hholds.2.1, hholds.2.2⟩
  case jobIdAgain =>
    intro x todo stratum empty hsender _
    rw [hsender] at hholds
    refine holdsAfter_callClient fun _ => ?_
    split_ifs
    · trivial
    · exact hholds
  case submit => exact fun _ _ _ _ _ _ => holdsAfter_callClient fun _ => holdsAfter_handleResult
  case lastError => exact fun _ _ _ _ _ => holdsAfter_callClient fun _ => trivial
  case grpc => exact fun _ _ _ _ _ => trivial

/-- Away from the lines between the two reads, a switch to Stratum takes nothing from the
sender. -/
theorem holds_of_not_choosing {useStratum useStratum' : Bool} {proof : List UInt8} {pc : SenderPc}
    (hpc : ∀ line x todo stratum, pc = .busy line x todo stratum → line.choosing = false)
    (hswitch : useStratum = true → useStratum' = true)
    (hholds : Holds L found useStratum proof pc) : Holds L found useStratum' proof pc := by
  match pc with
  | .idle | .ended | .loop _ | .crashed _ _ => trivial
  | .busy line x todo stratum =>
    have hline := hpc line x todo stratum rfl
    cases line with
    | mode => trivial
    | jobId => cases hline
    | build => cases hline
    | modeAgain => cases hline
    | testClient => exact ⟨hholds.1, hswitch hholds.2.1, hholds.2.2⟩
    | testConnected => exact ⟨hholds.1, hswitch hholds.2.1, hholds.2.2⟩
    | jobIdAgain => exact ⟨hholds.1, hswitch hholds.2.1, hholds.2.2⟩
    | submit => exact ⟨hholds.1, hswitch hholds.2.1, hholds.2.2⟩
    | lastError => trivial
    | grpc => exact ⟨hswitch ∘ hholds.1, hholds.2⟩

/-- A step of the network thread does not move the sender and never takes the mode back
from Stratum; only a failed gRPC session changes it, and a gRPC session is started only in
gRPC mode. -/
structure NetEffect (b : Orchestrator) (i : NetInput) (b' : Orchestrator) : Prop where
  sender : b'.sender = b.sender
  switch : b.useStratum = true → b'.useStratum = true
  mode : i ≠ .grpcSession false → b'.useStratum = b.useStratum
  session : b'.net = .grpc → b'.useStratum = false

theorem netEffect {b b' : Orchestrator} {i : NetInput} (hstep : b.netStep i = some b') :
    NetEffect b i b' := by
  unfold Orchestrator.netStep at hstep
  split at hstep
  case h_1 =>
    split_ifs at hstep with hstop hmode
    all_goals cases hstep
    · exact ⟨rfl, id, fun _ => rfl, nofun⟩
    · exact ⟨rfl, id, fun _ => rfl, nofun⟩
    · exact ⟨rfl, id, fun _ => rfl, fun _ => Bool.eq_false_iff.mpr hmode⟩
  case h_10 =>
    cases hstep
    refine ⟨rfl, fun hmode => ?_, fun h => absurd rfl h, nofun⟩
    simp [hmode]
  case h_5 =>
    rename_i hnet
    cases hstep
    refine ⟨rfl, id, fun _ => rfl, fun h => ?_⟩
    rw [hnet] at h
    cases h
  all_goals try split_ifs at hstep
  all_goals cases hstep
  all_goals exact ⟨rfl, id, fun _ => rfl, nofun⟩

theorem holds_netStep {b' : Orchestrator} {i : NetInput} {connected : Bool}
    (hholds : Holds L found s.base.useStratum s.proof s.base.sender)
    (hsteady : steady s (.net i, connected)) (hstep : s.base.netStep i = some b') :
    Holds L found b'.useStratum s.proof b'.sender := by
  have heffect := netEffect hstep
  rw [heffect.sender]
  by_cases hswitch : i = .grpcSession false
  · subst hswitch
    refine holds_of_not_choosing (fun line x todo stratum hpc => ?_) heffect.switch hholds
    simpa [steady, isSteady, hpc] using hsteady
  · rw [heffect.mode hswitch]
    exact hholds

/-! ### The gRPC client -/

/-- While a gRPC session runs, and with it while a gRPC client exists, the mode is gRPC. -/
def Apart (b : Orchestrator) : Prop :=
  b.net = .grpc → b.useStratum = false

theorem apart_callClient {b : Orchestrator} {next : Bool → Orchestrator × List Event}
    (hapart : Apart b) (hnext : ∀ connected, Apart (next connected).1) :
    Apart (b.callClient x todo next).1 := by
  unfold Orchestrator.callClient
  split
  · exact hapart
  · exact hnext _

theorem apart_senderStep {b : Orchestrator} {i : SenderInput} {r : Orchestrator × List Event}
    (hapart : Apart b) (hstep : b.senderStep i = some r) : Apart r.1 := by
  refine senderStep_cases (P := fun _ r => Apart r.1) hstep
    ?exit ?quit ?swap ?batchDone ?reject ?take ?mode ?jobId ?build ?modeAgain ?testClient
    ?testConnected ?jobIdAgain ?submit ?lastError ?grpc
  case exit => exact fun _ _ => hapart
  case quit => exact fun _ _ => hapart
  case swap => exact fun _ => hapart
  case batchDone => exact fun _ => hapart
  case reject => exact fun _ _ _ _ _ _ => hapart
  case take => exact fun _ _ _ => hapart
  case mode => exact fun _ _ _ _ => hapart
  case modeAgain => exact fun _ _ _ _ => hapart
  case testClient => exact fun _ _ _ _ => hapart
  case testConnected => exact fun _ _ _ _ => apart_callClient hapart fun _ => hapart
  case lastError => exact fun _ _ _ _ => apart_callClient hapart fun _ => hapart
  case grpc => exact fun _ _ _ _ => hapart
  case build =>
    intro x todo stratum empty _
    split_ifs <;> exact hapart
  case jobId | jobIdAgain =>
    intro x todo stratum empty _
    refine apart_callClient hapart fun _ => ?_
    split_ifs <;> exact hapart
  case submit =>
    intro x todo stratum result _
    refine apart_callClient hapart fun _ => ?_
    cases result <;> exact hapart

theorem apart_step {b : Orchestrator} {i : Input} {r : Orchestrator × List Event}
    (hapart : Apart b) (hstep : b.step i = some r) : Apart r.1 := by
  cases i with
  | found nonce sigmaCtx =>
    obtain rfl := Option.some.inj hstep
    exact hapart
  | push i =>
    simp only [Orchestrator.step, Option.map_eq_some_iff] at hstep
    obtain ⟨x, -, rfl⟩ := hstep
    exact hapart
  | stop =>
    obtain rfl := Option.some.inj hstep
    exact hapart
  | sender i => exact apart_senderStep hapart hstep
  | net i =>
    simp only [Orchestrator.step, Option.map_eq_some_iff] at hstep
    obtain ⟨b', hnet, rfl⟩ := hstep
    exact (netEffect hnet).session

/-! ### What a step hands over -/

/-- What a step hands over was built for the transport it is handed to. A Stratum proof at
the gRPC branch finds no client: the mode it was built in is still the mode. -/
theorem matched_handed (hholds : Holds L found s.base.useStratum s.proof s.base.sender)
    (hapart : Apart s.base) (hclient : a.2 = true → s.base.net = .grpc) :
    Matched L found (s.handed a) := by
  unfold Sender.handed
  split
  · split
    · rename_i hsender
      rw [hsender] at hholds
      obtain ⟨rfl, -, hbuilt⟩ := hholds
      split_ifs
      · exact ⟨by simpa using hbuilt, by simp⟩
      · exact ⟨nofun, nofun⟩
    · exact ⟨nofun, nofun⟩
  · split
    · rename_i connected _ x todo stratum hsender
      rw [hsender] at hholds
      obtain ⟨hmode, hbuilt⟩ := hholds
      cases connected with
      | false => exact ⟨nofun, nofun⟩
      | true =>
        have hgrpc := hapart (hclient rfl)
        obtain rfl : stratum = false := by
          rw [Bool.eq_false_iff]
          intro hstratum
          rw [hmode hstratum] at hgrpc
          cases hgrpc
        exact ⟨by simp, by simpa using hbuilt⟩
    · exact ⟨nofun, nofun⟩
  · exact ⟨nofun, nofun⟩

theorem Matched.append {tr tr' : List TransportEvent} (h : Matched L found tr)
    (h' : Matched L found tr') : Matched L found (tr ++ tr') where
  stratum id proof hmem := (List.mem_append.mp hmem).elim (h.stratum id proof) (h'.stratum id proof)
  grpc id payload hmem := (List.mem_append.mp hmem).elim (h.grpc id payload) (h'.grpc id payload)

theorem matched_base (es : List Event) : Matched L found (es.map .base) := by
  constructor
  · intro id proof hmem
    obtain ⟨e, -, he⟩ := List.mem_map.mp hmem
    cases he
  · intro id payload hmem
    obtain ⟨e, -, he⟩ := List.mem_map.mp hmem
    cases he

/-- The invariant of the runs without an untimely switch. -/
structure Settled (L : Library) (found : ℕ → Share.ShareFound) (tr : List TransportEvent)
    (s : Sender) : Prop where
  holds : Holds L found s.base.useStratum s.proof s.base.sender
  apart : Apart s.base
  matched : Matched L found tr

theorem holds_step {r : Orchestrator × List Event}
    (hholds : Holds L found s.base.useStratum s.proof s.base.sender) (hsteady : steady s a)
    (hanswers : answers L found s.base a.1 = true) (hstep : s.base.step a.1 = some r) :
    Holds L found r.1.useStratum (s.proofAfter L found a.1) r.1.sender := by
  obtain ⟨i, connected⟩ := a
  cases i with
  | found nonce sigmaCtx =>
    obtain rfl := Option.some.inj hstep
    exact hholds
  | push i =>
    simp only [Orchestrator.step, Option.map_eq_some_iff] at hstep
    obtain ⟨x, -, rfl⟩ := hstep
    exact hholds
  | stop =>
    obtain rfl := Option.some.inj hstep
    exact hholds
  | sender i => exact holdsAfter_senderStep hholds hanswers hstep
  | net i =>
    simp only [Orchestrator.step, Option.map_eq_some_iff] at hstep
    obtain ⟨b', hnet, rfl⟩ := hstep
    exact holds_netStep (s := s) hholds hsteady hnet

theorem settled_step {tr es : List TransportEvent} {s' : Sender} (hsettled : Settled L found tr s)
    (hsteady : steady s a) (hstep : s.step L found a = some (s', es)) :
    Settled L found (tr ++ es) s' := by
  unfold Sender.step at hstep
  split_ifs at hstep with hfits
  obtain ⟨r, hbase, heq⟩ := Option.map_eq_some_iff.mp hstep
  obtain ⟨rfl, rfl⟩ := Prod.mk.inj heq
  obtain ⟨hanswers, hclient⟩ := Bool.and_eq_true_iff.mp hfits
  have hclient : a.2 = true → s.base.net = .grpc := fun h => by simpa [h] using hclient
  have hhanded := matched_handed hsettled.holds hsettled.apart hclient
  exact ⟨holds_step hsettled.holds hsteady hanswers hbase, apart_step hsettled.apart hbase,
    hsettled.matched.append (hhanded.append (matched_base r.2))⟩

end Lines

/-- Along every run in which the mode is never switched between its two reads for one share,
each proof goes over the transport it was built for. -/
theorem matched_of_steady {L : Library} {found : ℕ → Share.ShareFound} {useStratum : Bool}
    {endpoints : ℕ} {tr : List TransportEvent} {s : Sender}
    (hrun : (transport L found).Run steady ⟨{ useStratum, endpoints }, []⟩ tr s) :
    Matched L found tr := by
  have hinit : Settled L found [] ⟨{ useStratum, endpoints }, []⟩ :=
    ⟨trivial, nofun, nofun, nofun⟩
  have hsettled : Settled L found tr s := by
    refine hrun.invariant hinit ?_
    intro tr s a s' es hsettled hsteady hstep
    exact settled_step hsettled hsteady hstep
  exact hsettled.matched

/-! ### Two runs of one share -/

section Samples

open PropMiner.Share (sampleLibrary sampleShare dim128)

/-- Every share is the same one. -/
def sampleFound (_ : ℕ) : Share.ShareFound := sampleShare dim128 0

/-- A share is found and built in gRPC mode. -/
def builtForGrpc : List TransportInput :=
  [.found 7 true, .push 0, .sender .swap, .sender (.takeUp true true), .sender .mode,
    .sender (.build false)].map (·, false)

/-- It is sent while the gRPC session it was built for lasts. -/
def sentOverGrpc : List TransportInput :=
  builtForGrpc ++ [(.net .top, false), (.sender .modeAgain, true), (.sender .grpc, true)]

/-- The gRPC session fails, and a Stratum session begins before the sender goes on. -/
def sentOverStratum : List TransportInput :=
  builtForGrpc ++ [.net .top, .net (.grpcSession false), .net .top, .net .create,
    .net (.connect true), .sender .modeAgain, .sender .testClient, .sender .testConnected,
    .sender (.jobIdAgain false), .sender (.submit .sent)].map (·, false)

theorem matched_sentOverGrpc :
    ∃ s tr, (transport sampleLibrary sampleFound).Run steady
        ⟨{ useStratum := false, endpoints := 1 }, []⟩ tr s ∧
      tr.any (fun e => e matches .sendEvent 0 _) = true ∧ Matched sampleLibrary sampleFound tr := by
  have hexec : ((transport sampleLibrary sampleFound).exec steady sentOverGrpc
      ⟨{ useStratum := false, endpoints := 1 }, []⟩).any
        (fun r => r.2.any (fun e => e matches .sendEvent 0 _)) = true := by
    decide +kernel
  obtain ⟨s, tr, hrun, hsent⟩ := Machine.exists_run_of_exec hexec
  exact ⟨s, tr, hrun, hsent, matched_of_steady hrun⟩

/-- A proof that another builder made is handed to `submit_plain_proof`. -/
def strays (L : Library) (found : ℕ → Share.ShareFound) : TransportEvent → Bool
  | .submitPlainProof id proof =>
      built L found false id = .ok proof && built L found true id ≠ .ok proof
  | _ => false

/-- The switch falls between the two reads: the Stratum pool gets the gRPC proof. -/
theorem matched_fails :
    ∃ s tr id proof, (transport sampleLibrary sampleFound).Run Machine.anyStep
        ⟨{ useStratum := false, endpoints := 1 }, []⟩ tr s ∧
      .submitPlainProof id proof ∈ tr ∧ built sampleLibrary sampleFound false id = .ok proof ∧
      ¬ Matched sampleLibrary sampleFound tr := by
  have hexec : ((transport sampleLibrary sampleFound).exec Machine.anyStep sentOverStratum
      ⟨{ useStratum := false, endpoints := 1 }, []⟩).any
        (fun r => r.2.any (strays sampleLibrary sampleFound)) = true := by
    decide +kernel
  obtain ⟨s, tr, hrun, hstrays⟩ := Machine.exists_run_of_exec hexec
  obtain ⟨e, hmem, he⟩ := List.any_eq_true.mp hstrays
  match e with
  | .base _ | .sendEvent _ _ => cases he
  | .submitPlainProof id proof =>
    simp only [strays, Bool.and_eq_true, decide_eq_true_eq] at he
    exact ⟨s, tr, id, proof, hrun, hmem, he.1, fun h => he.2 (h.stratum id proof hmem)⟩

end Samples

end PropMiner.ShareSender
