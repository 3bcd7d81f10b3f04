import PropMiner.Orchestrator.ShareSender

/-!
# Every found share is counted once

A share that the sender is done with should have been counted as submitted once, or
as dropped once, and not both; and at every point the shares found should be the
shares queued, in processing, submitted and dropped.

Three exits of the sender break this. A failed send is dropped by the client and
then again by the sender; a share that takes the gRPC path (the pool mode is gRPC,
or there is no connected Stratum client) is not counted at all; and a batch taken
while stopping is thrown away. Runs without these steps keep the ledger of shares
balanced.

## Main definitions

* `Counted` — the promise, of a trace and the orchestrator it leads to
* `counting` — the steps that avoid the three exits

## Main results

* `counted_of_counting` — along every such run all shares are counted
* `counted_fails` — a failed send is counted twice
-/

set_option autoImplicit false

namespace PropMiner.ShareSender

open PropMiner.Semantics (Machine Ledger)
open PropMiner.Share (ShareDropKind)
open PropMiner.Stratum (SubmitResult)

/-- The shares the sender holds. -/
def SenderPc.shares : SenderPc → List ShareFound
  | .idle | .ended => []
  | .loop todo => todo
  | .busy _ x todo _ => x :: todo
  | .crashed x todo => x :: todo

namespace Orchestrator

/-- Shares found and not yet queued, or taken from the queue and not yet finished. -/
def inProcessing (s : Orchestrator) : List ShareFound := s.submitting ++ s.sender.shares

/-- The shares that have not been counted in either way. -/
def openIds (s : Orchestrator) : List ℕ :=
  (s.pendingShareFound ++ s.inProcessing).map ShareFound.id

end Orchestrator

/-- A share is opened when it is found and closed when it is counted. -/
def ledger : Ledger Event ℕ where
  opens
    | .found id => some id
    | _ => none
  closes
    | .submitted id => some id
    | .dropped _ id => some id
    | _ => none

/-- How often a share was counted as submitted, and how often as dropped. -/
def submissions (tr : List Event) (id : ℕ) : ℕ := tr.countP fun e => e = .submitted id

def drops (tr : List Event) (id : ℕ) : ℕ :=
  tr.countP fun e => match e with
    | .dropped _ id' => id' = id
    | _ => false

/-- The promise about counting. -/
structure Counted (tr : List Event) (s : Orchestrator) : Prop where
  once : ∀ id stratum client, .finished id stratum client ∈ tr →
    submissions tr id = 1 ∧ drops tr id = 0 ∨ submissions tr id = 0 ∧ drops tr id = 1
  total : s.sharesFound =
    s.pendingShareFound.length + s.inProcessing.length + s.sharesSubmitted + s.shareDrops

/-- The steps that the promise needs: no batch is taken while stopping, each share
that gets to the second test of the pool mode finds Stratum mode and a connected
client, and no send fails. -/
def isCounting (s : Orchestrator) : Input → Bool
  | .sender .swap => !s.stopFlag || s.pendingShareFound.isEmpty
  | .sender .modeAgain => s.useStratum
  | .sender .testClient => s.stratumClient.isSome
  | .sender .testConnected => s.stratumClient == some true
  | .sender (.submit result) => result ≠ .sendFailed
  | _ => true

def counting (s : Orchestrator) (a : Input) : Prop := isCounting s a = true

instance (s : Orchestrator) (a : Input) : Decidable (counting s a) :=
  inferInstanceAs (Decidable (isCounting s a = true))

/-! ### What a step can do -/

section Steps

variable {s s' : Orchestrator} {a : Input} {es tr : List Event}

/-- The lines a counting run never gets to. -/
def SenderPc.Off : SenderPc → Prop
  | .busy .lastError .. | .busy .grpc .. => True
  | _ => False

/-- What one counting step does to the shares. -/
inductive Effect (s s' : Orchestrator) : List Event → Prop
  | found (hids : s'.openIds.Perm (s.sharesFound :: s.openIds))
      (hfound : s'.sharesFound = s.sharesFound + 1)
      (hsubmitted : s'.sharesSubmitted = s.sharesSubmitted)
      (hdrops : s'.shareDrops = s.shareDrops) : Effect s s' [.found s.sharesFound]
  | keep {es : List Event} (hids : s'.openIds.Perm s.openIds)
      (hfound : s'.sharesFound = s.sharesFound)
      (hsubmitted : s'.sharesSubmitted = s.sharesSubmitted)
      (hdrops : s'.shareDrops = s.shareDrops)
      (hes : ∀ e ∈ es, ∃ id, e = .nullCall id) : Effect s s' es
  | close {id : ℕ} {e : Event} {stratum client : Bool}
      (hids : s.openIds.Perm (id :: s'.openIds))
      (hclose : e = .submitted id ∨ ∃ kind, e = .dropped kind id)
      (hfound : s'.sharesFound = s.sharesFound)
      (hcount : s'.sharesSubmitted + s'.shareDrops = s.sharesSubmitted + s.shareDrops + 1) :
      Effect s s' [e, .finished id stratum client]

variable {x : ShareFound} {todo : List ShareFound} {stratum : Bool}

theorem openIds_of_shares {sender : SenderPc} (hshares : sender.shares = s.sender.shares) :
    { s with sender }.openIds = s.openIds := by
  simp only [Orchestrator.openIds, Orchestrator.inProcessing, hshares]

/-- The sender lets go of the share it holds. -/
theorem openIds_perm_of_finish (hshares : s.sender.shares = x :: todo) :
    s.openIds.Perm (x.id :: { s with sender := .loop todo }.openIds) := by
  have hloop : (SenderPc.loop todo).shares = todo := rfl
  simp only [Orchestrator.openIds, Orchestrator.inProcessing, hshares, hloop]
  rw [← List.map_cons]
  refine List.Perm.map _ ?_
  rw [← List.append_assoc, ← List.append_assoc]
  exact List.perm_middle

theorem shares_of_loop (hsender : s.sender = .loop (x :: todo)) : s.sender.shares = x :: todo := by
  rw [hsender]
  rfl

theorem shares_of_busy {line : Line} (hsender : s.sender = .busy line x todo stratum) :
    s.sender.shares = x :: todo := by
  rw [hsender]
  rfl

/-- A step of the sender that has an effect and stays on the counted lines. -/
structure Keeps (s : Orchestrator) (r : Orchestrator × List Event) : Prop where
  effect : Effect s r.1 r.2
  on : ¬ r.1.sender.Off

theorem keeps_goto {line : Line} (hshares : s.sender.shares = x :: todo)
    (hline : line ≠ .lastError ∧ line ≠ .grpc) : Keeps s (s.goto line x todo stratum) where
  effect := .keep (.of_eq (openIds_of_shares hshares.symm)) rfl rfl rfl nofun
  on := by
    cases line <;> simp_all [Orchestrator.goto, SenderPc.Off]

theorem keeps_dropShare {kind : ShareDropKind} (hshares : s.sender.shares = x :: todo) :
    Keeps s (s.dropShare kind x todo stratum) where
  effect := .close (openIds_perm_of_finish hshares) (.inr ⟨kind, rfl⟩) rfl rfl
  on := nofun

theorem keeps_callClient {next : Bool → Orchestrator × List Event}
    (hshares : s.sender.shares = x :: todo)
    (hnext : ∀ connected, s.stratumClient = some connected → Keeps s (next connected)) :
    Keeps s (s.callClient x todo next) := by
  unfold Orchestrator.callClient
  split
  · refine ⟨.keep (.of_eq (openIds_of_shares hshares.symm)) rfl rfl rfl ?_, nofun⟩
    simp
  · exact hnext _ ‹_›

theorem keeps_handleResult {result : SubmitResult} (hshares : s.sender.shares = x :: todo)
    (hresult : result ≠ .sendFailed) : Keeps s (s.handleResult x todo stratum result) := by
  have hids := openIds_perm_of_finish hshares
  cases result with
  | sent => exact ⟨.close hids (.inl rfl) rfl (Nat.add_right_comm _ _ _), nofun⟩
  | supersededJob => exact ⟨.close hids (.inr ⟨_, rfl⟩) rfl rfl, nofun⟩
  | notConnected => exact ⟨.close hids (.inr ⟨_, rfl⟩) rfl rfl, nofun⟩
  | sendFailed => exact absurd rfl hresult

theorem keeps_senderStep {a : SenderInput} {r : Orchestrator × List Event}
    (hoff : ¬ s.sender.Off) (hcounting : counting s (.sender a))
    (hstep : s.senderStep a = some r) : Keeps s r := by
  revert hcounting
  refine senderStep_cases (P := fun a r => counting s (.sender a) → Keeps s r) hstep
    ?exit ?quit ?swap ?batchDone ?reject ?take ?mode ?jobId ?build ?modeAgain ?testClient
    ?testConnected ?jobIdAgain ?submit ?lastError ?grpc
  case exit =>
    intro hsender _ _
    exact ⟨.keep (.of_eq (openIds_of_shares (by rw [hsender]; rfl))) rfl rfl rfl nofun, nofun⟩
  case quit =>
    -- a batch taken while stopping is empty
    intro hsender hstop hcounting
    have hempty : s.pendingShareFound = [] := by
      simpa [counting, isCounting, hstop] using hcounting
    refine ⟨.keep (.of_eq ?_) rfl rfl rfl nofun, nofun⟩
    simp [Orchestrator.openIds, Orchestrator.inProcessing, hempty, hsender, SenderPc.shares]
  case swap =>
    intro hsender _
    refine ⟨.keep (List.Perm.map _ ?_) rfl rfl rfl nofun, nofun⟩
    simp only [Orchestrator.inProcessing, hsender, SenderPc.shares, List.append_nil,
      List.nil_append]
    exact List.perm_append_comm
  case batchDone =>
    intro hsender _
    exact ⟨.keep (.of_eq (openIds_of_shares (by rw [hsender]; rfl))) rfl rfl rfl nofun, nofun⟩
  case reject =>
    intro x todo verified clears kind hsender _
    exact keeps_dropShare (shares_of_loop hsender)
  case take =>
    intro x todo hsender _
    exact keeps_goto (shares_of_loop hsender) (by decide)
  case mode =>
    intro x todo old hsender _
    refine keeps_goto (shares_of_busy hsender) ?_
    split <;> decide
  case jobId =>
    intro x todo stratum empty hsender _
    have hshares := shares_of_busy hsender
    refine keeps_callClient hshares fun _ _ => ?_
    split_ifs
    · exact keeps_dropShare hshares
    · exact keeps_goto hshares (by decide)
  case build =>
    intro x todo stratum empty hsender _
    have hshares := shares_of_busy hsender
    split_ifs
    · exact keeps_dropShare hshares
    · exact keeps_goto hshares (by decide)
  case modeAgain =>
    intro x todo stratum hsender hcounting
    have hmode : s.useStratum = true := by simpa [counting, isCounting] using hcounting
    exact keeps_goto (shares_of_busy hsender) (by simp [hmode])
  case testClient =>
    intro x todo stratum hsender hcounting
    have hclient : s.stratumClient.isSome = true := by
      simpa [counting, isCounting] using hcounting
    exact keeps_goto (shares_of_busy hsender) (by simp [hclient])
  case testConnected =>
    intro x todo stratum hsender hcounting
    have hshares := shares_of_busy hsender
    refine keeps_callClient hshares fun connected hclient => ?_
    obtain rfl : connected = true := by simpa [counting, isCounting, hclient] using hcounting
    exact keeps_goto hshares (by decide)
  case jobIdAgain =>
    intro x todo stratum empty hsender _
    have hshares := shares_of_busy hsender
    refine keeps_callClient hshares fun _ _ => ?_
    split_ifs
    · exact keeps_dropShare hshares
    · exact keeps_goto hshares (by decide)
  case submit =>
    intro x todo stratum result hsender hcounting
    have hshares := shares_of_busy hsender
    exact keeps_callClient hshares fun _ _ =>
      keeps_handleResult hshares (by simpa [counting, isCounting] using hcounting)
  -- these two are reached only when a send has failed or the pool is gone
  case lastError =>
    intro x todo stratum hsender _
    rw [hsender] at hoff
    exact absurd trivial hoff
  case grpc =>
    intro x todo stratum hsender _
    rw [hsender] at hoff
    exact absurd trivial hoff

/-- The network thread has nothing to do with shares. -/
theorem netStep_shares {a : NetInput} (hstep : s.netStep a = some s') :
    s' = { s with stopFlag := s'.stopFlag, useStratum := s'.useStratum, endpoints := s'.endpoints,
                  stratumClient := s'.stratumClient, net := s'.net } := by
  unfold Orchestrator.netStep at hstep
  split at hstep
  all_goals try split_ifs at hstep
  all_goals cases hstep
  all_goals rfl

theorem keeps_push {i : ℕ} {r : Orchestrator × List Event} (hoff : ¬ s.sender.Off)
    (hstep : s.step (.push i) = some r) : Keeps s r := by
  simp only [Orchestrator.step, Option.map_eq_some_iff] at hstep
  obtain ⟨x, hx, rfl⟩ := hstep
  have hmem : x ∈ s.submitting := List.mem_of_getElem? hx
  refine ⟨.keep (List.Perm.map _ ?_) rfl rfl rfl nofun, hoff⟩
  -- the share moves from one list to the next
  simp only [Orchestrator.inProcessing, List.append_assoc]
  refine List.Perm.append_left _ ?_
  exact List.Perm.append_right _ (List.perm_cons_erase hmem).symm

theorem keeps_step {r : Orchestrator × List Event} (hoff : ¬ s.sender.Off)
    (hcounting : counting s a) (hstep : s.step a = some r) : Keeps s r := by
  cases a with
  | found nonce sigmaCtx =>
    obtain rfl := Option.some.inj hstep
    refine ⟨.found ?_ rfl rfl rfl, hoff⟩
    simp only [Orchestrator.openIds, Orchestrator.inProcessing, List.cons_append, List.map_append,
      List.map_cons]
    exact List.perm_middle
  | push i => exact keeps_push hoff hstep
  | stop =>
    obtain rfl := Option.some.inj hstep
    exact ⟨.keep (.refl _) rfl rfl rfl nofun, hoff⟩
  | sender a => exact keeps_senderStep hoff hcounting hstep
  | net a =>
    simp only [Orchestrator.step, Option.map_eq_some_iff] at hstep
    obtain ⟨s', hnet, rfl⟩ := hstep
    rw [netStep_shares hnet]
    exact ⟨.keep (.refl _) rfl rfl rfl nofun, hoff⟩

end Steps

/-! ### Runs -/

section Runs

variable {s s' : Orchestrator} {es tr : List Event} {id : ℕ}

/-- What a counting run keeps: the ledger of shares is balanced, shares are numbered in
the order they were found, and finished shares have been counted. -/
structure Inv (tr : List Event) (s : Orchestrator) : Prop where
  balanced : ledger.Balanced tr s.openIds
  numbered : ∀ id, ledger.Opened tr id → id < s.sharesFound
  total : s.sharesFound = s.openIds.length + s.sharesSubmitted + s.shareDrops
  finished : ∀ id stratum client, .finished id stratum client ∈ tr → ledger.closings tr id = 1
  on : ¬ s.sender.Off

theorem Inv.init {useStratum : Bool} {endpoints : ℕ} : Inv [] { useStratum, endpoints } where
  balanced := ledger.balanced_nil
  numbered := nofun
  total := rfl
  finished := nofun
  on := nofun

/-- A finished share stays closed once, since nothing closes it again. -/
theorem closings_finished_mono (h : ledger.Balanced (tr ++ es) s'.openIds)
    (hfinished : ledger.closings tr id = 1) : ledger.closings (tr ++ es) id = 1 := by
  have hle := h.closings_le id
  rw [Ledger.closings_append] at hle ⊢
  omega

theorem Inv.of_found (h : Inv tr s) (hon : ¬ s'.sender.Off)
    (hids : s'.openIds.Perm (s.sharesFound :: s.openIds))
    (hfound : s'.sharesFound = s.sharesFound + 1)
    (hsubmitted : s'.sharesSubmitted = s.sharesSubmitted)
    (hdrops : s'.shareDrops = s.shareDrops) : Inv (tr ++ [.found s.sharesFound]) s' := by
  have hnew : ¬ ledger.Opened tr s.sharesFound := fun hopened =>
    Nat.lt_irrefl _ (h.numbered _ hopened)
  have hbalanced := (h.balanced.openOne (e := .found s.sharesFound) rfl rfl hnew).perm hids.symm
  refine ⟨hbalanced, fun id hopened => ?_, ?_, fun id stratum client hmem => ?_, hon⟩
  · rw [hfound]
    rcases Ledger.opened_append.mp hopened with hold | hlast
    · exact Nat.lt_succ_of_lt (h.numbered id hold)
    · obtain rfl : s.sharesFound = id := Option.some.inj (Ledger.opened_singleton.mp hlast)
      exact Nat.lt_succ_self _
  · rw [hids.length_eq, List.length_cons, hfound, hsubmitted, hdrops, h.total]
    omega
  · have hold : .finished id stratum client ∈ tr := by simpa using hmem
    exact closings_finished_mono hbalanced (h.finished id stratum client hold)

theorem Inv.of_keep (h : Inv tr s) (hon : ¬ s'.sender.Off) (hids : s'.openIds.Perm s.openIds)
    (hfound : s'.sharesFound = s.sharesFound) (hsubmitted : s'.sharesSubmitted = s.sharesSubmitted)
    (hdrops : s'.shareDrops = s.shareDrops) (hes : ∀ e ∈ es, ∃ id, e = .nullCall id) :
    Inv (tr ++ es) s' := by
  have hsilent : ∀ e ∈ es, ledger.opens e = none ∧ ledger.closes e = none := by
    intro e he
    obtain ⟨id, rfl⟩ := hes e he
    exact ⟨rfl, rfl⟩
  have hbalanced := (h.balanced.silent hsilent).perm hids.symm
  refine ⟨hbalanced, fun id hopened => ?_, ?_, fun id stratum client hmem => ?_, hon⟩
  · rw [hfound]
    rcases Ledger.opened_append.mp hopened with hold | ⟨e, he, hopens⟩
    · exact h.numbered id hold
    · rw [(hsilent e he).1] at hopens
      cases hopens
  · rw [hids.length_eq, hfound, hsubmitted, hdrops, h.total]
  · rcases List.mem_append.mp hmem with hold | hlast
    · exact closings_finished_mono hbalanced (h.finished id stratum client hold)
    · obtain ⟨id', heq⟩ := hes _ hlast
      cases heq

theorem Inv.of_close {e : Event} {stratum client : Bool} (h : Inv tr s) (hon : ¬ s'.sender.Off)
    (hids : s.openIds.Perm (id :: s'.openIds))
    (hclose : e = .submitted id ∨ ∃ kind, e = .dropped kind id)
    (hfound : s'.sharesFound = s.sharesFound)
    (hcount : s'.sharesSubmitted + s'.shareDrops = s.sharesSubmitted + s.shareDrops + 1) :
    Inv (tr ++ [e, .finished id stratum client]) s' := by
  obtain ⟨hopens, hcloses⟩ : ledger.opens e = none ∧ ledger.closes e = some id := by
    rcases hclose with rfl | ⟨kind, rfl⟩
    all_goals exact ⟨rfl, rfl⟩
  have hnodup : (id :: s'.openIds).Nodup := hids.nodup h.balanced.nodup
  obtain ⟨hnotMem, hrest⟩ := List.nodup_cons.mp hnodup
  have hclosed : ledger.Balanced (tr ++ [e]) s'.openIds := by
    refine h.balanced.closeOne hopens hcloses (hids.mem_iff.mpr (by simp)) hrest fun k => ?_
    rw [hids.mem_iff, List.mem_cons]
    constructor
    · intro hk
      exact ⟨.inr hk, fun heq => hnotMem (heq ▸ hk)⟩
    · rintro ⟨rfl | hk, hne⟩
      · exact absurd rfl hne
      · exact hk
  have hbalanced : ledger.Balanced (tr ++ [e, .finished id stratum client]) s'.openIds := by
    have := hclosed.silentOne (e := .finished id stratum client) rfl rfl
    rwa [List.append_assoc] at this
  -- it was opened before and is not open any more, so it is closed exactly once
  have hone : ledger.closings (tr ++ [e, .finished id stratum client]) id = 1 := by
    have hmem : id ∈ s.openIds := hids.mem_iff.mpr (by simp)
    have hopened : ledger.Opened tr id := ((h.balanced.mem_iff id).mp hmem).1
    rcases hbalanced.open_or_closed (Ledger.opened_append.mpr (.inl hopened)) with
      ⟨hmem', -⟩ | ⟨-, hone⟩
    · exact absurd hmem' hnotMem
    · exact hone
  refine ⟨hbalanced, fun id' hopened => ?_, ?_, fun id' stratum' client' hmem => ?_, hon⟩
  · rw [hfound]
    rcases Ledger.opened_append.mp hopened with hold | ⟨e', he', hopens'⟩
    · exact h.numbered id' hold
    · simp only [List.mem_cons, List.not_mem_nil, or_false] at he'
      rcases he' with rfl | rfl
      · rw [hopens] at hopens'
        cases hopens'
      · cases hopens'
  · have hlen := hids.length_eq
    rw [List.length_cons] at hlen
    rw [hfound, h.total]
    omega
  · rcases List.mem_append.mp hmem with hold | hlast
    · exact closings_finished_mono hbalanced (h.finished id' stratum' client' hold)
    · have hid : id' = id := by
        rcases hclose with rfl | ⟨kind, rfl⟩
        all_goals
          simp only [List.mem_cons, reduceCtorEq, false_or, Event.finished.injEq, List.not_mem_nil,
            or_false] at hlast
          exact hlast.1
      rw [hid]
      exact hone

theorem Inv.step (h : Inv tr s) (hkeeps : Keeps s (s', es)) : Inv (tr ++ es) s' := by
  cases hkeeps.effect with
  | found hids hfound hsubmitted hdrops =>
    exact h.of_found hkeeps.on hids hfound hsubmitted hdrops
  | keep hids hfound hsubmitted hdrops hes =>
    exact h.of_keep hkeeps.on hids hfound hsubmitted hdrops hes
  | close hids hclose hfound hcount => exact h.of_close hkeeps.on hids hclose hfound hcount

/-- A closed share was counted in one of the two ways. -/
theorem closings_eq_submissions_add_drops (tr : List Event) (id : ℕ) :
    ledger.closings tr id = submissions tr id + drops tr id := by
  induction tr with
  | nil => rfl
  | cons e tr ih =>
    simp only [Ledger.closings, submissions, drops, List.countP_cons] at ih ⊢
    rw [ih]
    cases e <;> simp [ledger] <;> omega

theorem Inv.counted (h : Inv tr s) : Counted tr s where
  once id stratum client hmem := by
    have hone := h.finished id stratum client hmem
    rw [closings_eq_submissions_add_drops] at hone
    omega
  total := by
    rw [h.total, Orchestrator.openIds, List.length_map, List.length_append]

end Runs

/-- Along every run of counting steps, each share the sender is done with was counted
as submitted once or as dropped once, and the totals add up. -/
theorem counted_of_counting {useStratum : Bool} {endpoints : ℕ} {tr : List Event}
    {s : Orchestrator} (hrun : machine.Run counting { useStratum, endpoints } tr s) :
    Counted tr s := by
  refine Inv.counted (hrun.invariant Inv.init ?_)
  intro tr s a s' es hinv hcounting hstep
  exact hinv.step (keeps_step hinv.on hcounting hstep)

/-- One share that is found, queued, verified, built and sent on a live connection. -/
def sentRun : List Input :=
  [.net .top, .net .create, .net (.connect true), .found 7 true, .push 0, .sender .swap,
    .sender (.takeUp true true), .sender .mode, .sender (.jobId false), .sender (.build false),
    .sender .modeAgain, .sender .testClient, .sender .testConnected, .sender (.jobIdAgain false),
    .sender (.submit .sent)]

theorem counted_of_sent :
    ∃ s, machine.Run counting {} [.found 0, .submitted 0, .finished 0 true true] s ∧
      Counted [.found 0, .submitted 0, .finished 0 true true] s := by
  have hexec : machine.exec counting sentRun {} = some (_, _) := rfl
  have hrun := Machine.run_of_exec hexec
  exact ⟨_, hrun, counted_of_counting hrun⟩

/-- The same share when the send fails: the client counts the drop, and the sender
counts it again. -/
def failedSendRun : List Input :=
  sentRun.dropLast ++ [.sender (.submit .sendFailed), .sender .lastError]

theorem counted_fails :
    ∃ tr s, machine.Run Machine.anyStep {} tr s ∧
      .finished 0 true true ∈ tr ∧ drops tr 0 = 2 ∧ ¬ Counted tr s := by
  have hexec : machine.exec Machine.anyStep failedSendRun {} = some (_, _) := rfl
  refine ⟨_, _, Machine.run_of_exec hexec, by decide, rfl, fun hcounted => ?_⟩
  have htotal := hcounted.total
  revert htotal
  decide

end PropMiner.ShareSender
