import PropMiner.Semantics.Machine
import PropMiner.Stratum.Challenge

/-!
# The connection challenge: the search

`PearlChallenge::solve` starts one worker per hardware thread. Worker `t` tries the nonces `t`,
`t + threads` and so on. The first worker that wins the exchange on `found` stores its nonce; the
others stop when they find a nonce of their own, or when they look at `found` or the cancel flag.
The caller joins all workers and then reads what was stored.

Steps interleave. A relaxed load of `found` may miss the exchange of another worker, so a worker
that looks may see `false` after it, but it sees `true` only after it. An exchange always meets
the current value. What a worker has stored is there when the caller has joined it.

## Main definitions

* `Request`, `Solver`, `Solver.step`, `solver` — a call of `solve` and its steps
* `verify` — the second look at a nonce

## Main results

* `Sound` — what every step keeps
* `challenge_correct` — a nonce passes iff its hash does, and what is returned is verified
-/

set_option autoImplicit false

namespace PropMiner.Stratum

open Semantics Semantics.Blake3 Share

/-- The arguments of `solve`, and the number of threads of the machine. -/
structure Request where
  seed : Bytes32
  difficulty : ℤ
  maxDifficulty : ℤ
  hardwareConcurrency : UInt32

/-- `threads` -/
def Request.threads (r : Request) : ℕ :=
  (max 1 (if r.hardwareConcurrency = 0 then 1 else r.hardwareConcurrency.toInt32.toInt)).toNat

/-- Where a worker is. -/
inductive Worker
  | notStarted
  /-- at the head of its loop -/
  | scanning (nonce : UInt64)
  /-- `try_nonce` held, before the exchange -/
  | claiming (nonce : UInt64)
  /-- won the exchange, before the store -/
  | storing (nonce : UInt64)
  | returned
  deriving DecidableEq, Repr

/-- Where the caller is. -/
inductive SolvePhase
  /-- before starting worker `t` -/
  | starting (t : ℕ)
  /-- before joining worker `t` -/
  | joining (t : ℕ)
  | returned (result : Option UInt64)
  deriving DecidableEq, Repr

structure Solver where
  phase : SolvePhase
  workers : ℕ → Worker := fun _ => .notStarted
  found : Bool := false
  foundNonce : UInt64 := 0

inductive SolveInput
  | startWorker
  | startJoining
  | joinWorker
  | finish
  /-- one round of a worker's loop, and what it sees if it looks at the flags -/
  | scan (t : ℕ) (sawFound sawCancel : Bool)
  | exchange (t : ℕ)
  | store (t : ℕ)
  deriving DecidableEq, Repr

namespace Solver

/-- The checks of `solve`. -/
def start (r : Request) : Solver :=
  if r.difficulty < 0 ∨ 255 < r.difficulty ∨
      (0 < r.maxDifficulty ∧ r.maxDifficulty < r.difficulty) then
    { phase := .returned none }
  else { phase := .starting 0 }

/-- A worker looks at the flags every 8192 rounds. -/
def looks (r : Request) (nonce : UInt64) : Bool :=
  (nonce / UInt64.ofNat r.threads) &&& 0x1FFF == 0

def setWorker (s : Solver) (t : ℕ) (w : Worker) : Solver :=
  { s with workers := Function.update s.workers t w }

/-- One round of the loop of worker `t`. -/
def scan (r : Request) (s : Solver) (t : ℕ) (sawFound sawCancel : Bool) : Option Solver :=
  match s.workers t with
  | .scanning nonce =>
    -- the flag is never reset, so it cannot be seen set before it is
    if sawFound && !s.found then none
    else if looks r nonce && (sawFound || sawCancel) then some (s.setWorker t .returned)
    else if tryNonceOn r.seed nonce r.difficulty then some (s.setWorker t (.claiming nonce))
    else some (s.setWorker t (.scanning (nonce + UInt64.ofNat r.threads)))
  | _ => none

/-- `found.compare_exchange_strong(expected, true)` -/
def exchange (s : Solver) (t : ℕ) : Option Solver :=
  match s.workers t with
  | .claiming nonce =>
    if s.found then some (s.setWorker t .returned)
    else some { s.setWorker t (.storing nonce) with found := true }
  | _ => none

/-- `found_nonce.store(nonce)` -/
def store (s : Solver) (t : ℕ) : Option Solver :=
  match s.workers t with
  | .storing nonce => some { s.setWorker t .returned with foundNonce := nonce }
  | _ => none

def step (r : Request) (s : Solver) : SolveInput → Option Solver
  | .startWorker =>
    match s.phase with
    | .starting t =>
      if t < r.threads then
        some { s.setWorker t (.scanning (UInt64.ofNat t)) with phase := .starting (t + 1) }
      else none
    | _ => none
  | .startJoining =>
    if s.phase = .starting r.threads then some { s with phase := .joining 0 } else none
  | .joinWorker =>
    match s.phase with
    | .joining t =>
      if t < r.threads ∧ s.workers t = .returned then some { s with phase := .joining (t + 1) }
      else none
    | _ => none
  | .finish =>
    if s.phase = .joining r.threads then
      some { s with phase := .returned (if s.found then some s.foundNonce else none) }
    else none
  | .scan t sawFound sawCancel => s.scan r t sawFound sawCancel
  | .exchange t => s.exchange t
  | .store t => s.store t

end Solver

/-- The steps of one call. -/
def solver (r : Request) : Machine Solver SolveInput Unit where
  step s a := (s.step r a).map fun s => (s, [])

/-- `verify`, with the hash of the Rust library if there is one. -/
def verify (rustCrypto : Bool) (hash : List UInt8 → Bytes32) (seed : Bytes32) (nonce : UInt64)
    (difficulty : ℤ) : Bool :=
  if rustCrypto then difficulty ≤ leadingZeroBits 0 (hash (seed.bytes ++ nonceBytes nonce)).bytes
  else true

/-- The library computes BLAKE3, here on inputs of one block. -/
def ComputesBlake3 (hash : List UInt8 → Bytes32) : Prop :=
  ∀ input, input.length ≤ 64 → (hash input).bytes = hashBlock input

/-- The reference as a library. -/
def referenceHash (input : List UInt8) : Bytes32 := ⟨hashBlock input, length_hashBlock input⟩

theorem computesBlake3_referenceHash : ComputesBlake3 referenceHash := by
  intro input _
  rw [referenceHash]

/-! ### Every run -/

/-- How many workers the caller has started. -/
def SolvePhase.started (r : Request) : SolvePhase → ℕ
  | .starting t => t
  | .joining _ | .returned _ => r.threads

/-- What every step keeps: a nonce that is claimed, stored or returned passes. -/
structure Solver.Sound (r : Request) (s : Solver) : Prop where
  claimed : ∀ t nonce, s.workers t = .claiming nonce ∨ s.workers t = .storing nonce →
    tryNonceOn r.seed nonce r.difficulty
  stored : s.found → tryNonceOn r.seed s.foundNonce r.difficulty ∨
    ∃ t nonce, s.workers t = .storing nonce
  unstarted : ∀ t, s.phase.started r ≤ t → s.workers t = .notStarted
  joined : ∀ k, s.phase = .joining k → ∀ t < k, s.workers t = .returned
  result : ∀ nonce, s.phase = .returned (some nonce) → tryNonceOn r.seed nonce r.difficulty

namespace Solver

variable {r : Request} {s s' : Solver}

theorem sound_start (r : Request) : (start r).Sound r := by
  unfold start
  split_ifs
  · exact ⟨by simp, by simp, fun _ _ => rfl, by simp, by simp⟩
  · exact ⟨by simp, by simp, fun _ _ => rfl, by simp, by simp⟩

/-- Only the flags, the nonce or one worker that is at work change. -/
theorem Sound.advance (h : s.Sound r) {t : ℕ} {w : Worker} {found : Bool} {foundNonce : UInt64}
    (hstarted : s.workers t ≠ .notStarted) (hrunning : s.workers t ≠ .returned)
    (hclaimed : ∀ nonce, w = .claiming nonce ∨ w = .storing nonce →
      tryNonceOn r.seed nonce r.difficulty)
    (hstored : found → tryNonceOn r.seed foundNonce r.difficulty ∨
      ∃ t' nonce, Function.update s.workers t w t' = .storing nonce) :
    Sound r { s.setWorker t w with found := found, foundNonce := foundNonce } where
  claimed t' nonce := by
    change Function.update s.workers t w t' = _ ∨ Function.update s.workers t w t' = _ → _
    rcases eq_or_ne t' t with rfl | hne
    · rw [Function.update_self]
      exact hclaimed nonce
    · rw [Function.update_of_ne hne]
      exact h.claimed t' nonce
  stored := hstored
  unstarted t' ht' := by
    have hidle := h.unstarted t' ht'
    have hne : t' ≠ t := by
      rintro rfl
      exact hstarted hidle
    exact (Function.update_of_ne hne w s.workers).trans hidle
  joined k hk t' ht' := by
    have hdone := h.joined k hk t' ht'
    have hne : t' ≠ t := by
      rintro rfl
      exact hrunning hdone
    exact (Function.update_of_ne hne w s.workers).trans hdone
  result := h.result

/-- The exchange of another worker is still there after a step that stores nothing. -/
theorem Sound.stored_update (h : s.Sound r) {t : ℕ} {w : Worker}
    (hnot : ∀ nonce, s.workers t ≠ .storing nonce) :
    s.found → tryNonceOn r.seed s.foundNonce r.difficulty ∨
      ∃ t' nonce, Function.update s.workers t w t' = .storing nonce := by
  intro hfound
  refine (h.stored hfound).imp_right ?_
  rintro ⟨t', nonce, hstoring⟩
  have hne : t' ≠ t := by
    rintro rfl
    exact hnot nonce hstoring
  exact ⟨t', nonce, (Function.update_of_ne hne w s.workers).trans hstoring⟩

theorem sound_scan {t : ℕ} {sawFound sawCancel : Bool} (h : s.Sound r)
    (hstep : s.scan r t sawFound sawCancel = some s') : s'.Sound r := by
  unfold scan at hstep
  split at hstep
  · rename_i nonce hworker
    -- The flags stay as they are, and a worker in its loop is not the one that stores.
    have hkeep : ∀ w, (∀ nonce, w = .claiming nonce ∨ w = .storing nonce →
        tryNonceOn r.seed nonce r.difficulty) → (s.setWorker t w).Sound r := fun w hw =>
      h.advance (by rw [hworker]; exact nofun) (by rw [hworker]; exact nofun) hw
        (h.stored_update fun _ => by rw [hworker]; exact nofun)
    split_ifs at hstep with _ _ hwins
    · obtain rfl := Option.some.inj hstep
      exact hkeep _ (by simp)
    · obtain rfl := Option.some.inj hstep
      refine hkeep _ fun nonce' hclaim => ?_
      obtain rfl : nonce = nonce' := by simpa using hclaim
      exact hwins
    · obtain rfl := Option.some.inj hstep
      exact hkeep _ (by simp)
  · exact absurd hstep nofun

theorem sound_exchange {t : ℕ} (h : s.Sound r) (hstep : s.exchange t = some s') :
    s'.Sound r := by
  unfold exchange at hstep
  split at hstep
  · rename_i nonce hworker
    have hwins := h.claimed t nonce (.inl hworker)
    split_ifs at hstep with hfound
    · obtain rfl := Option.some.inj hstep
      exact h.advance (by rw [hworker]; exact nofun) (by rw [hworker]; exact nofun) (by simp)
        (h.stored_update fun _ => by rw [hworker]; exact nofun)
    · -- The winner is the worker that will store.
      obtain rfl := Option.some.inj hstep
      refine h.advance (by rw [hworker]; exact nofun) (by rw [hworker]; exact nofun)
        (fun nonce' hclaim => ?_) fun _ => .inr ⟨t, nonce, Function.update_self ..⟩
      obtain rfl : nonce = nonce' := by simpa using hclaim
      exact hwins
  · exact absurd hstep nofun

theorem sound_store {t : ℕ} (h : s.Sound r) (hstep : s.store t = some s') : s'.Sound r := by
  unfold store at hstep
  split at hstep
  · rename_i nonce hworker
    obtain rfl := Option.some.inj hstep
    exact h.advance (by rw [hworker]; exact nofun) (by rw [hworker]; exact nofun) (by simp)
      fun _ => .inl (h.claimed t nonce (.inr hworker))
  · exact absurd hstep nofun

theorem sound_startWorker (h : s.Sound r) (hstep : s.step r .startWorker = some s') :
    s'.Sound r := by
  simp only [step] at hstep
  split at hstep
  · rename_i k hphase
    split_ifs at hstep with hlt
    obtain rfl := Option.some.inj hstep
    -- Worker `k` does nothing yet, so starting it takes no winner away.
    have hidle : s.workers k = .notStarted := h.unstarted k (by rw [hphase]; exact le_rfl)
    refine ⟨fun t nonce => ?_, h.stored_update fun _ => by rw [hidle]; exact nofun,
      fun t ht => ?_, fun _ hk => absurd hk nofun, fun _ hk => absurd hk nofun⟩
    · change Function.update s.workers k _ t = _ ∨ Function.update s.workers k _ t = _ → _
      rcases eq_or_ne t k with rfl | hne
      · rw [Function.update_self]
        exact fun hclaim => absurd hclaim (by simp)
      · rw [Function.update_of_ne hne]
        exact h.claimed t nonce
    · have hgt : k < t := ht
      refine (Function.update_of_ne hgt.ne' _ s.workers).trans (h.unstarted t ?_)
      rw [hphase]
      exact hgt.le
  · exact absurd hstep nofun

theorem sound_startJoining (h : s.Sound r) (hstep : s.step r .startJoining = some s') :
    s'.Sound r := by
  simp only [step] at hstep
  split_ifs at hstep with hphase
  obtain rfl := Option.some.inj hstep
  refine ⟨h.claimed, h.stored, fun t ht => h.unstarted t ?_, ?_, fun _ hk => absurd hk nofun⟩
  · rw [hphase]
    exact ht
  · rintro k hk t ht
    obtain rfl : 0 = k := by simpa using hk
    exact absurd ht (Nat.not_lt_zero t)

theorem sound_joinWorker (h : s.Sound r) (hstep : s.step r .joinWorker = some s') :
    s'.Sound r := by
  simp only [step] at hstep
  split at hstep
  · rename_i k hphase
    split_ifs at hstep with hdone
    obtain rfl := Option.some.inj hstep
    refine ⟨h.claimed, h.stored, fun t ht => h.unstarted t ?_, ?_, fun _ hk => absurd hk nofun⟩
    · rw [hphase]
      exact ht
    · rintro k' hk t ht
      obtain rfl : k + 1 = k' := by simpa using hk
      rcases Nat.lt_succ_iff_lt_or_eq.mp ht with hlt | rfl
      · exact h.joined k hphase t hlt
      · exact hdone.2
  · exact absurd hstep nofun

/-- When all workers are joined, the one that won has stored. -/
theorem Sound.tryNonceOn_foundNonce (h : s.Sound r) (hphase : s.phase = .joining r.threads)
    (hfound : s.found) : tryNonceOn r.seed s.foundNonce r.difficulty := by
  refine (h.stored hfound).resolve_right ?_
  rintro ⟨t, nonce, hstoring⟩
  rcases Nat.lt_or_ge t r.threads with hlt | hge
  · rw [h.joined _ hphase t hlt] at hstoring
    exact absurd hstoring nofun
  · rw [h.unstarted t (by rw [hphase]; exact hge)] at hstoring
    exact absurd hstoring nofun

theorem sound_finish (h : s.Sound r) (hstep : s.step r .finish = some s') : s'.Sound r := by
  simp only [step] at hstep
  by_cases hphase : s.phase = .joining r.threads
  · rw [if_pos hphase] at hstep
    obtain rfl := Option.some.inj hstep
    refine ⟨h.claimed, h.stored, fun t ht => h.unstarted t ?_, fun _ hk => absurd hk nofun, ?_⟩
    · rw [hphase]
      exact ht
    · intro nonce hresult
      have hsome := SolvePhase.returned.inj hresult
      split_ifs at hsome with hfound
      obtain rfl := Option.some.inj hsome
      exact h.tryNonceOn_foundNonce hphase hfound
  · rw [if_neg hphase] at hstep
    exact absurd hstep nofun

/-- One step of any thread. -/
theorem sound_step {a : SolveInput} (h : s.Sound r) (hstep : s.step r a = some s') :
    s'.Sound r := by
  cases a with
  | startWorker => exact sound_startWorker h hstep
  | startJoining => exact sound_startJoining h hstep
  | joinWorker => exact sound_joinWorker h hstep
  | finish => exact sound_finish h hstep
  | scan t sawFound sawCancel => exact sound_scan h hstep
  | exchange t => exact sound_exchange h hstep
  | store t => exact sound_store h hstep

/-- Every state of every run. -/
theorem sound_run {tr : List Unit} (h : (solver r).Run Machine.anyStep (start r) tr s) :
    s.Sound r := by
  refine h.stateInvariant (sound_start r) fun t a u es ht _ hstep => ?_
  obtain ⟨u', hu, heq⟩ := Option.map_eq_some_iff.mp hstep
  obtain ⟨rfl, -⟩ := Prod.mk.inj heq
  exact sound_step ht hu

end Solver

/-- A nonce that passes the test of the solver is verified. -/
theorem verify_of_tryNonceOn {hash : List UInt8 → Bytes32} (hhash : ComputesBlake3 hash)
    {seed : Bytes32} {nonce : UInt64} {difficulty : ℤ} (h : tryNonceOn seed nonce difficulty)
    (rustCrypto : Bool) : verify rustCrypto hash seed nonce difficulty := by
  have hlength : (seed.bytes ++ nonceBytes nonce).length ≤ 64 := by
    rw [List.length_append, seed.length_eq, nonceBytes, List.length_map, List.length_range]
    decide
  rw [tryNonceOn_eq] at h
  rw [verify, hhash _ hlength]
  cases rustCrypto with
  | false => rfl
  | true => exact h

/-- **The challenge.** A nonce passes the unrolled test if and only if BLAKE3 of the seed and the
nonce has at least as many leading zero bits as asked for, and a nonce that `solve` returns passes
`verify`, however its threads interleave. -/
theorem challenge_correct (r : Request) (hash : List UInt8 → Bytes32)
    (hhash : ComputesBlake3 hash) :
    (∀ nonce difficulty, tryNonceOn r.seed nonce difficulty ↔
      difficulty ≤ leadingZeroBits 0 (hashBlock (r.seed.bytes ++ nonceBytes nonce))) ∧
    ∀ tr s nonce, (solver r).Run Machine.anyStep (Solver.start r) tr s →
      s.phase = .returned (some nonce) →
      ∀ rustCrypto, verify rustCrypto hash r.seed nonce r.difficulty := by
  refine ⟨fun nonce difficulty => ?_, fun tr s nonce hrun hresult => ?_⟩
  · rw [tryNonceOn_eq, decide_eq_true_iff]
  · exact verify_of_tryNonceOn hhash ((Solver.sound_run hrun).result nonce hresult)

/-- One thread and a seed of zeros. -/
def sampleRequest : Request :=
  { seed := Bytes32.fill 0, difficulty := 2, maxDifficulty := 0, hardwareConcurrency := 1 }

/-- Its only worker tries nonce 0. -/
def sampleInputs : List SolveInput :=
  [.startWorker, .startJoining, .scan 0 false false, .exchange 0, .store 0, .joinWorker, .finish]

/-- Two zero bits are found at nonce 0, returned, and verified with the reference. -/
theorem challenge_correct_sample :
    (∃ s tr, (solver sampleRequest).Run Machine.anyStep (Solver.start sampleRequest) tr s ∧
      s.phase = .returned (some 0)) ∧
    ComputesBlake3 referenceHash ∧
    verify true referenceHash sampleRequest.seed 0 sampleRequest.difficulty := by
  have hexec : ((solver sampleRequest).exec Machine.anyStep sampleInputs
      (Solver.start sampleRequest)).any (fun r => r.1.phase = .returned (some 0)) = true := by
    decide +kernel
  obtain ⟨s, tr, hrun, hphase⟩ := Machine.exists_run_of_exec hexec
  have hphase := of_decide_eq_true hphase
  have hcorrect := challenge_correct sampleRequest referenceHash computesBlake3_referenceHash
  exact ⟨⟨s, tr, hrun, hphase⟩, computesBlake3_referenceHash,
    hcorrect.2 tr s 0 hrun hphase true⟩

end PropMiner.Stratum
