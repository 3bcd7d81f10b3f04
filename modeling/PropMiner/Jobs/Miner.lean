import PropMiner.Jobs.Worker
import PropMiner.Semantics.Machine
import Mathlib.Data.List.FinRange

/-!
# The miner: workers, publisher and recoveries

A `WorkerOrchestrator` with its `GpuWorker`s, as far as jobs and share targets are
concerned. The pool thread publishes jobs on the bus and hands them to each worker in
turn, and passes vardiff updates on; the watchdog and the health monitor take the
latest job off the bus and hand it out again.

The orchestrator's loops over the workers take one atomic store or one mutex section
at a time, so anything can happen between two workers, and between `target_nbits_` and
`target_dirty_` of one.

## Main definitions

* `PublisherPc`, `RecoveryPc` — where the orchestrator's threads are
* `Miner`, `Miner.step`, `machine` — the whole system, for any number of workers
-/

set_option autoImplicit false

namespace PropMiner.Jobs

open PropMiner.Semantics (Machine)

/-- Where the pool thread is, in `publish_job_from_assignment` or in the handling of a
vardiff event, and the workers it has still to see. -/
inductive PublisherPc (n : ℕ)
  | idle
  | jobTarget (c : Ctx) (nbits : UInt32) (todo : List (Fin n))
  | jobDirty (c : Ctx) (nbits : UInt32) (w : Fin n) (todo : List (Fin n))
  | jobSigma (c : Ctx) (nbits : UInt32) (w : Fin n) (todo : List (Fin n))
  | vardiffTarget (nbits : UInt32) (todo : List (Fin n))
  | vardiffDirty (nbits : UInt32) (w : Fin n) (todo : List (Fin n))
  /-- the entry was drained from the bus -/
  | vardiffContext (nbits : UInt32) (c : Option Ctx)
  deriving DecidableEq, Repr

/-- The job being handed out. -/
def PublisherPc.job {n : ℕ} : PublisherPc n → Option Ctx
  | .jobTarget c .. | .jobDirty c .. | .jobSigma c .. => some c
  | _ => none

/-- The two threads that republish. -/
inductive Recovery
  | watchdog
  /-- `try_soft_gpu_recovery` -/
  | health
  deriving DecidableEq, Repr

inductive RecoveryPc (n : ℕ)
  | idle
  | pausing (todo : List (Fin n))
  | setting (c : Ctx) (todo : List (Fin n))
  | resuming (todo : List (Fin n))
  deriving DecidableEq, Repr

structure JobBus where
  ctx : Option Ctx := none
  version : ℕ := 0
  deriving DecidableEq, Repr

structure Miner (n : ℕ) where
  heap : Heap := fun _ => {}
  /-- the number of contexts made so far -/
  made : ℕ := 0
  bus : JobBus := {}
  liveShareTargetNbits : UInt32 := 0
  publisher : PublisherPc n := .idle
  recovery : Recovery → RecoveryPc n := fun _ => .idle
  workers : Fin n → GpuWorker

/-- Which thread moves, and what it meets. -/
inductive Input (n : ℕ)
  /-- a job from the pool, with its target -/
  | publish (nbits : UInt32)
  | vardiff (nbits : UInt32)
  /-- the pool thread goes on -/
  | publisher
  /-- a stall was noticed -/
  | recover (r : Recovery)
  | recovery (r : Recovery)
  | setPaused (w : Fin n) (paused : Bool)
  | setMatmulsPerPoll (w : Fin n) (mpp : ℕ)
  | stop (w : Fin n)
  | run (w : Fin n) (a : Answer)
  | installer (w : Fin n) (a : Answer)
  | share (w : Fin n)
  deriving DecidableEq, Repr

/-- The worker `0` of a rig with one GPU. -/
scoped instance oneWorker_neZero : @NeZero ℕ Zero.ofOfNat0 1 := ⟨Nat.one_ne_zero⟩

namespace Miner

variable {n : ℕ}

/-- Change one worker. -/
def modifyWorker (s : Miner n) (w : Fin n) (f : GpuWorker → GpuWorker) : Miner n :=
  { s with workers := Function.update s.workers w (f (s.workers w)) }

/-- `set_sigma`, and who called it. -/
def setSigma (s : Miner n) (w : Fin n) (c : Ctx) (recovery : Bool) : Miner n × List Event :=
  (s.modifyWorker w fun g => { g with sigma := some c },
    [.sigmaSet w recovery (s.workers w).sigma c])

/-- `publish_job_from_assignment` makes a context and puts it on the bus. -/
def publishJob (s : Miner n) (nbits : UInt32) : Miner n × List Event :=
  ({ s with
      heap := Function.update s.heap s.made { targetNbits := nbits }
      made := s.made + 1
      bus := ⟨some s.made, s.bus.version + 1⟩
      publisher := .jobTarget s.made nbits (List.finRange n) },
    [.published s.made])

/-- The first half of `set_target_nbits`. -/
def storeTarget (s : Miner n) (w : Fin n) (nbits : UInt32) : Miner n × List Event :=
  (s.modifyWorker w fun g => { g with targetNbits := nbits }, [.targetSet w nbits])

/-- The second half of `set_target_nbits`. -/
def storeDirty (s : Miner n) (w : Fin n) : Miner n :=
  s.modifyWorker w fun g => { g with targetDirty := true }

/-- The pool thread goes on with its call. -/
def publisherStep (s : Miner n) : Option (Miner n × List Event) :=
  match s.publisher with
  | .idle => none
  | .jobTarget c nbits (w :: todo) =>
      let r := s.storeTarget w nbits
      some ({ r.1 with publisher := .jobDirty c nbits w todo }, r.2)
  | .jobDirty c nbits w todo =>
      some ({ s.storeDirty w with publisher := .jobSigma c nbits w todo }, [])
  | .jobSigma c nbits w todo =>
      let r := s.setSigma w c false
      some ({ r.1 with publisher := .jobTarget c nbits todo }, r.2)
  | .jobTarget _ nbits [] =>
      some ({ s with liveShareTargetNbits := nbits, publisher := .idle }, [])
  | .vardiffTarget nbits (w :: todo) =>
      let r := s.storeTarget w nbits
      some ({ r.1 with publisher := .vardiffDirty nbits w todo }, r.2)
  | .vardiffDirty nbits w todo =>
      some ({ s.storeDirty w with publisher := .vardiffTarget nbits todo }, [])
  | .vardiffTarget nbits [] =>
      some ({ s with publisher := .vardiffContext nbits s.bus.ctx }, [])
  | .vardiffContext _ none => some ({ s with publisher := .idle }, [])
  | .vardiffContext nbits (some c) =>
      some ({ s with
        heap := s.heap.modify c fun x => { x with targetNbits := nbits }
        publisher := .idle }, [])

/-- The ways in which the pool thread goes on. -/
theorem publisherStep_cases {s : Miner n} {q : Miner n × List Event}
    {P : Miner n × List Event → Prop} (h : s.publisherStep = some q)
    (jobTarget : ∀ c nbits w todo, s.publisher = .jobTarget c nbits (w :: todo) →
      P ({ (s.storeTarget w nbits).1 with publisher := .jobDirty c nbits w todo },
        (s.storeTarget w nbits).2))
    (jobDirty : ∀ c nbits w todo, s.publisher = .jobDirty c nbits w todo →
      P ({ s.storeDirty w with publisher := .jobSigma c nbits w todo }, []))
    (jobSigma : ∀ c nbits w todo, s.publisher = .jobSigma c nbits w todo →
      P ({ (s.setSigma w c false).1 with publisher := .jobTarget c nbits todo },
        (s.setSigma w c false).2))
    (jobDone : ∀ c nbits, s.publisher = .jobTarget c nbits [] →
      P ({ s with liveShareTargetNbits := nbits, publisher := .idle }, []))
    (vardiffTarget : ∀ nbits w todo, s.publisher = .vardiffTarget nbits (w :: todo) →
      P ({ (s.storeTarget w nbits).1 with publisher := .vardiffDirty nbits w todo },
        (s.storeTarget w nbits).2))
    (vardiffDirty : ∀ nbits w todo, s.publisher = .vardiffDirty nbits w todo →
      P ({ s.storeDirty w with publisher := .vardiffTarget nbits todo }, []))
    (vardiffDrain : ∀ nbits, s.publisher = .vardiffTarget nbits [] →
      P ({ s with publisher := .vardiffContext nbits s.bus.ctx }, []))
    (vardiffNoContext : ∀ nbits, s.publisher = .vardiffContext nbits none →
      P ({ s with publisher := .idle }, []))
    (vardiffContext : ∀ nbits c, s.publisher = .vardiffContext nbits (some c) →
      P ({ s with
        heap := s.heap.modify c fun x => { x with targetNbits := nbits }
        publisher := .idle }, [])) : P q := by
  unfold publisherStep at h
  split at h
  case h_1 => cases h
  all_goals obtain rfl := Option.some.inj h
  case h_2 c nbits w todo hpub => exact jobTarget c nbits w todo hpub
  case h_3 c nbits w todo hpub => exact jobDirty c nbits w todo hpub
  case h_4 c nbits w todo hpub => exact jobSigma c nbits w todo hpub
  case h_5 c nbits hpub => exact jobDone c nbits hpub
  case h_6 nbits w todo hpub => exact vardiffTarget nbits w todo hpub
  case h_7 nbits w todo hpub => exact vardiffDirty nbits w todo hpub
  case h_8 nbits hpub => exact vardiffDrain nbits hpub
  case h_9 nbits hpub => exact vardiffNoContext nbits hpub
  case h_10 nbits c hpub => exact vardiffContext nbits c hpub

/-- A recovery takes the latest job off the bus; without one there is nothing to hand
out. -/
def drainLatest (s : Miner n) (otherwise : RecoveryPc n) : RecoveryPc n :=
  match s.bus.ctx with
  | some c => .setting c (List.finRange n)
  | none => otherwise

def setRecovery (s : Miner n) (r : Recovery) (pc : RecoveryPc n) : Miner n :=
  { s with recovery := Function.update s.recovery r pc }

/-- The health monitor pauses the workers first. -/
def recover (s : Miner n) (r : Recovery) : Option (Miner n × List Event) :=
  match s.recovery r with
  | .idle =>
      let pc := match r with
        | .watchdog => s.drainLatest .idle
        | .health => .pausing (List.finRange n)
      some (s.setRecovery r pc, [])
  | _ => none

/-- A recovery begins by reading the bus, or by pausing the workers. -/
theorem recover_cases {s : Miner n} {r : Recovery} {q : Miner n × List Event}
    {P : Miner n × List Event → Prop} (h : s.recover r = some q)
    (watchdog : r = .watchdog → P (s.setRecovery r (s.drainLatest .idle), []))
    (health : r = .health → P (s.setRecovery r (.pausing (List.finRange n)), [])) : P q := by
  unfold recover at h
  split at h
  · obtain rfl := Option.some.inj h
    cases r with
    | watchdog => exact watchdog rfl
    | health => exact health rfl
  · cases h

/-- After the hand-out the health monitor resumes the workers. -/
def afterSetting (r : Recovery) : RecoveryPc n :=
  match r with
  | .watchdog => .idle
  | .health => .resuming (List.finRange n)

def recoveryStep (s : Miner n) (r : Recovery) : Option (Miner n × List Event) :=
  match s.recovery r with
  | .idle => none
  | .pausing (w :: todo) =>
      some ((s.modifyWorker w fun g => { g with pauseFlag := true }).setRecovery r
        (.pausing todo), [])
  | .pausing [] => some (s.setRecovery r (s.drainLatest (afterSetting r)), [])
  | .setting c (w :: todo) =>
      let q := s.setSigma w c true
      some (q.1.setRecovery r (.setting c todo), q.2)
  | .setting _ [] => some (s.setRecovery r (afterSetting r), [])
  | .resuming (w :: todo) =>
      some ((s.modifyWorker w fun g => { g with pauseFlag := false }).setRecovery r
        (.resuming todo), [])
  | .resuming [] => some (s.setRecovery r .idle, [])

/-- The ways in which a recovery goes on. -/
theorem recoveryStep_cases {s : Miner n} {r : Recovery} {q : Miner n × List Event}
    {P : Miner n × List Event → Prop} (h : s.recoveryStep r = some q)
    (pausing : ∀ w todo, s.recovery r = .pausing (w :: todo) →
      P ((s.modifyWorker w fun g => { g with pauseFlag := true }).setRecovery r (.pausing todo),
        []))
    (paused : s.recovery r = .pausing [] →
      P (s.setRecovery r (s.drainLatest (afterSetting r)), []))
    (setting : ∀ c w todo, s.recovery r = .setting c (w :: todo) →
      P ((s.setSigma w c true).1.setRecovery r (.setting c todo), (s.setSigma w c true).2))
    (set : ∀ c, s.recovery r = .setting c [] → P (s.setRecovery r (afterSetting r), []))
    (resuming : ∀ w todo, s.recovery r = .resuming (w :: todo) →
      P ((s.modifyWorker w fun g => { g with pauseFlag := false }).setRecovery r
        (.resuming todo), []))
    (resumed : s.recovery r = .resuming [] → P (s.setRecovery r .idle, [])) : P q := by
  unfold recoveryStep at h
  split at h
  case h_1 => cases h
  all_goals obtain rfl := Option.some.inj h
  case h_2 w todo hr => exact pausing w todo hr
  case h_3 hr => exact paused hr
  case h_4 c w todo hr => exact setting c w todo hr
  case h_5 c hr => exact set c hr
  case h_6 w todo hr => exact resuming w todo hr
  case h_7 hr => exact resumed hr

/-- What the threads of worker `w` see, and what is left of a step of theirs. -/
def view (s : Miner n) (w : Fin n) : View := ⟨s.heap, s.workers w⟩

def update (s : Miner n) (w : Fin n) (v : View) : Miner n :=
  { s with heap := v.heap, workers := Function.update s.workers w v.worker }

def step (s : Miner n) : Input n → Option (Miner n × List Event)
  | .publish nbits => if s.publisher = .idle then some (s.publishJob nbits) else none
  | .vardiff nbits =>
      if s.publisher = .idle then
        some ({ s with
          liveShareTargetNbits := nbits
          publisher := .vardiffTarget nbits (List.finRange n) }, [])
      else none
  | .publisher => s.publisherStep
  | .recover r => s.recover r
  | .recovery r => s.recoveryStep r
  | .setPaused w paused => some (s.modifyWorker w fun g => { g with pauseFlag := paused }, [])
  | .setMatmulsPerPoll w mpp =>
      some (s.modifyWorker w fun g =>
        { g with matmulsPerPoll := if 0 < mpp then mpp else g.matmulsPerPoll }, [])
  | .stop w => some (s.modifyWorker w fun g => { g with stopFlag := true }, [])
  | .run w a => (runStep w (s.view w) a).map fun r => (s.update w r.1, r.2)
  | .installer w a => (installerStep w (s.view w) a).map fun r => (s.update w r.1, r.2)
  | .share w => (shareStep w (s.view w)).map fun r => (s.update w r.1, r.2)

section Lemmas

variable {s : Miner n} {w w' : Fin n} {r r' : Recovery}

@[simp] theorem workers_modifyWorker_self (f : GpuWorker → GpuWorker) :
    (s.modifyWorker w f).workers w = f (s.workers w) := Function.update_self ..

theorem workers_modifyWorker_of_ne (f : GpuWorker → GpuWorker) (hne : w' ≠ w) :
    (s.modifyWorker w f).workers w' = s.workers w' := Function.update_of_ne hne ..

@[simp] theorem workers_update_self (v : View) : (s.update w v).workers w = v.worker :=
  Function.update_self ..

theorem workers_update_of_ne (v : View) (hne : w' ≠ w) :
    (s.update w v).workers w' = s.workers w' := Function.update_of_ne hne ..

@[simp] theorem recovery_setRecovery_self (pc : RecoveryPc n) :
    (s.setRecovery r pc).recovery r = pc := Function.update_self ..

theorem recovery_setRecovery_of_ne (pc : RecoveryPc n) (hne : r' ≠ r) :
    (s.setRecovery r pc).recovery r' = s.recovery r' := Function.update_of_ne hne ..

end Lemmas

end Miner

def machine (n : ℕ) : Machine (Miner n) (Input n) Event := ⟨Miner.step⟩

/-- A miner that was just started, with workers of these configurations. -/
def Miner.start {n : ℕ} (cfg : Fin n → Config) (matmulsPerPoll : Fin n → ℕ) : Miner n where
  workers w := { cfg := cfg w, matmulsPerPoll := matmulsPerPoll w }

end PropMiner.Jobs
