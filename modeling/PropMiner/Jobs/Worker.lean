import Mathlib.Data.List.Basic
import Mathlib.Logic.Function.Basic

/-!
# One GPU worker

The threads of a `GpuWorker`: `run`, the background installer and the share thread.
They share the worker's fields and, with all other workers, the job contexts.

Each step is one access to something another thread can see, together with the
thread-local work around it; what a CUDA call does is part of the input. A section
under a mutex is one step, except for `SigmaContext::install`, which holds its mutex
while other threads go on. Runs end with a stop request, or with an exception that
leaves `run` or a stall, both of which end the process.

## Main definitions

* `SigmaContext`, `SigmaContext.installStep` — a job with its resident-B set
* `GpuWorker`, `RunPc`, `InstallerPc` — the worker and where its threads are
* `runStep`, `installerStep`, `shareStep` — what the three threads do
-/

set_option autoImplicit false

namespace PropMiner.Jobs

/-! ### Job contexts -/

/-- The address of a `SigmaContext`; contexts are numbered as they are made. -/
abbrev Ctx := ℕ

/-- A thread that can hold the install mutex of a context. -/
inductive Locker
  | run (w : ℕ)
  | installer (w : ℕ)
  deriving DecidableEq, Repr

structure SigmaContext where
  /-- `job().target_nbits` -/
  targetNbits : UInt32 := 0
  installed : Bool := false
  /-- `resident().allocated()` -/
  allocated : Bool := false
  installMtx : Option Locker := none
  deriving DecidableEq, Repr

abbrev Heap := Ctx → SigmaContext

namespace Heap

/-- Change one context. -/
def modify (H : Heap) (c : Ctx) (f : SigmaContext → SigmaContext) : Heap :=
  Function.update H c (f (H c))

/-- `resident().free` -/
def free (H : Heap) (c : Ctx) : Heap := H.modify c fun x => { x with allocated := false }

end Heap

/-- What a call answers: it returns, or it throws before or after it had its effect,
or it returns with these headers marked as hits. -/
inductive Answer
  | ok
  | threw (far : Bool)
  | headers (hits : List ℕ)
  deriving DecidableEq, Repr

/-- Where a thread is in `SigmaContext::install`. -/
inductive InstallPc
  | enter
  | allocating
  /-- the set is allocated and being filled -/
  | filling
  deriving DecidableEq, Repr

inductive InstallResult
  | inside (pc : InstallPc)
  | returned
  | threw
  deriving DecidableEq, Repr

/-- One step of `SigmaContext::install`; `none` is waiting for the mutex. An exception
at the entrance is that of the workspace made before the call. -/
def SigmaContext.installStep (x : SigmaContext) (me : Locker) :
    InstallPc → Answer → Option (SigmaContext × InstallResult)
  | .enter, .ok =>
      if x.installMtx.isSome then none
      else if x.installed then some (x, .returned)
      else some ({ x with installMtx := some me }, .inside .allocating)
  | .enter, .threw _ => some (x, .threw)
  | .allocating, .ok => some ({ x with allocated := true }, .inside .filling)
  -- `allocate` frees first, and may fail before or after `b_` is there
  | .allocating, .threw far => some ({ x with allocated := far, installMtx := none }, .threw)
  | .filling, .ok => some ({ x with installed := true, installMtx := none }, .returned)
  | .filling, .threw _ => some ({ x with installMtx := none }, .threw)
  | _, .headers _ => none

/-! ### The worker -/

inductive HalfId
  | ping | pong | third
  deriving DecidableEq, Repr

/-- What the threads read of a `HalfBuffers`. -/
structure Half where
  powTargetNbits : UInt32 := 0
  batchMinedTargetNbits : UInt32 := 0
  batchSeedStart : UInt64 := 0
  shareJobsPending : ℕ := 0
  deriving DecidableEq, Repr

/-- `upload_pow_target`: a zero target is skipped. -/
def Half.uploadPowTarget (nbits : UInt32) (x : Half) : Half :=
  { x with powTargetNbits := if nbits = 0 then x.powTargetNbits else nbits }

/-- What `queue_batch` notes down in the half. -/
def Half.beginBatch (seedLoStart : UInt64) (x : Half) : Half :=
  { x with batchSeedStart := seedLoStart, batchMinedTargetNbits := x.powTargetNbits }

def Half.addShareJob (x : Half) : Half :=
  { x with shareJobsPending := x.shareJobsPending + 1 }

def Half.shareJobDone (x : Half) : Half :=
  { x with shareJobsPending := x.shareJobsPending - 1 }

structure ShareTriggerJob where
  half : HalfId
  nonce : UInt64
  targetNbits : UInt32
  sigmaCtx : Ctx
  deriving DecidableEq, Repr

/-- What is fixed when the worker is made. -/
structure Config where
  tripleBufferActive : Bool := false
  asyncJobInstall : Bool := false
  deferShareGpu : Bool := true
  seedBase : UInt64 := 0
  deriving DecidableEq, Repr

/-- Where `run` is in `bind_sigma_to_half`. -/
inductive BindPc
  | read
  /-- the target to bind is known and compared with `target_nbits_` -/
  | test (nbits : UInt32)
  | store (nbits : UInt32)
  | upload (nbits : UInt32)
  deriving DecidableEq, Repr

/-- Where `run` is. An install or a swap goes through the halves in turn: those bound
already, the one at hand, and those to come. -/
inductive RunPc
  | top
  | readSigma
  /-- `async_install_failed(new_sigma)` -/
  | asyncFailed (new : Ctx)
  | submitInstall (new : Ctx)
  /-- before `current_sigma` is replaced, by an install or by a swap -/
  | drain (new : Ctx) (swap : Bool)
  | install (pc : InstallPc) (bound : List HalfId) (half : HalfId) (todo : List HalfId)
  | bind (pc : BindPc) (swap : Bool) (bound : List HalfId) (half : HalfId) (todo : List HalfId)
  | clearDirty (swap : Bool)
  | takeReady
  | want (ready : Ctx)
  | freeStale (ready : Ctx)
  | testDirty
  | loadTarget
  | upload (nbits : UInt32)
  | mine
  /-- a batch was queued and this half is to be waited for and scanned -/
  | complete (half : HalfId)
  | trigger (half : HalfId) (winners : List ℕ)
  | ended
  deriving DecidableEq, Repr

/-- Where the background installer is. -/
inductive InstallerPc
  | wait
  /-- the VRAM guard and the staging workspace -/
  | guard (c : Ctx)
  | install (pc : InstallPc) (c : Ctx)
  | publish (c : Ctx)
  | supersede (old : Ctx)
  | markFailed (c : Ctx)
  deriving DecidableEq, Repr

structure GpuWorker where
  cfg : Config := {}
  sigma : Option Ctx := none
  targetNbits : UInt32 := 0
  targetDirty : Bool := false
  pauseFlag : Bool := false
  stopFlag : Bool := false
  matmulsPerPoll : ℕ := 1
  half : HalfId → Half := fun _ => {}
  shareQueue : List ShareTriggerJob := []
  /-- the job in the hands of the share thread -/
  shareJob : Option ShareTriggerJob := none
  asyncPending : Option Ctx := none
  asyncReady : Option Ctx := none
  asyncFailed : Option Ctx := none
  asyncRequested : Option Ctx := none
  installer : InstallerPc := .wait
  -- the variables of `run`
  pc : RunPc := .top
  currentSigma : Option Ctx := none
  ping : HalfId := .ping
  pong : HalfId := .pong
  globalIter : UInt64 := 0
  batch : ℕ := 0
  first : Bool := true
  launchI : ℕ := 0
  tripleWarmup : ℕ := 0

/-- What can be seen of the miner. -/
inductive Event
  | published (c : Ctx)
  /-- `set_target_nbits` stored this value -/
  | targetSet (w : ℕ) (nbits : UInt32)
  /-- `set_sigma`, from the publisher or from a recovery, with the context replaced -/
  | sigmaSet (w : ℕ) (recovery : Bool) (old : Option Ctx) (new : Ctx)
  /-- an iteration of the loop that is not a pause begins; it has run to its end -/
  | loopBegin (w : ℕ)
  | loopEnd (w : ℕ)
  /-- `install` returned; is the set allocated at that point? -/
  | installReturned (w : ℕ) (c : Ctx) (allocated : Bool)
  /-- `current_sigma` was replaced or reset -/
  | rotated (w : ℕ)
  /-- `queue_batch`; is the resident-B set of its job allocated at that point? -/
  | queued (w : ℕ) (half : HalfId) (c : Ctx) (allocated : Bool) (seed : UInt64) (count : ℕ)
  /-- the batch of this half was waited for and scanned -/
  | scanned (w : ℕ) (half : HalfId) (seed : UInt64) (count : ℕ)
  /-- a share trigger for the header at this index -/
  | winner (w : ℕ) (half : HalfId) (index : ℕ) (nonce : UInt64)
  | shareQueued (w : ℕ) (half : HalfId)
  | shareDone (w : ℕ) (half : HalfId)
  deriving DecidableEq, Repr

/-- What the threads of one worker see. -/
structure View where
  heap : Heap
  worker : GpuWorker

namespace GpuWorker

/-- The halves in use. -/
def halves (g : GpuWorker) : List HalfId :=
  if g.cfg.tripleBufferActive then [.ping, .pong, .third] else [.ping, .pong]

/-- Change one half. -/
def setHalf (g : GpuWorker) (h : HalfId) (f : Half → Half) : GpuWorker :=
  { g with half := Function.update g.half h (f (g.half h)) }

/-- `upload_pow_target` -/
def uploadPowTarget (g : GpuWorker) (h : HalfId) (nbits : UInt32) : GpuWorker :=
  g.setHalf h (Half.uploadPowTarget nbits)

/-- `upload_pow_target_all_halves` -/
def uploadPowTargetAllHalves (g : GpuWorker) (nbits : UInt32) : GpuWorker :=
  g.halves.foldl (fun g h => g.uploadPowTarget h nbits) g

/-- No half in use has a share job pending. -/
def drained (g : GpuWorker) : Bool :=
  g.halves.all fun h => (g.half h).shareJobsPending = 0

/-- `drain_all_halves_for_sigma` returns: shares are not deferred, or none is pending. -/
def drainReturns (g : GpuWorker) : Bool := !g.cfg.deferShareGpu || g.drained

end GpuWorker

/-! ### The run loop -/

namespace View

def goto (v : View) (pc : RunPc) : View := { v with worker := { v.worker with pc } }

/-- `run` is over and its variables are gone. -/
def exit (v : View) : View :=
  { v with worker := { v.worker with pc := .ended, currentSigma := none } }

/-- An exception in the synchronous install: the handler gives the job up for now. -/
def giveUp (w : ℕ) (v : View) : View × List Event :=
  ({ v with worker := { v.worker with pc := .top, currentSigma := none, first := true } },
    [.rotated w])

/-- The head of the loop. -/
def runTop (w : ℕ) (v : View) : View × List Event :=
  if v.worker.stopFlag then (v.exit, [])
  else if v.worker.pauseFlag then (v, [])
  else (v.goto .readSigma, [.loopBegin w])

/-- Read `sigma_` and choose between a synchronous install, a background install and
going on. -/
def readSigma (v : View) : View :=
  let g := v.worker
  match g.sigma with
  | some new =>
      if g.sigma ≠ g.currentSigma then
        if g.cfg.asyncJobInstall && g.currentSigma.isSome then v.goto (.asyncFailed new)
        else v.goto (.drain new false)
      else v.goto (if g.cfg.asyncJobInstall then .takeReady else .testDirty)
  | none => v.goto (if g.cfg.asyncJobInstall then .takeReady else .testDirty)

/-- `async_install_failed`: after a failure the job is installed synchronously. -/
def askFailed (v : View) (new : Ctx) : View :=
  if v.worker.asyncFailed = some new then
    { v with worker := { v.worker with asyncFailed := none, pc := .drain new false } }
  else v.goto (.submitInstall new)

/-- `submit_async_install` -/
def submitAsyncInstall (v : View) (new : Ctx) : View :=
  if v.worker.asyncRequested = some new then v.goto .takeReady
  else { v with worker := { v.worker with
    asyncRequested := some new, asyncPending := some new, pc := .takeReady } }

/-- The first half to work on, through the pointers of `run`. -/
def startHalves (g : GpuWorker) (swap : Bool) : RunPc :=
  let todo := if g.cfg.tripleBufferActive then [g.pong, .third] else [g.pong]
  if swap then .bind .read swap [] g.ping todo else .install .enter [] g.ping todo

/-- Wait for the halves and the streams (an install needs this only if there was a job
before), then make `new` the current job. -/
def rotate (w : ℕ) (v : View) (new : Ctx) (swap : Bool) : Option (View × List Event) :=
  let g := v.worker
  if !swap && g.currentSigma.isNone || g.drainReturns then
    some ({ v with worker := { g with
        currentSigma := some new, batch := g.matmulsPerPoll, pc := startHalves g swap } },
      [.rotated w])
  else none

/-- `install` on the way through the halves. -/
def installCurrent (w : ℕ) (v : View) (c : Ctx) (pc : InstallPc) (a : Answer)
    (bound : List HalfId) (h : HalfId) (todo : List HalfId) : Option (View × List Event) :=
  ((v.heap c).installStep (.run w) pc a).map fun r =>
    let v := { v with heap := v.heap.modify c fun _ => r.1 }
    match r.2 with
    | .inside pc => (v.goto (.install pc bound h todo), [])
    | .returned =>
        (v.goto (.bind .read false bound h todo), [.installReturned w c r.1.allocated])
    | .threw => v.giveUp w

/-- An exception while a job is bound: the swap has no handler. -/
def bindThrows (w : ℕ) (v : View) (swap : Bool) : View × List Event :=
  if swap then (v.exit, []) else v.giveUp w

/-- After a half is bound. -/
def nextHalf (swap : Bool) (bound : List HalfId) (h : HalfId) : List HalfId → RunPc
  | [] => .clearDirty swap
  | next :: todo =>
      if swap then .bind .read swap (bound ++ [h]) next todo
      else .install .enter (bound ++ [h]) next todo

/-- `bind_sigma_to_half` -/
def bindHalf (w : ℕ) (v : View) (c : Ctx) (swap : Bool) (bound : List HalfId) (h : HalfId)
    (todo : List HalfId) : BindPc → Answer → Option (View × List Event)
  -- one step: a target stored between the two loads could as well come before them
  | .read, .ok =>
      let target := (v.heap c).targetNbits
      let nbits := if target = 0 then v.worker.targetNbits else target
      some (v.goto (.bind (.test nbits) swap bound h todo), [])
  | .test nbits, .ok =>
      let pc := if nbits = v.worker.targetNbits then BindPc.upload nbits else .store nbits
      some (v.goto (.bind pc swap bound h todo), [])
  | .store nbits, .ok =>
      some ({ v with worker := { v.worker with
        targetNbits := nbits, pc := .bind (.upload nbits) swap bound h todo } }, [])
  | .upload nbits, .ok =>
      some ({ v with worker := { v.worker.uploadPowTarget h nbits with
        pc := nextHalf swap bound h todo } }, [])
  -- the workspace, or a call before or after the upload
  | .read, .threw _ => some (v.bindThrows w swap)
  | .upload nbits, .threw far =>
      some (bindThrows w { v with worker :=
        if far then v.worker.uploadPowTarget h nbits else v.worker } swap)
  | _, _ => none

/-- `target_dirty_.store(false)` after an install or a swap. After an install the dirty
test of the same round is skipped. -/
def clearDirty (v : View) (swap : Bool) : View :=
  { v with worker := { v.worker with
    targetDirty := false, first := true, pc := if swap then .testDirty else .mine } }

/-- `take_async_ready` -/
def takeAsyncReady (v : View) : View :=
  match v.worker.asyncReady with
  | none => v.goto .testDirty
  | some ready => { v with worker := { v.worker with asyncReady := none, pc := .want ready } }

/-- Swap the ready context in if it is still wanted, else it is stale. -/
def readWant (v : View) (ready : Ctx) : View :=
  let g := v.worker
  if g.sigma = some ready ∧ g.currentSigma ≠ some ready then v.goto (.drain ready true)
  else if g.currentSigma ≠ some ready then v.goto (.freeStale ready)
  else v.goto .testDirty

/-- `target_dirty_.exchange(false)` -/
def testDirty (v : View) : View :=
  if v.worker.targetDirty then
    { v with worker := { v.worker with targetDirty := false, pc := .loadTarget } }
  else v.goto .mine

/-! #### Mining -/

/-- The worker after `queue_batch` on the next `batch` nonces. -/
def queueBatch (g : GpuWorker) (h : HalfId) : GpuWorker :=
  { g.setHalf h (Half.beginBatch (g.cfg.seedBase + g.globalIter)) with
    globalIter := g.globalIter + UInt64.ofNat g.batch }

def queuedEvent (w : ℕ) (v : View) (c : Ctx) (h : HalfId) : Event :=
  let g := v.worker
  .queued w h c (v.heap c).allocated (g.cfg.seedBase + g.globalIter) g.batch

def numHalves : ℕ := 3

def pipelineDepth : ℕ := 2

/-- `ring[i]` -/
def ring : ℕ → HalfId
  | 0 => .ping
  | 1 => .pong
  | _ => .third

/-- `launch_i` and `triple_warmup` as the round starts: a new job starts the ring anew. -/
def launchIndex (g : GpuWorker) : ℕ := if g.first then 0 else g.launchI

def warmup (g : GpuWorker) : ℕ := if g.first then pipelineDepth else g.tripleWarmup

/-- The worker after a launch on the ring. -/
def launchTriple (g : GpuWorker) (tripleWarmup : ℕ) (pc : RunPc) : GpuWorker :=
  { queueBatch g (ring (launchIndex g)) with
    first := false, launchI := (launchIndex g + 1) % numHalves, tripleWarmup, pc }

/-- `ring[complete_i]` -/
def completeHalf (g : GpuWorker) : HalfId :=
  ring ((launchIndex g + numHalves - pipelineDepth) % numHalves)

/-- One round of the triple ring, up to the wait for the oldest batch; `none` while the
half to launch on has share jobs pending. -/
def mineTriple (w : ℕ) (v : View) (c : Ctx) : Option (View × List Event) :=
  let g := v.worker
  let queued := v.queuedEvent w c (ring (launchIndex g))
  if (g.half (ring (launchIndex g))).shareJobsPending ≠ 0 then none
  else if 0 < warmup g then
    some ({ v with worker := launchTriple g (warmup g - 1) .top }, [queued, .loopEnd w])
  else if g.stopFlag then some (v.exit, [])
  else some ({ v with worker := launchTriple g (warmup g) (.complete (completeHalf g)) }, [queued])

/-- One round of ping-pong, up to the wait for the other half. -/
def minePingPong (w : ℕ) (v : View) (c : Ctx) : Option (View × List Event) :=
  let g := v.worker
  let queued := v.queuedEvent w c g.ping
  if (g.half g.ping).shareJobsPending ≠ 0 then none
  else if g.first then
    some ({ v with worker := { queueBatch g g.ping with
        first := false, ping := g.pong, pong := g.ping, pc := .top } }, [queued, .loopEnd w])
  else if g.stopFlag then some (v.exit, [])
  else some ({ v with worker := { queueBatch g g.ping with pc := .complete g.pong } }, [queued])

def mine (w : ℕ) (v : View) : Option (View × List Event) :=
  match v.worker.currentSigma with
  | none => some (v.goto .top, [.loopEnd w])
  | some c => if v.worker.cfg.tripleBufferActive then v.mineTriple w c else v.minePingPong w c

/-- The ways in which a round goes on to mine. -/
theorem mine_cases {w : ℕ} {v : View} {r : View × List Event} {P : View × List Event → Prop}
    (h : v.mine w = some r)
    (idle : v.worker.currentSigma = none → P (v.goto .top, [.loopEnd w]))
    (exit : v.worker.stopFlag = true → P (v.exit, []))
    (tripleWarmup : ∀ c, v.worker.currentSigma = some c →
      v.worker.cfg.tripleBufferActive = true →
      (v.worker.half (ring (launchIndex v.worker))).shareJobsPending = 0 → 0 < warmup v.worker →
      P ({ v with worker := launchTriple v.worker (warmup v.worker - 1) .top },
        [v.queuedEvent w c (ring (launchIndex v.worker)), .loopEnd w]))
    (triple : ∀ c, v.worker.currentSigma = some c → v.worker.cfg.tripleBufferActive = true →
      (v.worker.half (ring (launchIndex v.worker))).shareJobsPending = 0 → warmup v.worker = 0 →
      P ({ v with worker := launchTriple v.worker 0 (.complete (completeHalf v.worker)) },
        [v.queuedEvent w c (ring (launchIndex v.worker))]))
    (firstPing : ∀ c, v.worker.currentSigma = some c → v.worker.cfg.tripleBufferActive = false →
      (v.worker.half v.worker.ping).shareJobsPending = 0 → v.worker.first = true →
      P ({ v with worker := { queueBatch v.worker v.worker.ping with
          first := false, ping := v.worker.pong, pong := v.worker.ping, pc := .top } },
        [v.queuedEvent w c v.worker.ping, .loopEnd w]))
    (pingPong : ∀ c, v.worker.currentSigma = some c → v.worker.cfg.tripleBufferActive = false →
      (v.worker.half v.worker.ping).shareJobsPending = 0 → v.worker.first = false →
      P ({ v with worker := { queueBatch v.worker v.worker.ping with
          pc := .complete v.worker.pong } }, [v.queuedEvent w c v.worker.ping])) : P r := by
  unfold mine at h
  split at h
  case h_1 hsigma => exact Option.some.inj h ▸ idle hsigma
  case h_2 c hsigma =>
    split_ifs at h with hbuffers
    · unfold mineTriple at h
      dsimp only at h
      split_ifs at h with hpending hwarmup hstop
      all_goals obtain rfl := Option.some.inj h
      · exact tripleWarmup c hsigma hbuffers (not_not.mp hpending) hwarmup
      · exact exit hstop
      · have hzero := Nat.eq_zero_of_not_pos hwarmup
        rw [hzero]
        exact triple c hsigma hbuffers (not_not.mp hpending) hzero
    · have hbuffers' : v.worker.cfg.tripleBufferActive = false := by simpa using hbuffers
      unfold minePingPong at h
      dsimp only at h
      split_ifs at h with hpending hfirst hstop
      all_goals obtain rfl := Option.some.inj h
      · exact firstPing c hsigma hbuffers' (not_not.mp hpending) hfirst
      · exact exit hstop
      · exact pingPong c hsigma hbuffers' (not_not.mp hpending) (by simpa using hfirst)

/-- `wait_for_batch` has returned true; `scan_winners` goes through the headers. -/
def scan (w : ℕ) (v : View) (h : HalfId) (hits : List ℕ) : View × List Event :=
  let g := v.worker
  (v.goto (.trigger h ((List.range g.batch).filter (· ∈ hits))),
    [.scanned w h (g.half h).batchSeedStart g.batch])

/-- The job that `enqueue_share_trigger` makes. -/
def shareTriggerJob (g : GpuWorker) (c : Ctx) (h : HalfId) (nonce : UInt64) : ShareTriggerJob where
  half := h
  nonce := nonce
  targetNbits := if (g.half h).batchMinedTargetNbits = 0 then g.targetNbits
    else (g.half h).batchMinedTargetNbits
  sigmaCtx := c

/-- One round of the loop over the winners. A share that is not deferred is worked out
on the spot. -/
def trigger (w : ℕ) (v : View) (c : Ctx) (h : HalfId) (k : ℕ) (winners : List ℕ) :
    View × List Event :=
  let g := v.worker
  let nonce := (g.half h).batchSeedStart + UInt64.ofNat k
  if g.cfg.deferShareGpu then
    ({ v with worker := { g.setHalf h Half.addShareJob with
        shareQueue := g.shareQueue ++ [shareTriggerJob g c h nonce]
        pc := .trigger h winners } }, [.winner w h k nonce, .shareQueued w h])
  else (v.goto (.trigger h winners), [.winner w h k nonce])

/-- The end of a round in which a batch was scanned. -/
def endRound (w : ℕ) (v : View) : View × List Event :=
  let g := v.worker
  if g.cfg.tripleBufferActive then (v.goto .top, [.loopEnd w])
  else ({ v with worker := { g with ping := g.pong, pong := g.ping, pc := .top } }, [.loopEnd w])

end View

/-- One step of `run`. -/
def runStep (w : ℕ) (v : View) (a : Answer) : Option (View × List Event) :=
  match v.worker.pc, a with
  | .top, .ok => some (v.runTop w)
  | .readSigma, .ok => some (v.readSigma, [])
  | .asyncFailed new, .ok => some (v.askFailed new, [])
  | .submitInstall new, .ok => some (v.submitAsyncInstall new, [])
  | .drain new swap, .ok => v.rotate w new swap
  | .install pc bound h todo, a =>
      v.worker.currentSigma.bind fun c => v.installCurrent w c pc a bound h todo
  | .bind pc swap bound h todo, a =>
      v.worker.currentSigma.bind fun c => v.bindHalf w c swap bound h todo pc a
  | .clearDirty swap, .ok => some (v.clearDirty swap, [])
  | .takeReady, .ok => some (v.takeAsyncReady, [])
  | .want ready, .ok => some (v.readWant ready, [])
  | .freeStale ready, .ok => some ({ v.goto .testDirty with heap := v.heap.free ready }, [])
  | .testDirty, .ok => some (v.testDirty, [])
  | .loadTarget, .ok => some (v.goto (.upload v.worker.targetNbits), [])
  | .upload nbits, .ok =>
      some ({ v with worker := { v.worker.uploadPowTargetAllHalves nbits with pc := .mine } }, [])
  | .mine, .ok => v.mine w
  | .complete h, .headers hits => some (v.scan w h hits)
  | .trigger h (k :: winners), .ok =>
      v.worker.currentSigma.map fun c => v.trigger w c h k winners
  | .trigger _ [], .ok => some (v.endRound w)
  -- a stall, or an exception that nothing in `run` catches
  | .drain .., .threw _ | .clearDirty _, .threw _ | .upload _, .threw _ | .mine, .threw _
  | .complete _, .threw _ => some (v.exit, [])
  | _, _ => none

/-- The lines where a stall or an exception ends `run`. -/
def RunPc.breaks : RunPc → Bool
  | .drain .. | .clearDirty _ | .upload _ | .mine | .complete _ => true
  | _ => false

/-- The steps of `run`, by the line it is at. What is shown of each of the functions
above holds of a step. -/
theorem runStep_cases {w : ℕ} {v : View} {a : Answer} {r : View × List Event}
    {P : View × List Event → Prop} (h : runStep w v a = some r)
    (top : v.worker.pc = .top → P (v.runTop w))
    (readSigma : v.worker.pc = .readSigma → P (v.readSigma, []))
    (asyncFailed : ∀ new, v.worker.pc = .asyncFailed new → P (v.askFailed new, []))
    (submitInstall : ∀ new, v.worker.pc = .submitInstall new → P (v.submitAsyncInstall new, []))
    (drain : ∀ new swap, v.worker.pc = .drain new swap → v.rotate w new swap = some r → P r)
    (install : ∀ pc bound half todo c, v.worker.pc = .install pc bound half todo →
      v.worker.currentSigma = some c → v.installCurrent w c pc a bound half todo = some r → P r)
    (bind : ∀ pc swap bound half todo c, v.worker.pc = .bind pc swap bound half todo →
      v.worker.currentSigma = some c → v.bindHalf w c swap bound half todo pc a = some r → P r)
    (clearDirty : ∀ swap, v.worker.pc = .clearDirty swap → P (v.clearDirty swap, []))
    (takeReady : v.worker.pc = .takeReady → P (v.takeAsyncReady, []))
    (want : ∀ ready, v.worker.pc = .want ready → P (v.readWant ready, []))
    (freeStale : ∀ ready, v.worker.pc = .freeStale ready →
      P ({ v.goto .testDirty with heap := v.heap.free ready }, []))
    (testDirty : v.worker.pc = .testDirty → P (v.testDirty, []))
    (loadTarget : v.worker.pc = .loadTarget → P (v.goto (.upload v.worker.targetNbits), []))
    (upload : ∀ nbits, v.worker.pc = .upload nbits → a = .ok →
      P ({ v with worker := { v.worker.uploadPowTargetAllHalves nbits with pc := .mine } }, []))
    (mine : v.worker.pc = .mine → v.mine w = some r → P r)
    (complete : ∀ half hits, v.worker.pc = .complete half → a = .headers hits →
      P (v.scan w half hits))
    (trigger : ∀ half k winners c, v.worker.pc = .trigger half (k :: winners) → a = .ok →
      v.worker.currentSigma = some c → P (v.trigger w c half k winners))
    (endRound : ∀ half, v.worker.pc = .trigger half [] → P (v.endRound w))
    (exit : ∀ far, a = .threw far → v.worker.pc.breaks = true → P (v.exit, [])) : P r := by
  -- the line comes before the answer: most answers are not taken at a line
  unfold runStep at h
  cases hpc : v.worker.pc <;> cases a <;> rw [hpc] at h <;> try cases h
  case top.ok => exact top hpc
  case readSigma.ok => exact readSigma hpc
  case asyncFailed.ok => exact asyncFailed _ hpc
  case submitInstall.ok => exact submitInstall _ hpc
  case drain.ok => exact drain _ _ hpc h
  case install.ok | install.threw | install.headers =>
    obtain ⟨c, hc, h⟩ := Option.bind_eq_some_iff.mp h
    exact install _ _ _ _ c hpc hc h
  case bind.ok | bind.threw | bind.headers =>
    obtain ⟨c, hc, h⟩ := Option.bind_eq_some_iff.mp h
    exact bind _ _ _ _ _ c hpc hc h
  case clearDirty.ok => exact clearDirty _ hpc
  case takeReady.ok => exact takeReady hpc
  case want.ok => exact want _ hpc
  case freeStale.ok => exact freeStale _ hpc
  case testDirty.ok => exact testDirty hpc
  case loadTarget.ok => exact loadTarget hpc
  case upload.ok => exact upload _ hpc rfl
  case mine.ok => exact mine hpc h
  case complete.headers => exact complete _ _ hpc rfl
  case trigger.ok half winners =>
    cases winners with
    | nil => exact Option.some.inj h ▸ endRound half hpc
    | cons k winners =>
      obtain ⟨c, hc, rfl⟩ := Option.map_eq_some_iff.mp h
      exact trigger half k winners c hpc rfl hc
  case trigger.threw half winners far => cases winners <;> cases h
  case trigger.headers half winners hits => cases winners <;> cases h
  all_goals exact exit _ rfl (by rw [hpc]; rfl)

/-! ### The other threads -/

namespace View

def installerGoto (v : View) (installer : InstallerPc) : View :=
  { v with worker := { v.worker with installer } }

/-- Take the requested context. -/
def takePending (v : View) : Option View :=
  v.worker.asyncPending.map fun c =>
    { v with worker := { v.worker with asyncPending := none, installer := .guard c } }

/-- `install` on the installer's own stream. -/
def installInBackground (w : ℕ) (v : View) (c : Ctx) (pc : InstallPc) (a : Answer) :
    Option (View × List Event) :=
  ((v.heap c).installStep (.installer w) pc a).map fun r =>
    let v := { v with heap := v.heap.modify c fun _ => r.1 }
    match r.2 with
    | .inside pc => (v.installerGoto (.install pc c), [])
    | .returned => (v.installerGoto (.publish c), [.installReturned w c r.1.allocated])
    | .threw => (v.installerGoto (.markFailed c), [])

/-- Publish a context as ready; one that was never consumed is superseded. -/
def publishReady (v : View) (c : Ctx) : View :=
  { v with worker := { v.worker with
    asyncReady := some c
    installer := match v.worker.asyncReady with
      | none => .wait
      | some old => if old ≠ c then .supersede old else .wait } }

end View

/-- One step of `async_install_loop`. -/
def installerStep (w : ℕ) (v : View) (a : Answer) : Option (View × List Event) :=
  match v.worker.installer, a with
  | .wait, .ok => v.takePending.map fun v => (v, [])
  | .guard c, .ok => some (v.installerGoto (.install .enter c), [])
  | .guard c, .threw _ => some (v.installerGoto (.markFailed c), [])
  | .install pc c, a => v.installInBackground w c pc a
  | .publish c, .ok => some (v.publishReady c, [])
  | .supersede old, .ok => some ({ v.installerGoto .wait with heap := v.heap.free old }, [])
  | .markFailed c, .ok =>
      some ({ v with worker := { v.worker with asyncFailed := some c, installer := .wait } }, [])
  | _, _ => none

/-- One step of `share_gpu_loop`: take the next job, or be done with the one at hand. -/
def shareStep (w : ℕ) (v : View) : Option (View × List Event) :=
  let g := v.worker
  match g.shareJob, g.shareQueue with
  | none, [] => none
  | none, job :: rest =>
      some ({ v with worker := { g with shareJob := some job, shareQueue := rest } }, [])
  | some job, _ =>
      some ({ v with worker := { g.setHalf job.half Half.shareJobDone with shareJob := none } },
        [.shareDone w job.half])

/-- The steps of the installer, by where it is. -/
theorem installerStep_cases {w : ℕ} {v : View} {a : Answer} {r : View × List Event}
    {P : View × List Event → Prop} (h : installerStep w v a = some r)
    (wait : ∀ c, v.worker.asyncPending = some c → v.worker.installer = .wait →
      P ({ v with worker := { v.worker with asyncPending := none, installer := .guard c } }, []))
    (guard : ∀ c, v.worker.installer = .guard c → P (v.installerGoto (.install .enter c), []))
    (refused : ∀ c, v.worker.installer = .guard c → P (v.installerGoto (.markFailed c), []))
    (install : ∀ pc c, v.worker.installer = .install pc c →
      v.installInBackground w c pc a = some r → P r)
    (publish : ∀ c, v.worker.installer = .publish c → P (v.publishReady c, []))
    (supersede : ∀ old, v.worker.installer = .supersede old →
      P ({ v.installerGoto .wait with heap := v.heap.free old }, []))
    (markFailed : ∀ c, v.worker.installer = .markFailed c →
      P ({ v with worker := { v.worker with asyncFailed := some c, installer := .wait } }, [])) :
    P r := by
  unfold installerStep at h
  split at h
  case h_1 hpc =>
    obtain ⟨v', hv', rfl⟩ := Option.map_eq_some_iff.mp h
    obtain ⟨c, hc, rfl⟩ := Option.map_eq_some_iff.mp hv'
    exact wait c hc hpc
  case h_2 hpc => exact Option.some.inj h ▸ guard _ hpc
  case h_3 hpc => exact Option.some.inj h ▸ refused _ hpc
  case h_4 hpc => exact install _ _ hpc h
  case h_5 hpc => exact Option.some.inj h ▸ publish _ hpc
  case h_6 hpc => exact Option.some.inj h ▸ supersede _ hpc
  case h_7 hpc => exact Option.some.inj h ▸ markFailed _ hpc
  case h_8 => cases h

end PropMiner.Jobs
