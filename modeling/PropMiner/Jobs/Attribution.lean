import PropMiner.Jobs.Pipeline
import PropMiner.Semantics.OpStream
import PropMiner.Share.Target

/-!
# The target of a share

A batch is mined against the target that is in device memory while it runs. The host
learns of a hit later, when that target may have been replaced, so it pins what it
believes to be on the device when it queues the batch.

Here each half has its CUDA stream, a queue of copies and batches that the device works
off in order and at its own pace. Nothing but the wait for a batch makes the host wait;
the other synchronisations of the source only exclude runs.

## Main definitions

* `HalfDevice`, `Rig`, `rig` — the miner with its devices
* `attribution` — each share trigger carries the target its batch was executed with

## Main results

* `attributed` — along every run of any number of workers
-/

set_option autoImplicit false

namespace PropMiner.Jobs

open PropMiner.Semantics (Machine Monitor OpStream)
open PropMiner.Share (adjustedPowTargetLe targetLeToPowU32)

/-! ### The device -/

/-- The contents of a `pow_target` buffer, and the compact target they are made of. -/
structure PowTarget where
  nbits : UInt32
  words : List UInt32
  deriving DecidableEq, Repr

/-- What `upload_pow_target` copies. -/
def powTarget (daf : UInt64) (nbits : UInt32) : PowTarget where
  nbits := nbits
  words := targetLeToPowU32 (adjustedPowTargetLe nbits daf)

inductive StreamOp
  | copyTarget (target : PowTarget)
  | batch (seed : UInt64) (count : ℕ)
  deriving DecidableEq, Repr

def StreamOp.isBatch : StreamOp → Bool
  | .copyTarget _ => false
  | .batch .. => true

/-- A batch that was executed, and the target it was compared with. -/
structure Execution where
  seed : UInt64
  count : ℕ
  target : Option PowTarget
  deriving DecidableEq, Repr

/-- The device memory of a half, as far as targets are concerned. -/
structure HalfDevice where
  /-- `pow_target`, which holds nothing before the first copy -/
  powTarget : Option PowTarget := none
  /-- the batch executed last -/
  executed : Option Execution := none
  deriving DecidableEq, Repr

def HalfDevice.exec (d : HalfDevice) : StreamOp → HalfDevice
  | .copyTarget target => { d with powTarget := some target }
  | .batch seed count => { d with executed := some ⟨seed, count, d.powTarget⟩ }

/-- The miner with the streams of each worker's halves. -/
structure Rig (n : ℕ) where
  miner : Miner n
  streams : Fin n → HalfId → OpStream HalfDevice StreamOp := fun _ _ => { state := {} }

inductive RigInput (n : ℕ)
  | host (a : Input n)
  /-- the device does the next operation of this stream -/
  | device (w : Fin n) (half : HalfId)
  deriving DecidableEq, Repr

inductive RigEvent
  | host (e : Event)
  /-- `upload_pow_target` with a target that is not zero -/
  | uploaded (w : ℕ) (half : HalfId) (nbits : UInt32)
  | executed (w : ℕ) (half : HalfId) (execution : Execution)
  /-- `enqueue_share_trigger` or `handle_trigger`, with the job it makes -/
  | triggered (w : ℕ) (job : ShareTriggerJob)
  deriving DecidableEq, Repr

/-- The target that a step of `run` uploads to a half; a zero target is skipped. -/
def uploadedTo (g : GpuWorker) (a : Answer) (h : HalfId) : Option UInt32 :=
  match g.pc, a with
  | .bind (.upload nbits) _ _ half _, .ok => if half = h ∧ nbits ≠ 0 then some nbits else none
  -- an exception after the upload
  | .bind (.upload nbits) _ _ half _, .threw true =>
      if half = h ∧ nbits ≠ 0 then some nbits else none
  | .upload nbits, .ok => if h ∈ g.halves ∧ nbits ≠ 0 then some nbits else none
  | _, _ => none

/-- The job for the winner that a step of `run` looks at. -/
def triggerJob (g : GpuWorker) (a : Answer) : Option ShareTriggerJob :=
  match g.pc, a, g.currentSigma with
  | .trigger half (k :: _), .ok, some c =>
      some (View.shareTriggerJob g c half ((g.half half).batchSeedStart + UInt64.ofNat k))
  | _, _, _ => none

/-- The batches among these events that go on this half. -/
def batchOps (w : ℕ) (h : HalfId) (es : List Event) : List StreamOp :=
  (es.filterMap (Event.queuedBatch w)).filterMap fun b =>
    if b.half = h then some (.batch b.seed b.count) else none

/-- What a step of `run` puts on the stream of a half. -/
def issued (daf : UInt64) (w : ℕ) (g : GpuWorker) (a : Answer) (es : List Event) (h : HalfId) :
    List StreamOp :=
  ((uploadedTo g a h).map fun nbits => .copyTarget (powTarget daf nbits)).toList ++ batchOps w h es

def uploadEvents (w : ℕ) (g : GpuWorker) (a : Answer) (halves : List HalfId) : List RigEvent :=
  halves.filterMap fun h => (uploadedTo g a h).map (.uploaded w h)

namespace Rig

variable {n : ℕ}

/-- `wait_for_batch` has not returned: a batch of the half is still to be executed. -/
def waiting (r : Rig n) : Input n → Bool
  | .run w (.headers _) =>
      match (r.miner.workers w).pc with
      | .complete half => (r.streams w half).queue.any StreamOp.isBatch
      | _ => false
  | _ => false

/-- What a step of the host does to the devices, and what can be seen of it. -/
def afterHost (daf : Fin n → UInt64) (r : Rig n) (a : Input n) (s' : Miner n) (es : List Event) :
    Rig n × List RigEvent :=
  match a with
  | .run w x =>
      let g := r.miner.workers w
      ({ miner := s'
         streams := Function.update r.streams w fun h =>
           (r.streams w h).enqueue (issued (daf w) w g x es h) },
        uploadEvents w g x [.ping, .pong, .third] ++ es.map .host ++
          ((triggerJob g x).map (.triggered w)).toList)
  | _ => ({ r with miner := s' }, es.map .host)

def step (daf : Fin n → UInt64) (r : Rig n) : RigInput n → Option (Rig n × List RigEvent)
  | .host a =>
      if r.waiting a then none
      else (r.miner.step a).map fun q => r.afterHost daf a q.1 q.2
  | .device w half =>
      ((r.streams w half).advance HalfDevice.exec).map fun d =>
        ({ r with streams := Function.update r.streams w (Function.update (r.streams w) half d) },
          match (r.streams w half).queue.head?, d.state.executed with
          | some (.batch ..), some x => [.executed w half x]
          | _, _ => [])

end Rig

def rig {n : ℕ} (daf : Fin n → UInt64) : Machine (Rig n) (RigInput n) RigEvent := ⟨Rig.step daf⟩

/-! ### What is promised -/

/-- What is known of each half of a worker. -/
structure Attribution where
  /-- a target was uploaded -/
  uploaded : HalfId → Bool := fun _ => false
  /-- a target was uploaded before the last batch was queued -/
  pinned : HalfId → Bool := fun _ => false
  executed : HalfId → Option Execution := fun _ => none

/-- A share trigger is about a nonce of the batch that was executed last on its half, and
carries the target that was on the device then. -/
def attribution (daf : UInt64) (w : ℕ) : Monitor RigEvent Attribution where
  start := {}
  observe
    | m, .uploaded w' half _ =>
        if w' = w then { m with uploaded := Function.update m.uploaded half true } else m
    | m, .host e =>
        match e.queuedBatch w with
        | some b => { m with pinned := Function.update m.pinned b.half (m.uploaded b.half) }
        | none => m
    | m, .executed w' half x =>
        if w' = w then { m with executed := Function.update m.executed half (some x) } else m
    | m, .triggered .. => m
  allows
    | m, .triggered w' job => w' = w →
        ∃ x k, m.executed job.half = some x ∧ k < x.count ∧
          job.nonce = x.seed + UInt64.ofNat k ∧
            (m.pinned job.half = true → x.target = some (powTarget daf job.targetNbits))
    | _, _ => True

/-! ### What the run loop does to the targets of the halves -/

/-- A step of `run` launches a batch on one half, or does something else. -/
inductive TargetEffect (w : ℕ) (g : GpuWorker) (a : Answer) (g' : GpuWorker) (es : List Event) :
    Prop
  | launch (k : HalfId) (c : Ctx) (allocated : Bool) (rest : List Event)
      (hes : es = .queued w k c allocated (g.cfg.seedBase + g.globalIter) g.batch :: rest)
      (hrest : ∀ e ∈ rest, e.silent = true) (huploaded : ∀ h, uploadedTo g a h = none)
      (hhalf : g'.half =
        Function.update g.half k ((g.half k).beginBatch (g.cfg.seedBase + g.globalIter)))
      (hpc : ∀ h ws, g'.pc ≠ .trigger h ws) (htrigger : triggerJob g a = none)
  | other (hes : ∀ e ∈ es, e.queuedBatch w = none)
      (hpow : ∀ h, (g'.half h).powTargetNbits = (uploadedTo g a h).getD (g.half h).powTargetNbits)
      (hmined : ∀ h, (g'.half h).batchMinedTargetNbits = (g.half h).batchMinedTargetNbits)
      (hseed : ∀ h, (g'.half h).batchSeedStart = (g.half h).batchSeedStart)
      (hpc : ∀ h ws, g'.pc = .trigger h ws → g'.batch = g.batch ∧
        ((g.pc = .complete h ∧ ∃ hits, a = .headers hits) ∨ ∃ k, g.pc = .trigger h (k :: ws)))

section Effects

variable {w : ℕ} {v : View} {a : Answer} {r : View × List Event} {g g' : GpuWorker}
  {es : List Event} {h : HalfId}

/-- The lines that upload a target. -/
def RunPc.uploads : RunPc → Bool
  | .bind (.upload _) .. | .upload _ => true
  | _ => false

/-- The line that hands a nonce to the share builder. -/
def RunPc.triggers : RunPc → Bool
  | .trigger .. => true
  | _ => false

theorem ne_trigger_of_triggers {pc : RunPc} (hpc : pc.triggers = false) (h : HalfId)
    (ws : List ℕ) : pc ≠ .trigger h ws := by
  rintro rfl
  cases hpc

/-- A step that touches no half and makes no trigger of its own. -/
theorem targetEffect_quiet (hhalf : g'.half = g.half) (hup : ∀ h, uploadedTo g a h = none)
    (hes : ∀ e ∈ es, e.queuedBatch w = none) (hpc : g'.pc.triggers = false) :
    TargetEffect w g a g' es := by
  refine .other hes (fun h => ?_) (fun h => ?_) (fun h => ?_) fun h ws heq =>
    absurd heq (ne_trigger_of_triggers hpc h ws)
  · rw [hhalf, hup]
    rfl
  · rw [hhalf]
  · rw [hhalf]

theorem uploadedTo_of_pc {pc : RunPc} (hpc : g.pc = pc) (hline : pc.uploads = false) :
    uploadedTo g a h = none := by
  subst hpc
  unfold uploadedTo
  split
  case h_4 => rfl
  all_goals
    rename_i hpc
    rw [hpc] at hline
    cases hline

/-- The same at a line that uploads nothing. -/
theorem targetEffect_line {pc : RunPc} (hpc : g.pc = pc) (hline : pc.uploads = false)
    (hhalf : g'.half = g.half) (hes : ∀ e ∈ es, e.queuedBatch w = none)
    (hpc' : g'.pc.triggers = false) : TargetEffect w g a g' es :=
  targetEffect_quiet hhalf (fun _ => uploadedTo_of_pc hpc hline) hes hpc'

/-- The same when nothing can be seen of the step. -/
theorem targetEffect_mute {pc : RunPc} (hpc : g.pc = pc) (hline : pc.uploads = false)
    (hhalf : g'.half = g.half) (hpc' : g'.pc.triggers = false) : TargetEffect w g a g' [] :=
  targetEffect_line hpc hline hhalf (List.forall_mem_nil _) hpc'

theorem uploadedTo_ne_zero {nbits : UInt32} (hup : uploadedTo g a h = some nbits) : nbits ≠ 0 := by
  unfold uploadedTo at hup
  split at hup
  case h_4 => cases hup
  all_goals
    split_ifs at hup with hcond
    obtain rfl := Option.some.inj hup
    exact hcond.2

theorem triggerJob_of_pc {pc : RunPc} (hpc : g.pc = pc) (hline : pc.triggers = false) :
    triggerJob g a = none := by
  unfold triggerJob
  split
  case h_1 htrigger _ =>
    rw [← hpc, htrigger] at hline
    cases hline
  case h_2 => rfl

/-- The step of a launch. -/
theorem targetEffect_launch {k : HalfId} {c : Ctx} {rest : List Event} (hpc : v.worker.pc = .mine)
    (hhalf : g'.half = (View.queueBatch v.worker k).half) (hpc' : g'.pc.triggers = false)
    (hrest : ∀ e ∈ rest, e.silent = true) :
    TargetEffect w v.worker a g' (v.queuedEvent w c k :: rest) :=
  .launch k c _ rest rfl hrest (fun _ => uploadedTo_of_pc hpc rfl) hhalf
    (ne_trigger_of_triggers hpc') (triggerJob_of_pc hpc rfl)

theorem targetEffect_mine (hpc : v.worker.pc = .mine) (hstep : v.mine w = some r) :
    TargetEffect w v.worker a r.1.worker r.2 := by
  have hup : ∀ h, uploadedTo v.worker a h = none := fun h => uploadedTo_of_pc hpc rfl
  refine View.mine_cases (P := fun r => TargetEffect w v.worker a r.1.worker r.2) hstep ?idle
    ?exit ?tripleWarmup ?triple ?firstPing ?pingPong
  case idle =>
    intro _
    refine targetEffect_quiet rfl hup ?_ rfl
    simp [Event.queuedBatch]
  case exit =>
    intro _
    exact targetEffect_quiet rfl hup (List.forall_mem_nil _) rfl
  case tripleWarmup | firstPing =>
    intros
    refine targetEffect_launch hpc rfl rfl ?_
    simp [Event.silent]
  case triple | pingPong =>
    intros
    exact targetEffect_launch hpc rfl rfl (List.forall_mem_nil _)

/-- A change of a half that leaves its targets and its seed alone. -/
theorem targets_setHalf {f : Half → Half}
    (hf : ∀ x : Half, (f x).powTargetNbits = x.powTargetNbits ∧
      (f x).batchMinedTargetNbits = x.batchMinedTargetNbits ∧
      (f x).batchSeedStart = x.batchSeedStart) (g : GpuWorker) (half h : HalfId) :
    ((g.setHalf half f).half h).powTargetNbits = (g.half h).powTargetNbits ∧
      ((g.setHalf half f).half h).batchMinedTargetNbits = (g.half h).batchMinedTargetNbits ∧
      ((g.setHalf half f).half h).batchSeedStart = (g.half h).batchSeedStart := by
  by_cases heq : h = half
  · subst heq
    simpa [GpuWorker.setHalf] using hf (g.half h)
  · simp [GpuWorker.setHalf, heq]

/-- An upload to one half. -/
theorem half_uploadPowTarget (g : GpuWorker) (half h : HalfId) (nbits : UInt32) :
    ((g.uploadPowTarget half nbits).half h).powTargetNbits =
        (if half = h ∧ nbits ≠ 0 then some nbits else none).getD (g.half h).powTargetNbits ∧
      ((g.uploadPowTarget half nbits).half h).batchMinedTargetNbits =
        (g.half h).batchMinedTargetNbits ∧
      ((g.uploadPowTarget half nbits).half h).batchSeedStart = (g.half h).batchSeedStart := by
  by_cases heq : h = half
  · subst heq
    by_cases hzero : nbits = 0
    · simp [GpuWorker.uploadPowTarget, GpuWorker.setHalf, Half.uploadPowTarget, hzero]
    · simp [GpuWorker.uploadPowTarget, GpuWorker.setHalf, Half.uploadPowTarget, hzero]
  · simp [GpuWorker.uploadPowTarget, GpuWorker.setHalf, heq, Ne.symm heq]

/-- An upload to some of the halves. -/
theorem half_uploads (nbits : UInt32) (halves : List HalfId) (g : GpuWorker) (h : HalfId) :
    let g' := halves.foldl (fun g h => g.uploadPowTarget h nbits) g
    (g'.half h).powTargetNbits =
        (if h ∈ halves ∧ nbits ≠ 0 then some nbits else none).getD (g.half h).powTargetNbits ∧
      (g'.half h).batchMinedTargetNbits = (g.half h).batchMinedTargetNbits ∧
      (g'.half h).batchSeedStart = (g.half h).batchSeedStart := by
  induction halves generalizing g with
  | nil => simp
  | cons half halves ih =>
    obtain ⟨hpow, hmined, hseed⟩ := ih (g.uploadPowTarget half nbits)
    obtain ⟨hpow', hmined', hseed'⟩ := half_uploadPowTarget g half h nbits
    refine ⟨?_, hmined.trans hmined', hseed.trans hseed'⟩
    rw [List.foldl_cons, hpow, hpow']
    by_cases hzero : nbits = 0
    · simp [hzero]
    · by_cases hmem : h ∈ halves
      · simp [hzero, hmem]
      · by_cases heq : half = h
        · simp [hzero, hmem, heq]
        · simp [hzero, hmem, heq, Ne.symm heq]

theorem targetEffect_bindThrows {swap : Bool} (hup : ∀ h, uploadedTo v.worker a h = none) :
    TargetEffect w v.worker a (v.bindThrows w swap).1.worker (v.bindThrows w swap).2 := by
  cases swap with
  | false =>
    refine targetEffect_quiet rfl hup ?_ rfl
    simp [View.bindThrows, View.giveUp, Event.queuedBatch]
  | true => exact targetEffect_quiet rfl hup (List.forall_mem_nil _) rfl

theorem targetEffect_bindHalf {c : Ctx} {pc : BindPc} {swap : Bool} {bound todo : List HalfId}
    {half : HalfId} (hpc : v.worker.pc = .bind pc swap bound half todo)
    (hstep : v.bindHalf w c swap bound half todo pc a = some r) :
    TargetEffect w v.worker a r.1.worker r.2 := by
  have hnext : ∀ h ws, View.nextHalf swap bound half todo ≠ .trigger h ws := by
    intro h ws heq
    have hphase := phase_nextHalf swap bound half todo
    rw [heq] at hphase
    cases hphase
  unfold View.bindHalf at hstep
  split at hstep
  case h_4 nbits =>
    obtain rfl := Option.some.inj hstep
    have hup : ∀ h, uploadedTo v.worker .ok h =
        if half = h ∧ nbits ≠ 0 then some nbits else none := by
      intro h
      unfold uploadedTo
      rw [hpc]
    refine .other (List.forall_mem_nil _) (fun h => ?_) (fun h => ?_) (fun h => ?_) fun h ws heq =>
      absurd heq (hnext h ws)
    · rw [hup]
      exact (half_uploadPowTarget v.worker half h nbits).1
    · exact (half_uploadPowTarget v.worker half h nbits).2.1
    · exact (half_uploadPowTarget v.worker half h nbits).2.2
  case h_6 nbits far =>
    obtain rfl := Option.some.inj hstep
    cases far with
    | false =>
      have hup : ∀ h, uploadedTo v.worker (.threw false) h = none := by
        intro h
        unfold uploadedTo
        rw [hpc]
      exact targetEffect_bindThrows hup
    | true =>
      have hup : ∀ h, uploadedTo v.worker (.threw true) h =
          if half = h ∧ nbits ≠ 0 then some nbits else none := by
        intro h
        unfold uploadedTo
        rw [hpc]
      refine .other ?_ (fun h => ?_) (fun h => ?_) (fun h => ?_) ?_
      · cases swap <;> simp [View.bindThrows, View.giveUp, Event.queuedBatch]
      · rw [hup]
        cases swap <;> exact (half_uploadPowTarget v.worker half h nbits).1
      · cases swap <;> exact (half_uploadPowTarget v.worker half h nbits).2.1
      · cases swap <;> exact (half_uploadPowTarget v.worker half h nbits).2.2
      · cases swap <;> rintro _ _ ⟨⟩
  case h_7 => cases hstep
  case h_5 =>
    obtain rfl := Option.some.inj hstep
    exact targetEffect_bindThrows fun h => uploadedTo_of_pc hpc rfl
  all_goals
    obtain rfl := Option.some.inj hstep
    exact targetEffect_mute hpc rfl rfl rfl

theorem targetEffect_upload {nbits : UInt32} (hpc : v.worker.pc = .upload nbits) :
    TargetEffect w v.worker .ok
      { v.worker.uploadPowTargetAllHalves nbits with pc := .mine } [] := by
  have hup : ∀ h, uploadedTo v.worker .ok h =
      if h ∈ v.worker.halves ∧ nbits ≠ 0 then some nbits else none := by
    intro h
    unfold uploadedTo
    rw [hpc]
  have hhalf := half_uploads nbits v.worker.halves v.worker
  refine .other (List.forall_mem_nil _) (fun h => ?_) (fun h => (hhalf h).2.1)
    (fun h => (hhalf h).2.2) ?_
  · rw [hup]
    exact (hhalf h).1
  · rintro h ws ⟨⟩

theorem targetEffect_scan {half : HalfId} {hits : List ℕ} (hpc : v.worker.pc = .complete half) :
    TargetEffect w v.worker (.headers hits) (v.scan w half hits).1.worker
      (v.scan w half hits).2 := by
  have hup : ∀ h, uploadedTo v.worker (.headers hits) h = none :=
    fun h => uploadedTo_of_pc hpc rfl
  refine .other ?_ (fun h => ?_) (fun _ => rfl) (fun _ => rfl) ?_
  · simp [View.scan, Event.queuedBatch]
  · rw [hup]
    rfl
  · rintro h ws heq
    obtain ⟨rfl, -⟩ : half = h ∧ _ = ws := RunPc.trigger.inj heq
    exact ⟨rfl, .inl ⟨hpc, hits, rfl⟩⟩

theorem targetEffect_trigger {half : HalfId} {k : ℕ} {winners : List ℕ} {c : Ctx}
    (hpc : v.worker.pc = .trigger half (k :: winners)) :
    TargetEffect w v.worker .ok (v.trigger w c half k winners).1.worker
      (v.trigger w c half k winners).2 := by
  have hup : ∀ h, uploadedTo v.worker .ok h = none := fun h => uploadedTo_of_pc hpc rfl
  have hjob := targets_setHalf (f := Half.addShareJob) (fun _ => ⟨rfl, rfl, rfl⟩) v.worker half
  unfold View.trigger
  dsimp only
  -- a job is added to the half, or the trigger is dropped and the half stays as it is
  split_ifs
  · refine .other ?_ (fun h => ?_) (fun h => (hjob h).2.1) (fun h => (hjob h).2.2) ?_
    · simp [Event.queuedBatch]
    · rw [hup]
      exact (hjob h).1
    · rintro h ws ⟨⟩
      exact ⟨rfl, .inr ⟨k, hpc⟩⟩
  · refine .other ?_ (fun h => ?_) (fun _ => rfl) (fun _ => rfl) ?_
    · simp [Event.queuedBatch]
    · rw [hup]
      rfl
    · rintro h ws ⟨⟩
      exact ⟨rfl, .inr ⟨k, hpc⟩⟩

theorem targetEffect_runStep (hstep : runStep w v a = some r) :
    TargetEffect w v.worker a r.1.worker r.2 := by
  refine runStep_cases (P := fun r => TargetEffect w v.worker a r.1.worker r.2) hstep ?top
    ?readSigma ?asyncFailed ?submitInstall ?drain ?install ?bind ?clearDirty ?takeReady ?want
    ?freeStale ?testDirty ?loadTarget ?upload ?mine ?complete ?trigger ?endRound ?exit
  case top =>
    intro hpc
    unfold View.runTop
    split_ifs
    · exact targetEffect_mute hpc rfl rfl rfl
    · exact targetEffect_mute hpc rfl rfl (by rw [hpc]; rfl)
    · refine targetEffect_line hpc rfl rfl ?_ rfl
      simp [Event.queuedBatch]
  case readSigma =>
    intro hpc
    unfold View.readSigma
    dsimp only
    split
    · split_ifs <;> exact targetEffect_mute hpc rfl rfl rfl
    · split_ifs <;> exact targetEffect_mute hpc rfl rfl rfl
  case asyncFailed =>
    intro new hpc
    unfold View.askFailed
    split_ifs <;> exact targetEffect_mute hpc rfl rfl rfl
  case submitInstall =>
    intro new hpc
    unfold View.submitAsyncInstall
    split_ifs <;> exact targetEffect_mute hpc rfl rfl rfl
  case drain =>
    intro new swap hpc hrotate
    unfold View.rotate at hrotate
    dsimp only at hrotate
    split_ifs at hrotate
    obtain rfl := Option.some.inj hrotate
    refine targetEffect_line hpc rfl rfl ?_ ?_
    · simp [Event.queuedBatch]
    · dsimp only [View.startHalves]
      split_ifs <;> rfl
  case install =>
    intro pc bound half todo c hpc _ hinstall
    obtain ⟨⟨x, result⟩, -, rfl⟩ := Option.map_eq_some_iff.mp hinstall
    cases result with
    | inside pc => exact targetEffect_mute hpc rfl rfl rfl
    | returned =>
      refine targetEffect_line hpc rfl rfl ?_ rfl
      simp [Event.queuedBatch]
    | threw =>
      refine targetEffect_line hpc rfl rfl ?_ rfl
      simp [View.giveUp, Event.queuedBatch]
  case bind =>
    intro pc swap bound half todo c hpc _ hbind
    exact targetEffect_bindHalf hpc hbind
  case clearDirty =>
    intro swap hpc
    refine targetEffect_mute hpc rfl rfl ?_
    cases swap <;> rfl
  case takeReady =>
    intro hpc
    unfold View.takeAsyncReady
    split <;> exact targetEffect_mute hpc rfl rfl rfl
  case want =>
    intro ready hpc
    unfold View.readWant
    dsimp only
    split_ifs <;> exact targetEffect_mute hpc rfl rfl rfl
  case freeStale =>
    intro ready hpc
    exact targetEffect_mute hpc rfl rfl rfl
  case testDirty =>
    intro hpc
    unfold View.testDirty
    split_ifs <;> exact targetEffect_mute hpc rfl rfl rfl
  case loadTarget =>
    intro hpc
    exact targetEffect_mute hpc rfl rfl rfl
  case upload =>
    rintro nbits hpc rfl
    exact targetEffect_upload hpc
  case mine =>
    intro hpc hmine
    exact targetEffect_mine hpc hmine
  case complete =>
    rintro half hits hpc rfl
    exact targetEffect_scan hpc
  case trigger =>
    rintro half k winners c hpc rfl _
    exact targetEffect_trigger hpc
  case endRound =>
    intro half hpc
    unfold View.endRound
    dsimp only
    split_ifs
    all_goals
      refine targetEffect_line hpc rfl rfl ?_ rfl
      simp [Event.queuedBatch]
  case exit =>
    -- only while a half is bound can an upload have been made before the exception
    rintro far rfl hbreaks
    refine targetEffect_quiet rfl (fun h => ?_) (List.forall_mem_nil _) rfl
    unfold uploadedTo
    cases hpc : v.worker.pc
    case bind =>
      rw [hpc] at hbreaks
      cases hbreaks
    all_goals rfl

end Effects

/-! ### Monitors over the events of a step -/

section Observed

variable {daf : UInt64} {w : ℕ} {m : Attribution} {p : Pipeline} {g : GpuWorker} {a : Answer}
  {es : List Event} {h : HalfId}

/-- Without a launch no batch enters the queue. -/
theorem mem_inFlight_of_foldl (hes : ∀ e ∈ es, e.queuedBatch w = none) {b : Batch}
    (hb : b ∈ (es.foldl (pipeline w).observe p).inFlight) : b ∈ p.inFlight := by
  induction es generalizing p with
  | nil => exact hb
  | cons e es ih =>
    have hstep := ih (fun e' he' => hes e' (List.mem_cons_of_mem e he')) hb
    have he := hes e (List.mem_cons_self ..)
    by_cases hw : e.ofWorker w = true
    · rw [pipeline_observe hw] at hstep
      cases e with
      | queued w' =>
        obtain rfl : w' = w := by simpa [Event.ofWorker] using hw
        simp [Event.queuedBatch] at he
      | scanned => exact List.mem_of_mem_tail hstep
      | rotated => cases hstep
      | _ => exact hstep
    · have hsame : (pipeline w).observe p e = p := if_neg hw
      rwa [hsame] at hstep

/-- The uploads of a step. -/
theorem foldl_uploadEvents (daf : UInt64) (w : ℕ) (m : Attribution) (g : GpuWorker) (a : Answer)
    (halves : List HalfId) :
    let m' := (uploadEvents w g a halves).foldl (attribution daf w).observe m
    (∀ h, m'.uploaded h = true → m.uploaded h = true ∨ (uploadedTo g a h).isSome = true) ∧
      m'.pinned = m.pinned ∧ m'.executed = m.executed := by
  induction halves generalizing m with
  | nil => exact ⟨fun _ => .inl, rfl, rfl⟩
  | cons half halves ih =>
    cases hup : uploadedTo g a half with
    | none =>
      simp only [uploadEvents, List.filterMap_cons, hup, Option.map_none]
      exact ih m
    | some nbits =>
      simp only [uploadEvents, List.filterMap_cons, hup, Option.map_some, List.foldl_cons]
      obtain ⟨huploaded, hpinned, hexecuted⟩ :=
        ih ((attribution daf w).observe m (.uploaded w half nbits))
      have hobserve : (attribution daf w).observe m (.uploaded w half nbits) =
          { m with uploaded := Function.update m.uploaded half true } := if_pos rfl
      rw [hobserve] at huploaded hpinned hexecuted
      rw [hobserve]
      refine ⟨fun h hh => ?_, hpinned, hexecuted⟩
      rcases huploaded h hh with hold | hnew
      · by_cases heq : h = half
        · subst heq
          simp [hup]
        · change Function.update m.uploaded half true h = true at hold
          rw [Function.update_of_ne heq] at hold
          exact .inl hold
      · exact .inr hnew

/-- Without a launch the events of the host change nothing. -/
theorem foldl_host (hes : ∀ e ∈ es, e.queuedBatch w = none) :
    (es.map RigEvent.host).foldl (attribution daf w).observe m = m := by
  induction es with
  | nil => rfl
  | cons e es ih =>
    have hsame : (attribution daf w).observe m (.host e) = m := by
      simp [attribution, hes e (List.mem_cons_self ..)]
    rw [List.map_cons, List.foldl_cons, hsame]
    exact ih fun e' he' => hes e' (List.mem_cons_of_mem e he')

theorem allowsAll_uploads_host (halves : List HalfId) :
    (attribution daf w).AllowsAll m (uploadEvents w g a halves ++ es.map .host) := by
  refine Monitor.allowsAll_of_forall fun e he m => ?_
  rcases List.mem_append.mp he with hup | hhost
  · obtain ⟨half, -, hhalf⟩ := List.mem_filterMap.mp hup
    obtain ⟨nbits, -, rfl⟩ := Option.map_eq_some_iff.mp hhalf
    trivial
  · obtain ⟨e, -, rfl⟩ := List.mem_map.mp hhost
    trivial

theorem queuedBatch_of_silent {e : Event} (he : e.silent = true) : e.queuedBatch w = none := by
  cases e with
  | queued => cases he
  | _ => rfl

theorem batchOps_of_none (hes : ∀ e ∈ es, e.queuedBatch w = none) : batchOps w h es = [] := by
  have hnil : es.filterMap (Event.queuedBatch w) = [] := List.filterMap_eq_nil_iff.mpr hes
  rw [batchOps, hnil, List.filterMap_nil]

end Observed

/-! ### The invariant -/

/-- The target that the host believes to be on the device. -/
def believed (daf : UInt64) (nbits : UInt32) : Option PowTarget :=
  if nbits = 0 then none else some (powTarget daf nbits)

/-- `pow_target_nbits` is what the device will have when its stream is worked off, and
`batch_mined_target_nbits` is what it will have had for the last batch. -/
structure Attributed (daf : UInt64) (g : GpuWorker) (st : HalfId → OpStream HalfDevice StreamOp)
    (p : Pipeline) (m : Attribution) : Prop where
  follows : Follows g p
  settled : ∀ h, ((st h).settled HalfDevice.exec).powTarget =
    believed daf (g.half h).powTargetNbits
  inFlight : ∀ b ∈ p.inFlight, ((st b.half).settled HalfDevice.exec).executed =
    some ⟨b.seed, b.count, believed daf (g.half b.half).batchMinedTargetNbits⟩
  /-- while the winners of a batch are looked at, no other batch runs on its half -/
  scanned : ∀ h ws, g.pc = .trigger h ws → (st h).queue.any StreamOp.isBatch = false ∧
    (st h).state.executed = some ⟨(g.half h).batchSeedStart, g.batch,
      believed daf (g.half h).batchMinedTargetNbits⟩
  uploaded : ∀ h, m.uploaded h = true → (g.half h).powTargetNbits ≠ 0
  pinned : ∀ h, m.pinned h = true → (g.half h).batchMinedTargetNbits ≠ 0
  executed : ∀ h, m.executed h = (st h).state.executed

namespace Attributed

variable {daf : UInt64} {w : ℕ} {v : View} {g g' : GpuWorker} {a : Answer}
  {st : HalfId → OpStream HalfDevice StreamOp} {p : Pipeline} {m : Attribution}
  {es : List Event} {r : View × List Event}

/-- A step that has nothing to do with targets. -/
theorem congr (h : Attributed daf g st p m) {p' : Pipeline} (hfollows : Follows g' p')
    (hflight : ∀ b ∈ p'.inFlight, b ∈ p.inFlight)
    (hpow : ∀ h, (g'.half h).powTargetNbits = (g.half h).powTargetNbits)
    (hmined : ∀ h, (g'.half h).batchMinedTargetNbits = (g.half h).batchMinedTargetNbits)
    (hseed : ∀ h, (g'.half h).batchSeedStart = (g.half h).batchSeedStart)
    (hbatch : g'.batch = g.batch) (hpc : g'.pc = g.pc) : Attributed daf g' st p' m := by
  refine ⟨hfollows, fun half => ?_, fun b hb => ?_, fun half ws htrigger => ?_, fun half => ?_,
    fun half => ?_, h.executed⟩
  · rw [hpow]
    exact h.settled half
  · rw [hmined]
    exact h.inFlight b (hflight b hb)
  · rw [hmined, hseed, hbatch]
    exact h.scanned half ws (hpc ▸ htrigger)
  · rw [hpow]
    exact h.uploaded half
  · rw [hmined]
    exact h.pinned half

/-- A batch is launched: the device will compare it with the target that the host pins. -/
theorem launch (h : Attributed daf v.worker st p m) {k : HalfId} {c : Ctx} {allocated : Bool}
    {rest : List Event} (hfollowed : Followed w p r)
    (hes : r.2 = .queued w k c allocated (v.worker.cfg.seedBase + v.worker.globalIter)
      v.worker.batch :: rest)
    (hrest : ∀ e ∈ rest, e.silent = true) (hup : ∀ h, uploadedTo v.worker a h = none)
    (hhalf : r.1.worker.half = Function.update v.worker.half k
      ((v.worker.half k).beginBatch (v.worker.cfg.seedBase + v.worker.globalIter)))
    (hpc : ∀ h ws, r.1.worker.pc ≠ .trigger h ws) :
    Attributed daf r.1.worker (fun h => (st h).enqueue (issued daf w v.worker a r.2 h))
      (r.2.foldl (pipeline w).observe p)
      { m with pinned := Function.update m.pinned k (m.uploaded k) } := by
  let seed := v.worker.cfg.seedBase + v.worker.globalIter
  have hissued : ∀ h, issued daf w v.worker a r.2 h =
      if k = h then [.batch seed v.worker.batch] else [] := by
    intro h
    have hrest' := batchOps_of_none (w := w) (h := h) fun e he => queuedBatch_of_silent (hrest e he)
    unfold batchOps at hrest'
    simp only [issued, hup, batchOps, hes, List.filterMap_cons, Event.queuedBatch, if_true]
    split_ifs with heq
    · simp [hrest', seed]
    · simp [hrest']
  obtain ⟨hall, hfollows⟩ := hfollowed
  rw [hes] at hall
  have hown : (Event.queued w k c allocated seed v.worker.batch).ofWorker w = true := by
    simp [Event.ofWorker]
  obtain ⟨hfree, -⟩ := hall.1 hown
  have hflight : (r.2.foldl (pipeline w).observe p).inFlight =
      p.inFlight ++ [⟨k, seed, v.worker.batch⟩] := by
    obtain ⟨-, hsame⟩ := pipeline_ignores (w := w)
      (m := (pipeline w).observe p (.queued w k c allocated seed v.worker.batch))
        fun e he _ => hrest e he
    rw [hes, List.foldl_cons, hsame, pipeline_observe hown]
    rfl
  have hpow : ∀ h, (r.1.worker.half h).powTargetNbits = (v.worker.half h).powTargetNbits := by
    intro h
    rw [hhalf]
    by_cases heq : h = k
    · subst heq
      simp [Half.beginBatch]
    · simp [heq]
  refine ⟨hfollows, fun half => ?_, fun b hb => ?_, fun half ws heq => absurd heq (hpc half ws),
    fun half => ?_, fun half => ?_, fun half => h.executed half⟩
  · rw [hpow, hissued, OpStream.settled_enqueue, ← h.settled half]
    split_ifs <;> rfl
  · rw [hflight] at hb
    rw [hissued, OpStream.settled_enqueue, hhalf]
    rcases List.mem_append.mp hb with hold | hnew
    · have hne : b.half ≠ k := hfree b hold
      rw [if_neg hne.symm, Function.update_of_ne hne]
      exact h.inFlight b hold
    · obtain rfl := List.mem_singleton.mp hnew
      rw [if_pos rfl, Function.update_self]
      exact congrArg (fun target => some (Execution.mk seed v.worker.batch target)) (h.settled k)
  · rw [hpow]
    exact h.uploaded half
  · change Function.update m.pinned k (m.uploaded k) half = true → _
    by_cases heq : half = k
    · subst heq
      rw [Function.update_self, hhalf, Function.update_self]
      exact h.uploaded half
    · rw [Function.update_of_ne heq, hhalf, Function.update_of_ne heq]
      exact h.pinned half

/-- Any other step of `run`: an upload changes what the host believes and what the device
will have, and leaves the batches before it alone. -/
theorem other (h : Attributed daf v.worker st p m) {m' : Attribution} (hfollowed : Followed w p r)
    (hes : ∀ e ∈ r.2, e.queuedBatch w = none)
    (hpow : ∀ h, (r.1.worker.half h).powTargetNbits =
      (uploadedTo v.worker a h).getD (v.worker.half h).powTargetNbits)
    (hmined : ∀ h, (r.1.worker.half h).batchMinedTargetNbits =
      (v.worker.half h).batchMinedTargetNbits)
    (hseed : ∀ h, (r.1.worker.half h).batchSeedStart = (v.worker.half h).batchSeedStart)
    (hpc : ∀ h ws, r.1.worker.pc = .trigger h ws → r.1.worker.batch = v.worker.batch ∧
      ((v.worker.pc = .complete h ∧ ∃ hits, a = .headers hits) ∨
        ∃ k, v.worker.pc = .trigger h (k :: ws)))
    (hwait : ∀ half hits, v.worker.pc = .complete half → a = .headers hits →
      (st half).queue.any StreamOp.isBatch = false)
    (huploaded : ∀ h, m'.uploaded h = true →
      m.uploaded h = true ∨ (uploadedTo v.worker a h).isSome = true)
    (hpinned : m'.pinned = m.pinned) (hexecuted : m'.executed = m.executed) :
    Attributed daf r.1.worker (fun h => (st h).enqueue (issued daf w v.worker a r.2 h))
      (r.2.foldl (pipeline w).observe p) m' := by
  have hissued : ∀ h, issued daf w v.worker a r.2 h = ((uploadedTo v.worker a h).map fun nbits =>
      StreamOp.copyTarget (powTarget daf nbits)).toList := by
    intro h
    rw [issued, batchOps_of_none hes, List.append_nil]
  refine ⟨hfollowed.2, fun half => ?_, fun b hb => ?_, fun half ws htrigger => ?_, fun half => ?_,
    fun half => ?_, fun half => ?_⟩
  · rw [hissued, OpStream.settled_enqueue, hpow]
    cases hup : uploadedTo v.worker a half with
    | none => exact h.settled half
    | some nbits =>
      have hnonzero := uploadedTo_ne_zero hup
      simp [HalfDevice.exec, believed, hnonzero]
  · rw [hissued, OpStream.settled_enqueue, hmined, ← h.inFlight b (mem_inFlight_of_foldl hes hb)]
    cases uploadedTo v.worker a b.half <;> rfl
  · obtain ⟨hbatch, hfrom⟩ := hpc half ws htrigger
    rw [hissued, hmined, hseed, hbatch]
    rcases hfrom with ⟨hcomplete, hits, rfl⟩ | ⟨k, hprev⟩
    · -- the wait is over, so what the device will have executed it has executed
      have hnone := hwait half hits hcomplete rfl
      have hup : uploadedTo v.worker (.headers hits) half = none :=
        uploadedTo_of_pc hcomplete rfl
      have hmining : Mining v.worker.track (.completing half) p :=
        h.follows.mining_of_phase (by rw [hcomplete]; rfl) nofun
      have hmem : v.worker.track.batchOf half ∈ p.inFlight := by
        rw [hmining.inFlight_scan []]
        exact List.mem_cons_self ..
      have hsettled := h.inFlight _ hmem
      have hstate : ((st half).settled HalfDevice.exec).executed = (st half).state.executed := by
        refine OpStream.settled_eq HalfDevice.executed fun op hop s => ?_
        cases op with
        | copyTarget => rfl
        | batch => exact absurd rfl (List.any_eq_false.mp hnone _ hop)
      rw [hup]
      refine ⟨?_, hstate.symm.trans hsettled⟩
      simpa [OpStream.enqueue] using hnone
    · have hup : uploadedTo v.worker a half = none := uploadedTo_of_pc hprev rfl
      rw [hup]
      obtain ⟨hnone, hexec⟩ := h.scanned half (k :: ws) hprev
      exact ⟨by simpa [OpStream.enqueue] using hnone, hexec⟩
  · intro hh
    rw [hpow]
    cases hup : uploadedTo v.worker a half with
    | none =>
      rcases huploaded half hh with hold | hnew
      · exact h.uploaded half hold
      · rw [hup] at hnew
        cases hnew
    | some nbits => exact uploadedTo_ne_zero hup
  · rw [hpinned, hmined]
    exact h.pinned half
  · rw [hexecuted]
    exact h.executed half

/-- The job for a winner carries the target its batch was executed with. -/
theorem allows_triggered (h : Attributed daf v.worker st p m) {job : ShareTriggerJob}
    (hjob : triggerJob v.worker a = some job) :
    (attribution daf w).allows m (.triggered w job) := by
  unfold triggerJob at hjob
  split at hjob
  case h_2 => cases hjob
  case h_1 half k ws c hpc hsigma =>
    obtain rfl := Option.some.inj hjob
    intro _
    obtain ⟨-, hexec⟩ := h.scanned half (k :: ws) hpc
    have hmining : Mining v.worker.track (.triggering half (k :: ws)) p :=
      h.follows.mining_of_phase (by rw [hpc]; rfl) nofun
    have hlt : k < v.worker.batch := hmining.position.2.1 k (List.mem_cons_self ..)
    refine ⟨_, k, (h.executed half).trans hexec, hlt, rfl, fun hpinned => ?_⟩
    have hnonzero := h.pinned half hpinned
    simp [believed, View.shareTriggerJob, hnonzero]

/-- A step of `run`, with the events that the monitor sees of it. -/
theorem run (h : Attributed daf v.worker st p m) (hstep : runStep w v a = some r)
    (hwait : ∀ half hits, v.worker.pc = .complete half → a = .headers hits →
      (st half).queue.any StreamOp.isBatch = false) :
    let es := uploadEvents w v.worker a [.ping, .pong, .third] ++ r.2.map .host ++
      ((triggerJob v.worker a).map (.triggered w)).toList
    (attribution daf w).AllowsAll m es ∧
      ∃ p', Attributed daf r.1.worker
        (fun h => (st h).enqueue (issued daf w v.worker a r.2 h)) p'
        (es.foldl (attribution daf w).observe m) := by
  dsimp only
  rw [List.foldl_append, List.foldl_append]
  have hfollowed : Followed w p r := h.follows.runStep hstep
  obtain ⟨huploaded, hpinned, hexecuted⟩ :=
    foldl_uploadEvents daf w m v.worker a [.ping, .pong, .third]
  generalize hup : (uploadEvents w v.worker a [.ping, .pong, .third]).foldl
    (attribution daf w).observe m = m₁ at huploaded hpinned hexecuted ⊢
  cases targetEffect_runStep hstep with
  | launch k c allocated rest hes hrest hnone hhalf hpc htrigger =>
    -- nothing is uploaded in this step, and no winner is looked at
    have hm₁ : m₁ = m := by
      rw [← hup]
      simp [uploadEvents, hnone]
    have hhost : (r.2.map RigEvent.host).foldl (attribution daf w).observe m =
        { m with pinned := Function.update m.pinned k (m.uploaded k) } := by
      rw [hes, List.map_cons, List.foldl_cons,
        foldl_host fun e he => queuedBatch_of_silent (hrest e he)]
      simp [attribution, Event.queuedBatch]
    rw [htrigger, hm₁, hhost]
    refine ⟨?_, _, h.launch hfollowed hes hrest hnone hhalf hpc⟩
    rw [Option.map_none, Option.toList_none, List.append_nil]
    exact allowsAll_uploads_host _
  | other hes hpow hmined hseed hpc =>
    have hhost : (r.2.map RigEvent.host).foldl (attribution daf w).observe m₁ = m₁ :=
      foldl_host hes
    have htriggers : ((triggerJob v.worker a).map (RigEvent.triggered w)).toList.foldl
        (attribution daf w).observe m₁ = m₁ := by
      cases triggerJob v.worker a <;> rfl
    rw [hhost, htriggers]
    refine ⟨Monitor.allowsAll_append (allowsAll_uploads_host _) ?_, _,
      h.other hfollowed hes hpow hmined hseed hpc hwait huploaded hpinned hexecuted⟩
    rw [List.foldl_append, hup, hhost]
    cases hjob : triggerJob v.worker a with
    | none => trivial
    | some job =>
      refine ⟨?_, trivial⟩
      -- no target is uploaded in the steps that look at winners
      have hallows := h.allows_triggered (w := w) hjob
      intro hw
      obtain ⟨x, k, hexec, hlt, hnonce, htarget⟩ := hallows hw
      rw [hexecuted, hpinned]
      exact ⟨x, k, hexec, hlt, hnonce, htarget⟩

/-- The device does the next operation of a stream. -/
theorem advance (h : Attributed daf g st p m) {half : HalfId} {op : StreamOp}
    {rest : List StreamOp} (hqueue : (st half).queue = op :: rest) {m' : Attribution}
    (huploaded : m'.uploaded = m.uploaded) (hpinned : m'.pinned = m.pinned)
    (hexecuted : m'.executed =
      Function.update m.executed half (HalfDevice.exec (st half).state op).executed) :
    Attributed daf g (Function.update st half ⟨HalfDevice.exec (st half).state op, rest⟩) p m' := by
  have hsettled : ∀ h,
      (Function.update st half ⟨HalfDevice.exec (st half).state op, rest⟩ h).settled
        HalfDevice.exec = (st h).settled HalfDevice.exec := by
    intro h
    by_cases heq : h = half
    · subst heq
      rw [Function.update_self, OpStream.settled, OpStream.settled, hqueue]
      rfl
    · rw [Function.update_of_ne heq]
  refine ⟨h.follows, fun h' => ?_, fun b hb => ?_, fun h' ws htrigger => ?_, fun h' => ?_,
    fun h' => ?_, fun h' => ?_⟩
  · rw [hsettled]
    exact h.settled h'
  · rw [hsettled]
    exact h.inFlight b hb
  · obtain ⟨hnone, hexec⟩ := h.scanned h' ws htrigger
    by_cases heq : h' = half
    · -- no batch runs on the half whose winners are looked at
      subst heq
      rw [hqueue, List.any_cons, Bool.or_eq_false_iff] at hnone
      rw [Function.update_self]
      refine ⟨hnone.2, ?_⟩
      cases op with
      | copyTarget => exact hexec
      | batch => cases hnone.1
    · rw [Function.update_of_ne heq]
      exact ⟨hnone, hexec⟩
  · rw [huploaded]
    exact h.uploaded h'
  · rw [hpinned]
    exact h.pinned h'
  · rw [hexecuted]
    by_cases heq : h' = half
    · subst heq
      rw [Function.update_self, Function.update_self]
    · rw [Function.update_of_ne heq, Function.update_of_ne heq]
      exact h.executed h'

end Attributed

/-! ### Runs -/

section Runs

variable {n : ℕ} {daf : Fin n → UInt64} {r r' : Rig n} {s : Miner n} {w w' : Fin n}
  {p : Pipeline} {m : Attribution} {es : List RigEvent} {a : Input n}

theorem queuedBatch_of_ofWorker {e : Event} {w : ℕ} (he : e.ofWorker w = false) :
    e.queuedBatch w = none := by
  cases e with
  | queued w' =>
    have hne : w' ≠ w := by simpa [Event.ofWorker] using he
    simp [Event.queuedBatch, hne]
  | _ => rfl

theorem queuedBatch_of_own {v : View × List Event} {g : GpuWorker} (hown : Own w' g v)
    (hne : w ≠ w') : ∀ e ∈ v.2, e.queuedBatch w = none :=
  fun e he => queuedBatch_of_ofWorker (ofWorker_of_ne (hown.events e he) hne)

/-- What the monitor of a worker sees of events without a launch. -/
theorem attribution_ignores {es : List Event} (hes : ∀ e ∈ es, e.queuedBatch w = none) :
    (attribution (daf w) w).AllowsAll m (es.map .host) ∧
      (es.map RigEvent.host).foldl (attribution (daf w) w).observe m = m := by
  refine ⟨Monitor.allowsAll_of_forall fun e he m => ?_, foldl_host hes⟩
  obtain ⟨e, -, rfl⟩ := List.mem_map.mp he
  trivial

/-- What it sees of a step of another worker's run loop. -/
theorem attribution_ignores_other (g : GpuWorker) (x : Answer) {es : List Event}
    (hes : ∀ e ∈ es, e.queuedBatch w = none) (hne : w ≠ w') :
    let events := uploadEvents w' g x [.ping, .pong, .third] ++ es.map .host ++
      ((triggerJob g x).map (.triggered w')).toList
    (attribution (daf w) w).AllowsAll m events ∧
      events.foldl (attribution (daf w) w).observe m = m := by
  have hval : (w' : ℕ) ≠ w := fun heq => hne (Fin.val_inj.mp heq).symm
  have hignored : ∀ e ∈ uploadEvents w' g x [.ping, .pong, .third] ++ es.map .host ++
      ((triggerJob g x).map (RigEvent.triggered w')).toList,
      (attribution (daf w) w).allows m e ∧ (attribution (daf w) w).observe m e = m := by
    intro e he
    rcases List.mem_append.mp he with he | htrigger
    · rcases List.mem_append.mp he with hup | hhost
      · obtain ⟨half, -, hhalf⟩ := List.mem_filterMap.mp hup
        obtain ⟨nbits, -, rfl⟩ := Option.map_eq_some_iff.mp hhalf
        exact ⟨trivial, if_neg hval⟩
      · obtain ⟨e, hmem, rfl⟩ := List.mem_map.mp hhost
        refine ⟨trivial, ?_⟩
        simp [attribution, hes e hmem]
    · obtain ⟨job, -, rfl⟩ := Option.map_eq_some_iff.mp (Option.mem_toList.mp htrigger)
      exact ⟨fun heq => absurd heq hval, rfl⟩
  exact Monitor.allowsAll_of_ignored (fun e he => (hignored e he).1) fun e he => (hignored e he).2

/-- The other threads of a worker launch nothing and leave the targets alone. -/
theorem Attributed.installerStep {daf : UInt64} {w : ℕ} {v : View} {x : Answer}
    {q : View × List Event} {st : HalfId → OpStream HalfDevice StreamOp}
    (h : Attributed daf v.worker st p m) (hstep : installerStep w v x = some q) :
    Attributed daf q.1.worker st (q.2.foldl (pipeline w).observe p) m ∧
      ∀ e ∈ q.2, e.queuedBatch w = none := by
  have hfollows := (h.follows.installerStep hstep).2
  have hsame : (∀ e ∈ q.2, e.queuedBatch w = none) ∧ q.1.worker.half = v.worker.half ∧
      q.1.worker.batch = v.worker.batch ∧ q.1.worker.pc = v.worker.pc := by
    refine installerStep_cases (P := fun q => (∀ e ∈ q.2, e.queuedBatch w = none) ∧
      q.1.worker.half = v.worker.half ∧ q.1.worker.batch = v.worker.batch ∧
        q.1.worker.pc = v.worker.pc) hstep ?wait ?guard ?refused ?install ?publish ?supersede
          ?markFailed
    case install =>
      intro pc c _ hinstall
      obtain ⟨⟨x, result⟩, -, rfl⟩ := Option.map_eq_some_iff.mp hinstall
      cases result with
      | returned => exact ⟨by simp [Event.queuedBatch], rfl, rfl, rfl⟩
      | inside | threw => exact ⟨List.forall_mem_nil _, rfl, rfl, rfl⟩
    all_goals
      intros
      exact ⟨List.forall_mem_nil _, rfl, rfl, rfl⟩
  obtain ⟨hes, hhalf, hbatch, hpc⟩ := hsame
  refine ⟨h.congr hfollows (fun b => mem_inFlight_of_foldl hes) ?_ ?_ ?_ hbatch hpc, hes⟩
  · exact fun _ => by rw [hhalf]
  · exact fun _ => by rw [hhalf]
  · exact fun _ => by rw [hhalf]

theorem Attributed.shareStep {daf : UInt64} {w : ℕ} {v : View} {q : View × List Event}
    {st : HalfId → OpStream HalfDevice StreamOp} (h : Attributed daf v.worker st p m)
    (hstep : shareStep w v = some q) :
    Attributed daf q.1.worker st (q.2.foldl (pipeline w).observe p) m ∧
      ∀ e ∈ q.2, e.queuedBatch w = none := by
  have hfollows := (h.follows.shareStep hstep).2
  unfold PropMiner.Jobs.shareStep at hstep
  dsimp only at hstep
  split at hstep
  · cases hstep
  · obtain rfl := Option.some.inj hstep
    exact ⟨h.congr hfollows (fun _ => id) (fun _ => rfl) (fun _ => rfl) (fun _ => rfl) rfl rfl,
      List.forall_mem_nil _⟩
  · rename_i job _
    obtain rfl := Option.some.inj hstep
    have hes : ∀ e ∈ [Event.shareDone w job.half], e.queuedBatch w = none := by
      simp [Event.queuedBatch]
    have hhalf := targets_setHalf (f := Half.shareJobDone) (fun _ => ⟨rfl, rfl, rfl⟩) v.worker
      job.half
    refine ⟨h.congr hfollows (fun b => mem_inFlight_of_foldl hes) ?_ ?_ ?_ rfl rfl, hes⟩
    · exact fun h => (hhalf h).1
    · exact fun h => (hhalf h).2.1
    · exact fun h => (hhalf h).2.2

/-- A step of the host that puts nothing on the streams of worker `w`. -/
theorem attributed_frame {s' : Miner n} {es : List Event}
    (hkeep : ∃ p', Attributed (daf w) (s'.workers w) (r.streams w) p' m)
    (hes : ∀ e ∈ es, e.queuedBatch w = none) :
    (attribution (daf w) w).AllowsAll m (es.map .host) ∧ ∃ p', Attributed (daf w) (s'.workers w)
      (r.streams w) p' ((es.map RigEvent.host).foldl (attribution (daf w) w).observe m) := by
  obtain ⟨hall, hsame⟩ := attribution_ignores (m := m) hes
  rw [hsame]
  exact ⟨hall, hkeep⟩

theorem Attributed.host (h : Attributed (daf w) (r.miner.workers w) (r.streams w) p m)
    (hwait : r.waiting a = false) {q : Miner n × List Event} (hstep : r.miner.step a = some q) :
    let r' := r.afterHost daf a q.1 q.2
    (attribution (daf w) w).AllowsAll m r'.2 ∧ ∃ p', Attributed (daf w) (r'.1.miner.workers w)
      (r'.1.streams w) p' (r'.2.foldl (attribution (daf w) w).observe m) := by
  have hfollows := (h.follows.step hstep).2
  -- a step of the threads of another worker
  have hother : ∀ (w' : Fin n) g' (v : View × List Event), Own w' g' v → w ≠ w' →
      q = (r.miner.update w' v.1, v.2) →
      (∀ e ∈ v.2, e.queuedBatch w = none) ∧
        ∃ p', Attributed (daf w) (q.1.workers w) (r.streams w) p' m := by
    rintro w' g' v hown hne rfl
    refine ⟨queuedBatch_of_own hown hne, p, ?_⟩
    dsimp only
    rw [Miner.workers_update_of_ne _ hne]
    exact h
  refine step_cases (P := fun q' => q = q' → _) hstep ?orchestrator ?run ?installer ?share rfl
  case orchestrator =>
    intro hrun horchestrated _
    have hes : ∀ e ∈ q.2, e.queuedBatch w = none :=
      fun e he => queuedBatch_of_ofWorker (horchestrated.events e he w)
    have hkeep : Attributed (daf w) (q.1.workers w) (r.streams w) p m := by
      have hsame : (q.2.foldl (pipeline w).observe p) = p := by
        refine (pipeline_ignores fun e he hmine => ?_).2
        rw [horchestrated.events e he w] at hmine
        cases hmine
      rw [hsame] at hfollows
      rw [horchestrated.workers w] at hfollows ⊢
      exact h.congr hfollows (fun _ => id) (fun _ => rfl) (fun _ => rfl) (fun _ => rfl) rfl rfl
    have hafter : r.afterHost daf a q.1 q.2 = ({ r with miner := q.1 }, q.2.map .host) := by
      unfold Rig.afterHost
      split
      case h_1 w' x => exact absurd rfl (hrun w' x)
      case h_2 => rfl
    rw [hafter]
    exact attributed_frame ⟨p, hkeep⟩ hes
  case run =>
    rintro w' x v rfl hrun rfl
    by_cases hw : w = w'
    · subst hw
      have hwait' : ∀ half hits, (r.miner.view w).worker.pc = .complete half → x = .headers hits →
          (r.streams w half).queue.any StreamOp.isBatch = false := by
        rintro half hits hpc rfl
        have hpc' : (r.miner.workers w).pc = .complete half := hpc
        simpa only [Rig.waiting, hpc'] using hwait
      have hrun' := Attributed.run (v := r.miner.view w) h hrun hwait'
      simp only [Rig.afterHost, Function.update_self, Miner.workers_update_self]
      exact hrun'
    · obtain ⟨hes, hkeep⟩ := hother w' _ v (own_runStep hrun) hw rfl
      simp only [Rig.afterHost, Function.update_of_ne hw]
      obtain ⟨hall, hsame⟩ := attribution_ignores_other (r.miner.workers w') x hes hw
      rw [hsame]
      exact ⟨hall, hkeep⟩
  case installer =>
    rintro w' x v rfl hinstaller rfl
    by_cases hw : w = w'
    · subst hw
      obtain ⟨hkeep, hes⟩ := Attributed.installerStep (v := r.miner.view w) h hinstaller
      rw [← Miner.workers_update_self (s := r.miner) (w := w) v.1] at hkeep
      exact attributed_frame ⟨_, hkeep⟩ hes
    · obtain ⟨hes, hkeep⟩ := hother w' _ v (own_installerStep hinstaller) hw rfl
      exact attributed_frame hkeep hes
  case share =>
    rintro w' v rfl hshare rfl
    by_cases hw : w = w'
    · subst hw
      obtain ⟨hkeep, hes⟩ := Attributed.shareStep (v := r.miner.view w) h hshare
      rw [← Miner.workers_update_self (s := r.miner) (w := w) v.1] at hkeep
      exact attributed_frame ⟨_, hkeep⟩ hes
    · obtain ⟨hes, hkeep⟩ := hother w' _ v (own_shareStep hshare) hw rfl
      exact attributed_frame hkeep hes

theorem Attributed.step (h : Attributed (daf w) (r.miner.workers w) (r.streams w) p m)
    {a : RigInput n} (hstep : r.step daf a = some (r', es)) :
    (attribution (daf w) w).AllowsAll m es ∧ ∃ p', Attributed (daf w) (r'.miner.workers w)
      (r'.streams w) p' (es.foldl (attribution (daf w) w).observe m) := by
  cases a with
  | host a =>
    simp only [Rig.step] at hstep
    split_ifs at hstep with hwait
    obtain ⟨q, hq, heq⟩ := Option.map_eq_some_iff.mp hstep
    have hhost := h.host (by simpa using hwait) hq
    rw [heq] at hhost
    exact hhost
  | device w' half =>
    obtain ⟨d, hadvance, heq⟩ := Option.map_eq_some_iff.mp hstep
    obtain ⟨op, rest, hqueue, rfl⟩ := OpStream.eq_of_advance hadvance
    cases heq
    rw [hqueue]
    dsimp only
    by_cases hw : w = w'
    · subst hw
      rw [Function.update_self]
      cases op with
      | copyTarget target =>
        have hsame : (r.streams w half).state.executed = m.executed half := (h.executed half).symm
        refine ⟨trivial, p, h.advance hqueue rfl rfl ?_⟩
        change m.executed = Function.update m.executed half (r.streams w half).state.executed
        rw [hsame, Function.update_eq_self]
      | batch seed count =>
        refine ⟨⟨trivial, trivial⟩, p, h.advance hqueue ?_ ?_ ?_⟩
        all_goals simp [attribution, HalfDevice.exec]
    · have hne : (w' : ℕ) ≠ w := fun heq => hw (Fin.val_inj.mp heq).symm
      rw [Function.update_of_ne hw]
      cases op with
      | copyTarget target => exact ⟨trivial, p, h⟩
      | batch seed count =>
        have hsame : (attribution (daf w) w).observe m (.executed w' half
            ⟨seed, count, (r.streams w' half).state.powTarget⟩) = m := if_neg hne
        refine ⟨⟨trivial, trivial⟩, p, ?_⟩
        change Attributed _ _ _ _ ((attribution (daf w) w).observe m _)
        rw [hsame]
        exact h

theorem attributed_start (cfg : Fin n → Config) (mpp : Fin n → ℕ) :
    Attributed (daf w) ((Miner.start cfg mpp).workers w) (fun _ => { state := {} })
      (pipeline w).start (attribution (daf w) w).start := by
  refine ⟨follows_start cfg mpp, fun _ => rfl, nofun, nofun, nofun, nofun, fun _ => rfl⟩

end Runs

/-- In every run, however far the devices are behind, each share trigger of each worker
carries the target that was on the device while its batch was executed, if any target was
uploaded to the half before the batch was queued. -/
theorem attributed {n : ℕ} {daf : Fin n → UInt64} {cfg : Fin n → Config} {mpp : Fin n → ℕ}
    {tr : List RigEvent} {r : Rig n}
    (hrun : (rig daf).Run Machine.anyStep { miner := Miner.start cfg mpp } tr r) (w : Fin n) :
    (attribution (daf w) w).Accepts tr := by
  refine (hrun.monitored (N := attribution (daf w) w)
    (R := fun r m => ∃ p, Attributed (daf w) (r.miner.workers w) (r.streams w) p m)
    ⟨_, attributed_start cfg mpp⟩ ?_).1
  rintro r m a r' es ⟨p, h⟩ _ hstep
  exact h.step hstep

/-- The target changes while the first batch is in flight, and the new one is on its way
to the device when the batch turns out to have a winner. -/
def retargetedRun : List (RigInput 1) :=
  let host : List (Input 1) := .publish 0x1d00ffff :: List.replicate 4 .publisher ++
    List.replicate 15 (.run 0 .ok) ++ .vardiff 0x1c00ffff :: List.replicate 4 .publisher ++
      List.replicate 6 (.run 0 .ok)
  host.map .host ++ [.device 0 .ping, .device 0 .ping, .host (.run 0 (.headers [0])),
    .host (.run 0 .ok)]

theorem attributed_of_retargeted :
    ∃ tr r, (rig (n := 1) fun _ => 64).Run Machine.anyStep
        { miner := Miner.start (fun _ => {}) fun _ => 1 } tr r ∧
      .triggered 0 ⟨.ping, 0, 0x1d00ffff, 0⟩ ∈ tr ∧
        ((r.miner.workers 0).half .ping).powTargetNbits = 0x1c00ffff ∧
          (attribution 64 0).Accepts tr := by
  have hexec : ((rig (n := 1) fun _ => 64).exec Machine.anyStep retargetedRun
      { miner := Miner.start (fun _ => {}) fun _ => 1 }).any
        (fun x => decide (.triggered 0 ⟨.ping, 0, 0x1d00ffff, 0⟩ ∈ x.2 ∧
          ((x.1.miner.workers 0).half .ping).powTargetNbits = 0x1c00ffff)) = true := by
    decide +kernel
  obtain ⟨r, tr, hrun, hp⟩ := Machine.exists_run_of_exec hexec
  obtain ⟨htriggered, hpow⟩ := of_decide_eq_true hp
  exact ⟨tr, r, hrun, htriggered, hpow, attributed hrun 0⟩

end PropMiner.Jobs
