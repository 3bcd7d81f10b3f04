import PropMiner.Jobs.Miner

/-!
# What each thread leaves alone

The threads of a worker never touch what only the orchestrator writes, and their
events are their own. The orchestrator writes six fields of a worker and nothing
else. Each result about the miner looks at a few fields; these lemmas say for the
other steps that the fields stay as they are.

## Main results

* `own_runStep`, `own_installerStep`, `own_shareStep`
* `step_cases` — a step is one of the orchestrator's or one of a worker's threads
-/

set_option autoImplicit false

namespace PropMiner.Jobs

/-- The events of a worker's own threads. -/
def Event.ofWorker (w : ℕ) : Event → Bool
  | .published _ | .targetSet .. | .sigmaSet .. => false
  | .loopBegin w' | .loopEnd w' | .installReturned w' .. | .rotated w' | .queued w' ..
  | .scanned w' .. | .winner w' .. | .shareQueued w' _ | .shareDone w' _ => w' = w

/-- What only the orchestrator changes stays as it is. -/
structure Own (w : ℕ) (g : GpuWorker) (r : View × List Event) : Prop where
  cfg : r.1.worker.cfg = g.cfg
  sigma : r.1.worker.sigma = g.sigma
  events : ∀ e ∈ r.2, e.ofWorker w = true

section Own

variable {w : ℕ} {v : View} {a : Answer} {r : View × List Event}

theorem own_goto (pc : RunPc) : Own w v.worker (v.goto pc, []) := ⟨rfl, rfl, nofun⟩

theorem own_exit : Own w v.worker (v.exit, []) := ⟨rfl, rfl, nofun⟩

theorem own_giveUp : Own w v.worker (v.giveUp w) :=
  ⟨rfl, rfl, by simp [View.giveUp, Event.ofWorker]⟩

theorem own_installCurrent {c : Ctx} {pc : InstallPc} {bound todo : List HalfId} {h : HalfId}
    (hstep : v.installCurrent w c pc a bound h todo = some r) : Own w v.worker r := by
  obtain ⟨⟨x, result⟩, -, rfl⟩ := Option.map_eq_some_iff.mp hstep
  cases result with
  | inside pc => exact ⟨rfl, rfl, nofun⟩
  | returned => exact ⟨rfl, rfl, by simp [Event.ofWorker]⟩
  | threw => exact ⟨rfl, rfl, by simp [View.giveUp, Event.ofWorker]⟩

theorem own_bindThrows {swap : Bool} : Own w v.worker (v.bindThrows w swap) := by
  cases swap with
  | false => exact own_giveUp
  | true => exact own_exit

theorem own_bindHalf {c : Ctx} {pc : BindPc} {swap : Bool} {bound todo : List HalfId}
    {h : HalfId} (hstep : v.bindHalf w c swap bound h todo pc a = some r) :
    Own w v.worker r := by
  unfold View.bindHalf at hstep
  split at hstep
  case h_6 nbits far =>
    obtain rfl := Option.some.inj hstep
    cases far with
    | false => exact own_bindThrows
    | true =>
      let v' : View := { v with worker := v.worker.uploadPowTarget h nbits }
      have hthrows : Own w v'.worker (v'.bindThrows w swap) := own_bindThrows
      exact ⟨hthrows.cfg, hthrows.sigma, hthrows.events⟩
  case h_5 =>
    obtain rfl := Option.some.inj hstep
    exact own_bindThrows
  all_goals cases hstep
  all_goals exact ⟨rfl, rfl, nofun⟩

theorem own_mine (hstep : v.mine w = some r) : Own w v.worker r := by
  refine View.mine_cases hstep ?idle ?exit ?tripleWarmup ?triple ?firstPing ?pingPong
  case exit =>
    intro _
    exact own_exit
  all_goals
    intros
    exact ⟨rfl, rfl, by simp [View.queuedEvent, Event.ofWorker]⟩

theorem own_uploadPowTargetAllHalves (g : GpuWorker) (nbits : UInt32) :
    (g.uploadPowTargetAllHalves nbits).cfg = g.cfg ∧
      (g.uploadPowTargetAllHalves nbits).sigma = g.sigma := by
  unfold GpuWorker.uploadPowTargetAllHalves GpuWorker.halves
  split <;> exact ⟨rfl, rfl⟩

/-- The run loop. -/
theorem own_runStep (hstep : runStep w v a = some r) : Own w v.worker r := by
  refine runStep_cases hstep ?top ?readSigma ?asyncFailed ?submitInstall ?drain ?install ?bind
    ?clearDirty ?takeReady ?want ?freeStale ?testDirty ?loadTarget ?upload ?mine ?complete
    ?trigger ?endRound ?exit
  case top =>
    intro _
    unfold View.runTop
    split_ifs
    · exact own_exit
    · exact ⟨rfl, rfl, nofun⟩
    · exact ⟨rfl, rfl, by simp [Event.ofWorker]⟩
  case readSigma =>
    intro _
    unfold View.readSigma
    dsimp only
    split
    · split_ifs <;> exact own_goto _
    · exact own_goto _
  case asyncFailed =>
    intro new _
    unfold View.askFailed
    split_ifs <;> exact ⟨rfl, rfl, nofun⟩
  case submitInstall =>
    intro new _
    unfold View.submitAsyncInstall
    split_ifs <;> exact ⟨rfl, rfl, nofun⟩
  case drain =>
    intro new swap _ hrotate
    unfold View.rotate at hrotate
    dsimp only at hrotate
    split_ifs at hrotate
    obtain rfl := Option.some.inj hrotate
    exact ⟨rfl, rfl, by simp [Event.ofWorker]⟩
  case install =>
    intro pc bound half todo c _ _ hinstall
    exact own_installCurrent hinstall
  case bind =>
    intro pc swap bound half todo c _ _ hbind
    exact own_bindHalf hbind
  case clearDirty =>
    intro swap _
    exact ⟨rfl, rfl, nofun⟩
  case takeReady =>
    intro _
    unfold View.takeAsyncReady
    split <;> exact ⟨rfl, rfl, nofun⟩
  case want =>
    intro ready _
    unfold View.readWant
    dsimp only
    split_ifs <;> exact own_goto _
  case freeStale =>
    intro ready _
    exact ⟨rfl, rfl, nofun⟩
  case testDirty =>
    intro _
    unfold View.testDirty
    split_ifs <;> exact ⟨rfl, rfl, nofun⟩
  case loadTarget =>
    intro _
    exact own_goto _
  case upload =>
    intro nbits _ _
    obtain ⟨hcfg, hsigma⟩ := own_uploadPowTargetAllHalves v.worker nbits
    exact ⟨hcfg, hsigma, nofun⟩
  case mine =>
    intro _ hmine
    exact own_mine hmine
  case complete =>
    intro half hits _ _
    exact ⟨rfl, rfl, by simp [View.scan, Event.ofWorker]⟩
  case trigger =>
    intro half k winners c _ _ _
    unfold View.trigger
    dsimp only
    split_ifs <;> exact ⟨rfl, rfl, by simp [Event.ofWorker]⟩
  case endRound =>
    intro half _
    unfold View.endRound
    dsimp only
    split_ifs <;> exact ⟨rfl, rfl, by simp [Event.ofWorker]⟩
  case exit =>
    intro _ _ _
    exact own_exit

/-- The background installer. -/
theorem own_installerStep (hstep : installerStep w v a = some r) : Own w v.worker r := by
  refine installerStep_cases hstep ?wait ?guard ?refused ?install ?publish ?supersede ?markFailed
  case install =>
    intro pc c _ hinstall
    obtain ⟨⟨x, result⟩, -, rfl⟩ := Option.map_eq_some_iff.mp hinstall
    cases result with
    | inside pc => exact ⟨rfl, rfl, nofun⟩
    | returned => exact ⟨rfl, rfl, by simp [Event.ofWorker]⟩
    | threw => exact ⟨rfl, rfl, nofun⟩
  all_goals
    intros
    exact ⟨rfl, rfl, nofun⟩

/-- The share thread. -/
theorem own_shareStep (hstep : shareStep w v = some r) : Own w v.worker r := by
  unfold shareStep at hstep
  dsimp only at hstep
  split at hstep
  · cases hstep
  · obtain rfl := Option.some.inj hstep
    exact ⟨rfl, rfl, nofun⟩
  · obtain rfl := Option.some.inj hstep
    exact ⟨rfl, rfl, by simp [Event.ofWorker]⟩

end Own

/-! ### The orchestrator -/

section Orchestrator

variable {n : ℕ} {s s' : Miner n} {es : List Event} {w : Fin n} {a : Input n}

/-- The fields of a worker that the orchestrator never writes stay as they are. -/
def Orders (g g' : GpuWorker) : Prop :=
  g' = { g with
    sigma := g'.sigma
    targetNbits := g'.targetNbits
    targetDirty := g'.targetDirty
    pauseFlag := g'.pauseFlag
    stopFlag := g'.stopFlag
    matmulsPerPoll := g'.matmulsPerPoll }

/-- A step of the orchestrator allocates nothing, and its events are no worker's. -/
structure Orchestrated (s s' : Miner n) (es : List Event) : Prop where
  workers : ∀ w, Orders (s.workers w) (s'.workers w)
  allocated : ∀ c, (s'.heap c).allocated = true → (s.heap c).allocated = true
  events : ∀ e ∈ es, ∀ w, e.ofWorker w = false

/-- The orchestrator writes to one worker. -/
theorem orchestrated_worker {g' : GpuWorker}
    (hworkers : s'.workers = Function.update s.workers w g') (horders : Orders (s.workers w) g')
    (hheap : s'.heap = s.heap) (hevents : ∀ e ∈ es, ∀ w, e.ofWorker w = false) :
    Orchestrated s s' es := by
  refine ⟨fun w' => ?_, fun c => ?_, hevents⟩
  · rw [hworkers]
    by_cases heq : w' = w
    · subst heq
      rwa [Function.update_self]
    · rw [Function.update_of_ne heq]
      exact rfl
  · rw [hheap]
    exact id

/-- The orchestrator writes to no worker. -/
theorem orchestrated_same (hworkers : s'.workers = s.workers)
    (hheap : ∀ c, (s'.heap c).allocated = true → (s.heap c).allocated = true)
    (hevents : ∀ e ∈ es, ∀ w, e.ofWorker w = false) : Orchestrated s s' es := by
  refine ⟨fun w => ?_, hheap, hevents⟩
  rw [hworkers]
  exact rfl

theorem orchestrated_publisherStep {r : Miner n × List Event} (hstep : s.publisherStep = some r) :
    Orchestrated s r.1 r.2 := by
  refine Miner.publisherStep_cases (P := fun r => Orchestrated s r.1 r.2) hstep ?jobTarget
    ?jobDirty ?jobSigma ?jobDone ?vardiffTarget ?vardiffDirty ?vardiffDrain ?vardiffNoContext
    ?vardiffContext
  case jobTarget | jobDirty | jobSigma | vardiffTarget | vardiffDirty =>
    intros
    refine orchestrated_worker rfl rfl rfl ?_
    simp [Miner.storeTarget, Miner.setSigma, Event.ofWorker]
  case jobDone | vardiffDrain | vardiffNoContext =>
    intros
    exact orchestrated_same rfl (fun _ => id) nofun
  case vardiffContext =>
    intro nbits c _
    refine orchestrated_same rfl (fun c' hc' => ?_) nofun
    by_cases heq : c' = c
    · subst heq
      simpa [Heap.modify] using hc'
    · simpa [Heap.modify, heq] using hc'

theorem orchestrated_recoveryStep {r : Recovery} {q : Miner n × List Event}
    (hstep : s.recoveryStep r = some q) : Orchestrated s q.1 q.2 := by
  refine Miner.recoveryStep_cases (P := fun q => Orchestrated s q.1 q.2) hstep ?pausing ?paused
    ?setting ?set ?resuming ?resumed
  case pausing | setting | resuming =>
    intros
    refine orchestrated_worker rfl rfl rfl ?_
    simp [Miner.setSigma, Event.ofWorker]
  case paused | set | resumed =>
    intros
    exact orchestrated_same rfl (fun _ => id) nofun

theorem orchestrated_publishJob (nbits : UInt32) :
    Orchestrated s (s.publishJob nbits).1 (s.publishJob nbits).2 := by
  refine orchestrated_same rfl (fun c hc => ?_) ?_
  · by_cases heq : c = s.made
    · subst heq
      simp [Miner.publishJob] at hc
    · simpa [Miner.publishJob, heq] using hc
  · simp [Miner.publishJob, Event.ofWorker]

/-- The steps of the miner, by whose they are. -/
theorem step_cases {r : Miner n × List Event} {P : Miner n × List Event → Prop}
    (h : s.step a = some r)
    (orchestrator : (∀ w x, a ≠ .run w x) → Orchestrated s r.1 r.2 → P r)
    (run : ∀ w x q, a = .run w x → runStep w (s.view w) x = some q → P (s.update w q.1, q.2))
    (installer : ∀ w x q, a = .installer w x → installerStep w (s.view w) x = some q →
      P (s.update w q.1, q.2))
    (share : ∀ w q, a = .share w → shareStep w (s.view w) = some q → P (s.update w q.1, q.2)) :
    P r := by
  cases a with
  | publish nbits =>
    simp only [Miner.step] at h
    split_ifs at h
    obtain rfl := Option.some.inj h
    exact orchestrator nofun (orchestrated_publishJob nbits)
  | vardiff nbits =>
    simp only [Miner.step] at h
    split_ifs at h
    obtain rfl := Option.some.inj h
    exact orchestrator nofun (orchestrated_same rfl (fun _ => id) nofun)
  | publisher => exact orchestrator nofun (orchestrated_publisherStep h)
  | recover r =>
    refine Miner.recover_cases (P := fun q => q = _ → P q) h ?_ ?_ rfl
    all_goals
      rintro - rfl
      exact orchestrator nofun (orchestrated_same rfl (fun _ => id) nofun)
  | recovery r => exact orchestrator nofun (orchestrated_recoveryStep h)
  | setPaused | setMatmulsPerPoll | stop =>
    obtain rfl := Option.some.inj h
    exact orchestrator nofun (orchestrated_worker rfl rfl rfl nofun)
  | run w x =>
    obtain ⟨q, hq, rfl⟩ := Option.map_eq_some_iff.mp h
    exact run w x q rfl hq
  | installer w x =>
    obtain ⟨q, hq, rfl⟩ := Option.map_eq_some_iff.mp h
    exact installer w x q rfl hq
  | share w =>
    obtain ⟨q, hq, rfl⟩ := Option.map_eq_some_iff.mp h
    exact share w q rfl hq

end Orchestrator

end PropMiner.Jobs
