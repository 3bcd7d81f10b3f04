import PropMiner.Jobs.Frames

/-!
# Republishing never brings an old job back

The watchdog and the health monitor read the latest job off the bus and then hand it to
the workers one by one. The promise is that the workers end up with the job that was
published last, and that no recovery puts an older job in the place of a newer one.

The bus counts versions and nobody compares them. A job that is published after a
recovery has read the bus can reach a worker first and is then overwritten. The promise
holds in the runs in which, whenever a job is handed to a worker, no recovery that read
an earlier job has that worker still to come.

## Main definitions

* `UpToDate` — the promise, of a trace and the miner it leads to
* `timely` — the steps that keep it

## Main results

* `upToDate_of_timely` — along every such run the workers are up to date
* `upToDate_fails` — a job published during a recovery is lost
-/

set_option autoImplicit false

namespace PropMiner.Jobs

open PropMiner.Semantics (Machine)

variable {n : ℕ}

/-- The job that was published last. -/
def lastPublished (tr : List Event) : Option Ctx :=
  (tr.filterMap fun
    | .published c => some c
    | _ => none).getLast?

/-- The promise about republishing. Contexts are numbered as they are published. -/
structure UpToDate (tr : List Event) (s : Miner n) : Prop where
  settled : s.publisher = .idle → (∀ r, s.recovery r = .idle) →
    ∀ w, (s.workers w).sigma = lastPublished tr
  forward : ∀ w old new, .sigmaSet w true (some old) new ∈ tr → old ≤ new

/-- A recovery that has read an earlier job than `c` and not come to `w` yet. -/
def RecoveryPc.holdsOlder (c : Ctx) (w : Fin n) : RecoveryPc n → Bool
  | .setting c' todo => c' < c && w ∈ todo
  | _ => false

/-- No recovery that read an earlier job than `c` has worker `w` still to come. -/
def Miner.clearFor (s : Miner n) (c : Ctx) (w : Fin n) : Bool :=
  !(s.recovery .watchdog).holdsOlder c w && !(s.recovery .health).holdsOlder c w

/-- A job is handed to a worker only when the way is clear for it. -/
def isTimely (s : Miner n) : Input n → Bool
  | .publisher =>
      match s.publisher with
      | .jobSigma c _ w _ => s.clearFor c w
      | _ => true
  | .recovery r =>
      match s.recovery r with
      | .setting c (w :: _) => s.clearFor c w
      | _ => true
  | _ => true

def timely (s : Miner n) (a : Input n) : Prop := isTimely s a = true

instance (s : Miner n) (a : Input n) : Decidable (timely s a) :=
  inferInstanceAs (Decidable (isTimely s a = true))

namespace PublisherPc

/-- The workers that the job being handed out has not reached. -/
def unreached : PublisherPc n → List (Fin n)
  | .jobTarget _ _ todo => todo
  | .jobDirty _ _ w todo | .jobSigma _ _ w todo => w :: todo
  | _ => []

end PublisherPc

/-- `c` is no newer than what is on the bus. -/
def Miner.KnownToBus (s : Miner n) (c : Ctx) : Prop := ∃ b, s.bus.ctx = some b ∧ c ≤ b

/-! ### What a step can do -/

/-- What timely runs keep. -/
structure TimelyInv (tr : List Event) (s : Miner n) : Prop where
  last : lastPublished tr = s.bus.ctx
  made : ∀ c, s.bus.ctx = some c → c < s.made
  publishing : ∀ c, s.publisher.job = some c → s.bus.ctx = some c
  reached : ∀ w, w ∉ s.publisher.unreached → (s.workers w).sigma = s.bus.ctx
  older : ∀ w c, (s.workers w).sigma = some c → s.KnownToBus c
  recovering : ∀ r c todo, s.recovery r = .setting c todo → s.KnownToBus c
  ahead : ∀ r c todo, s.recovery r = .setting c todo → ∀ w ∈ todo, ∀ c',
    (s.workers w).sigma = some c' → c' ≤ c
  forward : ∀ w old new, .sigmaSet w true (some old) new ∈ tr → old ≤ new

section Steps

variable {s s' : Miner n} {tr es : List Event} {w : Fin n} {c : Ctx}

theorem lastPublished_append (hes : ∀ c, .published c ∉ es) :
    lastPublished (tr ++ es) = lastPublished tr := by
  have hnil : (es.filterMap fun
      | .published c => some c
      | _ => none) = [] := by
    rw [List.filterMap_eq_nil_iff]
    intro e he
    cases e with
    | published c => exact absurd he (hes c)
    | _ => rfl
  rw [lastPublished, List.filterMap_append, hnil, List.append_nil, lastPublished]

/-- Events that say nothing about jobs. -/
def Quiet (es : List Event) : Prop :=
  (∀ c, .published c ∉ es) ∧ ∀ w old new, .sigmaSet w true old new ∉ es

theorem TimelyInv.forward_append (h : TimelyInv tr s)
    (hes : ∀ w old new, .sigmaSet w true (some old) new ∈ es → old ≤ new) :
    ∀ w old new, .sigmaSet w true (some old) new ∈ tr ++ es → old ≤ new := by
  intro w old new hmem
  rcases List.mem_append.mp hmem with hold | hnew
  · exact h.forward w old new hold
  · exact hes w old new hnew

/-- A step that touches neither the bus, nor a recovery, nor any `sigma_`. -/
theorem TimelyInv.of_quiet (h : TimelyInv tr s) (hes : Quiet es) (hbus : s'.bus = s.bus)
    (hmade : s'.made = s.made) (hrecovery : s'.recovery = s.recovery)
    (hsigma : ∀ w, (s'.workers w).sigma = (s.workers w).sigma)
    (hjob : ∀ c, s'.publisher.job = some c → s.publisher.job = some c)
    (hreach : ∀ w, w ∉ s'.publisher.unreached → w ∉ s.publisher.unreached) :
    TimelyInv (tr ++ es) s' where
  last := by rw [lastPublished_append hes.1, h.last, hbus]
  made := by rw [hbus, hmade]; exact h.made
  publishing c hc := by rw [hbus]; exact h.publishing c (hjob c hc)
  reached w hw := by rw [hsigma, hbus]; exact h.reached w (hreach w hw)
  older w c hc := by
    rw [Miner.KnownToBus, hbus]
    exact h.older w c (hsigma w ▸ hc)
  recovering r c todo hr := by
    rw [Miner.KnownToBus, hbus]
    exact h.recovering r c todo (hrecovery ▸ hr)
  ahead r c todo hr w hw c' hc' := h.ahead r c todo (hrecovery ▸ hr) w hw c' (hsigma w ▸ hc')
  forward := h.forward_append fun w old new hmem => absurd hmem (hes.2 w (some old) new)

theorem le_of_clearFor (hclear : s.clearFor c w = true) {r : Recovery} {c' : Ctx}
    {todo : List (Fin n)} (hr : s.recovery r = .setting c' todo) (hw : w ∈ todo) : c ≤ c' := by
  have hnot : (s.recovery r).holdsOlder c w = false := by
    simp only [Miner.clearFor, Bool.and_eq_true, Bool.not_eq_true'] at hclear
    cases r with
    | watchdog => exact hclear.1
    | health => exact hclear.2
  simpa [hr, RecoveryPc.holdsOlder, hw] using hnot

/-- Changing a worker in other ways leaves all `sigma_` alone. -/
theorem sigma_modifyWorker {f : GpuWorker → GpuWorker} (hf : ∀ g, (f g).sigma = g.sigma)
    (w' : Fin n) : ((s.modifyWorker w f).workers w').sigma = (s.workers w').sigma := by
  by_cases hw : w' = w
  · subst hw
    rw [Miner.workers_modifyWorker_self, hf]
  · rw [Miner.workers_modifyWorker_of_ne f hw]

theorem sigma_storeTarget {nbits : UInt32} (w' : Fin n) :
    ((s.storeTarget w nbits).1.workers w').sigma = (s.workers w').sigma := by
  rw [Miner.storeTarget, sigma_modifyWorker]
  intro g
  rfl

theorem sigma_storeDirty (w' : Fin n) :
    ((s.storeDirty w).workers w').sigma = (s.workers w').sigma := by
  apply sigma_modifyWorker
  intro g
  rfl

/-- A step that only changes one worker, and not its `sigma_`. -/
theorem TimelyInv.modifyWorker (h : TimelyInv tr s) {f : GpuWorker → GpuWorker}
    (hf : ∀ g, (f g).sigma = g.sigma) (hes : Quiet es) :
    TimelyInv (tr ++ es) (s.modifyWorker w f) :=
  h.of_quiet hes rfl rfl rfl (sigma_modifyWorker hf) (fun _ => id) fun _ => id

/-- A step of a worker's own threads. -/
theorem TimelyInv.update (h : TimelyInv tr s) {r : View × List Event}
    (hown : Own w (s.workers w) r) : TimelyInv (tr ++ r.2) (s.update w r.1) := by
  have hes : Quiet r.2 := by
    refine ⟨fun c hmem => ?_, fun w' old new hmem => ?_⟩
    · cases hown.events _ hmem
    · cases hown.events _ hmem
  refine h.of_quiet hes rfl rfl rfl (fun w' => ?_) (fun _ => id) fun _ => id
  by_cases hw : w' = w
  · subst hw
    rw [Miner.workers_update_self, hown.sigma]
  · rw [Miner.workers_update_of_ne _ hw]

theorem quiet_nil : Quiet [] := ⟨nofun, nofun⟩

theorem quiet_storeTarget (s : Miner n) (w : Fin n) (nbits : UInt32) :
    Quiet (s.storeTarget w nbits).2 := by
  constructor
  · simp [Miner.storeTarget]
  · simp [Miner.storeTarget]

/-! ### The publisher -/

theorem TimelyInv.publishJob (h : TimelyInv tr s) (nbits : UInt32) :
    TimelyInv (tr ++ (s.publishJob nbits).2) (s.publishJob nbits).1 := by
  have hknown : ∀ c, s.KnownToBus c → c ≤ s.made := by
    rintro c ⟨b, hb, hle⟩
    exact hle.trans (h.made b hb).le
  refine ⟨?_, ?_, ?_, ?_, ?_, ?_, h.ahead, ?_⟩
  · simp [lastPublished, Miner.publishJob]
  · rintro c ⟨⟩
    exact Nat.lt_succ_self _
  · rintro c ⟨⟩
    rfl
  · intro w hw
    exact absurd (List.mem_finRange w) hw
  · intro w c hc
    exact ⟨s.made, rfl, hknown c (h.older w c hc)⟩
  · intro r c todo hr
    exact ⟨s.made, rfl, hknown c (h.recovering r c todo hr)⟩
  · refine h.forward_append fun w old new hmem => ?_
    simp [Miner.publishJob] at hmem

/-- A job is handed to a worker. The publisher goes on to `publisher'` or the recoveries
to `recovery'`. -/
theorem TimelyInv.setSigma (h : TimelyInv tr s) {recovery : Bool}
    {publisher' : PublisherPc n} {recovery' : Recovery → RecoveryPc n}
    (hclear : s.clearFor c w = true) (hknown : s.KnownToBus c)
    (hforward : recovery = true → ∀ old, (s.workers w).sigma = some old → old ≤ c)
    (hjob : ∀ c, publisher'.job = some c → s.publisher.job = some c)
    (hreach : ∀ w', w' ∉ publisher'.unreached → w' ∉ s.publisher.unreached ∨ w' = w)
    (hw : w ∉ publisher'.unreached → s.bus.ctx = some c)
    (hrecovery : ∀ r c' todo', recovery' r = .setting c' todo' →
      ∃ todo, s.recovery r = .setting c' todo ∧ ∀ w' ∈ todo', w' ∈ todo) :
    TimelyInv (tr ++ (s.setSigma w c recovery).2)
      { (s.setSigma w c recovery).1 with publisher := publisher', recovery := recovery' } := by
  have hself : ((s.setSigma w c recovery).1.workers w).sigma = some c := by
    simp [Miner.setSigma]
  have hother : ∀ w', w' ≠ w →
      ((s.setSigma w c recovery).1.workers w').sigma = (s.workers w').sigma := by
    intro w' hne
    simp only [Miner.setSigma]
    rw [Miner.workers_modifyWorker_of_ne _ hne]
  refine ⟨?_, h.made, fun c' hc' => h.publishing c' (hjob c' hc'), ?_, ?_, ?_, ?_, ?_⟩
  · rw [lastPublished_append (by simp [Miner.setSigma]), h.last]
    rfl
  · intro w' hw'
    by_cases heq : w' = w
    · subst heq
      exact hself.trans (hw hw').symm
    · rcases hreach w' hw' with hold | heq'
      · exact (hother w' heq).trans (h.reached w' hold)
      · exact absurd heq' heq
  · intro w' c' hc'
    by_cases heq : w' = w
    · subst heq
      obtain rfl : c = c' := Option.some.inj (hself.symm.trans hc')
      exact hknown
    · exact h.older w' c' ((hother w' heq).symm.trans hc')
  · intro r c' todo' hr
    obtain ⟨todo, hold, -⟩ := hrecovery r c' todo' hr
    exact h.recovering r c' todo hold
  · intro r c' todo' hr w' hw' c'' hc''
    obtain ⟨todo, hold, hsub⟩ := hrecovery r c' todo' hr
    by_cases heq : w' = w
    · -- the way was clear: a recovery with this worker to come holds no older job
      subst heq
      obtain rfl : c = c'' := Option.some.inj (hself.symm.trans hc'')
      exact le_of_clearFor hclear hold (hsub w' hw')
    · exact h.ahead r c' todo hold w' (hsub w' hw') c'' ((hother w' heq).symm.trans hc'')
  · refine h.forward_append fun w' old new hmem => ?_
    simp only [Miner.setSigma, List.mem_singleton, Event.sigmaSet.injEq] at hmem
    obtain ⟨-, hrecovery, hold, rfl⟩ := hmem
    exact hforward hrecovery.symm old hold.symm

theorem TimelyInv.publisherStep (h : TimelyInv tr s) (htimely : timely s .publisher)
    {r : Miner n × List Event} (hstep : s.publisherStep = some r) : TimelyInv (tr ++ r.2) r.1 := by
  refine Miner.publisherStep_cases (P := fun r => TimelyInv (tr ++ r.2) r.1) hstep ?jobTarget
    ?jobDirty ?jobSigma ?jobDone ?vardiffTarget ?vardiffDirty ?vardiffDrain ?vardiffNoContext
    ?vardiffContext
  case jobSigma =>
    intro c nbits w todo hpub
    have hbus : s.bus.ctx = some c := h.publishing c (by rw [hpub]; rfl)
    refine h.setSigma ?_ ⟨c, hbus, le_refl c⟩ nofun ?_ ?_ (fun _ => hbus) ?_
    · simpa [timely, isTimely, hpub] using htimely
    · rw [hpub]
      exact fun _ => id
    · intro w' hw'
      rw [hpub]
      by_cases heq : w' = w
      · exact .inr heq
      · exact .inl fun hmem => by
          rcases List.mem_cons.mp hmem with heq' | hmem'
          · exact heq heq'
          · exact hw' hmem'
    · exact fun r c' todo' hr => ⟨todo', hr, fun _ => id⟩
  -- the other steps store a target, a flag or nothing
  case jobTarget =>
    intro c nbits w todo hpub
    refine h.of_quiet (quiet_storeTarget s w nbits) rfl rfl rfl sigma_storeTarget ?_ ?_
    · exact hpub ▸ fun _ => id
    · exact hpub ▸ fun _ => id
  case vardiffTarget =>
    intro nbits w todo hpub
    refine h.of_quiet (quiet_storeTarget s w nbits) rfl rfl rfl sigma_storeTarget ?_ ?_
    · exact hpub ▸ fun _ => id
    · exact hpub ▸ fun _ => id
  case jobDirty =>
    intro c nbits w todo hpub
    refine h.of_quiet quiet_nil rfl rfl rfl sigma_storeDirty ?_ ?_
    · exact hpub ▸ fun _ => id
    · exact hpub ▸ fun _ => id
  case vardiffDirty =>
    intro nbits w todo hpub
    refine h.of_quiet quiet_nil rfl rfl rfl sigma_storeDirty ?_ ?_
    · exact hpub ▸ fun _ => id
    · exact hpub ▸ fun _ => id
  case jobDone | vardiffContext =>
    intro _ _ hpub
    refine h.of_quiet quiet_nil rfl rfl rfl (fun _ => rfl) (by rintro _ ⟨⟩) ?_
    exact hpub ▸ fun _ => id
  case vardiffDrain | vardiffNoContext =>
    intro _ hpub
    refine h.of_quiet quiet_nil rfl rfl rfl (fun _ => rfl) (by rintro _ ⟨⟩) ?_
    exact hpub ▸ fun _ => id

/-! ### The recoveries -/

/-- A recovery that goes on to a line where it hands out nothing. -/
theorem TimelyInv.setRecovery (h : TimelyInv tr s) {r : Recovery} {pc : RecoveryPc n}
    (hpc : ∀ c todo, pc ≠ .setting c todo) : TimelyInv tr (s.setRecovery r pc) := by
  have hold : ∀ r' c todo, (s.setRecovery r pc).recovery r' = .setting c todo →
      s.recovery r' = .setting c todo := by
    intro r' c todo hr'
    by_cases heq : r' = r
    · subst heq
      rw [Miner.recovery_setRecovery_self] at hr'
      exact absurd hr' (hpc c todo)
    · rwa [Miner.recovery_setRecovery_of_ne pc heq] at hr'
  refine ⟨h.last, h.made, h.publishing, h.reached, h.older, ?_, ?_, h.forward⟩
  · exact fun r' c todo hr' => h.recovering r' c todo (hold r' c todo hr')
  · exact fun r' c todo hr' => h.ahead r' c todo (hold r' c todo hr')

/-- A recovery reads the bus: no worker has anything newer. -/
theorem TimelyInv.drainLatest (h : TimelyInv tr s) {r : Recovery} {otherwise : RecoveryPc n}
    (hpc : ∀ c todo, otherwise ≠ .setting c todo) :
    TimelyInv tr (s.setRecovery r (s.drainLatest otherwise)) := by
  cases hbus : s.bus.ctx with
  | none =>
    simp only [Miner.drainLatest, hbus]
    exact h.setRecovery hpc
  | some b =>
    simp only [Miner.drainLatest, hbus]
    refine ⟨h.last, h.made, h.publishing, h.reached, h.older, ?_, ?_, h.forward⟩
    · intro r' c todo hr'
      by_cases heq : r' = r
      · subst heq
        rw [Miner.recovery_setRecovery_self] at hr'
        cases hr'
        exact ⟨b, hbus, le_refl b⟩
      · rw [Miner.recovery_setRecovery_of_ne _ heq] at hr'
        exact h.recovering r' c todo hr'
    · intro r' c todo hr' w hw c' hc'
      by_cases heq : r' = r
      · subst heq
        rw [Miner.recovery_setRecovery_self] at hr'
        cases hr'
        obtain ⟨b', hb', hle⟩ := h.older w c' hc'
        rw [hbus] at hb'
        exact hle.trans_eq (Option.some.inj hb').symm
      · rw [Miner.recovery_setRecovery_of_ne _ heq] at hr'
        exact h.ahead r' c todo hr' w hw c' hc'

theorem afterSetting_ne (r : Recovery) (c : Ctx) (todo : List (Fin n)) :
    Miner.afterSetting r ≠ .setting c todo := by
  cases r <;> nofun

theorem TimelyInv.recover (h : TimelyInv tr s) {r : Recovery} {q : Miner n × List Event}
    (hstep : s.recover r = some q) : TimelyInv (tr ++ q.2) q.1 := by
  refine Miner.recover_cases (P := fun q => TimelyInv (tr ++ q.2) q.1) hstep ?watchdog ?health
  all_goals
    intro _
    rw [List.append_nil]
  case watchdog => exact h.drainLatest nofun
  case health => exact h.setRecovery nofun

theorem TimelyInv.recoveryStep (h : TimelyInv tr s) {r : Recovery}
    (htimely : timely s (.recovery r)) {q : Miner n × List Event}
    (hstep : s.recoveryStep r = some q) : TimelyInv (tr ++ q.2) q.1 := by
  refine Miner.recoveryStep_cases (P := fun q => TimelyInv (tr ++ q.2) q.1) hstep ?pausing
    ?paused ?setting ?set ?resuming ?resumed
  case pausing | resuming =>
    intro w todo _
    refine TimelyInv.setRecovery (h.modifyWorker ?_ quiet_nil) nofun
    intro g
    rfl
  case paused =>
    intro _
    rw [List.append_nil]
    exact h.drainLatest (afterSetting_ne r)
  case setting =>
    intro c w todo hr
    have hmem : w ∈ w :: todo := List.mem_cons_self ..
    have hknown := h.recovering r c (w :: todo) hr
    have hahead : ∀ old, (s.workers w).sigma = some old → old ≤ c :=
      fun old => h.ahead r c (w :: todo) hr w hmem old
    refine h.setSigma ?_ hknown (fun _ => hahead) (fun _ => id) (fun _ => .inl) ?_ ?_
    · simpa [timely, isTimely, hr] using htimely
    · -- a worker that was reached has the newest job, so this is the newest too
      intro hw
      obtain ⟨b, hb, hle⟩ := hknown
      have hsigma : (s.workers w).sigma = some b := (h.reached w hw).trans hb
      rw [hb, le_antisymm hle (hahead b hsigma)]
    · intro r' c' todo' hr'
      by_cases heq : r' = r
      · subst heq
        rw [Function.update_self] at hr'
        cases hr'
        exact ⟨w :: todo, hr, fun _ => List.mem_cons_of_mem w⟩
      · rw [Function.update_of_ne heq] at hr'
        exact ⟨todo', hr', fun _ => id⟩
  case set =>
    intro c _
    rw [List.append_nil]
    exact h.setRecovery (afterSetting_ne r)
  case resumed =>
    intro _
    rw [List.append_nil]
    exact h.setRecovery nofun

/-! ### Runs -/

theorem TimelyInv.step (h : TimelyInv tr s) {a : Input n} (htimely : timely s a)
    (hstep : s.step a = some (s', es)) : TimelyInv (tr ++ es) s' := by
  cases a with
  | publish nbits =>
    simp only [Miner.step] at hstep
    split_ifs at hstep
    cases hstep
    exact h.publishJob nbits
  | vardiff nbits =>
    simp only [Miner.step] at hstep
    split_ifs at hstep with hidle
    cases hstep
    refine h.of_quiet quiet_nil rfl rfl rfl (fun _ => rfl) (by rintro _ ⟨⟩) ?_
    exact hidle ▸ fun _ => id
  | publisher => exact h.publisherStep htimely hstep
  | recover r => exact h.recover hstep
  | recovery r => exact h.recoveryStep htimely hstep
  | setPaused w paused | setMatmulsPerPoll w mpp | stop w =>
    cases hstep
    exact h.modifyWorker (fun _ => rfl) quiet_nil
  | run w a =>
    obtain ⟨r, hrun, heq⟩ := Option.map_eq_some_iff.mp hstep
    cases heq
    exact h.update (own_runStep hrun)
  | installer w a =>
    obtain ⟨r, hinstaller, heq⟩ := Option.map_eq_some_iff.mp hstep
    cases heq
    exact h.update (own_installerStep hinstaller)
  | share w =>
    obtain ⟨r, hshare, heq⟩ := Option.map_eq_some_iff.mp hstep
    cases heq
    exact h.update (own_shareStep hshare)

theorem timelyInv_start (cfg : Fin n → Config) (mpp : Fin n → ℕ) :
    TimelyInv [] (Miner.start cfg mpp) := by
  refine ⟨rfl, nofun, nofun, fun _ _ => rfl, nofun, nofun, nofun, nofun⟩

theorem TimelyInv.upToDate (h : TimelyInv tr s) : UpToDate tr s := by
  refine ⟨fun hidle _ w => ?_, h.forward⟩
  rw [h.last]
  apply h.reached
  rw [hidle]
  nofun

end Steps

/-- Along every timely run, the workers have the job published last once all calls are
done, and no recovery replaces a newer job by an older one. -/
theorem upToDate_of_timely {cfg : Fin n → Config} {mpp : Fin n → ℕ} {tr : List Event}
    {s : Miner n} (hrun : (machine n).Run timely (Miner.start cfg mpp) tr s) :
    UpToDate tr s := by
  refine TimelyInv.upToDate (hrun.invariant (timelyInv_start cfg mpp) ?_)
  intro tr s a s' es hinv htimely hstep
  exact hinv.step htimely hstep

/-- Two jobs, with a recovery of the watchdog that is over before the second. -/
def republishRun : List (Input 1) :=
  [.publish 1, .publisher, .publisher, .publisher, .publisher, .recover .watchdog,
    .recovery .watchdog, .recovery .watchdog, .publish 2, .publisher, .publisher, .publisher,
    .publisher]

theorem upToDate_of_republish :
    ∃ tr s, (machine 1).Run timely (Miner.start (fun _ => {}) fun _ => 1) tr s ∧
      s.publisher = .idle ∧ lastPublished tr = some 1 ∧ UpToDate tr s := by
  have hexec : (machine 1).exec timely republishRun (Miner.start (fun _ => {}) fun _ => 1) =
    some (_, _) := rfl
  have hrun := Machine.run_of_exec hexec
  exact ⟨_, _, hrun, rfl, rfl, upToDate_of_timely hrun⟩

/-- The watchdog reads the first job, the second is published and handed out, and the
watchdog hands out the first. -/
def staleRun : List (Input 1) :=
  [.publish 1, .publisher, .publisher, .publisher, .publisher, .recover .watchdog, .publish 2,
    .publisher, .publisher, .publisher, .publisher, .recovery .watchdog, .recovery .watchdog]

theorem upToDate_fails :
    ∃ tr s, (machine 1).Run Machine.anyStep (Miner.start (fun _ => {}) fun _ => 1) tr s ∧
      s.publisher = .idle ∧ (∀ r, s.recovery r = .idle) ∧ lastPublished tr = some 1 ∧
        (s.workers 0).sigma = some 0 ∧ ¬ UpToDate tr s := by
  have hexec : (machine 1).exec Machine.anyStep staleRun
    (Miner.start (fun _ => {}) fun _ => 1) = some (_, _) := rfl
  refine ⟨_, _, Machine.run_of_exec hexec, rfl, ?_, rfl, rfl, fun hup => ?_⟩
  · intro r
    cases r <;> rfl
  · have hforward := hup.forward 0 1 0 (by decide)
    exact absurd hforward (by decide)

end PropMiner.Jobs
