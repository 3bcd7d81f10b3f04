import PropMiner.Jobs.Targets

/-!
# Vardiff updates reach the GPU

The promise is that, once updates have stopped, one full round of the run loop leaves the
worker and every half in use with the last target.

An install reads the target of the job, not of the worker, and lowers the flag at its
end, whatever happened since. So an update that falls between is lost, and so is one
that has reached the worker but not the job yet. A zero target is stored and not
uploaded. The promise holds in the runs without these steps.

## Main definitions

* `Settled` — the worker and all its halves have this target
* `calm` — the steps that keep updates away from a running install

## Main results

* `settled_of_calm` — along calm runs, a full round after the last update settles it
* `settled_fails` — an update during an install is lost
-/

set_option autoImplicit false

namespace PropMiner.Jobs

open PropMiner.Semantics (Machine)

variable {n : ℕ}

/-- The worker and all its halves in use have this target. -/
structure Settled (g : GpuWorker) (nbits : UInt32) : Prop where
  worker : g.targetNbits = nbits
  halves : ∀ h ∈ g.halves, (g.half h).powTargetNbits = nbits

/-- The last nonzero target that `set_target_nbits` stored in worker `w`. -/
def lastTarget (w : ℕ) (tr : List Event) : Option UInt32 :=
  (tr.filterMap fun
    | .targetSet w' nbits => if w' = w ∧ nbits ≠ 0 then some nbits else none
    | _ => none).getLast?

/-- A round of the loop of worker `w` began and ran to its end. -/
def FullRound (w : ℕ) (tr : List Event) : Prop :=
  ∃ pre post, tr = pre ++ .loopBegin w :: post ∧ .loopEnd w ∈ post

/-- The steps that are no updates: the pool thread does not move. -/
def isQuiet : Input n → Bool
  | .publish _ | .vardiff _ | .publisher => false
  | _ => true

/-- No update is zero, none is stored while an install binds, and each time an install
reads the target of its job, it is 0 or that of the worker. -/
def isCalm (s : Miner n) : Input n → Bool
  | .publish nbits | .vardiff nbits => nbits ≠ 0
  | .publisher =>
      match s.publisher with
      | .jobTarget _ _ (w :: _) | .vardiffTarget _ (w :: _) => !(s.workers w).pc.binding
      | _ => true
  | .run w _ => (s.view w).agrees
  | _ => true

def calm (s : Miner n) (a : Input n) : Prop := isCalm s a = true

instance (s : Miner n) (a : Input n) : Decidable (calm s a) :=
  inferInstanceAs (Decidable (isCalm s a = true))

/-- Calm, and no update. -/
def calmAfter (s : Miner n) (a : Input n) : Prop := calm s a ∧ isQuiet a = true

instance (s : Miner n) (a : Input n) : Decidable (calmAfter s a) :=
  inferInstanceAs (Decidable (_ ∧ _))

/-! ### What a step does to the targets of one worker -/

namespace PublisherPc

/-- The target of worker `w` is stored and its flag is still to be raised. -/
def mid (w : Fin n) : PublisherPc n → Bool
  | .jobDirty _ _ w' _ | .vardiffDirty _ w' _ => w' = w
  | _ => false

/-- The target that is handed out. -/
def nbits : PublisherPc n → Option UInt32
  | .jobTarget _ nbits _ | .jobDirty _ nbits _ _ | .jobSigma _ nbits _ _
  | .vardiffTarget nbits _ | .vardiffDirty nbits _ _ => some nbits
  | _ => none

end PublisherPc

/-- What a calm step does to the targets of worker `w`. -/
inductive TargetStep (w : Fin n) (s s' : Miner n) (es : List Event) : Prop
  | untouched (h : Untouched (s.workers w) (s'.workers w))
      (hmid : s'.publisher.mid w = s.publisher.mid w) (hes : ∀ e ∈ es, e.tellsOf w = false)
  | run (hmove : TargetMove (s.workers w) (s'.workers w)) (hpub : s'.publisher = s.publisher)
      (hes : ∀ e ∈ es, e.ofWorker w = true)
      (hrounds : Rounds w (s.view w) (s'.view w, es))
  | storeTarget {nbits : UInt32} (h : s'.workers w = { s.workers w with targetNbits := nbits })
      (hnbits : s.publisher.nbits = some nbits) (hmid : s'.publisher.mid w = true)
      (hbinding : (s.workers w).pc.binding = false) (hes : es = [.targetSet w nbits])
  | storeDirty (h : s'.workers w = { s.workers w with targetDirty := true })
      (hmid : s.publisher.mid w = true) (hes : es = [])

section Steps

variable {s s' : Miner n} {es tr : List Event} {w w' : Fin n} {a : Input n}

theorem untouched_refl (g : GpuWorker) : Untouched g g :=
  ⟨⟨rfl, rfl, fun _ => rfl, id⟩, rfl, rfl⟩

/-- A step that changes one worker, and none of its targets. -/
theorem untouched_of_workers {g' : GpuWorker}
    (hworkers : s'.workers = Function.update s.workers w' g')
    (h : Untouched (s.workers w') g') : Untouched (s.workers w) (s'.workers w) := by
  rw [hworkers]
  by_cases hw : w = w'
  · subst hw
    rwa [Function.update_self]
  · rw [Function.update_of_ne hw]
    exact untouched_refl _

/-- What the orchestrator does to a worker without touching its targets. -/
theorem untouched_orchestrator (g : GpuWorker) (sigma : Option Ctx) (pauseFlag stopFlag : Bool)
    (matmulsPerPoll : ℕ) :
    Untouched g { g with sigma, pauseFlag, stopFlag, matmulsPerPoll } :=
  ⟨⟨rfl, rfl, fun _ => rfl, id⟩, rfl, rfl⟩

theorem targetStep_storeTarget {nbits : UInt32} {publisher' : PublisherPc n}
    (hbinding : (s.workers w').pc.binding = false) (hnbits : s.publisher.nbits = some nbits)
    (hmid : ∀ x, s.publisher.mid x = false) (hmid' : ∀ x, publisher'.mid x = decide (w' = x)) :
    TargetStep w s { (s.storeTarget w' nbits).1 with publisher := publisher' }
      (s.storeTarget w' nbits).2 := by
  by_cases hw : w = w'
  · subst hw
    refine .storeTarget ?_ hnbits ?_ hbinding rfl
    · simp [Miner.storeTarget]
    · simp [hmid']
  · refine .untouched ?_ ?_ ?_
    · dsimp only [Miner.storeTarget]
      rw [Miner.workers_modifyWorker_of_ne _ hw]
      exact untouched_refl _
    · simp [hmid, hmid', Ne.symm hw]
    · simp [Miner.storeTarget, Event.tellsOf, Fin.val_inj, Ne.symm hw]

theorem targetStep_storeDirty {publisher' : PublisherPc n}
    (hmid : ∀ x, s.publisher.mid x = decide (w' = x)) (hmid' : ∀ x, publisher'.mid x = false) :
    TargetStep w s { s.storeDirty w' with publisher := publisher' } [] := by
  by_cases hw : w = w'
  · subst hw
    refine .storeDirty ?_ ?_ rfl
    · simp [Miner.storeDirty]
    · simp [hmid]
  · refine .untouched ?_ ?_ (List.forall_mem_nil _)
    · dsimp only [Miner.storeDirty]
      rw [Miner.workers_modifyWorker_of_ne _ hw]
      exact untouched_refl _
    · simp [hmid, hmid', Ne.symm hw]

theorem targetStep_publisherStep (hcalm : calm s .publisher)
    (hstep : s.publisherStep = some (s', es)) : TargetStep w s s' es := by
  refine Miner.publisherStep_cases (P := fun r => TargetStep w s r.1 r.2) hstep ?jobTarget
    ?jobDirty ?jobSigma ?jobDone ?vardiffTarget ?vardiffDirty ?vardiffDrain ?vardiffNoContext
    ?vardiffContext
  case jobTarget =>
    intro c nbits w' todo hpub
    refine targetStep_storeTarget ?_ ?_ ?_ (fun _ => rfl)
    · simpa [calm, isCalm, hpub] using hcalm
    · rw [hpub]; rfl
    · rw [hpub]; exact fun _ => rfl
  case vardiffTarget =>
    intro nbits w' todo hpub
    refine targetStep_storeTarget ?_ ?_ ?_ (fun _ => rfl)
    · simpa [calm, isCalm, hpub] using hcalm
    · rw [hpub]; rfl
    · rw [hpub]; exact fun _ => rfl
  case jobDirty =>
    intro c nbits w' todo hpub
    refine targetStep_storeDirty ?_ (fun _ => rfl)
    rw [hpub]; exact fun _ => rfl
  case vardiffDirty =>
    intro nbits w' todo hpub
    refine targetStep_storeDirty ?_ (fun _ => rfl)
    rw [hpub]; exact fun _ => rfl
  case jobSigma =>
    intro c nbits w' todo hpub
    refine .untouched (untouched_of_workers rfl ?_) (by rw [hpub]; rfl) ?_
    · exact untouched_orchestrator _ _ _ _ _
    · simp [Miner.setSigma, Event.tellsOf]
  case jobDone | vardiffContext =>
    intro _ _ hpub
    exact .untouched (untouched_refl _) (by rw [hpub]; rfl) (List.forall_mem_nil _)
  case vardiffDrain | vardiffNoContext =>
    intro _ hpub
    exact .untouched (untouched_refl _) (by rw [hpub]; rfl) (List.forall_mem_nil _)

theorem targetStep_recoveryStep {r : Recovery} (hstep : s.recoveryStep r = some (s', es)) :
    TargetStep w s s' es := by
  refine Miner.recoveryStep_cases (P := fun q => TargetStep w s q.1 q.2) hstep ?pausing ?paused
    ?setting ?set ?resuming ?resumed
  case paused | set | resumed =>
    intros
    exact .untouched (untouched_refl _) rfl (List.forall_mem_nil _)
  case pausing | resuming =>
    intros
    refine .untouched (untouched_of_workers rfl ?_) rfl (List.forall_mem_nil _)
    exact untouched_orchestrator _ _ _ _ _
  case setting =>
    intros
    refine .untouched (untouched_of_workers rfl ?_) rfl ?_
    · exact untouched_orchestrator _ _ _ _ _
    · simp [Miner.setSigma, Event.tellsOf]

theorem tellsOf_of_ofWorker {e : Event} (he : e.ofWorker w' = true) (hne : w ≠ w') :
    e.tellsOf w = false := by
  have hval : (w' : ℕ) ≠ w := fun h => hne (Fin.val_inj.mp h).symm
  cases e with
  | loopBegin x | loopEnd x =>
    simp only [Event.ofWorker, decide_eq_true_eq] at he
    simp [Event.tellsOf, he, hval]
  | targetSet => cases he
  | _ => rfl

/-- A step of the threads of another worker. -/
theorem untouched_update {v : View} (hne : w ≠ w') :
    Untouched (s.workers w) ((s.update w' v).workers w) := by
  rw [Miner.workers_update_of_ne v hne]
  exact untouched_refl _

theorem targetStep_run {x : Answer} {r : View × List Event} (hcalm : calm s (.run w' x))
    (hrun : runStep w' (s.view w') x = some r) : TargetStep w s (s.update w' r.1) r.2 := by
  have hown := own_runStep hrun
  by_cases hw : w = w'
  · subst hw
    have hself : (s.update w r.1).workers w = r.1.worker := Miner.workers_update_self _
    refine .run ?_ rfl hown.events ?_
    · rw [hself]
      exact targetMove_runStep hcalm hrun
    · obtain ⟨hbegins, hends⟩ := rounds_runStep hrun
      refine ⟨fun hmem => ?_, fun hmem => ?_⟩
      · simpa [Miner.view, hself] using hbegins hmem
      · simpa [Miner.view, hself] using hends hmem
  · exact .untouched (untouched_update hw) rfl fun e he => tellsOf_of_ofWorker (hown.events e he) hw

/-- A step of another thread of some worker, which leaves targets alone. -/
theorem targetStep_update {r : View × List Event} (hown : Own w' (s.workers w') r)
    (hsame : Untouched (s.workers w') r.1.worker) (htells : ∀ e ∈ r.2, e.tellsOf w' = false) :
    TargetStep w s (s.update w' r.1) r.2 := by
  by_cases hw : w = w'
  · subst hw
    refine .untouched ?_ rfl htells
    rwa [Miner.workers_update_self]
  · exact .untouched (untouched_update hw) rfl fun e he => tellsOf_of_ofWorker (hown.events e he) hw

/-- What a calm step does to the targets of any worker. -/
theorem targetStep_step (hcalm : calm s a) (hstep : s.step a = some (s', es)) :
    TargetStep w s s' es := by
  cases a with
  | publish nbits =>
    simp only [Miner.step] at hstep
    split_ifs at hstep with hidle
    cases hstep
    refine .untouched (untouched_refl _) (by rw [hidle]; rfl) ?_
    simp [Event.tellsOf]
  | vardiff nbits =>
    simp only [Miner.step] at hstep
    split_ifs at hstep with hidle
    cases hstep
    exact .untouched (untouched_refl _) (by rw [hidle]; rfl) (List.forall_mem_nil _)
  | publisher => exact targetStep_publisherStep hcalm hstep
  | recover r =>
    refine Miner.recover_cases (P := fun q => TargetStep w s q.1 q.2) hstep ?_ ?_
    all_goals exact fun _ => .untouched (untouched_refl _) rfl (List.forall_mem_nil _)
  | recovery r => exact targetStep_recoveryStep hstep
  | setPaused w' paused | setMatmulsPerPoll w' mpp | stop w' =>
    cases hstep
    refine .untouched (untouched_of_workers rfl ?_) rfl (List.forall_mem_nil _)
    exact untouched_orchestrator _ _ _ _ _
  | run w' x =>
    obtain ⟨r, hrun, heq⟩ := Option.map_eq_some_iff.mp hstep
    cases heq
    exact targetStep_run hcalm hrun
  | installer w' x =>
    obtain ⟨r, hinstaller, heq⟩ := Option.map_eq_some_iff.mp hstep
    cases heq
    obtain ⟨hsame, htells⟩ := untouched_installerStep hinstaller
    exact targetStep_update (own_installerStep hinstaller) hsame htells
  | share w' =>
    obtain ⟨r, hshare, heq⟩ := Option.map_eq_some_iff.mp hstep
    cases heq
    obtain ⟨hsame, htells⟩ := untouched_shareStep hshare
    exact targetStep_update (own_shareStep hshare) hsame htells

/-- Only the pool thread moves the publisher. -/
theorem publisher_of_quiet (hquiet : isQuiet a = true) (hstep : s.step a = some (s', es)) :
    s'.publisher = s.publisher := by
  cases a with
  | publish | vardiff | publisher => cases hquiet
  | recover r =>
    refine Miner.recover_cases (P := fun q => q.1.publisher = s.publisher) hstep ?_ ?_
    all_goals exact fun _ => rfl
  | recovery r =>
    refine Miner.recoveryStep_cases (P := fun q => q.1.publisher = s.publisher) hstep ?pausing
      ?paused ?setting ?set ?resuming ?resumed
    all_goals
      intros
      rfl
  | setPaused | setMatmulsPerPoll | stop =>
    cases hstep
    rfl
  | run | installer | share =>
    obtain ⟨r, -, heq⟩ := Option.map_eq_some_iff.mp hstep
    cases heq
    rfl

/-- No update under way is zero. -/
theorem nbits_step (hnbits : s.publisher.nbits ≠ some 0) (hcalm : calm s a)
    (hstep : s.step a = some (s', es)) : s'.publisher.nbits ≠ some 0 := by
  cases a with
  | publish nbits | vardiff nbits =>
    simp only [Miner.step] at hstep
    split_ifs at hstep
    cases hstep
    have hne : nbits ≠ 0 := by simpa [calm, isCalm] using hcalm
    simpa [Miner.publishJob, PublisherPc.nbits] using hne
  | publisher =>
    simp only [Miner.step, Miner.publisherStep] at hstep
    split at hstep
    case h_1 => cases hstep
    all_goals
      rename_i hpub
      cases hstep
      rw [hpub] at hnbits
      first | exact hnbits | rintro ⟨⟩
  | _ =>
    rw [publisher_of_quiet rfl hstep]
    exact hnbits

/-! ### Runs with updates -/

theorem lastTarget_append {w : ℕ} (hes : ∀ nbits, .targetSet w nbits ∉ es) :
    lastTarget w (tr ++ es) = lastTarget w tr := by
  have hnil : (es.filterMap fun
      | .targetSet w' nbits => if w' = w ∧ nbits ≠ 0 then some nbits else none
      | _ => none) = [] := by
    rw [List.filterMap_eq_nil_iff]
    intro e he
    cases e with
    | targetSet w' nbits =>
      dsimp only
      rw [if_neg]
      rintro ⟨rfl, -⟩
      exact hes nbits he
    | _ => rfl
  rw [lastTarget, List.filterMap_append, hnil, List.append_nil, lastTarget]

theorem lastTarget_targetSet {w : ℕ} {nbits : UInt32} (hnbits : nbits ≠ 0) :
    lastTarget w (tr ++ [.targetSet w nbits]) = some nbits := by
  simp [lastTarget, hnbits]

theorem lastTarget_ne_zero {w : ℕ} {nbits : UInt32} (h : lastTarget w tr = some nbits) :
    nbits ≠ 0 := by
  have hmem := List.mem_of_getLast? h
  obtain ⟨e, -, he⟩ := List.mem_filterMap.mp hmem
  cases e with
  | targetSet w' nbits' =>
    dsimp only at he
    split_ifs at he with hset
    cases he
    exact hset.2
  | _ => cases he

/-- What calm runs keep. -/
structure CalmInv (tr : List Event) (s : Miner n) : Prop where
  targets : ∀ w, TargetInv (s.publisher.mid w) (s.workers w)
  last : ∀ (w : Fin n) nbits, lastTarget w tr = some nbits → (s.workers w).targetNbits = nbits
  nonzero : s.publisher.nbits ≠ some 0

theorem not_targetSet_of_tellsOf {w : ℕ} (hes : ∀ e ∈ es, e.tellsOf w = false) (nbits : UInt32) :
    .targetSet w nbits ∉ es := by
  intro hmem
  simpa [Event.tellsOf] using hes _ hmem

theorem CalmInv.targets_step (h : CalmInv tr s) (hmove : TargetStep w s s' es) :
    TargetInv (s'.publisher.mid w) (s'.workers w) := by
  cases hmove with
  | untouched hsame hmid hes =>
    rw [hmid]
    exact (h.targets w).congr hsame.toSameTargets hsame.dirty hsame.pc
  | run hmove hpub hes hrounds =>
    rw [hpub]
    exact (h.targets w).move hmove
  | @storeTarget nbits hstore hnbits hmid hbinding hes =>
    rw [hstore, hmid]
    exact (h.targets w).storeTarget hbinding nbits
  | storeDirty hstore hmid hes =>
    rw [hstore]
    exact (h.targets w).storeDirty _

theorem CalmInv.last_step (h : CalmInv tr s) (hmove : TargetStep w s s' es) (nbits : UInt32)
    (hlast : lastTarget w (tr ++ es) = some nbits) : (s'.workers w).targetNbits = nbits := by
  cases hmove with
  | untouched hsame hmid hes =>
    rw [lastTarget_append (not_targetSet_of_tellsOf hes)] at hlast
    rw [hsame.target]
    exact h.last w nbits hlast
  | run hmove hpub hes hrounds =>
    rw [lastTarget_append fun nbits hmem => by cases hes _ hmem] at hlast
    rw [hmove.target_eq (h.targets w)]
    exact h.last w nbits hlast
  | @storeTarget nbits' hstore hnbits hmid hbinding hes =>
    have hne : nbits' ≠ 0 := by
      rintro rfl
      exact h.nonzero hnbits
    rw [hes, lastTarget_targetSet hne] at hlast
    rw [hstore]
    exact Option.some.inj hlast
  | storeDirty hstore hmid hes =>
    rw [hes, List.append_nil] at hlast
    rw [hstore]
    exact h.last w nbits hlast

theorem CalmInv.step (h : CalmInv tr s) (hcalm : calm s a) (hstep : s.step a = some (s', es)) :
    CalmInv (tr ++ es) s' where
  targets _ := h.targets_step (targetStep_step hcalm hstep)
  last _ := h.last_step (targetStep_step hcalm hstep)
  nonzero := nbits_step h.nonzero hcalm hstep

theorem calmInv_start (cfg : Fin n → Config) (mpp : Fin n → ℕ) :
    CalmInv [] (Miner.start cfg mpp) := by
  refine ⟨fun w => ?_, nofun, nofun⟩
  refine .of_plain (.inl ⟨rfl, rfl⟩) rfl fun _ _ hzero => ?_
  exact absurd rfl hzero

/-! ### Runs without updates -/

theorem fullRound_append {w : ℕ} (h : FullRound w (tr ++ es)) :
    FullRound w tr ∨ .loopBegin w ∈ tr ∧ .loopEnd w ∈ es ∨
      .loopBegin w ∈ es ∧ .loopEnd w ∈ es := by
  obtain ⟨pre, post, heq, hend⟩ := h
  rcases List.append_eq_append_iff.mp heq with ⟨mid, rfl, hes⟩ | ⟨mid, htr, hmid⟩
  · -- the round begins in the last step
    refine .inr (.inr ?_)
    simp [hes, hend]
  · cases mid with
    | nil =>
      refine .inr (.inr ?_)
      simp only [List.nil_append] at hmid
      simp [← hmid, hend]
    | cons e mid =>
      obtain ⟨rfl, rfl⟩ := List.cons.inj hmid
      rcases List.mem_append.mp hend with hold | hnew
      · exact .inl ⟨pre, mid, htr, hold⟩
      · exact .inr (.inl ⟨by simp [htr], hnew⟩)

/-- What calm runs keep once updates have stopped: past its test, the flag is down in any
round that began since, and after a round it stays down. -/
structure QuietInv (w : Fin n) (nbits : UInt32) (tr : List Event) (s : Miner n) : Prop where
  idle : s.publisher = .idle
  targets : TargetInv false (s.workers w)
  target : (s.workers w).targetNbits = nbits
  begun : .loopBegin (w : ℕ) ∈ tr → (s.workers w).pc.late = true →
    (s.workers w).targetDirty = false
  round : FullRound w tr → Still (s.workers w)

theorem QuietInv.run {nbits : UInt32} (h : QuietInv w nbits tr s)
    (hmove : TargetMove (s.workers w) (s'.workers w)) (hidle : s'.publisher = .idle)
    (hrounds : Rounds w (s.view w) (s'.view w, es)) : QuietInv w nbits (tr ++ es) s' := by
  have hinv := h.targets.move hmove
  refine ⟨hidle, hinv, ?_, fun hmem hlate => ?_, fun hround => ?_⟩
  · rw [hmove.target_eq h.targets]
    exact h.target
  · rcases List.mem_append.mp hmem with hold | hnew
    · exact hmove.late (h.begun hold) hlate
    · have hnot := (hrounds.begins hnew).2
      rw [show (s'.view w).worker = s'.workers w from rfl, hlate] at hnot
      cases hnot
  · rcases fullRound_append hround with hold | ⟨hbegin, hend⟩ | ⟨hbegin, hend⟩
    · exact (h.round hold).move h.targets hmove
    · -- the round ends here: the flag was down since its test
      obtain ⟨hlate, htop⟩ := hrounds.ends hend
      have hdown := hmove.dirty_eq_false (h.begun hbegin hlate)
      have hpc : (s'.workers w).pc = .top := htop
      refine ⟨hdown, by rw [hpc]; rfl, fun hzero => ?_⟩
      exact hinv.uploaded hdown rfl hzero (by rw [hpc]; rfl) (by rw [hpc]; nofun)
    · have hlate := (hrounds.ends hend).1
      rw [(hrounds.begins hbegin).1] at hlate
      cases hlate

theorem QuietInv.untouched {nbits : UInt32} (h : QuietInv w nbits tr s)
    (hsame : Untouched (s.workers w) (s'.workers w)) (hidle : s'.publisher = .idle)
    (hes : ∀ e ∈ es, e.tellsOf w = false) : QuietInv w nbits (tr ++ es) s' := by
  have hbegin : .loopBegin (w : ℕ) ∉ es := fun hmem => by simpa [Event.tellsOf] using hes _ hmem
  have hend : .loopEnd (w : ℕ) ∉ es := fun hmem => by simpa [Event.tellsOf] using hes _ hmem
  refine ⟨hidle, h.targets.congr hsame.toSameTargets hsame.dirty hsame.pc, ?_, ?_, ?_⟩
  · rw [hsame.target]
    exact h.target
  · intro hmem hlate
    rw [hsame.dirty]
    refine h.begun ?_ (hsame.pc ▸ hlate)
    exact (List.mem_append.mp hmem).resolve_right hbegin
  · intro hround
    rcases fullRound_append hround with hold | ⟨-, hnew⟩ | ⟨hnew, -⟩
    · exact (h.round hold).congr hsame.toSameTargets hsame.dirty hsame.pc
    · exact absurd hnew hend
    · exact absurd hnew hbegin

theorem QuietInv.step {nbits : UInt32} (h : QuietInv w nbits tr s) (hcalm : calmAfter s a)
    (hstep : s.step a = some (s', es)) : QuietInv w nbits (tr ++ es) s' := by
  have hidle : s'.publisher = .idle := (publisher_of_quiet hcalm.2 hstep).trans h.idle
  cases targetStep_step (w := w) hcalm.1 hstep with
  | untouched hsame hmid hes => exact h.untouched hsame hidle hes
  | run hmove hpub hes hrounds => exact h.run hmove hidle hrounds
  -- there are no updates any more
  | storeTarget hstore hnbits hmid hbinding hes =>
    rw [h.idle] at hnbits
    cases hnbits
  | storeDirty hstore hmid hes =>
    rw [h.idle] at hmid
    cases hmid

end Steps

/-- Along calm runs no update is lost: when the pool thread is done and a worker has since
run a full round without further updates, it and all its halves have the last target. -/
theorem settled_of_calm {cfg : Fin n → Config} {mpp : Fin n → ℕ} {tr tr' : List Event}
    {s t : Miner n} {w : Fin n} {nbits : UInt32}
    (hrun : (machine n).Run calm (Miner.start cfg mpp) tr s) (hidle : s.publisher = .idle)
    (hafter : (machine n).Run calmAfter s tr' t) (hround : FullRound w tr')
    (hlast : lastTarget w tr = some nbits) : Settled (t.workers w) nbits := by
  have hcalm : CalmInv tr s := hrun.invariant (calmInv_start cfg mpp)
    fun _ _ _ _ _ hinv hcalm hstep => hinv.step hcalm hstep
  have hquiet : QuietInv w nbits tr' t := by
    refine hafter.invariant (I := QuietInv w nbits) ?_ ?_
    · refine ⟨hidle, ?_, hcalm.last w nbits hlast, nofun, ?_⟩
      · have htargets := hcalm.targets w
        rwa [hidle] at htargets
      · rintro ⟨pre, post, heq, -⟩
        simp at heq
    · exact fun _ _ _ _ _ hinv hcalm hstep => hinv.step hcalm hstep
  refine ⟨hquiet.target, fun h hh => ?_⟩
  have hne : (t.workers w).targetNbits ≠ 0 := by
    rw [hquiet.target]
    exact lastTarget_ne_zero hlast
  rw [(hquiet.round hround).halves hne h hh, hquiet.target]

/-- A job is published, installed and mined, and its target is changed. -/
def vardiffRun : List (Input 1) :=
  [.publish 1, .publisher, .publisher, .publisher, .publisher] ++
    List.replicate 15 (.run 0 .ok) ++
      [.vardiff 2, .publisher, .publisher, .publisher, .publisher]

/-- Where it leads to, with its events. -/
def vardiffEnd : Miner 1 × List Event :=
  ((machine 1).exec calm vardiffRun (Miner.start (fun _ => {}) fun _ => 1)).get rfl

/-- A round with nothing to install. -/
def plainRound : List (Input 1) :=
  [.run 0 .ok, .run 0 .ok, .run 0 .ok, .run 0 .ok, .run 0 (.headers []), .run 0 .ok]

/-- A round that uploads a target. -/
def uploadRound : List (Input 1) := .run 0 .ok :: .run 0 .ok :: plainRound

theorem settled_of_vardiff :
    ∃ tr s tr' t, (machine 1).Run calm (Miner.start (fun _ => {}) fun _ => 1) tr s ∧
      (machine 1).Run calmAfter s tr' t ∧ lastTarget 0 tr = some 2 ∧ Settled (t.workers 0) 2 := by
  have hexec : (machine 1).exec calm vardiffRun (Miner.start (fun _ => {}) fun _ => 1) =
    some vardiffEnd := rfl
  have hexec' : (machine 1).exec calmAfter uploadRound vardiffEnd.1 = some (_, _) := rfl
  have hrun := Machine.run_of_exec hexec
  have hafter := Machine.run_of_exec hexec'
  refine ⟨_, _, _, _, hrun, hafter, rfl, settled_of_calm hrun rfl hafter ?_ rfl⟩
  exact ⟨[], _, rfl, by decide⟩

/-- The target is changed after the last half was bound and before the install lowers the
flag. -/
def lostRun : List (Input 1) :=
  [.publish 1, .publisher, .publisher, .publisher, .publisher] ++
    List.replicate 13 (.run 0 .ok) ++
      [.vardiff 2, .publisher, .publisher, .run 0 .ok, .publisher, .publisher, .run 0 .ok]

def lostEnd : Miner 1 × List Event :=
  ((machine 1).exec Machine.anyStep lostRun (Miner.start (fun _ => {}) fun _ => 1)).get rfl

theorem settled_fails :
    ∃ tr s tr' t, (machine 1).Run Machine.anyStep (Miner.start (fun _ => {}) fun _ => 1) tr s ∧
      s.publisher = .idle ∧ (machine 1).Run calmAfter s tr' t ∧ FullRound 0 tr' ∧
        .rotated 0 ∉ tr' ∧ lastTarget 0 tr = some 2 ∧ (t.workers 0).targetNbits = 2 ∧
          ((t.workers 0).half .ping).powTargetNbits = 1 ∧ ¬ Settled (t.workers 0) 2 := by
  have hexec : (machine 1).exec Machine.anyStep lostRun
    (Miner.start (fun _ => {}) fun _ => 1) = some lostEnd := rfl
  have hexec' : (machine 1).exec calmAfter plainRound lostEnd.1 = some (_, _) := rfl
  refine ⟨_, _, _, _, Machine.run_of_exec hexec, rfl, Machine.run_of_exec hexec', ?_, ?_, rfl, rfl,
    rfl, fun hsettled => ?_⟩
  · exact ⟨[], _, rfl, by decide⟩
  · decide
  · exact absurd (hsettled.halves .ping (by decide)) (by decide)

end PropMiner.Jobs
