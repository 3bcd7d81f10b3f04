import PropMiner.Jobs.Contexts

/-!
# Resident sets are freed

A `ResidentBState` frees nothing when it is destroyed, so a set whose context nobody
holds any more is lost. The promise is that every allocated set belongs to a context
that is mined, ready, being installed, or wanted by a share job.

The sets of stale and of superseded contexts are freed. The set of a job that is rotated
out is not, and neither is one that is left behind by an exception. The promise holds in
the runs in which `current_sigma` is given up only when its set is not allocated, and in
which no exception leaves a set behind.

## Main definitions

* `Released` — the promise
* `frugal` — the steps that let go of a context only without its set

## Main results

* `released_of_frugal` — along every such run no set is lost
* `released_fails` — rotating a job out loses its set
-/

set_option autoImplicit false

namespace PropMiner.Jobs

open PropMiner.Semantics (Machine)

variable {n : ℕ}

/-- The context that the run loop has taken over as ready, until it is swapped in or its
set is freed. -/
def RunPc.holds : RunPc → Option Ctx
  | .want c | .drain c true | .freeStale c => some c
  | _ => none

/-- The context that the installer installs, hands over, or is about to free. -/
def InstallerPc.holds : InstallerPc → Option Ctx
  | .install _ c | .publish c | .supersede c => some c
  | _ => none

/-- The variables of a worker that account for an allocated set. -/
def GpuWorker.keeps (g : GpuWorker) : List (Option Ctx) :=
  [g.currentSigma, g.asyncReady, g.pc.holds, g.installer.holds]

/-- The contexts of the share jobs that are queued or in hand. -/
def GpuWorker.shareContexts (g : GpuWorker) : List Ctx :=
  (g.shareJob.toList ++ g.shareQueue).map ShareTriggerJob.sigmaCtx

/-- Every allocated set is accounted for. -/
def Released (s : Miner n) : Prop :=
  ∀ c, (s.heap c).allocated = true →
    ∃ w, some c ∈ (s.workers w).keeps ∨ c ∈ (s.workers w).shareContexts

/-! ### The steps that lose nothing -/

/-- The context in this variable, if there is one, has no set. -/
def Heap.lacks (H : Heap) (x : Option Ctx) : Bool := x.all fun c => !(H c).allocated

/-- Where the run loop replaces `current_sigma`, or ends on a stop request. -/
def GpuWorker.letsGo (g : GpuWorker) : Bool :=
  match g.pc with
  | .drain .. => true
  | .top | .mine => g.stopFlag
  | _ => false

/-- The run loop gives `current_sigma` up only when its set is not allocated. An exception
does not hit a swap, nor `allocate` after the set was made. -/
def View.isFrugalRun (v : View) : Answer → Bool
  | .threw far => v.heap.lacks v.worker.currentSigma && v.heap.lacks v.worker.pc.holds &&
      !(far && v.worker.pc.installing = some .allocating)
  | _ => !v.worker.letsGo || v.heap.lacks v.worker.currentSigma

/-- The same for exceptions in the background. -/
def View.isFrugalInstaller (v : View) : Answer → Bool
  | .threw far =>
      match v.worker.installer with
      | .install pc c => !(v.heap c).allocated && !(far && pc = .allocating)
      | _ => true
  | _ => true

def isFrugal (s : Miner n) : Input n → Bool
  | .run w a => (s.view w).isFrugalRun a
  | .installer w a => (s.view w).isFrugalInstaller a
  | _ => true

def frugal (s : Miner n) (a : Input n) : Prop := isFrugal s a = true

instance (s : Miner n) (a : Input n) : Decidable (frugal s a) :=
  inferInstanceAs (Decidable (isFrugal s a = true))

/-! ### One worker -/

/-- A step of a worker's thread accounts for what it allocates and for what it had. -/
structure Accounts (v v' : View) : Prop where
  made : ∀ c, (v'.heap c).allocated = true →
    (v.heap c).allocated = true ∨ some c ∈ v'.worker.keeps
  kept : ∀ c, (v'.heap c).allocated = true → some c ∈ v.worker.keeps →
    some c ∈ v'.worker.keeps

section Worker

variable {w : ℕ} {v v' : View} {a : Answer} {r : View × List Event} {es : List Event}
  {g g' : GpuWorker} {c : Ctx} {x x' : SigmaContext} {me : Locker} {pc : InstallPc}

theorem mem_keeps : some c ∈ g.keeps ↔ g.currentSigma = some c ∨ g.asyncReady = some c ∨
    g.pc.holds = some c ∨ g.installer.holds = some c := by
  simp [GpuWorker.keeps, eq_comm]

theorem allocated_of_lacks {H : Heap} (h : H.lacks (some c) = true) :
    (H c).allocated = false := by
  simpa [Heap.lacks] using h

theorem not_allocated_of_lacks {H : Heap} {y : Option Ctx} (h : H.lacks y = true)
    (hc : (H c).allocated = true) : y ≠ some c := by
  rintro rfl
  rw [allocated_of_lacks h] at hc
  cases hc

/-- Where nothing was allocated, an exception leaves nothing. -/
theorem allocated_of_threw (hstep : x.installStep me pc a = some (x', .threw))
    (hlacks : x.allocated = false) (hclean : ∀ far, a = .threw far → pc = .allocating →
      far = false) : x'.allocated = false := by
  unfold SigmaContext.installStep at hstep
  split at hstep
  case h_1 => split_ifs at hstep <;> cases hstep
  case h_2 | h_6 =>
    cases hstep
    exact hlacks
  case h_4 far =>
    cases hstep
    exact hclean far rfl rfl
  all_goals cases hstep

theorem answer_of_threw (hstep : x.installStep me pc a = some (x', .threw)) :
    ∃ far, a = .threw far := by
  unfold SigmaContext.installStep at hstep
  split at hstep
  case h_1 => split_ifs at hstep <;> cases hstep
  case h_2 far | h_4 far | h_6 far => exact ⟨far, rfl⟩
  all_goals cases hstep

theorem allocated_free {H : Heap} : ((H.free c) c).allocated = false := by
  simp [Heap.free, Heap.modify]

theorem holds_of_emptyHanded {pc : RunPc} (h : pc.EmptyHanded) : pc.holds = none := by
  obtain ⟨hhand, hfreed, -⟩ := h
  cases pc with
  | want | drain => cases hhand
  | freeStale => cases hfreed
  | _ => rfl

theorem holds_of_installing {pc : RunPc} {p : InstallPc} (h : pc.installing = some p) :
    pc.holds = none := by
  cases pc with
  | install => rfl
  | _ => cases h

/-- Nothing is allocated, and the variables account for what they did before. -/
theorem accounts_of_same (hheap : v'.heap = v.heap)
    (hkeeps : ∀ c, (v.heap c).allocated = true → some c ∈ v.worker.keeps →
      some c ∈ v'.worker.keeps) : Accounts v v' := by
  refine ⟨fun c hc => .inl ?_, fun c hc => hkeeps c ?_⟩
  all_goals rwa [hheap] at hc

/-- A step of `install` concerns one context, which the variables account for. -/
theorem accounts_of_install (hheap : v'.heap = v.heap.modify c fun _ => x)
    (hc : some c ∈ v'.worker.keeps)
    (hkeeps : ∀ c', some c' ∈ v.worker.keeps → some c' ∈ v'.worker.keeps) : Accounts v v' := by
  refine ⟨fun c' hc' => ?_, fun c' _ => hkeeps c'⟩
  by_cases heq : c' = c
  · exact .inr (heq ▸ hc)
  · rw [hheap, Heap.modify, Function.update_of_ne heq] at hc'
    exact .inl hc'

/-- A context is dropped whose set is not allocated then. -/
theorem accounts_of_drop (hother : ∀ c', c' ≠ c → v'.heap c' = v.heap c')
    (hdrop : (v'.heap c).allocated = false)
    (hkeeps : ∀ c', c' ≠ c → some c' ∈ v.worker.keeps → some c' ∈ v'.worker.keeps) :
    Accounts v v' := by
  have hne : ∀ c', (v'.heap c').allocated = true → c' ≠ c := by
    rintro c' hc' rfl
    rw [hdrop] at hc'
    cases hc'
  refine ⟨fun c' hc' => .inl ?_, fun c' hc' => hkeeps c' (hne c' hc')⟩
  rwa [← hother c' (hne c' hc')]

theorem lacks_of_letsGo (hfrugal : v.isFrugalRun a = true) (hgo : v.worker.letsGo = true) :
    v.heap.lacks v.worker.currentSigma = true := by
  cases a with
  | threw far =>
    simp only [View.isFrugalRun, Bool.and_eq_true] at hfrugal
    exact hfrugal.1.1
  | ok | headers => simpa [View.isFrugalRun, hgo] using hfrugal

/-- Where `run` ends or resets `current_sigma`, neither it nor a context in hand has its
set. -/
theorem lacks_of_endsRun (hfrugal : v.isFrugalRun a = true) (hends : v.EndsRun a) :
    v.heap.lacks v.worker.currentSigma = true ∧ v.heap.lacks v.worker.pc.holds = true := by
  rcases hends with ⟨far, rfl⟩ | ⟨hstop, hpc⟩
  · simp only [View.isFrugalRun, Bool.and_eq_true] at hfrugal
    exact hfrugal.1
  · have hgo : v.worker.letsGo = true := by
      rcases hpc with hpc | hpc <;> simpa [GpuWorker.letsGo, hpc] using hstop
    refine ⟨lacks_of_letsGo hfrugal hgo, ?_⟩
    rcases hpc with hpc | hpc <;> simp [hpc, RunPc.holds, Heap.lacks]

theorem ContextMove.accounts (hmove : ContextMove w v a v' es)
    (hfrugal : v.isFrugalRun a = true) : Accounts v v' := by
  cases hmove with
  | elsewhere hsame hheap hfrom _ hto =>
    have hnone := holds_of_emptyHanded hfrom
    refine accounts_of_same hheap fun c _ hc => ?_
    rw [mem_keeps] at hc ⊢
    grind [SameContexts]
  | @rotate new swap hsame hheap hfrom hto =>
    -- the job that is replaced has no set
    have hlacks := lacks_of_letsGo hfrugal (by rw [GpuWorker.letsGo, hfrom])
    refine accounts_of_same hheap fun c hallocated hc => ?_
    have hne := not_allocated_of_lacks hlacks hallocated
    rw [mem_keeps] at hc ⊢
    cases swap <;> grind [SameContexts, RunPc.holds]
  | install hsame hc hfrom hinstall hheap hto =>
    have hnone := holds_of_installing hfrom
    refine accounts_of_install hheap (mem_keeps.mpr (.inl (hsame.current.trans hc))) ?_
    intro c' hc'
    rw [mem_keeps] at hc' ⊢
    grind [SameContexts]
  | returned hsame hc hfrom hinstall hheap hto =>
    have hnone := holds_of_installing hfrom
    refine accounts_of_install hheap (mem_keeps.mpr (.inl (hsame.current.trans hc))) ?_
    intro c' hc'
    rw [mem_keeps] at hc' ⊢
    grind [SameContexts]
  | @threw c pc x hsame hc hfrom hinstall hheap hto =>
    obtain ⟨far, rfl⟩ := answer_of_threw hinstall
    have hnone := holds_of_installing hfrom
    have hlacks := (lacks_of_endsRun hfrugal (.inl ⟨far, rfl⟩)).1
    rw [hc] at hlacks
    have hclean : pc = .allocating → far = false := by
      rintro rfl
      simp only [View.isFrugalRun, Bool.and_eq_true] at hfrugal
      simpa [hfrom] using hfrugal.2
    have hdrop := allocated_of_threw hinstall (allocated_of_lacks hlacks) fun _ heq hpc => by
      cases heq
      exact hclean hpc
    refine accounts_of_drop (c := c) (fun c' hne => ?_) ?_ fun c' hne hc' => ?_
    · rw [hheap, Heap.modify, Function.update_of_ne hne]
    · rwa [hheap, Heap.modify, Function.update_self]
    · rw [mem_keeps] at hc' ⊢
      grind [SameContexts]
  | leave hsame hheap hgo hfrom hto =>
    obtain ⟨hcurrent, hhand⟩ := lacks_of_endsRun hfrugal hgo
    refine accounts_of_same hheap fun c hallocated hc => ?_
    have hne := not_allocated_of_lacks hcurrent hallocated
    have hne' := not_allocated_of_lacks hhand hallocated
    rw [mem_keeps] at hc ⊢
    grind [SameContexts]
  | @free ready hsame hheap hfrom hto =>
    refine accounts_of_drop (c := ready) (fun c' hne => ?_) ?_ fun c' hne hc' => ?_
    · rw [hheap, Heap.free, Heap.modify, Function.update_of_ne hne]
    · rw [hheap]
      exact allocated_free
    · rw [mem_keeps] at hc' ⊢
      grind [SameContexts, RunPc.holds]
  | fetch hsame hheap | submit hsame _ hheap | take hsame _ hheap | want hsame hheap =>
    refine accounts_of_same hheap fun c _ hc => ?_
    rw [mem_keeps] at hc ⊢
    grind [SameContexts, RunPc.holds]

theorem InstallerMove.accounts (hmove : InstallerMove w v a v' es)
    (hfrugal : v.isFrugalInstaller a = true) : Accounts v v' := by
  cases hmove with
  | install hsame hfrom hinstall hheap hto | returned hsame hfrom hinstall hheap hto =>
    have hself := mem_keeps.mpr (.inr (.inr (.inr (by rw [hto]; rfl))))
    refine accounts_of_install hheap hself fun c' hc' => ?_
    rw [mem_keeps] at hc' ⊢
    grind [SameRun, InstallerPc.holds]
  | @threw c pc x hsame hfrom hinstall hheap hto =>
    obtain ⟨far, rfl⟩ := answer_of_threw hinstall
    simp only [View.isFrugalInstaller, hfrom, Bool.and_eq_true, Bool.not_eq_true'] at hfrugal
    have hdrop := allocated_of_threw hinstall hfrugal.1 fun _ heq hpc => by
      cases heq
      simpa [hpc] using hfrugal.2
    refine accounts_of_drop (c := c) (fun c' hne => ?_) ?_ fun c' hne hc' => ?_
    · rw [hheap, Heap.modify, Function.update_of_ne hne]
    · rwa [hheap, Heap.modify, Function.update_self]
    · rw [mem_keeps] at hc' ⊢
      grind [SameRun, InstallerPc.holds]
  | @free old hsame hheap hfrom hto =>
    refine accounts_of_drop (c := old) (fun c' hne => ?_) ?_ fun c' hne hc' => ?_
    · rw [hheap, Heap.free, Heap.modify, Function.update_of_ne hne]
    · rw [hheap]
      exact allocated_free
    · rw [mem_keeps] at hc' ⊢
      grind [SameRun, InstallerPc.holds]
  | take hsame _ hheap | start hsame hheap | fail hsame hheap | publish hsame hheap =>
    refine accounts_of_same hheap fun c _ hc => ?_
    rw [mem_keeps] at hc ⊢
    grind [SameRun, InstallerPc.holds]

/-- The share thread touches none of these variables. -/
theorem accounts_shareStep (hstep : shareStep w v = some r) : Accounts v r.1 := by
  unfold shareStep at hstep
  dsimp only at hstep
  split at hstep
  · cases hstep
  · obtain rfl := Option.some.inj hstep
    exact accounts_of_same rfl fun _ _ => id
  · obtain rfl := Option.some.inj hstep
    exact accounts_of_same rfl fun _ _ => id

end Worker

/-! ### The miner -/

/-- What frugal runs keep: share jobs are not needed to account for a set. -/
def Accounted (s : Miner n) : Prop :=
  ∀ c, (s.heap c).allocated = true → ∃ w, some c ∈ (s.workers w).keeps

section Steps

variable {s s' : Miner n} {es : List Event} {w : Fin n} {a : Input n}

theorem Accounted.update (h : Accounted s) {v : View} (haccounts : Accounts (s.view w) v) :
    Accounted (s.update w v) := by
  intro c hc
  rcases haccounts.made c hc with hold | hnew
  · obtain ⟨w', hw'⟩ := h c hold
    refine ⟨w', ?_⟩
    by_cases heq : w' = w
    · subst heq
      rw [Miner.workers_update_self]
      exact haccounts.kept c hc hw'
    · rwa [Miner.workers_update_of_ne _ heq]
  · refine ⟨w, ?_⟩
    rwa [Miner.workers_update_self]

/-- The orchestrator allocates nothing and leaves these variables alone. -/
theorem Accounted.orchestrate (h : Accounted s) (horchestrated : Orchestrated s s' es) :
    Accounted s' := by
  intro c hc
  obtain ⟨w, hw⟩ := h c (horchestrated.allocated c hc)
  refine ⟨w, ?_⟩
  rw [horchestrated.workers w]
  exact hw

theorem Accounted.step (h : Accounted s) (hfrugal : frugal s a)
    (hstep : s.step a = some (s', es)) : Accounted s' := by
  refine step_cases (P := fun r => Accounted r.1) hstep ?orchestrator ?run ?installer ?share
  case orchestrator =>
    intro _ horchestrated
    exact h.orchestrate horchestrated
  case run =>
    rintro w x q rfl hrun
    exact h.update ((contextMove_runStep hrun).accounts hfrugal)
  case installer =>
    rintro w x q rfl hinstaller
    exact h.update ((installerMove_installerStep hinstaller).accounts hfrugal)
  case share =>
    rintro w q rfl hshare
    exact h.update (accounts_shareStep hshare)

end Steps

/-- Along every frugal run, no resident set is lost. -/
theorem released_of_frugal {cfg : Fin n → Config} {mpp : Fin n → ℕ} {tr : List Event}
    {s : Miner n} (hrun : (machine n).Run frugal (Miner.start cfg mpp) tr s) : Released s := by
  have hinv : Accounted s := by
    refine hrun.stateInvariant (I := Accounted) ?_ ?_
    · intro c hc
      cases hc
    · exact fun _ _ _ _ hinv hfrugal hstep => hinv.step hfrugal hstep
  intro c hc
  obtain ⟨w, hw⟩ := hinv c hc
  exact ⟨w, .inl hw⟩

/-- A first install that fails and is repeated; the second job is installed in the
background and is ready when the third comes, so its set is freed. -/
def staleFreedRun : List (Input 1) :=
  let job : List (Input 1) := .publish 1 :: List.replicate 4 .publisher
  job ++ List.replicate 4 (.run 0 .ok) ++ [.run 0 (.threw false)] ++
    List.replicate 15 (.run 0 .ok) ++ job ++ List.replicate 4 (.run 0 .ok) ++
      List.replicate 6 (.installer 0 .ok) ++ job ++ List.replicate 3 (.run 0 .ok)

theorem released_of_staleFreed :
    ∃ s tr, (machine 1).Run frugal
        (Miner.start (fun _ => { asyncJobInstall := true }) fun _ => 1) tr s ∧
      (s.heap 0).allocated = true ∧ (s.heap 1).installed = true ∧
        (s.heap 1).allocated = false ∧ Released s := by
  have hexec : ((machine 1).exec frugal staleFreedRun
      (Miner.start (fun _ => { asyncJobInstall := true }) fun _ => 1)).any
        (fun r => decide ((r.1.heap 0).allocated = true ∧ (r.1.heap 1).installed = true ∧
          (r.1.heap 1).allocated = false)) = true := by decide +kernel
  obtain ⟨s, tr, hrun, hp⟩ := Machine.exists_run_of_exec hexec
  obtain ⟨hallocated, hinstalled, hfreed⟩ := of_decide_eq_true hp
  exact ⟨s, tr, hrun, hallocated, hinstalled, hfreed, released_of_frugal hrun⟩

/-- Two jobs, each installed synchronously and mined. -/
def rotationRun : List (Input 1) :=
  let job : List (Input 1) := .publish 1 :: List.replicate 4 .publisher
  job ++ List.replicate 15 (.run 0 .ok) ++ job ++ List.replicate 15 (.run 0 .ok)

theorem released_fails :
    ∃ s tr, (machine 1).Run Machine.anyStep (Miner.start (fun _ => {}) fun _ => 1) tr s ∧
      (s.workers 0).currentSigma = some 1 ∧ (s.heap 0).allocated = true ∧ ¬ Released s := by
  have hexec : ((machine 1).exec Machine.anyStep rotationRun
      (Miner.start (fun _ => {}) fun _ => 1)).any
        (fun r => decide ((r.1.workers 0).currentSigma = some 1 ∧
          (r.1.heap 0).allocated = true ∧ some 0 ∉ (r.1.workers 0).keeps ∧
            0 ∉ (r.1.workers 0).shareContexts)) = true := by decide +kernel
  obtain ⟨s, tr, hrun, hp⟩ := Machine.exists_run_of_exec hexec
  obtain ⟨hcurrent, hallocated, hkeeps, hshare⟩ := of_decide_eq_true hp
  refine ⟨s, tr, hrun, hcurrent, hallocated, fun hreleased => ?_⟩
  obtain ⟨w, hw⟩ := hreleased 0 hallocated
  obtain rfl : w = 0 := Subsingleton.elim _ _
  exact hw.elim hkeeps hshare

end PropMiner.Jobs
