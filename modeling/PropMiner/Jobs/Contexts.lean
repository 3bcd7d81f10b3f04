import PropMiner.Jobs.Frames

/-!
# Who holds which context

A context is handed from variable to variable: from `sigma_` to the run loop, from there
to the installer and back, and into `current_sigma`. Its resident-B set is allocated in
`SigmaContext::install` under the context's mutex and freed explicitly, by the run loop
or by the installer.

Here is what the steps of `run` and of the installer do to the variables that hold
contexts, and what a step of `install` means to the threads that do not take it.

## Main definitions

* `GpuWorker.refs` — the variables of a worker that hold a context
* `InstallPc.Holds` — what a thread knows of the context it is installing
* `Advances` — what a step of one thread leaves to the others
* `ContextMove`, `InstallerMove` — what a step of `run`, or of the installer, does to the
  variables

## Main results

* `advances_installStep` — a step of `install` leaves to the others what they rely on
* `contextMove_runStep`, `installerMove_installerStep` — every step is such a move
-/

set_option autoImplicit false

namespace PropMiner.Jobs

/-! ### Installing a context -/

/-- What a thread knows of the context it is installing: it has the mutex, nobody has
installed the context, and once `allocate` is over the set is there. -/
def InstallPc.Holds (me : Locker) (x : SigmaContext) : InstallPc → Prop
  | .enter => True
  | .allocating => x.installMtx = some me ∧ x.installed = false
  | .filling => x.installMtx = some me ∧ x.installed = false ∧ x.allocated = true

/-- What a step of thread `me`, if it is one that can install, leaves of a context. -/
structure Advances (me : Option Locker) (x x' : SigmaContext) : Prop where
  installed : x.installed = true → x'.installed = true
  resident : (x.installed = true → x.allocated = true) →
    x'.installed = true → x'.allocated = true
  holds : ∀ t pc, me ≠ some t → InstallPc.Holds t x pc → InstallPc.Holds t x' pc

section Install

variable {me t : Locker} {x x' : SigmaContext} {pc : InstallPc} {a : Answer}
  {result : InstallResult}

theorem InstallPc.Holds.congr (h : pc.Holds me x) (hinstalled : x'.installed = x.installed)
    (hallocated : x'.allocated = x.allocated) (hmtx : x'.installMtx = x.installMtx) :
    pc.Holds me x' := by
  cases pc with
  | enter => trivial
  | allocating => exact ⟨hmtx.trans h.1, hinstalled.trans h.2⟩
  | filling => exact ⟨hmtx.trans h.1, hinstalled.trans h.2.1, hallocated.trans h.2.2⟩

theorem advances_of_same {me : Option Locker} (hinstalled : x'.installed = x.installed)
    (hallocated : x'.allocated = x.allocated) (hmtx : x'.installMtx = x.installMtx) :
    Advances me x x' where
  installed := hinstalled.trans
  resident h hx := hallocated.trans (h (hinstalled.symm.trans hx))
  holds _ _ _ h := h.congr hinstalled hallocated hmtx

theorem advances_refl (me : Option Locker) (x : SigmaContext) : Advances me x x :=
  advances_of_same rfl rfl rfl

/-- Whoever is inside has the mutex, so a step of its holder cannot disturb others, and
neither can a step that takes the mutex. -/
theorem advances_of_mutex (hmtx : x.installMtx = none ∨ x.installMtx = some me)
    (hinstalled : x.installed = true → x'.installed = true)
    (hresident : (x.installed = true → x.allocated = true) →
      x'.installed = true → x'.allocated = true) : Advances (some me) x x' := by
  refine ⟨hinstalled, hresident, fun t pc hne hholds => ?_⟩
  have hnot : x.installMtx ≠ some t := by
    rcases hmtx with hmtx | hmtx
    · simp [hmtx]
    · rw [hmtx]
      exact hne
  cases pc with
  | enter => trivial
  | allocating => exact absurd hholds.1 hnot
  | filling => exact absurd hholds.1 hnot

theorem advances_installStep (hholds : pc.Holds me x)
    (hstep : x.installStep me pc a = some (x', result)) : Advances (some me) x x' := by
  unfold SigmaContext.installStep at hstep
  split at hstep
  case h_1 =>
    split_ifs at hstep with hmtx hinstalled
    · cases hstep
      exact advances_refl _ _
    · cases hstep
      refine advances_of_mutex (.inl ?_) id id
      simpa using hmtx
  case h_2 =>
    cases hstep
    exact advances_refl _ _
  case h_3 =>
    cases hstep
    exact advances_of_mutex (.inr hholds.1) id fun _ _ => rfl
  case h_4 =>
    cases hstep
    refine advances_of_mutex (.inr hholds.1) id fun _ hinstalled => ?_
    exact absurd (hholds.2.symm.trans hinstalled) nofun
  case h_5 =>
    cases hstep
    exact advances_of_mutex (.inr hholds.1) (fun _ => rfl) fun _ _ => hholds.2.2
  case h_6 =>
    cases hstep
    refine advances_of_mutex (.inr hholds.1) id fun _ hinstalled => ?_
    exact absurd (hholds.2.1.symm.trans hinstalled) nofun
  case h_7 => cases hstep

/-- A thread that goes on installing knows what it needs to know. -/
theorem holds_installStep {pc' : InstallPc} (hholds : pc.Holds me x)
    (hstep : x.installStep me pc a = some (x', .inside pc')) : pc'.Holds me x' := by
  unfold SigmaContext.installStep at hstep
  split at hstep
  case h_1 =>
    split_ifs at hstep with hmtx hinstalled
    · cases hstep
    · cases hstep
      exact ⟨rfl, by simpa using hinstalled⟩
  case h_3 =>
    cases hstep
    exact ⟨hholds.1, hholds.2, rfl⟩
  all_goals cases hstep

/-- When `install` returns, the context is installed. -/
theorem installed_of_returned (hstep : x.installStep me pc a = some (x', .returned)) :
    x'.installed = true := by
  unfold SigmaContext.installStep at hstep
  split at hstep
  case h_1 =>
    split_ifs at hstep with hmtx hinstalled
    · cases hstep
      exact hinstalled
    · cases hstep
  case h_5 =>
    cases hstep
    rfl
  all_goals cases hstep

end Install

/-! ### The variables that hold contexts -/

namespace RunPc

/-- The context that the run loop has in hand and may still use. -/
def hand : RunPc → Option Ctx
  | .asyncFailed c | .submitInstall c | .drain c _ | .want c => some c
  | _ => none

/-- The context that the next step frees. -/
def freed : RunPc → Option Ctx
  | .freeStale c => some c
  | _ => none

/-- The lines of the synchronous install. -/
def installing : RunPc → Option InstallPc
  | .install pc .. => some pc
  | _ => none

/-- No context is in hand here, and no install is under way. -/
structure EmptyHanded (pc : RunPc) : Prop where
  hand : pc.hand = none
  freed : pc.freed = none
  installing : ∀ p, pc.installing = some p → p = .enter

theorem EmptyHanded.of_none {pc : RunPc} (hhand : pc.hand = none) (hfreed : pc.freed = none)
    (hinstalling : pc.installing = none) : pc.EmptyHanded where
  hand := hhand
  freed := hfreed
  installing p hp := by
    rw [hinstalling] at hp
    cases hp

end RunPc

namespace InstallerPc

def hand : InstallerPc → Option Ctx
  | .guard c | .install _ c | .publish c => some c
  | _ => none

def freed : InstallerPc → Option Ctx
  | .supersede c => some c
  | _ => none

end InstallerPc

/-- The variables of a worker that hold a context which may still be used. -/
def GpuWorker.refs (g : GpuWorker) : List (Option Ctx) :=
  [g.sigma, g.currentSigma, g.asyncPending, g.asyncReady, g.pc.hand, g.installer.hand]

/-- The same variables hold the same contexts, those of the run loop's lines apart. -/
structure SameContexts (g g' : GpuWorker) : Prop where
  sigma : g'.sigma = g.sigma
  current : g'.currentSigma = g.currentSigma
  pending : g'.asyncPending = g.asyncPending
  ready : g'.asyncReady = g.asyncReady
  installer : g'.installer = g.installer

/-- An exception, or a stop request where `run` looks for one. -/
def View.EndsRun (v : View) (a : Answer) : Prop :=
  (∃ far, a = .threw far) ∨
    v.worker.stopFlag = true ∧ (v.worker.pc = .top ∨ v.worker.pc = .mine)

/-- An event that tells how the set of the current job is found. -/
def Event.Shows (H : Heap) (current : Option Ctx) : Event → Prop
  | .queued _ _ c allocated _ _ => current = some c ∧ allocated = (H c).allocated
  | .installReturned .. => False
  | _ => True

/-- What one step of `run` does to the variables that hold contexts, and to the
contexts. -/
inductive ContextMove (w : ℕ) (v : View) (a : Answer) (v' : View) (es : List Event) : Prop
  | elsewhere (hsame : SameContexts v.worker v'.worker) (hheap : v'.heap = v.heap)
      (hfrom : v.worker.pc.EmptyHanded) (hrunning : v.worker.pc.installing = none)
      (hto : v'.worker.pc.EmptyHanded) (hes : ∀ e ∈ es, e.Shows v.heap v.worker.currentSigma)
  | fetch {new : Ctx} (hsame : SameContexts v.worker v'.worker) (hheap : v'.heap = v.heap)
      (hfrom : v.worker.pc = .readSigma ∧ v.worker.sigma = some new ∨
        v.worker.pc = .asyncFailed new)
      (hto : v'.worker.pc = .asyncFailed new ∨ v'.worker.pc = .submitInstall new ∨
        v'.worker.pc = .drain new false)
      (hes : es = [])
  | submit {new : Ctx}
      (hsame : SameContexts { v.worker with asyncPending := v'.worker.asyncPending } v'.worker)
      (hpending : v'.worker.asyncPending = v.worker.asyncPending ∨
        v'.worker.asyncPending = some new)
      (hheap : v'.heap = v.heap) (hfrom : v.worker.pc = .submitInstall new)
      (hto : v'.worker.pc = .takeReady) (hes : es = [])
  | rotate {new : Ctx} {swap : Bool}
      (hsame : SameContexts { v.worker with currentSigma := some new } v'.worker)
      (hheap : v'.heap = v.heap) (hfrom : v.worker.pc = .drain new swap)
      (hto : v'.worker.pc = View.startHalves v.worker swap) (hes : es = [.rotated w])
  | install {c : Ctx} {pc pc' : InstallPc} {x : SigmaContext}
      (hsame : SameContexts v.worker v'.worker) (hc : v.worker.currentSigma = some c)
      (hfrom : v.worker.pc.installing = some pc)
      (hinstall : (v.heap c).installStep (.run w) pc a = some (x, .inside pc'))
      (hheap : v'.heap = v.heap.modify c fun _ => x)
      (hto : v'.worker.pc.installing = some pc') (hes : es = [])
  | returned {c : Ctx} {pc : InstallPc} {x : SigmaContext}
      (hsame : SameContexts v.worker v'.worker) (hc : v.worker.currentSigma = some c)
      (hfrom : v.worker.pc.installing = some pc)
      (hinstall : (v.heap c).installStep (.run w) pc a = some (x, .returned))
      (hheap : v'.heap = v.heap.modify c fun _ => x)
      (hto : v'.worker.pc.EmptyHanded) (hes : es = [.installReturned w c x.allocated])
  | threw {c : Ctx} {pc : InstallPc} {x : SigmaContext}
      (hsame : SameContexts { v.worker with currentSigma := none } v'.worker)
      (hc : v.worker.currentSigma = some c) (hfrom : v.worker.pc.installing = some pc)
      (hinstall : (v.heap c).installStep (.run w) pc a = some (x, .threw))
      (hheap : v'.heap = v.heap.modify c fun _ => x) (hto : v'.worker.pc = .top)
      (hes : es = [.rotated w])
  | leave (hsame : SameContexts { v.worker with currentSigma := none } v'.worker)
      (hheap : v'.heap = v.heap) (hgo : v.EndsRun a)
      (hfrom : v.worker.pc.freed = none ∧ v.worker.pc.installing = none)
      (hto : v'.worker.pc = .top ∨ v'.worker.pc = .ended)
      (hes : ∀ e ∈ es, e.Shows v.heap v.worker.currentSigma)
  | take {ready : Ctx} (hsame : SameContexts { v.worker with asyncReady := none } v'.worker)
      (hready : v.worker.asyncReady = some ready) (hheap : v'.heap = v.heap)
      (hfrom : v.worker.pc = .takeReady) (hto : v'.worker.pc = .want ready) (hes : es = [])
  | want {ready : Ctx} (hsame : SameContexts v.worker v'.worker) (hheap : v'.heap = v.heap)
      (hfrom : v.worker.pc = .want ready)
      (hto : v'.worker.pc = .drain ready true ∨ v'.worker.pc = .freeStale ready ∨
        v'.worker.pc = .testDirty ∧ v.worker.currentSigma = some ready)
      (hes : es = [])
  | free {ready : Ctx} (hsame : SameContexts v.worker v'.worker)
      (hheap : v'.heap = v.heap.free ready) (hfrom : v.worker.pc = .freeStale ready)
      (hto : v'.worker.pc = .testDirty) (hes : es = [])

/-- The run loop's variables and the requests are the same. -/
structure SameRun (g g' : GpuWorker) : Prop where
  sigma : g'.sigma = g.sigma
  current : g'.currentSigma = g.currentSigma
  pending : g'.asyncPending = g.asyncPending
  ready : g'.asyncReady = g.asyncReady
  pc : g'.pc = g.pc

/-- What one step of the installer does. -/
inductive InstallerMove (w : ℕ) (v : View) (a : Answer) (v' : View) (es : List Event) : Prop
  | take {c : Ctx} (hsame : SameRun { v.worker with asyncPending := none } v'.worker)
      (hpending : v.worker.asyncPending = some c) (hheap : v'.heap = v.heap)
      (hfrom : v.worker.installer = .wait) (hto : v'.worker.installer = .guard c) (hes : es = [])
  | start {c : Ctx} (hsame : SameRun v.worker v'.worker) (hheap : v'.heap = v.heap)
      (hfrom : v.worker.installer = .guard c) (hto : v'.worker.installer = .install .enter c)
      (hes : es = [])
  | fail {c : Ctx} (hsame : SameRun v.worker v'.worker) (hheap : v'.heap = v.heap)
      (hfrom : v.worker.installer = .guard c ∨ v.worker.installer = .markFailed c)
      (hto : v'.worker.installer = .markFailed c ∨ v'.worker.installer = .wait) (hes : es = [])
  | install {c : Ctx} {pc pc' : InstallPc} {x : SigmaContext}
      (hsame : SameRun v.worker v'.worker) (hfrom : v.worker.installer = .install pc c)
      (hinstall : (v.heap c).installStep (.installer w) pc a = some (x, .inside pc'))
      (hheap : v'.heap = v.heap.modify c fun _ => x)
      (hto : v'.worker.installer = .install pc' c) (hes : es = [])
  | returned {c : Ctx} {pc : InstallPc} {x : SigmaContext}
      (hsame : SameRun v.worker v'.worker) (hfrom : v.worker.installer = .install pc c)
      (hinstall : (v.heap c).installStep (.installer w) pc a = some (x, .returned))
      (hheap : v'.heap = v.heap.modify c fun _ => x) (hto : v'.worker.installer = .publish c)
      (hes : es = [.installReturned w c x.allocated])
  | threw {c : Ctx} {pc : InstallPc} {x : SigmaContext}
      (hsame : SameRun v.worker v'.worker) (hfrom : v.worker.installer = .install pc c)
      (hinstall : (v.heap c).installStep (.installer w) pc a = some (x, .threw))
      (hheap : v'.heap = v.heap.modify c fun _ => x) (hto : v'.worker.installer = .markFailed c)
      (hes : es = [])
  | publish {c : Ctx} (hsame : SameRun { v.worker with asyncReady := some c } v'.worker)
      (hheap : v'.heap = v.heap) (hfrom : v.worker.installer = .publish c)
      (hto : v'.worker.installer = .wait ∧
          (v.worker.asyncReady = none ∨ v.worker.asyncReady = some c) ∨
        ∃ old, v.worker.asyncReady = some old ∧ v'.worker.installer = .supersede old)
      (hes : es = [])
  | free {old : Ctx} (hsame : SameRun v.worker v'.worker) (hheap : v'.heap = v.heap.free old)
      (hfrom : v.worker.installer = .supersede old) (hto : v'.worker.installer = .wait)
      (hes : es = [])

section Moves

variable {w : ℕ} {v v' : View} {a : Answer} {r : View × List Event}

/-- A step between lines with no context in hand. -/
theorem contextMove_elsewhere {p : RunPc} {es : List Event} (hpc : v.worker.pc = p)
    (hheap : v'.heap = v.heap) (hsame : SameContexts v.worker v'.worker)
    (hto : v'.worker.pc.EmptyHanded) (hes : ∀ e ∈ es, e.Shows v.heap v.worker.currentSigma)
    (hhand : p.hand = none) (hfreed : p.freed = none) (hrunning : p.installing = none) :
    ContextMove w v a v' es := by
  subst hpc
  exact .elsewhere hsame hheap (.of_none hhand hfreed hrunning) hrunning hto hes

theorem contextMove_exit (hgo : v.EndsRun a)
    (hfrom : v.worker.pc.freed = none ∧ v.worker.pc.installing = none) :
    ContextMove w v a v.exit [] :=
  .leave ⟨rfl, rfl, rfl, rfl, rfl⟩ rfl hgo hfrom (.inr rfl) (List.forall_mem_nil _)

theorem contextMove_readSigma (hpc : v.worker.pc = .readSigma) :
    ContextMove w v a v.readSigma [] := by
  have hgoto : ∀ p, p.EmptyHanded → ContextMove w v a (v.goto p) [] := by
    intro p hp
    exact contextMove_elsewhere hpc rfl ⟨rfl, rfl, rfl, rfl, rfl⟩ hp (List.forall_mem_nil _)
      rfl rfl rfl
  unfold View.readSigma
  dsimp only
  split
  case h_1 new hsigma =>
    split_ifs
    · exact .fetch ⟨rfl, rfl, rfl, rfl, rfl⟩ rfl (.inl ⟨hpc, hsigma⟩) (.inl rfl) rfl
    · exact .fetch ⟨rfl, rfl, rfl, rfl, rfl⟩ rfl (.inl ⟨hpc, hsigma⟩) (.inr (.inr rfl)) rfl
    · exact hgoto _ (.of_none rfl rfl rfl)
    · exact hgoto _ (.of_none rfl rfl rfl)
  case h_2 =>
    split_ifs
    · exact hgoto _ (.of_none rfl rfl rfl)
    · exact hgoto _ (.of_none rfl rfl rfl)

theorem contextMove_rotate {new : Ctx} {swap : Bool} (hpc : v.worker.pc = .drain new swap)
    (hstep : v.rotate w new swap = some r) : ContextMove w v a r.1 r.2 := by
  unfold View.rotate at hstep
  dsimp only at hstep
  split_ifs at hstep
  cases hstep
  exact .rotate ⟨rfl, rfl, rfl, rfl, rfl⟩ rfl hpc rfl rfl

theorem contextMove_installCurrent {c : Ctx} {pc : InstallPc} {bound todo : List HalfId}
    {h : HalfId} (hpc : v.worker.pc = .install pc bound h todo)
    (hc : v.worker.currentSigma = some c)
    (hstep : v.installCurrent w c pc a bound h todo = some r) : ContextMove w v a r.1 r.2 := by
  have hfrom : v.worker.pc.installing = some pc := by rw [hpc]; rfl
  obtain ⟨⟨x, result⟩, hinstall, rfl⟩ := Option.map_eq_some_iff.mp hstep
  cases result with
  | inside pc' => exact .install ⟨rfl, rfl, rfl, rfl, rfl⟩ hc hfrom hinstall rfl rfl rfl
  | returned =>
    exact .returned ⟨rfl, rfl, rfl, rfl, rfl⟩ hc hfrom hinstall rfl (.of_none rfl rfl rfl)
      rfl
  | threw => exact .threw ⟨rfl, rfl, rfl, rfl, rfl⟩ hc hfrom hinstall rfl rfl rfl

theorem contextMove_bindThrows {swap far : Bool} {v₀ : View} (hheap : v.heap = v₀.heap)
    (hsame : SameContexts v₀.worker v.worker)
    (hfrom : v₀.worker.pc.freed = none ∧ v₀.worker.pc.installing = none) :
    ContextMove w v₀ (.threw far) (v.bindThrows w swap).1 (v.bindThrows w swap).2 := by
  obtain ⟨hsigma, -, hpending, hready, hinstaller⟩ := hsame
  cases swap with
  | false =>
    refine .leave ⟨hsigma, rfl, hpending, hready, hinstaller⟩ hheap (.inl ⟨far, rfl⟩) hfrom
      (.inl rfl) ?_
    simp [View.bindThrows, View.giveUp, Event.Shows]
  | true =>
    exact .leave ⟨hsigma, rfl, hpending, hready, hinstaller⟩ hheap (.inl ⟨far, rfl⟩) hfrom
      (.inr rfl) (List.forall_mem_nil _)

theorem emptyHanded_nextHalf (swap : Bool) (bound : List HalfId) (h : HalfId)
    (todo : List HalfId) : (View.nextHalf swap bound h todo).EmptyHanded := by
  cases todo with
  | nil => exact .of_none rfl rfl rfl
  | cons next todo =>
    cases swap with
    | true => exact .of_none rfl rfl rfl
    | false => exact ⟨rfl, rfl, fun p hp => (Option.some.inj hp).symm⟩

theorem contextMove_bindHalf {c : Ctx} {pc : BindPc} {swap : Bool} {bound todo : List HalfId}
    {h : HalfId} (hpc : v.worker.pc = .bind pc swap bound h todo)
    (hstep : v.bindHalf w c swap bound h todo pc a = some r) : ContextMove w v a r.1 r.2 := by
  have hfrom : v.worker.pc.freed = none ∧ v.worker.pc.installing = none := by
    rw [hpc]
    exact ⟨rfl, rfl⟩
  unfold View.bindHalf at hstep
  split at hstep
  case h_7 => cases hstep
  all_goals obtain rfl := Option.some.inj hstep
  case h_5 => exact contextMove_bindThrows rfl ⟨rfl, rfl, rfl, rfl, rfl⟩ hfrom
  case h_6 far =>
    refine contextMove_bindThrows rfl ?_ hfrom
    cases far <;> exact ⟨rfl, rfl, rfl, rfl, rfl⟩
  case h_4 =>
    refine contextMove_elsewhere hpc rfl ⟨rfl, rfl, rfl, rfl, rfl⟩ ?_ (List.forall_mem_nil _)
      rfl rfl rfl
    exact emptyHanded_nextHalf swap bound h todo
  all_goals
    exact contextMove_elsewhere hpc rfl ⟨rfl, rfl, rfl, rfl, rfl⟩ (.of_none rfl rfl rfl)
      (List.forall_mem_nil _) rfl rfl rfl

/-- A launch on the ring. -/
theorem sameContexts_launchTriple (g : GpuWorker) (warmup : ℕ) (pc : RunPc) :
    SameContexts g (View.launchTriple g warmup pc) := by
  unfold View.launchTriple View.queueBatch GpuWorker.setHalf
  exact ⟨rfl, rfl, rfl, rfl, rfl⟩

theorem contextMove_mine (hpc : v.worker.pc = .mine) (hstep : v.mine w = some r) :
    ContextMove w v a r.1 r.2 := by
  have hqueued : ∀ c half, v.worker.currentSigma = some c →
      (v.queuedEvent w c half).Shows v.heap v.worker.currentSigma :=
    fun _ _ hsigma => ⟨hsigma, rfl⟩
  refine View.mine_cases (P := fun r => ContextMove w v a r.1 r.2) hstep ?idle ?exit ?tripleWarmup
    ?triple ?firstPing ?pingPong
  case idle =>
    intro _
    exact contextMove_elsewhere hpc rfl ⟨rfl, rfl, rfl, rfl, rfl⟩ (.of_none rfl rfl rfl)
      (List.forall_mem_singleton.mpr trivial) rfl rfl rfl
  case exit =>
    intro hstop
    exact contextMove_exit (.inr ⟨hstop, .inr hpc⟩) (by rw [hpc]; exact ⟨rfl, rfl⟩)
  case tripleWarmup =>
    intro c hsigma _ _ _
    refine contextMove_elsewhere hpc rfl (sameContexts_launchTriple ..) (.of_none rfl rfl rfl) ?_
      rfl rfl rfl
    exact List.forall_mem_cons.mpr ⟨hqueued c _ hsigma, List.forall_mem_singleton.mpr trivial⟩
  case triple =>
    intro c hsigma _ _ _
    exact contextMove_elsewhere hpc rfl (sameContexts_launchTriple ..) (.of_none rfl rfl rfl)
      (List.forall_mem_singleton.mpr (hqueued c _ hsigma)) rfl rfl rfl
  case firstPing =>
    intro c hsigma _ _ _
    refine contextMove_elsewhere hpc rfl ⟨rfl, rfl, rfl, rfl, rfl⟩ (.of_none rfl rfl rfl) ?_
      rfl rfl rfl
    exact List.forall_mem_cons.mpr ⟨hqueued c _ hsigma, List.forall_mem_singleton.mpr trivial⟩
  case pingPong =>
    intro c hsigma _ _ _
    exact contextMove_elsewhere hpc rfl ⟨rfl, rfl, rfl, rfl, rfl⟩ (.of_none rfl rfl rfl)
      (List.forall_mem_singleton.mpr (hqueued c _ hsigma)) rfl rfl rfl

/-- What a step of `run` does to the variables that hold contexts. -/
theorem contextMove_runStep (hstep : runStep w v a = some r) : ContextMove w v a r.1 r.2 := by
  refine runStep_cases (P := fun r => ContextMove w v a r.1 r.2) hstep ?top ?readSigma
    ?asyncFailed ?submitInstall ?drain ?install ?bind ?clearDirty ?takeReady ?want ?freeStale
    ?testDirty ?loadTarget ?upload ?mine ?complete ?trigger ?endRound ?exit
  case top =>
    intro hpc
    unfold View.runTop
    split_ifs with hstop
    · exact contextMove_exit (.inr ⟨hstop, .inl hpc⟩) (by rw [hpc]; exact ⟨rfl, rfl⟩)
    · refine contextMove_elsewhere hpc rfl ⟨rfl, rfl, rfl, rfl, rfl⟩ ?_ (List.forall_mem_nil _)
        rfl rfl rfl
      rw [hpc]
      exact .of_none rfl rfl rfl
    · refine contextMove_elsewhere hpc rfl ⟨rfl, rfl, rfl, rfl, rfl⟩ (.of_none rfl rfl rfl) ?_
        rfl rfl rfl
      simp [Event.Shows]
  case readSigma =>
    intro hpc
    exact contextMove_readSigma hpc
  case asyncFailed =>
    intro new hpc
    unfold View.askFailed
    split_ifs
    · exact .fetch ⟨rfl, rfl, rfl, rfl, rfl⟩ rfl (.inr hpc) (.inr (.inr rfl)) rfl
    · exact .fetch ⟨rfl, rfl, rfl, rfl, rfl⟩ rfl (.inr hpc) (.inr (.inl rfl)) rfl
  case submitInstall =>
    intro new hpc
    unfold View.submitAsyncInstall
    split_ifs
    · exact .submit ⟨rfl, rfl, rfl, rfl, rfl⟩ (.inl rfl) rfl hpc rfl rfl
    · exact .submit ⟨rfl, rfl, rfl, rfl, rfl⟩ (.inr rfl) rfl hpc rfl rfl
  case drain =>
    intro new swap hpc hrotate
    exact contextMove_rotate hpc hrotate
  case install =>
    intro pc bound half todo c hpc hc hinstall
    exact contextMove_installCurrent hpc hc hinstall
  case bind =>
    intro pc swap bound half todo c hpc _ hbind
    exact contextMove_bindHalf hpc hbind
  case clearDirty =>
    intro swap hpc
    refine contextMove_elsewhere hpc rfl ⟨rfl, rfl, rfl, rfl, rfl⟩ ?_ (List.forall_mem_nil _)
      rfl rfl rfl
    cases swap <;> exact .of_none rfl rfl rfl
  case takeReady =>
    intro hpc
    unfold View.takeAsyncReady
    split
    · exact contextMove_elsewhere hpc rfl ⟨rfl, rfl, rfl, rfl, rfl⟩ (.of_none rfl rfl rfl)
        (List.forall_mem_nil _) rfl rfl rfl
    · exact .take ⟨rfl, rfl, rfl, rfl, rfl⟩ ‹_› rfl hpc rfl rfl
  case want =>
    intro ready hpc
    unfold View.readWant
    dsimp only
    split_ifs with hwant hstale
    · exact .want ⟨rfl, rfl, rfl, rfl, rfl⟩ rfl hpc (.inl rfl) rfl
    · exact .want ⟨rfl, rfl, rfl, rfl, rfl⟩ rfl hpc (.inr (.inl rfl)) rfl
    · exact .want ⟨rfl, rfl, rfl, rfl, rfl⟩ rfl hpc (.inr (.inr ⟨rfl, not_not.mp hstale⟩)) rfl
  case freeStale =>
    intro ready hpc
    exact .free ⟨rfl, rfl, rfl, rfl, rfl⟩ rfl hpc rfl rfl
  case testDirty =>
    intro hpc
    unfold View.testDirty
    split_ifs
    all_goals
      exact contextMove_elsewhere hpc rfl ⟨rfl, rfl, rfl, rfl, rfl⟩ (.of_none rfl rfl rfl)
        (List.forall_mem_nil _) rfl rfl rfl
  case upload =>
    intro nbits hpc _
    have hsame : SameContexts v.worker (v.worker.uploadPowTargetAllHalves nbits) := by
      unfold GpuWorker.uploadPowTargetAllHalves GpuWorker.halves
      split <;> exact ⟨rfl, rfl, rfl, rfl, rfl⟩
    exact contextMove_elsewhere hpc rfl ⟨hsame.1, hsame.2, hsame.3, hsame.4, hsame.5⟩
      (.of_none rfl rfl rfl) (List.forall_mem_nil _) rfl rfl rfl
  case mine =>
    intro hpc hmine
    exact contextMove_mine hpc hmine
  case trigger =>
    intro half k winners c hpc _ _
    unfold View.trigger
    dsimp only
    split_ifs
    all_goals
      refine contextMove_elsewhere hpc rfl ⟨rfl, rfl, rfl, rfl, rfl⟩ (.of_none rfl rfl rfl) ?_
        rfl rfl rfl
      simp [Event.Shows]
  case endRound =>
    intro half hpc
    unfold View.endRound
    dsimp only
    split_ifs
    all_goals
      refine contextMove_elsewhere hpc rfl ⟨rfl, rfl, rfl, rfl, rfl⟩ (.of_none rfl rfl rfl) ?_
        rfl rfl rfl
      simp [Event.Shows]
  case loadTarget =>
    intro hpc
    exact contextMove_elsewhere hpc rfl ⟨rfl, rfl, rfl, rfl, rfl⟩ (.of_none rfl rfl rfl)
      (List.forall_mem_nil _) rfl rfl rfl
  case complete =>
    intro half hits hpc _
    refine contextMove_elsewhere hpc rfl ⟨rfl, rfl, rfl, rfl, rfl⟩ (.of_none rfl rfl rfl) ?_
      rfl rfl rfl
    simp [View.scan, Event.Shows]
  case exit =>
    rintro far rfl hbreaks
    apply contextMove_exit (.inl ⟨far, rfl⟩)
    cases hpc : v.worker.pc with
    | freeStale | install =>
      rw [hpc] at hbreaks
      cases hbreaks
    | _ => exact ⟨rfl, rfl⟩

theorem installerMove_installInBackground {c : Ctx} {pc : InstallPc}
    (hpc : v.worker.installer = .install pc c)
    (hstep : v.installInBackground w c pc a = some r) : InstallerMove w v a r.1 r.2 := by
  obtain ⟨⟨x, result⟩, hinstall, rfl⟩ := Option.map_eq_some_iff.mp hstep
  cases result with
  | inside pc' => exact .install ⟨rfl, rfl, rfl, rfl, rfl⟩ hpc hinstall rfl rfl rfl
  | returned => exact .returned ⟨rfl, rfl, rfl, rfl, rfl⟩ hpc hinstall rfl rfl rfl
  | threw => exact .threw ⟨rfl, rfl, rfl, rfl, rfl⟩ hpc hinstall rfl rfl rfl

theorem installerMove_publishReady {c : Ctx} (hpc : v.worker.installer = .publish c) :
    InstallerMove w v a (v.publishReady c) [] := by
  refine .publish ⟨rfl, rfl, rfl, rfl, rfl⟩ rfl hpc ?_ rfl
  unfold View.publishReady
  dsimp only
  split
  case h_1 hready => exact .inl ⟨rfl, .inl hready⟩
  case h_2 old hready =>
    split_ifs with hne
    · exact .inr ⟨old, hready, rfl⟩
    · exact .inl ⟨rfl, .inr (not_not.mp hne ▸ hready)⟩

/-- What a step of the installer does to the variables that hold contexts. -/
theorem installerMove_installerStep (hstep : installerStep w v a = some r) :
    InstallerMove w v a r.1 r.2 := by
  refine installerStep_cases (P := fun r => InstallerMove w v a r.1 r.2) hstep ?wait ?guard
    ?refused ?install ?publish ?supersede ?markFailed
  case wait =>
    intro c hpending hpc
    exact .take ⟨rfl, rfl, rfl, rfl, rfl⟩ hpending rfl hpc rfl rfl
  case guard =>
    intro c hpc
    exact .start ⟨rfl, rfl, rfl, rfl, rfl⟩ rfl hpc rfl rfl
  case refused =>
    intro c hpc
    exact .fail ⟨rfl, rfl, rfl, rfl, rfl⟩ rfl (.inl hpc) (.inl rfl) rfl
  case install =>
    intro pc c hpc hinstall
    exact installerMove_installInBackground hpc hinstall
  case publish =>
    intro c hpc
    exact installerMove_publishReady hpc
  case supersede =>
    intro old hpc
    exact .free ⟨rfl, rfl, rfl, rfl, rfl⟩ rfl hpc rfl rfl
  case markFailed =>
    intro c hpc
    exact .fail ⟨rfl, rfl, rfl, rfl, rfl⟩ rfl (.inr hpc) (.inr rfl) rfl

end Moves

end PropMiner.Jobs
