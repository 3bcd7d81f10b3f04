import PropMiner.Jobs.Contexts

/-!
# Batches run on resident sets

The promise is that whenever a batch is queued, the resident-B set of its job is
allocated, and that `install` never returns without one.

A context stays installed for ever, but its set can be freed: by the run loop when a
context that is ready turns out to be stale, and by the installer when one is superseded.
Both free what they no longer want, although other workers, the bus or a recovery may
still hold the context. The promise holds in the runs in which a set is freed only when
nothing refers to its context any more.

## Main definitions

* `Event.resident` — the promise, of one event
* `Miner.refs` — everything that holds a context
* `exclusive` — the steps that free only what nothing refers to

## Main results

* `resident_of_exclusive` — along every such run sets are resident where they are used
* `resident_fails` — a worker frees the set another one mines on
-/

set_option autoImplicit false

namespace PropMiner.Jobs

open PropMiner.Semantics (Machine)

variable {n : ℕ}

/-- A batch was queued, or `install` returned, with the set of the job allocated. -/
def Event.resident : Event → Bool
  | .installReturned _ _ allocated | .queued _ _ _ allocated _ _ => allocated
  | _ => true

def RecoveryPc.ctx : RecoveryPc n → Option Ctx
  | .setting c _ => some c
  | _ => none

/-- Everything that holds a context which may still be used. -/
def Miner.refs (s : Miner n) : List (Option Ctx) :=
  [s.bus.ctx, s.publisher.job, (s.recovery .watchdog).ctx, (s.recovery .health).ctx] ++
    (List.finRange n).flatMap fun w => (s.workers w).refs

/-- The context whose set the next step of this input frees. -/
def Miner.frees (s : Miner n) : Input n → Option Ctx
  | .run w _ => (s.workers w).pc.freed
  | .installer w _ => (s.workers w).installer.freed
  | _ => none

/-- A set is freed only when nothing refers to its context. -/
def isExclusive (s : Miner n) (a : Input n) : Bool :=
  (s.frees a).all fun c => some c ∉ s.refs

def exclusive (s : Miner n) (a : Input n) : Prop := isExclusive s a = true

instance (s : Miner n) (a : Input n) : Decidable (exclusive s a) :=
  inferInstanceAs (Decidable (isExclusive s a = true))

/-! ### One worker -/

/-- The context that was handed over as ready. -/
def RunPc.ready : RunPc → Option Ctx
  | .want c | .drain c true => some c
  | _ => none

def InstallerPc.ready : InstallerPc → Option Ctx
  | .publish c => some c
  | _ => none

/-- The variables of a worker that hold an installed context. -/
def GpuWorker.uses (g : GpuWorker) : List (Option Ctx) :=
  [g.asyncReady, g.pc.ready, g.installer.ready]

/-- What the threads of worker `w` rely on. -/
structure WorkerOk (w : ℕ) (v : View) : Prop where
  ready : ∀ c, some c ∈ v.worker.uses → (v.heap c).installed = true
  current : ∀ c, v.worker.currentSigma = some c → v.worker.pc.installing = none →
    (v.heap c).installed = true
  running : ∀ pc c, v.worker.pc.installing = some pc → v.worker.currentSigma = some c →
    pc.Holds (.run w) (v.heap c)
  installer : ∀ pc c, v.worker.installer = .install pc c → pc.Holds (.installer w) (v.heap c)

/-- Every context the worker refers to that is installed has its set. -/
def Resident (v : View) : Prop :=
  ∀ c, some c ∈ v.worker.refs → (v.heap c).installed = true → (v.heap c).allocated = true

/-- What a step of one of the worker's threads keeps and leaves to the others. -/
structure Keeps (w : ℕ) (me : Locker) (freed : Option Ctx) (v : View) (r : View × List Event) :
    Prop where
  refs : ∀ c, some c ∈ r.1.worker.refs → some c ∈ v.worker.refs
  heap : ∀ c, freed ≠ some c → Advances (some me) (v.heap c) (r.1.heap c)
  events : ∀ e ∈ r.2, e.resident = true
  ok : WorkerOk w r.1

section Worker

variable {w : ℕ} {v v' : View} {a : Answer} {r : View × List Event} {es : List Event}
  {me : Option Locker} {g : GpuWorker} {c : Ctx}

theorem mem_refs : some c ∈ g.refs ↔ g.sigma = some c ∨ g.currentSigma = some c ∨
    g.asyncPending = some c ∨ g.asyncReady = some c ∨ g.pc.hand = some c ∨
      g.installer.hand = some c := by
  simp [GpuWorker.refs, eq_comm]

theorem mem_uses : some c ∈ g.uses ↔ g.asyncReady = some c ∨ g.pc.ready = some c ∨
    g.installer.ready = some c := by
  simp [GpuWorker.uses, eq_comm]

theorem hand_of_ready {pc : RunPc} (h : pc.ready = some c) : pc.hand = some c := by
  cases pc with
  | drain new swap =>
    cases swap with
    | true => exact h
    | false => cases h
  | want => exact h
  | _ => cases h

theorem refs_of_uses (h : some c ∈ g.uses) : some c ∈ g.refs := by
  rw [mem_refs]
  rcases mem_uses.mp h with hready | hready | hready
  · exact .inr (.inr (.inr (.inl hready)))
  · exact .inr (.inr (.inr (.inr (.inl (hand_of_ready hready)))))
  · refine .inr (.inr (.inr (.inr (.inr ?_))))
    cases hpc : g.installer with
    | publish c' => rwa [hpc] at hready
    | _ => rw [hpc] at hready; cases hready

theorem refs_of_current (h : g.currentSigma = some c) : some c ∈ g.refs :=
  mem_refs.mpr (.inr (.inl h))

theorem refs_of_install {pc : InstallPc} (h : g.installer = .install pc c) : some c ∈ g.refs := by
  refine mem_refs.mpr (.inr (.inr (.inr (.inr (.inr ?_)))))
  rw [h]
  rfl

/-- The worker's own threads are where they were and hold what they held. -/
structure SameUse (g g' : GpuWorker) : Prop where
  current : g'.currentSigma = g.currentSigma
  pending : g'.asyncPending = g.asyncPending
  ready : g'.asyncReady = g.asyncReady
  pc : g'.pc = g.pc
  installer : g'.installer = g.installer

/-- What a worker relies on survives the steps of others. -/
theorem WorkerOk.advance (h : WorkerOk w v)
    (hheap : ∀ c, some c ∈ v.worker.refs → Advances me (v.heap c) (v'.heap c))
    (hrun : me ≠ some (.run w)) (hinstaller : me ≠ some (.installer w))
    (hsame : SameUse v.worker v'.worker) : WorkerOk w v' where
  ready c hc := by
    rw [GpuWorker.uses, hsame.ready, hsame.pc, hsame.installer] at hc
    exact (hheap c (refs_of_uses hc)).installed (h.ready c hc)
  current c hc hinstalling := by
    rw [hsame.current] at hc
    rw [hsame.pc] at hinstalling
    exact (hheap c (refs_of_current hc)).installed (h.current c hc hinstalling)
  running pc c hinstalling hc := by
    rw [hsame.current] at hc
    rw [hsame.pc] at hinstalling
    exact (hheap c (refs_of_current hc)).holds _ pc hrun (h.running pc c hinstalling hc)
  installer pc c hc := by
    rw [hsame.installer] at hc
    exact (hheap c (refs_of_install hc)).holds _ pc hinstaller (h.installer pc c hc)

/-! #### The run loop -/

theorem advances_modify {me : Locker} {x : SigmaContext}
    (hadv : Advances (some me) (v.heap c) x) (hheap : v'.heap = v.heap.modify c fun _ => x)
    (c' : Ctx) : Advances (some me) (v.heap c') (v'.heap c') := by
  rw [hheap, Heap.modify]
  by_cases hc : c' = c
  · subst hc
    rwa [Function.update_self]
  · rw [Function.update_of_ne hc]
    exact advances_refl _ _

theorem advances_free {me : Option Locker} (hheap : v'.heap = v.heap.free c) {c' : Ctx}
    (hne : c' ≠ c) : Advances me (v.heap c') (v'.heap c') := by
  rw [hheap, Heap.free, Heap.modify, Function.update_of_ne hne]
  exact advances_refl _ _

theorem ContextMove.advances (hmove : ContextMove w v a v' es) (h : WorkerOk w v) (c : Ctx)
    (hfreed : v.worker.pc.freed ≠ some c) :
    Advances (some (.run w)) (v.heap c) (v'.heap c) := by
  cases hmove with
  | install hsame hc hfrom hinstall hheap | returned hsame hc hfrom hinstall hheap
  | threw hsame hc hfrom hinstall hheap =>
    exact advances_modify (advances_installStep (h.running _ _ hfrom hc) hinstall) hheap c
  | free hsame hheap hfrom =>
    refine advances_free hheap fun heq => hfreed ?_
    rw [hfrom, heq]
    rfl
  | elsewhere _ hheap | fetch _ hheap | submit _ _ hheap | rotate _ hheap | leave _ hheap
  | take _ _ hheap | want _ hheap =>
    rw [hheap]
    exact advances_refl _ _

theorem hand_startHalves (g : GpuWorker) (swap : Bool) :
    (View.startHalves g swap).hand = none ∧ (View.startHalves g swap).ready = none := by
  cases swap <;> exact ⟨rfl, rfl⟩

theorem hand_of_installing {pc : RunPc} {p : InstallPc} (h : pc.installing = some p) :
    pc.hand = none ∧ pc.ready = none := by
  cases pc with
  | install => exact ⟨rfl, rfl⟩
  | _ => cases h

/-- The run loop gets its contexts from the worker's variables. -/
theorem ContextMove.refs (hmove : ContextMove w v a v' es) (c : Ctx)
    (hc : some c ∈ v'.worker.refs) : some c ∈ v.worker.refs := by
  rw [mem_refs] at hc ⊢
  cases hmove with
  | elsewhere hsame _ _ _ hto | returned hsame _ _ _ _ hto =>
    grind [SameContexts, RunPc.EmptyHanded]
  | fetch hsame _ hfrom hto => grind [SameContexts, RunPc.hand]
  | submit hsame hpending _ hfrom hto => grind [SameContexts, RunPc.hand]
  | rotate hsame _ hfrom hto => grind [SameContexts, RunPc.hand, hand_startHalves]
  | install hsame _ _ _ _ hto => grind [SameContexts, RunPc.hand, hand_of_installing]
  | threw hsame _ _ _ _ hto => grind [SameContexts, RunPc.hand]
  | leave hsame _ _ _ hto => grind [SameContexts, RunPc.hand]
  | take hsame hready _ hfrom hto => grind [SameContexts, RunPc.hand]
  | want hsame _ hfrom hto => grind [SameContexts, RunPc.hand]
  | free hsame _ hfrom hto => grind [SameContexts, RunPc.hand]

/-- What it takes as ready was handed over as ready. -/
theorem ContextMove.uses (hmove : ContextMove w v a v' es) (c : Ctx)
    (hc : some c ∈ v'.worker.uses) : some c ∈ v.worker.uses := by
  have hnot : v'.worker.pc.EmptyHanded → v'.worker.pc.ready = none := by
    intro hempty
    cases hready : v'.worker.pc.ready with
    | none => rfl
    | some c' =>
      have hhand := hand_of_ready hready
      rw [hempty.hand] at hhand
      cases hhand
  rw [mem_uses] at hc ⊢
  cases hmove with
  | elsewhere hsame _ _ _ hto | returned hsame _ _ _ _ hto =>
    grind [SameContexts]
  | rotate hsame _ hfrom hto => grind [SameContexts, hand_startHalves]
  | install hsame _ _ _ _ hto =>
    have hnone := (hand_of_installing hto).2
    grind [SameContexts]
  | take hsame hready _ hfrom hto => grind [SameContexts, RunPc.ready]
  | want hsame _ hfrom hto => grind [SameContexts, RunPc.ready]
  | fetch hsame | submit hsame | threw hsame | leave hsame | free hsame =>
    grind [SameContexts, RunPc.ready]

theorem ContextMove.current (hmove : ContextMove w v a v' es) (h : WorkerOk w v)
    (hfreed : ∀ c, v.worker.pc.freed = some c → some c ∉ v.worker.refs) (c : Ctx)
    (hc : v'.worker.currentSigma = some c) (hinstalling : v'.worker.pc.installing = none) :
    (v'.heap c).installed = true := by
  have hadv : some c ∈ v.worker.refs → (v.heap c).installed = true →
      (v'.heap c).installed = true := by
    intro href
    exact (hmove.advances h c fun hf => hfreed c hf href).installed
  -- a job that was current before and not being installed
  have hold : v.worker.currentSigma = some c → v.worker.pc.installing = none →
      (v'.heap c).installed = true := by
    intro hcurrent hnone
    exact hadv (refs_of_current hcurrent) (h.current c hcurrent hnone)
  cases hmove with
  | elsewhere hsame _ _ hrunning => exact hold (hsame.current ▸ hc) hrunning
  | @rotate new swap hsame _ hfrom hto =>
    obtain rfl : new = c := Option.some.inj (hsame.current.symm.trans hc)
    cases swap with
    | false =>
      -- the install is still to come
      rw [hto] at hinstalling
      cases hinstalling
    | true =>
      -- the context was handed over as ready
      have huses : some new ∈ v.worker.uses := by
        refine mem_uses.mpr (.inr (.inl ?_))
        rw [hfrom]
        rfl
      exact hadv (refs_of_uses huses) (h.ready new huses)
  | returned hsame hcurrent _ hinstall hheap =>
    obtain rfl := Option.some.inj (hcurrent.symm.trans (hsame.current ▸ hc))
    rw [hheap, Heap.modify, Function.update_self]
    exact installed_of_returned hinstall
  | install _ _ _ _ _ hto =>
    rw [hto] at hinstalling
    cases hinstalling
  | threw hsame | leave hsame =>
    rw [hsame.current] at hc
    cases hc
  | fetch hsame _ hfrom =>
    refine hold (hsame.current ▸ hc) ?_
    rcases hfrom with ⟨hfrom, -⟩ | hfrom
    all_goals
      rw [hfrom]
      rfl
  | submit hsame _ _ hfrom | take hsame _ _ hfrom | want hsame _ hfrom | free hsame _ hfrom =>
    refine hold (hsame.current ▸ hc) ?_
    rw [hfrom]
    rfl

theorem ContextMove.running (hmove : ContextMove w v a v' es) (h : WorkerOk w v) (pc : InstallPc)
    (c : Ctx) (hpc : v'.worker.pc.installing = some pc)
    (hc : v'.worker.currentSigma = some c) : pc.Holds (.run w) (v'.heap c) := by
  cases hmove with
  | install hsame hcurrent hfrom hinstall hheap hto =>
    obtain rfl := Option.some.inj (hto.symm.trans hpc)
    obtain rfl := Option.some.inj (hcurrent.symm.trans (hsame.current ▸ hc))
    rw [hheap, Heap.modify, Function.update_self]
    exact holds_installStep (h.running _ _ hfrom hcurrent) hinstall
  | elsewhere _ _ _ _ hto | returned _ _ _ _ _ hto =>
    rw [hto.installing pc hpc]
    trivial
  | @rotate new swap hsame _ hfrom hto =>
    rw [hto] at hpc
    cases swap with
    | false =>
      obtain rfl := Option.some.inj hpc
      trivial
    | true => cases hpc
  | fetch _ _ _ hto => rcases hto with hto | hto | hto <;> rw [hto] at hpc <;> cases hpc
  | leave _ _ _ _ hto => rcases hto with hto | hto <;> rw [hto] at hpc <;> cases hpc
  | want _ _ _ hto =>
    rcases hto with hto | hto | ⟨hto, -⟩ <;> rw [hto] at hpc <;> cases hpc
  | submit _ _ _ _ hto | threw _ _ _ _ _ hto | take _ _ _ _ hto | free _ _ _ hto =>
    rw [hto] at hpc
    cases hpc

/-- A context that is current and not being installed has its set. -/
theorem WorkerOk.allocated (h : WorkerOk w v) (hres : Resident v) {c : Ctx}
    (hc : v.worker.currentSigma = some c) (hpc : v.worker.pc.installing = none) :
    (v.heap c).allocated = true :=
  hres c (refs_of_current hc) (h.current c hc hpc)

theorem resident_of_shows (h : WorkerOk w v) (hres : Resident v)
    (hpc : v.worker.pc.installing = none) {e : Event}
    (hshows : e.Shows v.heap v.worker.currentSigma) : e.resident = true := by
  cases e with
  | queued _ _ c allocated =>
    obtain ⟨hc, rfl⟩ := hshows
    exact h.allocated hres hc hpc
  | installReturned => cases hshows
  | _ => rfl

theorem ContextMove.resident (hmove : ContextMove w v a v' es) (h : WorkerOk w v)
    (hres : Resident v) : ∀ e ∈ es, e.resident = true := by
  intro e he
  cases hmove with
  | elsewhere _ _ _ hrunning _ hes => exact resident_of_shows h hres hrunning (hes e he)
  | leave _ _ _ hfrom _ hes => exact resident_of_shows h hres hfrom.2 (hes e he)
  | returned _ hc hfrom hinstall _ _ hes =>
    rw [hes, List.mem_singleton] at he
    subst he
    have hadv := advances_installStep (h.running _ _ hfrom hc) hinstall
    exact hadv.resident (hres _ (refs_of_current hc)) (installed_of_returned hinstall)
  | rotate _ _ _ _ hes | threw _ _ _ _ _ _ hes =>
    rw [hes, List.mem_singleton] at he
    subst he
    rfl
  | fetch _ _ _ _ hes | submit _ _ _ _ _ hes | install _ _ _ _ _ _ hes | take _ _ _ _ _ hes
  | want _ _ _ _ hes | free _ _ _ _ hes =>
    rw [hes] at he
    cases he

theorem ContextMove.installer (hmove : ContextMove w v a v' es) :
    v'.worker.installer = v.worker.installer := by
  cases hmove with
  | elsewhere hsame | fetch hsame | submit hsame | rotate hsame | install hsame | returned hsame
  | threw hsame | leave hsame | take hsame | want hsame | free hsame => exact hsame.installer

/-- The run loop. -/
theorem keeps_runStep (h : WorkerOk w v) (hres : Resident v)
    (hfreed : ∀ c, v.worker.pc.freed = some c → some c ∉ v.worker.refs)
    (hstep : runStep w v a = some r) : Keeps w (.run w) v.worker.pc.freed v r := by
  have hmove := contextMove_runStep hstep
  have hadv : ∀ c, some c ∈ v.worker.refs → Advances (some (.run w)) (v.heap c) (r.1.heap c) :=
    fun c href => hmove.advances h c fun hf => hfreed c hf href
  refine ⟨hmove.refs, hmove.advances h, hmove.resident h hres, ?_, hmove.current h hfreed,
    hmove.running h, ?_⟩
  · intro c hc
    have hold := hmove.uses c hc
    exact (hadv c (refs_of_uses hold)).installed (h.ready c hold)
  · intro pc c hc
    rw [hmove.installer] at hc
    exact (hadv c (refs_of_install hc)).holds _ pc nofun (h.installer pc c hc)

/-! #### The installer -/

theorem InstallerMove.advances (hmove : InstallerMove w v a v' es) (h : WorkerOk w v) (c : Ctx)
    (hfreed : v.worker.installer.freed ≠ some c) :
    Advances (some (.installer w)) (v.heap c) (v'.heap c) := by
  cases hmove with
  | install hsame hfrom hinstall hheap | returned hsame hfrom hinstall hheap
  | threw hsame hfrom hinstall hheap =>
    exact advances_modify (advances_installStep (h.installer _ _ hfrom) hinstall) hheap c
  | free hsame hheap hfrom =>
    refine advances_free hheap fun heq => hfreed ?_
    rw [hfrom, heq]
    rfl
  | take _ _ hheap | start _ hheap | fail _ hheap | publish _ hheap =>
    rw [hheap]
    exact advances_refl _ _

theorem InstallerMove.refs (hmove : InstallerMove w v a v' es) (c : Ctx)
    (hc : some c ∈ v'.worker.refs) : some c ∈ v.worker.refs := by
  rw [mem_refs] at hc ⊢
  cases hmove with
  | take hsame | start hsame | fail hsame | install hsame | returned hsame | threw hsame
  | publish hsame | free hsame => grind [SameRun, InstallerPc.hand]

/-- What is handed over as ready is installed. -/
theorem InstallerMove.ready (hmove : InstallerMove w v a v' es) (c : Ctx)
    (hc : some c ∈ v'.worker.uses) :
    some c ∈ v.worker.uses ∨ (v'.heap c).installed = true := by
  rw [mem_uses] at hc ⊢
  cases hmove with
  | @returned c' _ _ hsame hfrom hinstall hheap hto =>
    by_cases hcc : c = c'
    · subst hcc
      refine .inr ?_
      rw [hheap, Heap.modify, Function.update_self]
      exact installed_of_returned hinstall
    · grind [SameRun, InstallerPc.ready]
  | take hsame | start hsame | fail hsame | install hsame | threw hsame | publish hsame
  | free hsame => grind [SameRun, InstallerPc.ready]

theorem InstallerMove.installer (hmove : InstallerMove w v a v' es) (h : WorkerOk w v)
    (pc : InstallPc) (c : Ctx) (hc : v'.worker.installer = .install pc c) :
    pc.Holds (.installer w) (v'.heap c) := by
  cases hmove with
  | start _ _ _ hto =>
    cases hto.symm.trans hc
    trivial
  | install _ hfrom hinstall hheap hto =>
    cases hto.symm.trans hc
    rw [hheap, Heap.modify, Function.update_self]
    exact holds_installStep (h.installer _ _ hfrom) hinstall
  | take _ _ _ _ hto | returned _ _ _ _ hto | threw _ _ _ _ hto | free _ _ _ hto =>
    cases hto.symm.trans hc
  | fail _ _ _ hto => rcases hto with hto | hto <;> cases hto.symm.trans hc
  | publish _ _ _ hto =>
    rcases hto with ⟨hto, -⟩ | ⟨old, -, hto⟩ <;> cases hto.symm.trans hc

theorem InstallerMove.resident (hmove : InstallerMove w v a v' es) (h : WorkerOk w v)
    (hres : Resident v) : ∀ e ∈ es, e.resident = true := by
  intro e he
  cases hmove with
  | returned _ hfrom hinstall _ _ hes =>
    rw [hes, List.mem_singleton] at he
    subst he
    have hadv := advances_installStep (h.installer _ _ hfrom) hinstall
    exact hadv.resident (hres _ (refs_of_install hfrom)) (installed_of_returned hinstall)
  | take _ _ _ _ _ hes | start _ _ _ _ hes | fail _ _ _ _ hes | install _ _ _ _ _ hes
  | threw _ _ _ _ _ hes | publish _ _ _ _ hes | free _ _ _ _ hes =>
    rw [hes] at he
    cases he

/-- The installer leaves the lines and the job of the run loop alone. -/
theorem InstallerMove.run (hmove : InstallerMove w v a v' es) :
    v'.worker.pc = v.worker.pc ∧ v'.worker.currentSigma = v.worker.currentSigma := by
  cases hmove with
  | take hsame | start hsame | fail hsame | install hsame | returned hsame | threw hsame
  | publish hsame | free hsame => exact ⟨hsame.pc, hsame.current⟩

/-- The background installer. -/
theorem keeps_installerStep (h : WorkerOk w v) (hres : Resident v)
    (hfreed : ∀ c, v.worker.installer.freed = some c → some c ∉ v.worker.refs)
    (hstep : installerStep w v a = some r) :
    Keeps w (.installer w) v.worker.installer.freed v r := by
  have hmove := installerMove_installerStep hstep
  have hadv : ∀ c, some c ∈ v.worker.refs →
      Advances (some (.installer w)) (v.heap c) (r.1.heap c) :=
    fun c href => hmove.advances h c fun hf => hfreed c hf href
  obtain ⟨hpc, hcurrent⟩ := hmove.run
  refine ⟨hmove.refs, hmove.advances h, hmove.resident h hres, ?_, ?_, ?_, hmove.installer h⟩
  · intro c hc
    rcases hmove.ready c hc with hold | hinstalled
    · exact (hadv c (refs_of_uses hold)).installed (h.ready c hold)
    · exact hinstalled
  · intro c hc hinstalling
    rw [hcurrent] at hc
    rw [hpc] at hinstalling
    exact (hadv c (refs_of_current hc)).installed (h.current c hc hinstalling)
  · intro pc c hinstalling hc
    rw [hcurrent] at hc
    rw [hpc] at hinstalling
    exact (hadv c (refs_of_current hc)).holds _ pc nofun (h.running pc c hinstalling hc)

/-- The share thread has nothing to do with it. -/
theorem keeps_shareStep (h : WorkerOk w v) (hstep : shareStep w v = some r) :
    Keeps w (.run w) none v r := by
  have hkeep : ∀ r : View × List Event, r.1.heap = v.heap → r.1.worker.refs = v.worker.refs →
      WorkerOk w r.1 → (∀ e ∈ r.2, e.resident = true) → Keeps w (.run w) none v r := by
    intro r hheap hrefs hok hevents
    refine ⟨fun c hc => hrefs ▸ hc, fun c _ => ?_, hevents, hok⟩
    rw [hheap]
    exact advances_refl _ _
  unfold shareStep at hstep
  dsimp only at hstep
  split at hstep
  · cases hstep
  · obtain rfl := Option.some.inj hstep
    exact hkeep _ rfl rfl ⟨h.ready, h.current, h.running, h.installer⟩ nofun
  · obtain rfl := Option.some.inj hstep
    refine hkeep _ rfl rfl ⟨h.ready, h.current, h.running, h.installer⟩ ?_
    simp [Event.resident]

end Worker

/-! ### The miner -/

/-- What exclusive runs keep. -/
structure ResidentInv (s : Miner n) : Prop where
  workers : ∀ w : Fin n, WorkerOk w (s.view w)
  known : ∀ c, some c ∈ s.refs → c < s.made
  resident : ∀ c, some c ∈ s.refs → (s.heap c).installed = true → (s.heap c).allocated = true

section Steps

variable {s s' : Miner n} {es tr : List Event} {w : Fin n} {a : Input n} {c : Ctx}

/-- What the orchestrator holds. -/
def Miner.Hands (s : Miner n) (c : Ctx) : Prop :=
  s.bus.ctx = some c ∨ s.publisher.job = some c ∨ ∃ r, (s.recovery r).ctx = some c

theorem Miner.mem_refs : some c ∈ s.refs ↔ s.Hands c ∨ ∃ w, some c ∈ (s.workers w).refs := by
  have hrecovery : (∃ r, (s.recovery r).ctx = some c) ↔
      (s.recovery .watchdog).ctx = some c ∨ (s.recovery .health).ctx = some c := by
    constructor
    · rintro ⟨r, hr⟩
      cases r with
      | watchdog => exact .inl hr
      | health => exact .inr hr
    · rintro (hr | hr)
      · exact ⟨_, hr⟩
      · exact ⟨_, hr⟩
  rw [Miner.Hands, hrecovery]
  simp [Miner.refs, eq_comm, or_assoc]

theorem Miner.refs_of_worker (h : some c ∈ (s.workers w).refs) : some c ∈ s.refs :=
  Miner.mem_refs.mpr (.inr ⟨w, h⟩)

theorem Miner.refs_of_hands (h : s.Hands c) : some c ∈ s.refs := Miner.mem_refs.mpr (.inl h)

theorem ResidentInv.resident_view (h : ResidentInv s) (w : Fin n) : Resident (s.view w) :=
  fun c hc => h.resident c (Miner.refs_of_worker hc)

/-- A step of a worker's own threads. -/
theorem ResidentInv.update (h : ResidentInv s) {me : Locker} {freed : Option Ctx}
    {r : View × List Event} (hkeeps : Keeps w me freed (s.view w) r)
    (hfreed : ∀ c, freed = some c → some c ∉ s.refs)
    (hme : me = .run w ∨ me = .installer w) : ResidentInv (s.update w r.1) := by
  have hrefs : ∀ c, some c ∈ (s.update w r.1).refs → some c ∈ s.refs := by
    intro c hc
    rcases Miner.mem_refs.mp hc with hhands | ⟨w', hw'⟩
    · exact Miner.refs_of_hands hhands
    · by_cases heq : w' = w
      · subst heq
        rw [Miner.workers_update_self] at hw'
        exact Miner.refs_of_worker (hkeeps.refs c hw')
      · rw [Miner.workers_update_of_ne _ heq] at hw'
        exact Miner.refs_of_worker hw'
  have hadv : ∀ c, some c ∈ s.refs → Advances (some me) (s.heap c) ((s.update w r.1).heap c) :=
    fun c hc => hkeeps.heap c fun hf => hfreed c hf hc
  refine ⟨fun w' => ?_, fun c hc => h.known c (hrefs c hc), fun c hc => ?_⟩
  · by_cases heq : w' = w
    · subst heq
      have hview : (s.update w' r.1).view w' = r.1 := by
        rw [Miner.view, Miner.workers_update_self]
        rfl
      rw [hview]
      exact hkeeps.ok
    · -- the locks of another worker are not those of this one
      have hval : (w : ℕ) ≠ w' := fun hval => heq (Fin.val_inj.mp hval).symm
      refine (h.workers w').advance (fun c hc => hadv c (Miner.refs_of_worker hc)) ?_ ?_ ?_
      · rcases hme with rfl | rfl <;> simp [hval]
      · rcases hme with rfl | rfl <;> simp [hval]
      · have hsame : ((s.update w r.1).view w').worker = s.workers w' :=
          Miner.workers_update_of_ne _ heq
        rw [hsame]
        exact ⟨rfl, rfl, rfl, rfl, rfl⟩
  · exact (hadv c (hrefs c hc)).resident (h.resident c (hrefs c hc))

/-- A step of the orchestrator. What it makes is not installed yet. -/
theorem ResidentInv.orchestrate (h : ResidentInv s)
    (hheap : ∀ c < s.made, Advances none (s.heap c) (s'.heap c)) (hmade : s.made ≤ s'.made)
    (hworkers : ∀ w, SameUse (s.workers w) (s'.workers w))
    (hrefs : ∀ c, some c ∈ s'.refs → some c ∈ s.refs ∨
      c < s'.made ∧ (s'.heap c).installed = false) : ResidentInv s' := by
  refine ⟨fun w => ?_, fun c hc => ?_, fun c hc hinstalled => ?_⟩
  · have hadv : ∀ c, some c ∈ (s.workers w).refs → Advances none (s.heap c) (s'.heap c) :=
      fun c hc => hheap c (h.known c (Miner.refs_of_worker hc))
    exact (h.workers w).advance hadv nofun nofun (hworkers w)
  · rcases hrefs c hc with hold | ⟨hlt, -⟩
    · exact (h.known c hold).trans_le hmade
    · exact hlt
  · rcases hrefs c hc with hold | ⟨-, hnew⟩
    · exact (hheap c (h.known c hold)).resident (h.resident c hold) hinstalled
    · rw [hnew] at hinstalled
      cases hinstalled

/-- A step of the orchestrator that passes on what it holds, to one worker or to none. -/
theorem ResidentInv.pass (h : ResidentInv s) (hheap : s'.heap = s.heap) (hmade : s'.made = s.made)
    (hworkers : ∀ w, SameUse (s.workers w) (s'.workers w))
    (hsigma : ∀ w c, (s'.workers w).sigma = some c → some c ∈ s.refs)
    (hhands : ∀ c, s'.Hands c → some c ∈ s.refs) : ResidentInv s' := by
  refine h.orchestrate (fun c _ => ?_) hmade.ge hworkers fun c hc => .inl ?_
  · rw [hheap]
    exact advances_refl _ _
  · rcases Miner.mem_refs.mp hc with hold | ⟨w, hw⟩
    · exact hhands c hold
    · obtain ⟨hcurrent, hpending, hready, hpc, hinstaller⟩ := hworkers w
      rcases PropMiner.Jobs.mem_refs.mp hw with hnew | hold
      · exact hsigma w c hnew
      · rw [hcurrent, hpending, hready, hpc, hinstaller] at hold
        exact Miner.refs_of_worker (PropMiner.Jobs.mem_refs.mpr (.inr hold))

/-- One worker gets a new `sigma_`, or a new flag or target. -/
theorem ResidentInv.passTo (h : ResidentInv s) {g : GpuWorker}
    (hworkers : s'.workers = Function.update s.workers w g) (hsame : SameUse (s.workers w) g)
    (hsigma : ∀ c, g.sigma = some c → some c ∈ s.refs) (hheap : s'.heap = s.heap)
    (hmade : s'.made = s.made) (hhands : ∀ c, s'.Hands c → some c ∈ s.refs) :
    ResidentInv s' := by
  refine h.pass hheap hmade (fun w' => ?_) (fun w' c hc => ?_) hhands
  · rw [hworkers]
    by_cases heq : w' = w
    · subst heq
      rwa [Function.update_self]
    · rw [Function.update_of_ne heq]
      exact ⟨rfl, rfl, rfl, rfl, rfl⟩
  · rw [hworkers] at hc
    by_cases heq : w' = w
    · subst heq
      rw [Function.update_self] at hc
      exact hsigma c hc
    · rw [Function.update_of_ne heq] at hc
      exact Miner.refs_of_worker (PropMiner.Jobs.mem_refs.mpr (.inl hc))

/-- No worker changes. -/
theorem ResidentInv.hold (h : ResidentInv s) (hworkers : s'.workers = s.workers)
    (hheap : s'.heap = s.heap) (hmade : s'.made = s.made)
    (hhands : ∀ c, s'.Hands c → some c ∈ s.refs) : ResidentInv s' := by
  refine h.pass hheap hmade (fun w => ?_) (fun w c hc => ?_) hhands
  · rw [hworkers]
    exact ⟨rfl, rfl, rfl, rfl, rfl⟩
  · rw [hworkers] at hc
    exact Miner.refs_of_worker (PropMiner.Jobs.mem_refs.mpr (.inl hc))

theorem refs_of_sigma : ∀ c, (s.workers w).sigma = some c → some c ∈ s.refs :=
  fun _ hc => Miner.refs_of_worker (PropMiner.Jobs.mem_refs.mpr (.inl hc))

/-- The publisher may lose its job but does not pick up another one. -/
theorem Miner.refs_of_publisher (hbus : s'.bus = s.bus) (hrecovery : s'.recovery = s.recovery)
    (hjob : ∀ c, s'.publisher.job = some c → s.publisher.job = some c) (c : Ctx)
    (hc : s'.Hands c) : some c ∈ s.refs := by
  rw [Miner.Hands, hbus, hrecovery] at hc
  apply Miner.refs_of_hands
  rcases hc with hc | hc | hc
  · exact .inl hc
  · exact .inr (.inl (hjob c hc))
  · exact .inr (.inr hc)

/-- A recovery goes on, with the context it had or with that of the bus. -/
theorem Miner.refs_of_setRecovery {r : Recovery} {pc : RecoveryPc n} (hbus : s'.bus = s.bus)
    (hpub : s'.publisher = s.publisher) (hrecovery : s'.recovery = Function.update s.recovery r pc)
    (hpc : ∀ c, pc.ctx = some c → (s.recovery r).ctx = some c ∨ s.bus.ctx = some c) (c : Ctx)
    (hc : s'.Hands c) : some c ∈ s.refs := by
  rw [Miner.Hands, hbus, hpub, hrecovery] at hc
  apply Miner.refs_of_hands
  rcases hc with hc | hc | ⟨r', hr'⟩
  · exact .inl hc
  · exact .inr (.inl hc)
  · by_cases heq : r' = r
    · subst heq
      rw [Function.update_self] at hr'
      rcases hpc c hr' with hold | hnew
      · exact .inr (.inr ⟨r', hold⟩)
      · exact .inl hnew
    · rw [Function.update_of_ne heq] at hr'
      exact .inr (.inr ⟨r', hr'⟩)

theorem ResidentInv.publishJob (h : ResidentInv s) (nbits : UInt32) :
    ResidentInv (s.publishJob nbits).1 := by
  have hold : ∀ c < s.made, (s.publishJob nbits).1.heap c = s.heap c := by
    intro c hc
    exact Function.update_of_ne hc.ne ..
  have hnew : ((s.publishJob nbits).1.heap s.made).installed = false := by
    simp [Miner.publishJob]
  refine h.orchestrate (fun c hc => ?_) (Nat.le_succ _) (fun w => ⟨rfl, rfl, rfl, rfl, rfl⟩) ?_
  · rw [hold c hc]
    exact advances_refl _ _
  · intro c hc
    have hmade : c = s.made → some c ∈ s.refs ∨ c < (s.publishJob nbits).1.made ∧
        ((s.publishJob nbits).1.heap c).installed = false := by
      rintro rfl
      exact .inr ⟨Nat.lt_succ_self _, hnew⟩
    rcases Miner.mem_refs.mp hc with (hbus | hpub | hrecovery) | hw
    · exact hmade (Option.some.inj hbus).symm
    · exact hmade (Option.some.inj hpub).symm
    · exact .inl (Miner.refs_of_hands (.inr (.inr hrecovery)))
    · exact .inl (Miner.mem_refs.mpr (.inr hw))

theorem ResidentInv.publisherStep (h : ResidentInv s) {r : Miner n × List Event}
    (hstep : s.publisherStep = some r) : ResidentInv r.1 := by
  refine Miner.publisherStep_cases (P := fun r => ResidentInv r.1) hstep ?jobTarget ?jobDirty
    ?jobSigma ?jobDone ?vardiffTarget ?vardiffDirty ?vardiffDrain ?vardiffNoContext ?vardiffContext
  case jobSigma =>
    intro c nbits w todo hpub
    have hjob : s.publisher.job = some c := by rw [hpub]; rfl
    refine h.passTo rfl ⟨rfl, rfl, rfl, rfl, rfl⟩ ?_ rfl rfl ?_
    · rintro c' ⟨⟩
      exact Miner.refs_of_hands (.inr (.inl hjob))
    · exact Miner.refs_of_publisher rfl rfl (by rw [hpub]; exact fun _ => id)
  case jobTarget | jobDirty =>
    intro _ _ _ _ hpub
    refine h.passTo rfl ⟨rfl, rfl, rfl, rfl, rfl⟩ refs_of_sigma rfl rfl ?_
    exact Miner.refs_of_publisher rfl rfl (by rw [hpub]; exact fun _ => id)
  case vardiffTarget | vardiffDirty =>
    intro _ _ _ hpub
    refine h.passTo rfl ⟨rfl, rfl, rfl, rfl, rfl⟩ refs_of_sigma rfl rfl ?_
    exact Miner.refs_of_publisher rfl rfl (by rw [hpub]; exact fun _ => id)
  case jobDone | vardiffDrain | vardiffNoContext =>
    intros
    exact h.hold rfl rfl rfl (Miner.refs_of_publisher rfl rfl (by rintro _ ⟨⟩))
  case vardiffContext =>
    intro nbits c _
    -- only the target of the context changes
    refine h.orchestrate (fun c' _ => ?_) le_rfl (fun w => ⟨rfl, rfl, rfl, rfl, rfl⟩) ?_
    · by_cases hc : c' = c
      · subst hc
        simp only [Heap.modify, Function.update_self]
        exact advances_of_same rfl rfl rfl
      · simp only [Heap.modify, Function.update_of_ne hc]
        exact advances_refl _ _
    · intro c' hc'
      rcases Miner.mem_refs.mp hc' with hhands | hw
      · refine .inl (Miner.refs_of_publisher ?_ ?_ ?_ c' hhands)
        · rfl
        · rfl
        · rintro _ ⟨⟩
      · exact .inl (Miner.mem_refs.mpr (.inr hw))

theorem ctx_drainLatest {otherwise : RecoveryPc n} (hother : otherwise.ctx = none) (c : Ctx)
    (hc : (s.drainLatest otherwise).ctx = some c) : s.bus.ctx = some c := by
  unfold Miner.drainLatest at hc
  split at hc
  case h_1 hbus => rwa [hbus]
  case h_2 =>
    rw [hother] at hc
    cases hc

theorem ctx_afterSetting (r : Recovery) : (Miner.afterSetting r : RecoveryPc n).ctx = none := by
  cases r <;> rfl

theorem ResidentInv.recover (h : ResidentInv s) {r : Recovery} {q : Miner n × List Event}
    (hstep : s.recover r = some q) : ResidentInv q.1 := by
  refine Miner.recover_cases (P := fun q => ResidentInv q.1) hstep ?watchdog ?health
  case watchdog =>
    intro _
    refine h.hold rfl rfl rfl (Miner.refs_of_setRecovery rfl rfl rfl fun c hc => .inr ?_)
    exact ctx_drainLatest rfl c hc
  case health =>
    intro _
    exact h.hold rfl rfl rfl (Miner.refs_of_setRecovery rfl rfl rfl nofun)

theorem ResidentInv.recoveryStep (h : ResidentInv s) {r : Recovery} {q : Miner n × List Event}
    (hstep : s.recoveryStep r = some q) : ResidentInv q.1 := by
  refine Miner.recoveryStep_cases (P := fun q => ResidentInv q.1) hstep ?pausing ?paused ?setting
    ?set ?resuming ?resumed
  case pausing | resuming =>
    intro w todo _
    refine h.passTo rfl ⟨rfl, rfl, rfl, rfl, rfl⟩ refs_of_sigma rfl rfl ?_
    exact Miner.refs_of_setRecovery rfl rfl rfl nofun
  case paused =>
    intro _
    refine h.hold rfl rfl rfl (Miner.refs_of_setRecovery rfl rfl rfl fun c hc => .inr ?_)
    exact ctx_drainLatest (ctx_afterSetting r) c hc
  case setting =>
    intro c w todo hr
    have hctx : (s.recovery r).ctx = some c := by rw [hr]; rfl
    refine h.passTo rfl ⟨rfl, rfl, rfl, rfl, rfl⟩ ?_ rfl rfl ?_
    · rintro c' ⟨⟩
      exact Miner.refs_of_hands (.inr (.inr ⟨r, hctx⟩))
    · refine Miner.refs_of_setRecovery rfl rfl rfl fun c' hc' => .inl ?_
      cases hc'
      exact hctx
  case set =>
    intro c _
    refine h.hold rfl rfl rfl (Miner.refs_of_setRecovery rfl rfl rfl fun c hc => ?_)
    rw [ctx_afterSetting] at hc
    cases hc
  case resumed =>
    intro _
    exact h.hold rfl rfl rfl (Miner.refs_of_setRecovery rfl rfl rfl nofun)

theorem not_mem_refs_of_exclusive (hexclusive : exclusive s a) :
    ∀ c, s.frees a = some c → some c ∉ s.refs := by
  intro c hc
  simpa [exclusive, isExclusive, hc] using hexclusive

theorem ResidentInv.step (h : ResidentInv s) (hexclusive : exclusive s a)
    (hstep : s.step a = some (s', es)) : ResidentInv s' := by
  have hfreed := not_mem_refs_of_exclusive hexclusive
  -- what nothing in the miner refers to, the worker does not refer to
  have hworker : ∀ w c, s.frees a = some c → some c ∉ (s.workers w).refs :=
    fun w c hc href => hfreed c hc (Miner.refs_of_worker href)
  cases a with
  | publish nbits =>
    simp only [Miner.step] at hstep
    split_ifs at hstep
    cases hstep
    exact h.publishJob nbits
  | vardiff nbits =>
    simp only [Miner.step] at hstep
    split_ifs at hstep
    cases hstep
    exact h.hold rfl rfl rfl (Miner.refs_of_publisher rfl rfl (by rintro _ ⟨⟩))
  | publisher => exact h.publisherStep hstep
  | recover r => exact h.recover hstep
  | recovery r => exact h.recoveryStep hstep
  | setPaused w paused | setMatmulsPerPoll w mpp | stop w =>
    cases hstep
    refine h.passTo rfl ⟨rfl, rfl, rfl, rfl, rfl⟩ refs_of_sigma rfl rfl fun c hc => ?_
    exact Miner.refs_of_hands hc
  | run w x =>
    obtain ⟨r, hrun, heq⟩ := Option.map_eq_some_iff.mp hstep
    cases heq
    have hkeeps := keeps_runStep (h.workers w) (h.resident_view w) (hworker w) hrun
    exact h.update hkeeps hfreed (.inl rfl)
  | installer w x =>
    obtain ⟨r, hinstaller, heq⟩ := Option.map_eq_some_iff.mp hstep
    cases heq
    have hkeeps := keeps_installerStep (h.workers w) (h.resident_view w) (hworker w) hinstaller
    exact h.update hkeeps hfreed (.inr rfl)
  | share w =>
    obtain ⟨r, hshare, heq⟩ := Option.map_eq_some_iff.mp hstep
    cases heq
    exact h.update (keeps_shareStep (h.workers w) hshare) (by rintro _ ⟨⟩) (.inl rfl)

/-- The orchestrator's own events say nothing about sets. -/
theorem resident_of_orchestrated (h : Orchestrated s s' es) : ∀ e ∈ es, e.resident = true := by
  intro e he
  have hnone := h.events e he
  cases e with
  | installReturned w | queued w => exact absurd (hnone w) (by simp [Event.ofWorker])
  | _ => rfl

theorem ResidentInv.events (h : ResidentInv s) (hexclusive : exclusive s a)
    (hstep : s.step a = some (s', es)) : ∀ e ∈ es, e.resident = true := by
  have hworker : ∀ w c, s.frees a = some c → some c ∉ (s.workers w).refs :=
    fun w c hc href => not_mem_refs_of_exclusive hexclusive c hc (Miner.refs_of_worker href)
  refine step_cases (P := fun r => ∀ e ∈ r.2, e.resident = true) hstep ?orchestrator ?run
    ?installer ?share
  case orchestrator =>
    intro _ horchestrated
    exact resident_of_orchestrated horchestrated
  case run =>
    rintro w x q rfl hrun
    exact (keeps_runStep (h.workers w) (h.resident_view w) (hworker w) hrun).events
  case installer =>
    rintro w x q rfl hinstaller
    exact (keeps_installerStep (h.workers w) (h.resident_view w) (hworker w) hinstaller).events
  case share =>
    rintro w q rfl hshare
    exact (keeps_shareStep (h.workers w) hshare).events

theorem residentInv_start (cfg : Fin n → Config) (mpp : Fin n → ℕ) :
    ResidentInv (Miner.start cfg mpp) := by
  have hnone : ∀ c, some c ∉ (Miner.start cfg mpp).refs := by
    intro c hc
    rcases Miner.mem_refs.mp hc with (hbus | hpub | ⟨r, hr⟩) | ⟨w, hw⟩
    · cases hbus
    · cases hpub
    · cases hr
    · revert hw
      simp [GpuWorker.refs, Miner.start, RunPc.hand, InstallerPc.hand]
  refine ⟨fun w => ?_, fun c hc => absurd hc (hnone c), fun c hc => absurd hc (hnone c)⟩
  refine ⟨fun c hc => ?_, nofun, nofun, nofun⟩
  exact absurd (Miner.refs_of_worker (refs_of_uses hc)) (hnone c)

end Steps

/-- Along every exclusive run, each batch is queued with the set of its job allocated, and
`install` returns only with the set allocated. -/
theorem resident_of_exclusive {cfg : Fin n → Config} {mpp : Fin n → ℕ} {tr : List Event}
    {s : Miner n} (hrun : (machine n).Run exclusive (Miner.start cfg mpp) tr s) :
    ∀ e ∈ tr, e.resident = true := by
  have hinv : ResidentInv s ∧ ∀ e ∈ tr, e.resident = true := by
    refine hrun.invariant (I := fun tr s => ResidentInv s ∧ ∀ e ∈ tr, e.resident = true)
      ⟨residentInv_start cfg mpp, nofun⟩ ?_
    rintro tr s a s' es ⟨hinv, htr⟩ hexclusive hstep
    refine ⟨hinv.step hexclusive hstep, fun e he => ?_⟩
    rcases List.mem_append.mp he with hold | hnew
    · exact htr e hold
    · exact hinv.events hexclusive hstep e hnew
  exact hinv.2

/-- The second job is ready when the third comes: its set is freed, nothing refers to it,
and the third job is installed in the background and mined. -/
def staleReadyRun : List (Input 1) :=
  let job : List (Input 1) := .publish 1 :: List.replicate 4 .publisher
  let background : List (Input 1) := List.replicate 6 (.installer 0 .ok)
  job ++ List.replicate 15 (.run 0 .ok) ++ job ++ List.replicate 4 (.run 0 .ok) ++ background ++
    job ++ List.replicate 7 (.run 0 .ok) ++ [.run 0 (.headers []), .run 0 .ok] ++
      List.replicate 4 (.run 0 .ok) ++ background ++ List.replicate 11 (.run 0 .ok)

theorem resident_of_staleReady :
    ∃ tr s, (machine 1).Run exclusive
        (Miner.start (fun _ => { asyncJobInstall := true }) fun _ => 1) tr s ∧
      (s.workers 0).currentSigma = some 2 ∧ (s.heap 1).installed = true ∧
        (s.heap 1).allocated = false ∧ ∀ e ∈ tr, e.resident = true := by
  have hexec : (machine 1).exec exclusive staleReadyRun
    (Miner.start (fun _ => { asyncJobInstall := true }) fun _ => 1) = some (_, _) := rfl
  have hrun := Machine.run_of_exec hexec
  exact ⟨_, _, hrun, rfl, rfl, rfl, resident_of_exclusive hrun⟩

/-- The second worker has read the second job from `sigma_` and not installed it yet. The
first worker installs it in the background, finds it stale and frees its set. -/
def sharedRun : List (Input 2) :=
  let job : List (Input 2) := .publish 1 :: List.replicate 7 .publisher
  job ++ List.replicate 15 (.run 0 .ok) ++ job ++ List.replicate 4 (.run 0 .ok) ++
    List.replicate 2 (.run 1 .ok) ++ List.replicate 6 (.installer 0 .ok) ++ job ++
      List.replicate 3 (.run 0 .ok) ++ List.replicate 11 (.run 1 .ok)

-- evaluating a run of two workers nests deeper than the default allows
set_option maxRecDepth 2000

theorem resident_fails :
    ∃ tr s, (machine 2).Run Machine.anyStep
        (Miner.start (fun _ => { asyncJobInstall := true }) fun _ => 1) tr s ∧
      .installReturned 1 1 false ∈ tr ∧ .queued 1 .ping 1 false 0 1 ∈ tr ∧
        ¬ ∀ e ∈ tr, e.resident = true := by
  have hexec : (machine 2).exec Machine.anyStep sharedRun
    (Miner.start (fun _ => { asyncJobInstall := true }) fun _ => 1) = some (_, _) := rfl
  refine ⟨_, _, Machine.run_of_exec hexec, by decide, by decide, fun hres => ?_⟩
  exact absurd (hres (.installReturned 1 1 false) (by decide)) (by decide)

end PropMiner.Jobs
