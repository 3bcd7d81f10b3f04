import PropMiner.Jobs.Frames

/-!
# The flag behind the share target

An update stores `target_nbits_` of a worker and then raises `target_dirty_`; the run
loop lowers the flag and uploads the target to its halves. An install or a swap binds the
target of the new job to every half and lowers the flag too.

Here is what a step of `run` does to targets and flag, and the invariant behind it: as
long as the flag is down, every half has the target of the worker. It needs that an
install binds the target of the worker, and nothing else.

## Main definitions

* `TargetMove` — what one step of `run` does to the targets
* `TargetInv` — the invariant behind the flag
* `Still` — the flag is down and every half has the target

## Main results

* `targetMove_runStep` — every step of `run` is such a move
* `TargetInv.move`, `Still.move` — moves keep the invariant
-/

set_option autoImplicit false

namespace PropMiner.Jobs

/-- An install or a swap has read the target of its first half and not yet lowered the
flag. -/
def RunPc.binding : RunPc → Bool
  | .install _ bound _ _ | .bind .read _ bound _ _ => !bound.isEmpty
  | .bind .. | .clearDirty _ => true
  | _ => false

/-- The target that is about to be bound is that of the worker. -/
def View.agrees (v : View) : Bool :=
  match v.worker.pc, v.worker.currentSigma with
  | .bind .read .., some c =>
      (v.heap c).targetNbits = 0 || (v.heap c).targetNbits = v.worker.targetNbits
  | _, _ => true

/-! ### What a step of `run` does to the targets -/

namespace RunPc

/-- The halves an install or a swap has still to bind. -/
def rest : RunPc → Option (List HalfId)
  | .install _ _ h todo | .bind _ _ _ h todo => some (h :: todo)
  | .clearDirty _ => some []
  | _ => none

/-- The target that is being bound. -/
def nbits : RunPc → Option UInt32
  | .bind (.test nbits) .. | .bind (.store nbits) .. | .bind (.upload nbits) .. => some nbits
  | _ => none

/-- The flag was lowered and the upload is still to come. -/
def uploading : RunPc → Bool
  | .loadTarget | .upload _ => true
  | _ => false

/-- The round is past the test of the flag. -/
def late : RunPc → Bool
  | .loadTarget | .upload _ | .mine | .complete _ | .trigger .. => true
  | _ => false

/-- Nothing is bound or uploaded here. -/
def plain (pc : RunPc) : Bool := pc.rest.isNone && !pc.uploading

theorem nbits_of_rest {pc : RunPc} (h : pc.rest = none) : pc.nbits = none := by
  cases pc <;> first | rfl | cases h

theorem late_of_rest {pc : RunPc} {rest : List HalfId} (h : pc.rest = some rest) :
    pc.late = false ∧ pc.uploading = false := by
  cases pc <;> first | exact ⟨rfl, rfl⟩ | cases h

theorem binding_of_nbits {pc : RunPc} {nbits : UInt32} (h : pc.nbits = some nbits) :
    pc.binding = true := by
  cases pc with
  | bind pc => cases pc <;> first | rfl | cases h
  | _ => cases h

end RunPc

/-- The pointers of `run` are the two halves, in some order. -/
def GpuWorker.Pointers (g : GpuWorker) : Prop :=
  g.ping = .ping ∧ g.pong = .pong ∨ g.ping = .pong ∧ g.pong = .ping

/-- The same targets everywhere. -/
structure SameTargets (g g' : GpuWorker) : Prop where
  cfg : g'.cfg = g.cfg
  target : g'.targetNbits = g.targetNbits
  pow : ∀ h, (g'.half h).powTargetNbits = (g.half h).powTargetNbits
  pointers : g.Pointers → g'.Pointers

/-- The same targets, the same flag, and `run` has not moved. -/
structure Untouched (g g' : GpuWorker) : Prop extends SameTargets g g' where
  dirty : g'.targetDirty = g.targetDirty
  pc : g'.pc = g.pc

/-- What one step of `run` does to the targets of its worker, and to the flag. -/
inductive TargetMove (g g' : GpuWorker) : Prop
  | elsewhere (hsame : SameTargets g g') (hdirty : g'.targetDirty = g.targetDirty)
      (hfrom : g.pc.uploading = false ∨ g'.pc = .ended) (hrunning : g.pc ≠ .ended)
      (hto : g'.pc.plain = true)
      (hlate : g'.pc.late = true → g.pc.late = true ∨ g.targetDirty = false)
  | start {rest : List HalfId} (hsame : SameTargets g g')
      (hdirty : g'.targetDirty = g.targetDirty) (hfrom : g.pc.plain = true)
      (hrunning : g.pc ≠ .ended) (hrest : g'.pc.rest = some rest)
      (hall : g.Pointers → ∀ h ∈ g.halves, h ∈ rest) (hnbits : g'.pc.nbits = none)
  | install {rest : List HalfId} (hsame : SameTargets g g')
      (hdirty : g'.targetDirty = g.targetDirty) (hrest : g.pc.rest = some rest)
      (hrest' : g'.pc.rest = some rest) (hbinding : g'.pc.binding = g.pc.binding)
      (hnbits : g'.pc.nbits = none)
  | read {rest : List HalfId} (hsame : SameTargets g g')
      (hdirty : g'.targetDirty = g.targetDirty) (hrest : g.pc.rest = some rest)
      (hrest' : g'.pc.rest = some rest) (hbinding : g'.pc.binding = true)
      (hnbits : g'.pc.nbits = some g.targetNbits)
  | store {rest : List HalfId} {nbits : UInt32}
      (hsame : SameTargets { g with targetNbits := g'.targetNbits } g')
      (htarget : g'.targetNbits = g.targetNbits ∨ g'.targetNbits = nbits)
      (hdirty : g'.targetDirty = g.targetDirty) (hrest : g.pc.rest = some rest)
      (hrest' : g'.pc.rest = some rest) (hbinding : g'.pc.binding = true)
      (hnbits : g.pc.nbits = some nbits) (hnbits' : g'.pc.nbits = some nbits)
  | bind {h : HalfId} {todo : List HalfId} {nbits : UInt32}
      (hsame : SameTargets (g.uploadPowTarget h nbits) g')
      (hdirty : g'.targetDirty = g.targetDirty) (hrest : g.pc.rest = some (h :: todo))
      (hrest' : g'.pc.rest = some todo) (hbinding : g'.pc.binding = true)
      (hnbits : g.pc.nbits = some nbits) (hnbits' : g'.pc.nbits = none)
  | abandon {h : HalfId} {nbits : UInt32} (hsame : SameTargets (g.uploadPowTarget h nbits) g')
      (hdirty : g'.targetDirty = g.targetDirty) (hnbits : g.pc.nbits = some nbits)
      (hto : g'.pc.plain = true) (hlate : g'.pc.late = false)
  | clear (hsame : SameTargets g g') (hrest : g.pc.rest = some [])
      (hdirty : g'.targetDirty = false) (hto : g'.pc.plain = true)
  | exchange (hsame : SameTargets g g') (hdirty : g.targetDirty = true)
      (hdirty' : g'.targetDirty = false) (hto : g'.pc = .loadTarget)
  | load (hsame : SameTargets g g') (hdirty : g'.targetDirty = g.targetDirty)
      (hfrom : g.pc = .loadTarget) (hto : g'.pc = .upload g.targetNbits)
  | upload {nbits : UInt32} (hsame : SameTargets (g.uploadPowTargetAllHalves nbits) g')
      (hdirty : g'.targetDirty = g.targetDirty) (hfrom : g.pc = .upload nbits)
      (hto : g'.pc = .mine)

/-- Events that tell of the target or of the rounds of worker `w`. -/
def Event.tellsOf (w : ℕ) : Event → Bool
  | .targetSet w' _ | .loopBegin w' | .loopEnd w' => w' = w
  | _ => false

section Moves

variable {w : ℕ} {v : View} {a : Answer} {r : View × List Event} {g g' : GpuWorker}

theorem sameTargets_of_eq (hcfg : g'.cfg = g.cfg) (htarget : g'.targetNbits = g.targetNbits)
    (hhalf : g'.half = g.half) (hping : g'.ping = g.ping) (hpong : g'.pong = g.pong) :
    SameTargets g g' where
  cfg := hcfg
  target := htarget
  pow h := by rw [hhalf]
  pointers := by
    unfold GpuWorker.Pointers
    rw [hping, hpong]
    exact id

theorem pointers_swap (h : g.Pointers) (hping : g'.ping = g.pong) (hpong : g'.pong = g.ping) :
    g'.Pointers := by
  unfold GpuWorker.Pointers at h ⊢
  rw [hping, hpong]
  exact h.symm.imp And.symm And.symm

/-- A change to a half that leaves its target alone. -/
theorem pow_setHalf {f : Half → Half} (hf : ∀ x, (f x).powTargetNbits = x.powTargetNbits)
    (h h' : HalfId) : ((g.setHalf h f).half h').powTargetNbits = (g.half h').powTargetNbits := by
  unfold GpuWorker.setHalf
  by_cases heq : h' = h
  · subst heq
    simp [hf]
  · simp [heq]

/-- A step between plain lines that leaves targets and flag alone. -/
theorem targetMove_plain {p : RunPc} (hpc : g.pc = p) (hsame : SameTargets g g')
    (hdirty : g'.targetDirty = g.targetDirty) (hto : g'.pc.plain = true)
    (hlate : g'.pc.late = true → p.late = true ∨ g.targetDirty = false)
    (hfrom : p.uploading = false) (hrunning : p ≠ .ended) :
    TargetMove g g' := by
  subst hpc
  exact .elsewhere hsame hdirty (.inl hfrom) hrunning hto hlate

theorem sameTargets_goto (pc : RunPc) : SameTargets v.worker (v.goto pc).worker :=
  sameTargets_of_eq rfl rfl rfl rfl rfl

/-- `run` is over. -/
theorem targetMove_exit (hrunning : v.worker.pc ≠ .ended) :
    TargetMove v.worker v.exit.worker :=
  .elsewhere (sameTargets_of_eq rfl rfl rfl rfl rfl) rfl (.inr rfl) hrunning rfl nofun

theorem targetMove_giveUp (hfrom : v.worker.pc.uploading = false)
    (hrunning : v.worker.pc ≠ .ended) : TargetMove v.worker (v.giveUp w).1.worker :=
  .elsewhere (sameTargets_of_eq rfl rfl rfl rfl rfl) rfl (.inl hfrom) hrunning rfl nofun

theorem targetMove_readSigma (hpc : v.worker.pc = .readSigma) :
    TargetMove v.worker v.readSigma.worker := by
  have hgoto : ∀ pc : RunPc, pc.plain = true → pc.late = false →
      TargetMove v.worker (v.goto pc).worker := by
    intro pc hplain hlate
    refine targetMove_plain hpc (sameTargets_goto pc) rfl hplain (fun h => ?_) rfl nofun
    exact absurd h (by simp [View.goto, hlate])
  unfold View.readSigma
  dsimp only
  split
  · split_ifs
    all_goals exact hgoto _ rfl rfl
  · split_ifs
    all_goals exact hgoto _ rfl rfl

theorem targetMove_rotate {new : Ctx} {swap : Bool} (hpc : v.worker.pc = .drain new swap)
    (hstep : v.rotate w new swap = some r) : TargetMove v.worker r.1.worker := by
  unfold View.rotate at hstep
  dsimp only at hstep
  split_ifs at hstep
  obtain rfl := Option.some.inj hstep
  let rest := v.worker.ping ::
    if v.worker.cfg.tripleBufferActive then [v.worker.pong, .third] else [v.worker.pong]
  have hrest : (View.startHalves v.worker swap).rest = some rest := by cases swap <;> rfl
  refine TargetMove.start (sameTargets_of_eq rfl rfl rfl rfl rfl) rfl ?_ ?_ hrest ?_ ?_
  · rw [hpc]; rfl
  · rw [hpc]; nofun
  · -- the two pointers and the third half are all there is
    intro hpointers h hh
    unfold GpuWorker.halves at hh
    simp only [rest]
    rcases hpointers with ⟨hping, hpong⟩ | ⟨hping, hpong⟩
    all_goals
      rw [hping, hpong]
      split_ifs at hh ⊢
      all_goals
        simp only [List.mem_cons, List.not_mem_nil, or_false] at hh ⊢
        tauto
  · cases swap <;> rfl

theorem targetMove_installCurrent {c : Ctx} {pc : InstallPc} {bound todo : List HalfId}
    {h : HalfId} (hpc : v.worker.pc = .install pc bound h todo)
    (hstep : v.installCurrent w c pc a bound h todo = some r) :
    TargetMove v.worker r.1.worker := by
  obtain ⟨⟨x, result⟩, -, rfl⟩ := Option.map_eq_some_iff.mp hstep
  have hrest : v.worker.pc.rest = some (h :: todo) := by rw [hpc]; rfl
  have hbinding : v.worker.pc.binding = !bound.isEmpty := by rw [hpc]; rfl
  cases result with
  | inside pc =>
    exact .install (sameTargets_of_eq rfl rfl rfl rfl rfl) rfl hrest rfl hbinding.symm rfl
  | returned =>
    exact .install (sameTargets_of_eq rfl rfl rfl rfl rfl) rfl hrest rfl hbinding.symm rfl
  | threw =>
    refine targetMove_plain hpc (sameTargets_of_eq rfl rfl rfl rfl rfl) rfl rfl ?_ rfl nofun
    nofun

theorem rest_nextHalf (swap : Bool) (bound : List HalfId) (h : HalfId) (todo : List HalfId) :
    (View.nextHalf swap bound h todo).rest = some todo ∧
      (View.nextHalf swap bound h todo).binding = true ∧
      (View.nextHalf swap bound h todo).nbits = none := by
  cases todo with
  | nil => exact ⟨rfl, rfl, rfl⟩
  | cons next todo => cases swap <;> exact ⟨rfl, by simp [View.nextHalf, RunPc.binding], rfl⟩

theorem targetMove_bindHalf {c : Ctx} {pc : BindPc} {swap : Bool} {bound todo : List HalfId}
    {h : HalfId} (hpc : v.worker.pc = .bind pc swap bound h todo)
    (hsigma : v.worker.currentSigma = some c) (hagrees : v.agrees = true)
    (hstep : v.bindHalf w c swap bound h todo pc a = some r) :
    TargetMove v.worker r.1.worker := by
  have hrest : v.worker.pc.rest = some (h :: todo) := by rw [hpc]; rfl
  unfold View.bindHalf at hstep
  split at hstep
  case h_1 =>
    obtain rfl := Option.some.inj hstep
    refine .read (sameTargets_goto _) rfl hrest rfl rfl ?_
    -- the target of the job is 0 or that of the worker
    simp only [View.agrees, hpc, hsigma, Bool.or_eq_true, decide_eq_true_eq] at hagrees
    simp only [View.goto, RunPc.nbits, Option.some.injEq]
    split_ifs with hzero
    · rfl
    · exact hagrees.resolve_left hzero
  case h_2 nbits =>
    obtain rfl := Option.some.inj hstep
    have hnbits : v.worker.pc.nbits = some nbits := by rw [hpc]; rfl
    refine .store (sameTargets_goto _) (.inl rfl) rfl hrest rfl ?_ hnbits ?_
    · dsimp only [View.goto]
      split_ifs <;> rfl
    · dsimp only [View.goto]
      split_ifs <;> rfl
  case h_3 nbits =>
    obtain rfl := Option.some.inj hstep
    have hnbits : v.worker.pc.nbits = some nbits := by rw [hpc]; rfl
    exact .store (sameTargets_of_eq rfl rfl rfl rfl rfl) (.inr rfl) rfl hrest rfl rfl hnbits rfl
  case h_4 nbits =>
    obtain rfl := Option.some.inj hstep
    have hnbits : v.worker.pc.nbits = some nbits := by rw [hpc]; rfl
    obtain ⟨hrest', hbinding, hnbits'⟩ := rest_nextHalf swap bound h todo
    exact .bind (sameTargets_of_eq rfl rfl rfl rfl rfl) rfl hrest hrest' hbinding hnbits hnbits'
  case h_5 =>
    obtain rfl := Option.some.inj hstep
    cases swap with
    | false => exact targetMove_giveUp (by rw [hpc]; rfl) (by rw [hpc]; nofun)
    | true => exact targetMove_exit (by rw [hpc]; nofun)
  case h_6 nbits far =>
    obtain rfl := Option.some.inj hstep
    have hnbits : v.worker.pc.nbits = some nbits := by rw [hpc]; rfl
    cases far with
    | false =>
      cases swap with
      | false => exact targetMove_giveUp (by rw [hpc]; rfl) (by rw [hpc]; nofun)
      | true => exact targetMove_exit (by rw [hpc]; nofun)
    | true =>
      cases swap with
      | false => exact .abandon (sameTargets_of_eq rfl rfl rfl rfl rfl) rfl hnbits rfl rfl
      | true => exact .abandon (sameTargets_of_eq rfl rfl rfl rfl rfl) rfl hnbits rfl rfl
  case h_7 => cases hstep

theorem sameTargets_queueBatch (h : HalfId) :
    SameTargets g (View.queueBatch g h) where
  cfg := rfl
  target := rfl
  pow := pow_setHalf (f := Half.beginBatch _) (fun _ => rfl) h
  pointers := id

theorem sameTargets_launchTriple (g : GpuWorker) (warmup : ℕ) (pc : RunPc) :
    SameTargets (View.queueBatch g (View.ring (View.launchIndex g)))
      (View.launchTriple g warmup pc) := by
  unfold View.launchTriple View.queueBatch GpuWorker.setHalf
  exact sameTargets_of_eq rfl rfl rfl rfl rfl

theorem targetMove_mine (hpc : v.worker.pc = .mine) (hstep : v.mine w = some r) :
    TargetMove v.worker r.1.worker := by
  have hexit : TargetMove v.worker v.exit.worker := targetMove_exit (by rw [hpc]; nofun)
  -- queueing a batch touches no target
  have hqueue : ∀ (h : HalfId) (g' : GpuWorker),
      SameTargets (View.queueBatch v.worker h) g' → g'.targetDirty = v.worker.targetDirty →
      g'.pc.plain = true → TargetMove v.worker g' := by
    intro h g' hsame hdirty hplain
    obtain ⟨hcfg, htarget, hpow, hpointers⟩ := sameTargets_queueBatch (g := v.worker) h
    refine targetMove_plain hpc ⟨hsame.cfg, hsame.target, fun x => ?_, hsame.pointers⟩ hdirty
      hplain (fun _ => .inl rfl) rfl nofun
    rw [hsame.pow, hpow]
  refine View.mine_cases (P := fun r => TargetMove v.worker r.1.worker) hstep ?idle
    (fun _ => hexit) ?tripleWarmup ?triple ?firstPing ?pingPong
  case idle =>
    intro _
    exact targetMove_plain hpc (sameTargets_goto _) rfl rfl nofun rfl nofun
  case tripleWarmup | triple =>
    intros
    exact hqueue _ _ (sameTargets_launchTriple ..) rfl rfl
  case pingPong =>
    intros
    exact hqueue _ _ (sameTargets_of_eq rfl rfl rfl rfl rfl) rfl rfl
  case firstPing =>
    intros
    refine hqueue v.worker.ping _ ⟨rfl, rfl, fun _ => rfl, fun hp => ?_⟩ rfl rfl
    exact pointers_swap hp rfl rfl

theorem targetMove_trigger {c : Ctx} {h : HalfId} {k : ℕ} {winners : List ℕ}
    (hpc : v.worker.pc = .trigger h (k :: winners)) :
    TargetMove v.worker (v.trigger w c h k winners).1.worker := by
  unfold View.trigger
  dsimp only
  split_ifs
  · refine targetMove_plain hpc ⟨rfl, rfl, ?_, id⟩ rfl rfl (fun _ => .inl rfl) rfl nofun
    exact pow_setHalf (f := Half.addShareJob) (fun _ => rfl) h
  · exact targetMove_plain hpc (sameTargets_goto _) rfl rfl (fun _ => .inl rfl) rfl nofun

theorem untouched_of_eq (hsame : SameTargets g g') (hdirty : g'.targetDirty = g.targetDirty)
    (hpc : g'.pc = g.pc) : Untouched g g' := ⟨hsame, hdirty, hpc⟩

/-- The installer has nothing to do with targets. -/
theorem untouched_installerStep (hstep : installerStep w v a = some r) :
    Untouched v.worker r.1.worker ∧ ∀ e ∈ r.2, e.tellsOf w = false := by
  refine installerStep_cases
    (P := fun r => Untouched v.worker r.1.worker ∧ ∀ e ∈ r.2, e.tellsOf w = false) hstep ?wait
    ?guard ?refused ?install ?publish ?supersede ?markFailed
  case install =>
    intro pc c _ hinstall
    obtain ⟨⟨x, result⟩, -, rfl⟩ := Option.map_eq_some_iff.mp hinstall
    cases result with
    | returned =>
      refine ⟨untouched_of_eq (sameTargets_of_eq rfl rfl rfl rfl rfl) rfl rfl, ?_⟩
      simp [Event.tellsOf]
    | _ => exact ⟨untouched_of_eq (sameTargets_of_eq rfl rfl rfl rfl rfl) rfl rfl, nofun⟩
  all_goals
    intros
    exact ⟨untouched_of_eq (sameTargets_of_eq rfl rfl rfl rfl rfl) rfl rfl, nofun⟩

/-- Neither has the share thread. -/
theorem untouched_shareStep (hstep : shareStep w v = some r) :
    Untouched v.worker r.1.worker ∧ ∀ e ∈ r.2, e.tellsOf w = false := by
  unfold shareStep at hstep
  dsimp only at hstep
  split at hstep
  · cases hstep
  · obtain rfl := Option.some.inj hstep
    exact ⟨untouched_of_eq (sameTargets_of_eq rfl rfl rfl rfl rfl) rfl rfl, nofun⟩
  · obtain rfl := Option.some.inj hstep
    refine ⟨untouched_of_eq ⟨rfl, rfl, ?_, id⟩ rfl rfl, by simp [Event.tellsOf]⟩
    exact pow_setHalf (f := Half.shareJobDone) (fun _ => rfl) _

/-- A round begins at the top and ends after the test of the flag. -/
structure Rounds (w : ℕ) (v : View) (r : View × List Event) : Prop where
  begins : .loopBegin w ∈ r.2 → v.worker.pc = .top ∧ r.1.worker.pc.late = false
  ends : .loopEnd w ∈ r.2 → v.worker.pc.late = true ∧ r.1.worker.pc = .top

theorem rounds_nil (v v' : View) : Rounds w v (v', []) :=
  ⟨fun h => absurd h List.not_mem_nil, fun h => absurd h List.not_mem_nil⟩

theorem rounds_mine (hpc : v.worker.pc = .mine) (hstep : v.mine w = some r) : Rounds w v r := by
  have hlate : v.worker.pc.late = true := by rw [hpc]; rfl
  refine View.mine_cases hstep ?idle ?exit ?tripleWarmup ?triple ?firstPing ?pingPong
  case exit =>
    intro _
    exact rounds_nil _ _
  case triple | pingPong =>
    intros
    exact ⟨by simp [View.queuedEvent], by simp [View.queuedEvent]⟩
  all_goals
    intros
    exact ⟨by simp [View.queuedEvent], fun _ => ⟨hlate, rfl⟩⟩

theorem rounds_runStep (hstep : runStep w v a = some r) : Rounds w v r := by
  refine runStep_cases hstep ?top ?readSigma ?asyncFailed ?submitInstall ?drain ?install ?bind
    ?clearDirty ?takeReady ?want ?freeStale ?testDirty ?loadTarget ?upload ?mine ?complete
    ?trigger ?endRound ?exit
  case top =>
    intro hpc
    unfold View.runTop
    split_ifs
    · exact rounds_nil _ _
    · exact rounds_nil _ _
    · exact ⟨fun _ => ⟨hpc, rfl⟩, by simp⟩
  case drain =>
    intro new swap _ hrotate
    unfold View.rotate at hrotate
    dsimp only at hrotate
    split_ifs at hrotate
    obtain rfl := Option.some.inj hrotate
    exact ⟨by simp, by simp⟩
  case install =>
    intro pc bound half todo c _ _ hinstall
    obtain ⟨⟨x, result⟩, -, rfl⟩ := Option.map_eq_some_iff.mp hinstall
    cases result <;> exact ⟨by simp [View.giveUp], by simp [View.giveUp]⟩
  case bind =>
    intro pc swap bound half todo c _ _ hbind
    unfold View.bindHalf at hbind
    split at hbind
    case h_5 | h_6 =>
      obtain rfl := Option.some.inj hbind
      cases swap
      · exact ⟨by simp [View.bindThrows, View.giveUp], by simp [View.bindThrows, View.giveUp]⟩
      · exact rounds_nil _ _
    all_goals cases hbind
    all_goals exact rounds_nil _ _
  case mine =>
    intro hpc hmine
    exact rounds_mine hpc hmine
  case complete =>
    intro half hits _ _
    exact ⟨by simp [View.scan], by simp [View.scan]⟩
  case trigger =>
    intro half k winners c _ _ _
    unfold View.trigger
    dsimp only
    split_ifs <;> exact ⟨by simp, by simp⟩
  case endRound =>
    intro half hpc
    have hlate : v.worker.pc.late = true := by rw [hpc]; rfl
    unfold View.endRound
    dsimp only
    split_ifs <;> exact ⟨by simp, fun _ => ⟨hlate, rfl⟩⟩
  all_goals
    intros
    exact rounds_nil _ _

/-- What a step of `run` does to the targets. -/
theorem targetMove_runStep (hagrees : v.agrees = true) (hstep : runStep w v a = some r) :
    TargetMove v.worker r.1.worker := by
  refine runStep_cases (P := fun r => TargetMove v.worker r.1.worker) hstep ?top ?readSigma
    ?asyncFailed ?submitInstall ?drain ?install ?bind ?clearDirty ?takeReady ?want ?freeStale
    ?testDirty ?loadTarget ?upload ?mine ?complete ?trigger ?endRound ?exit
  case top =>
    intro hpc
    unfold View.runTop
    split_ifs
    · exact targetMove_exit (by rw [hpc]; nofun)
    · refine targetMove_plain hpc (sameTargets_of_eq rfl rfl rfl rfl rfl) rfl ?_ ?_ rfl nofun
      · rw [hpc]; rfl
      · rw [hpc]; nofun
    · exact targetMove_plain hpc (sameTargets_goto _) rfl rfl nofun rfl nofun
  case readSigma =>
    intro hpc
    exact targetMove_readSigma hpc
  case asyncFailed =>
    intro new hpc
    unfold View.askFailed
    split_ifs
    all_goals
      exact targetMove_plain hpc (sameTargets_of_eq rfl rfl rfl rfl rfl) rfl rfl nofun rfl nofun
  case submitInstall =>
    intro new hpc
    unfold View.submitAsyncInstall
    split_ifs
    all_goals
      exact targetMove_plain hpc (sameTargets_of_eq rfl rfl rfl rfl rfl) rfl rfl nofun rfl nofun
  case drain =>
    intro new swap hpc hrotate
    exact targetMove_rotate hpc hrotate
  case install =>
    intro pc bound half todo c hpc _ hinstall
    exact targetMove_installCurrent hpc hinstall
  case bind =>
    intro pc swap bound half todo c hpc hsigma hbind
    exact targetMove_bindHalf hpc hsigma hagrees hbind
  case clearDirty =>
    intro swap hpc
    refine .clear (sameTargets_of_eq rfl rfl rfl rfl rfl) (by rw [hpc]; rfl) rfl ?_
    cases swap <;> rfl
  case takeReady =>
    intro hpc
    unfold View.takeAsyncReady
    split
    all_goals
      exact targetMove_plain hpc (sameTargets_of_eq rfl rfl rfl rfl rfl) rfl rfl nofun rfl nofun
  case want =>
    intro ready hpc
    unfold View.readWant
    dsimp only
    split_ifs
    all_goals exact targetMove_plain hpc (sameTargets_goto _) rfl rfl nofun rfl nofun
  case freeStale =>
    intro ready hpc
    exact targetMove_plain hpc (sameTargets_of_eq rfl rfl rfl rfl rfl) rfl rfl nofun rfl nofun
  case testDirty =>
    intro hpc
    unfold View.testDirty
    split_ifs with hdirty
    · exact .exchange (sameTargets_of_eq rfl rfl rfl rfl rfl) hdirty rfl rfl
    · refine targetMove_plain hpc (sameTargets_goto _) rfl rfl (fun _ => .inr ?_) rfl nofun
      simpa using hdirty
  case loadTarget =>
    intro hpc
    exact .load (sameTargets_goto _) rfl hpc rfl
  case upload =>
    intro nbits hpc _
    refine .upload (sameTargets_of_eq rfl rfl rfl rfl rfl) ?_ hpc rfl
    unfold GpuWorker.uploadPowTargetAllHalves GpuWorker.halves
    split <;> rfl
  case mine =>
    intro hpc hmine
    exact targetMove_mine hpc hmine
  case complete =>
    intro half hits hpc _
    exact targetMove_plain hpc (sameTargets_goto _) rfl rfl (fun _ => .inl rfl) rfl nofun
  case trigger =>
    intro half k winners c hpc _ _
    exact targetMove_trigger hpc
  case endRound =>
    intro half hpc
    unfold View.endRound
    dsimp only
    split_ifs
    · exact targetMove_plain hpc (sameTargets_goto _) rfl rfl nofun rfl nofun
    · refine targetMove_plain hpc ⟨rfl, rfl, fun _ => rfl, fun hp => ?_⟩ rfl rfl nofun rfl nofun
      exact pointers_swap hp rfl rfl
  case exit =>
    intro _ _ hbreaks
    refine targetMove_exit fun hended => ?_
    rw [hended] at hbreaks
    cases hbreaks

end Moves

/-! ### The invariant behind the flag -/

/-- While the flag is down and no update of this worker is half done (`mid`), every half
has the worker's target; during an install this is so for the halves that are bound. -/
structure TargetInv (mid : Bool) (g : GpuWorker) : Prop where
  pointers : g.Pointers
  uploaded : g.targetDirty = false → mid = false → g.targetNbits ≠ 0 → g.pc.uploading = false →
    g.pc ≠ .ended → ∀ h ∈ g.halves, (g.half h).powTargetNbits = g.targetNbits
  loaded : ∀ nbits, g.pc = .upload nbits → g.targetDirty = false → mid = false →
    nbits = g.targetNbits
  bound : ∀ rest, g.pc.rest = some rest → g.targetNbits ≠ 0 → ∀ h ∈ g.halves, h ∉ rest →
    (g.half h).powTargetNbits = g.targetNbits
  fresh : g.pc.binding = false → ∀ rest, g.pc.rest = some rest → ∀ h ∈ g.halves, h ∈ rest
  nbits : ∀ nbits, g.pc.nbits = some nbits → nbits = g.targetNbits

section Invariant

variable {mid : Bool} {g g' : GpuWorker}

theorem SameTargets.halves (h : SameTargets g g') : g'.halves = g.halves := by
  rw [GpuWorker.halves, GpuWorker.halves, h.cfg]

theorem RunPc.plain_iff {pc : RunPc} :
    pc.plain = true ↔ pc.rest = none ∧ pc.uploading = false := by
  simp [RunPc.plain]

theorem ne_ended_of_rest {pc : RunPc} {rest : List HalfId} (h : pc.rest = some rest) :
    pc ≠ .ended := by
  rintro rfl
  cases h

theorem pow_uploadPowTarget_self (h : HalfId) {nbits : UInt32} (hnbits : nbits ≠ 0) :
    ((g.uploadPowTarget h nbits).half h).powTargetNbits = nbits := by
  simp [GpuWorker.uploadPowTarget, GpuWorker.setHalf, Half.uploadPowTarget, hnbits]

theorem pow_uploadPowTarget_of_ne {h h' : HalfId} (hne : h' ≠ h) (nbits : UInt32) :
    ((g.uploadPowTarget h nbits).half h').powTargetNbits = (g.half h').powTargetNbits := by
  simp [GpuWorker.uploadPowTarget, GpuWorker.setHalf, hne]

/-- Uploading the target that a half has already changes nothing. -/
theorem pow_uploadPowTarget {h h' : HalfId} {nbits : UInt32} (hnbits : nbits ≠ 0)
    (hpow : h' ≠ h → (g.half h').powTargetNbits = nbits) :
    ((g.uploadPowTarget h nbits).half h').powTargetNbits = nbits := by
  by_cases heq : h' = h
  · rw [heq]
    exact pow_uploadPowTarget_self h hnbits
  · rw [pow_uploadPowTarget_of_ne heq]
    exact hpow heq

theorem pow_uploadPowTargetAllHalves {nbits : UInt32} (hnbits : nbits ≠ 0) :
    ∀ h ∈ g.halves, ((g.uploadPowTargetAllHalves nbits).half h).powTargetNbits = nbits := by
  intro h hh
  unfold GpuWorker.uploadPowTargetAllHalves
  unfold GpuWorker.halves at hh ⊢
  split_ifs at hh ⊢
  all_goals
    simp only [List.foldl_cons, List.foldl_nil]
    cases h
    all_goals simp_all [GpuWorker.uploadPowTarget, GpuWorker.setHalf, Half.uploadPowTarget]

theorem frame_uploadPowTargetAllHalves (nbits : UInt32) :
    (g.uploadPowTargetAllHalves nbits).halves = g.halves ∧
      (g.uploadPowTargetAllHalves nbits).targetNbits = g.targetNbits ∧
      ((g.uploadPowTargetAllHalves nbits).Pointers ↔ g.Pointers) := by
  refine ⟨?_, ?_, ?_⟩
  · rw [GpuWorker.halves, (own_uploadPowTargetAllHalves g nbits).1, GpuWorker.halves]
  all_goals
    unfold GpuWorker.uploadPowTargetAllHalves GpuWorker.halves
    split <;> rfl

/-- A line where nothing is bound or uploaded only has to keep the first part. -/
theorem TargetInv.of_plain (hpointers : g'.Pointers) (hto : g'.pc.plain = true)
    (huploaded : g'.targetDirty = false → mid = false → g'.targetNbits ≠ 0 → g'.pc ≠ .ended →
      ∀ h ∈ g'.halves, (g'.half h).powTargetNbits = g'.targetNbits) : TargetInv mid g' := by
  obtain ⟨hrest, huploading⟩ := RunPc.plain_iff.mp hto
  refine ⟨hpointers, fun hdirty hmid hzero _ => huploaded hdirty hmid hzero, ?_, ?_, ?_, ?_⟩
  · intro nbits hpc
    rw [hpc] at huploading
    cases huploading
  · intro rest hrest'
    rw [hrest] at hrest'
    cases hrest'
  · intro _ rest hrest'
    rw [hrest] at hrest'
    cases hrest'
  · intro nbits hnbits
    rw [RunPc.nbits_of_rest hrest] at hnbits
    cases hnbits

/-- At a line of an install the upload part is void. -/
theorem TargetInv.of_rest {rest : List HalfId} (hpointers : g'.Pointers)
    (hrest : g'.pc.rest = some rest)
    (huploaded : g'.targetDirty = false → mid = false → g'.targetNbits ≠ 0 →
      ∀ h ∈ g'.halves, (g'.half h).powTargetNbits = g'.targetNbits)
    (hbound : g'.targetNbits ≠ 0 → ∀ h ∈ g'.halves, h ∉ rest →
      (g'.half h).powTargetNbits = g'.targetNbits)
    (hfresh : g'.pc.binding = false → ∀ h ∈ g'.halves, h ∈ rest)
    (hnbits : ∀ nbits, g'.pc.nbits = some nbits → nbits = g'.targetNbits) :
    TargetInv mid g' := by
  refine ⟨hpointers, fun hdirty hmid hzero _ _ => huploaded hdirty hmid hzero, ?_, ?_, ?_, hnbits⟩
  · intro nbits hpc
    rw [hpc] at hrest
    cases hrest
  · intro rest' hrest'
    rw [hrest] at hrest'
    cases hrest'
    exact hbound
  · intro hbinding rest' hrest'
    rw [hrest] at hrest'
    cases hrest'
    exact hfresh hbinding

/-- The upload part, on the way through an install. -/
theorem TargetInv.uploaded_of_rest (h : TargetInv mid g) {rest : List HalfId}
    (hrest : g.pc.rest = some rest) (hdirty : g.targetDirty = false) (hmid : mid = false)
    (hzero : g.targetNbits ≠ 0) :
    ∀ x ∈ g.halves, (g.half x).powTargetNbits = g.targetNbits :=
  h.uploaded hdirty hmid hzero (RunPc.late_of_rest hrest).2 (ne_ended_of_rest hrest)

/-- A step inside an install that binds nothing. -/
theorem TargetInv.of_same_rest (h : TargetInv mid g) {rest : List HalfId}
    (hsame : SameTargets g g') (hdirty : g'.targetDirty = g.targetDirty)
    (hrest : g.pc.rest = some rest) (hrest' : g'.pc.rest = some rest)
    (hbinding : g'.pc.binding = false → g.pc.binding = false)
    (hnbits : ∀ nbits, g'.pc.nbits = some nbits → nbits = g.targetNbits) : TargetInv mid g' := by
  refine .of_rest (hsame.pointers h.pointers) hrest' ?_ ?_ ?_ ?_
  · intro hdirty' hmid hzero x hx
    rw [hsame.halves] at hx
    rw [hsame.pow, hsame.target]
    exact h.uploaded_of_rest hrest (hdirty ▸ hdirty') hmid (hsame.target ▸ hzero) x hx
  · intro hzero x hx hnot
    rw [hsame.halves] at hx
    rw [hsame.pow, hsame.target]
    exact h.bound _ hrest (hsame.target ▸ hzero) x hx hnot
  · intro hbinding' x hx
    rw [hsame.halves] at hx
    exact h.fresh (hbinding hbinding') _ hrest x hx
  · intro nbits hsome
    rw [hsame.target]
    exact hnbits nbits hsome

theorem TargetInv.move (h : TargetInv mid g) (hmove : TargetMove g g') : TargetInv mid g' := by
  cases hmove with
  | elsewhere hsame hdirty hfrom hrunning hto hlate =>
    refine .of_plain (hsame.pointers h.pointers) hto fun hdirty' hmid hzero hended x hx => ?_
    rw [hsame.pow, hsame.target]
    refine h.uploaded (hdirty ▸ hdirty') hmid (hsame.target ▸ hzero) ?_ hrunning x ?_
    · exact hfrom.resolve_right hended
    · rwa [hsame.halves] at hx
  | start hsame hdirty hfrom hrunning hrest hall hnbits =>
    -- every half is still to be bound, so none has to have the target yet
    have hcover := hall h.pointers
    rw [← hsame.halves] at hcover
    refine .of_rest (hsame.pointers h.pointers) hrest ?_ ?_ (fun _ => hcover) ?_
    · intro hdirty' hmid hzero x hx
      rw [hsame.pow, hsame.target]
      refine h.uploaded (hdirty ▸ hdirty') hmid (hsame.target ▸ hzero) ?_ hrunning x ?_
      · exact (RunPc.plain_iff.mp hfrom).2
      · rwa [hsame.halves] at hx
    · exact fun _ x hx hnot => absurd (hcover x hx) hnot
    · intro nbits hsome
      rw [hnbits] at hsome
      cases hsome
  | install hsame hdirty hrest hrest' hbinding hnbits =>
    refine h.of_same_rest hsame hdirty hrest hrest' (fun hb => hbinding ▸ hb) ?_
    intro nbits hsome
    rw [hnbits] at hsome
    cases hsome
  | read hsame hdirty hrest hrest' hbinding hnbits =>
    refine h.of_same_rest hsame hdirty hrest hrest' (fun hb => ?_) ?_
    · rw [hbinding] at hb
      cases hb
    · intro nbits hsome
      rw [hnbits] at hsome
      exact (Option.some.inj hsome).symm
  | store hsame htarget hdirty hrest hrest' hbinding hnbits hnbits' =>
    -- what is stored is what is there
    have hkeep : g'.targetNbits = g.targetNbits := by
      rcases htarget with heq | heq
      · exact heq
      · rw [heq, h.nbits _ hnbits]
    refine h.of_same_rest ⟨hsame.cfg, hkeep, hsame.pow, hsame.pointers⟩ hdirty hrest hrest'
      (fun hb => ?_) ?_
    · rw [hbinding] at hb
      cases hb
    · intro nbits hsome
      rw [hnbits'] at hsome
      rw [← Option.some.inj hsome, h.nbits _ hnbits]
  | @bind x todo nbits hsame hdirty hrest hrest' hbinding hnbits hnbits' =>
    -- the first half of the list gets the target now, and those before it keep it
    obtain rfl := h.nbits _ hnbits
    have htarget : g'.targetNbits = g.targetNbits := hsame.target
    have hhalves : g'.halves = g.halves := hsame.halves
    refine .of_rest (hsame.pointers h.pointers) hrest' ?_ ?_ ?_ ?_
    · intro hdirty' hmid hzero y hy
      rw [hhalves] at hy
      rw [htarget] at hzero ⊢
      rw [hsame.pow]
      refine pow_uploadPowTarget hzero fun _ => ?_
      exact h.uploaded_of_rest hrest (hdirty.symm.trans hdirty') hmid hzero y hy
    · intro hzero y hy hnot
      rw [hhalves] at hy
      rw [htarget] at hzero ⊢
      rw [hsame.pow]
      refine pow_uploadPowTarget hzero fun hne => ?_
      exact h.bound _ hrest hzero y hy (List.not_mem_cons_of_ne_of_not_mem hne hnot)
    · intro hbinding'
      rw [hbinding] at hbinding'
      cases hbinding'
    · intro nbits hsome
      rw [hnbits'] at hsome
      cases hsome
  | @abandon x nbits hsame hdirty hnbits hto hlate =>
    -- the call has thrown, but its upload was made
    obtain rfl := h.nbits _ hnbits
    have htarget : g'.targetNbits = g.targetNbits := hsame.target
    have hhalves : g'.halves = g.halves := hsame.halves
    have hrest : ∃ rest, g.pc.rest = some rest := by
      rw [← Option.ne_none_iff_exists']
      intro hnone
      rw [RunPc.nbits_of_rest hnone] at hnbits
      cases hnbits
    obtain ⟨rest, hrest⟩ := hrest
    refine .of_plain (hsame.pointers h.pointers) hto fun hdirty' hmid hzero _ y hy => ?_
    rw [hhalves] at hy
    rw [htarget] at hzero ⊢
    rw [hsame.pow]
    refine pow_uploadPowTarget hzero fun _ => ?_
    exact h.uploaded_of_rest hrest (hdirty.symm.trans hdirty') hmid hzero y hy
  | clear hsame hrest hdirty hto =>
    refine .of_plain (hsame.pointers h.pointers) hto fun _ _ hzero _ x hx => ?_
    rw [hsame.halves] at hx
    rw [hsame.pow, hsame.target]
    exact h.bound _ hrest (hsame.target ▸ hzero) x hx nofun
  | exchange hsame hdirty hdirty' hto =>
    -- the flag is clear before the upload is made; the line tells that it is still to come
    refine ⟨hsame.pointers h.pointers, ?_, ?_, ?_, ?_, ?_⟩
    all_goals rw [hto]
    · exact fun _ _ _ huploading => by cases huploading
    all_goals nofun
  | load hsame hdirty hfrom hto =>
    refine ⟨hsame.pointers h.pointers, ?_, ?_, ?_, ?_, ?_⟩
    all_goals rw [hto]
    · exact fun _ _ _ huploading => by cases huploading
    · intro nbits heq _ _
      rw [hsame.target, RunPc.upload.inj heq]
    all_goals nofun
  | @upload nbits hsame hdirty hfrom hto =>
    obtain ⟨hhalves, htarget, hpointers⟩ := frame_uploadPowTargetAllHalves (g := g) nbits
    refine .of_plain (hsame.pointers (hpointers.mpr h.pointers)) (by rw [hto]; rfl)
      fun hdirty' hmid hzero _ x hx => ?_
    have hkeep : g'.targetNbits = g.targetNbits := hsame.target.trans htarget
    obtain rfl := h.loaded nbits hfrom (hdirty ▸ hdirty') hmid
    rw [hsame.halves, hhalves] at hx
    rw [hkeep] at hzero ⊢
    rw [hsame.pow]
    exact pow_uploadPowTargetAllHalves hzero x hx

/-- The invariant only looks at the targets, the flag and the line. -/
theorem TargetInv.congr (h : TargetInv mid g) (hsame : SameTargets g g')
    (hdirty : g'.targetDirty = g.targetDirty) (hpc : g'.pc = g.pc) : TargetInv mid g' := by
  refine ⟨hsame.pointers h.pointers, ?_, ?_, ?_, ?_, ?_⟩
  all_goals rw [hpc]
  · intro hdirty' hmid hzero huploading hended x hx
    rw [hsame.halves] at hx
    rw [hsame.pow, hsame.target]
    exact h.uploaded (hdirty ▸ hdirty') hmid (hsame.target ▸ hzero) huploading hended x hx
  · intro nbits hload hdirty' hmid
    rw [hsame.target]
    exact h.loaded nbits hload (hdirty ▸ hdirty') hmid
  · intro rest hrest hzero x hx hnot
    rw [hsame.halves] at hx
    rw [hsame.pow, hsame.target]
    exact h.bound rest hrest (hsame.target ▸ hzero) x hx hnot
  · intro hbinding rest hrest x hx
    rw [hsame.halves] at hx
    exact h.fresh hbinding rest hrest x hx
  · intro nbits hnbits
    rw [hsame.target]
    exact h.nbits nbits hnbits

/-- The first store of an update, away from installs. -/
theorem TargetInv.storeTarget (h : TargetInv mid g) (hbinding : g.pc.binding = false)
    (nbits : UInt32) : TargetInv true { g with targetNbits := nbits } := by
  refine ⟨h.pointers, nofun, nofun, ?_, h.fresh, ?_⟩
  · intro rest hrest _ x hx hnot
    exact absurd (h.fresh hbinding rest hrest x hx) hnot
  · intro nbits' hnbits
    rw [RunPc.binding_of_nbits hnbits] at hbinding
    cases hbinding

/-- The second store of an update. -/
theorem TargetInv.storeDirty (h : TargetInv mid g) (mid' : Bool) :
    TargetInv mid' { g with targetDirty := true } :=
  ⟨h.pointers, nofun, fun _ _ hdirty => (by cases hdirty), h.bound, h.fresh, h.nbits⟩

/-- Calm steps of `run` never change `target_nbits_`. -/
theorem TargetMove.target_eq (hmove : TargetMove g g') (h : TargetInv mid g) :
    g'.targetNbits = g.targetNbits := by
  cases hmove with
  | store hsame htarget hdirty hrest hrest' hbinding hnbits hnbits' =>
    rcases htarget with heq | heq
    · exact heq
    · rw [heq, h.nbits _ hnbits]
  | bind hsame | abandon hsame => exact hsame.target
  | upload hsame => exact hsame.target.trans (frame_uploadPowTargetAllHalves _).2.1
  | elsewhere hsame | start hsame | install hsame | read hsame | clear hsame | exchange hsame
  | load hsame => exact hsame.target

/-- `run` never raises the flag. -/
theorem TargetMove.dirty_eq_false (hmove : TargetMove g g') (hdirty : g.targetDirty = false) :
    g'.targetDirty = false := by
  cases hmove with
  | clear _ _ hdirty' | exchange _ _ hdirty' => exact hdirty'
  | elsewhere _ hkeep | start _ hkeep | install _ hkeep | read _ hkeep | store _ _ hkeep
  | bind _ hkeep | abandon _ hkeep | load _ hkeep | upload _ hkeep => exact hkeep.trans hdirty

/-- Past the test of the flag it is down, if it was down in the lines before. -/
theorem TargetMove.late (hmove : TargetMove g g')
    (hlate : g.pc.late = true → g.targetDirty = false) (hlate' : g'.pc.late = true) :
    g'.targetDirty = false := by
  cases hmove with
  | elsewhere hsame hdirty hfrom hrunning hto hback =>
    rw [hdirty]
    exact (hback hlate').elim hlate id
  | clear _ _ hdirty' | exchange _ _ hdirty' => exact hdirty'
  | load _ hkeep hfrom | upload _ hkeep hfrom =>
    rw [hkeep]
    apply hlate
    rw [hfrom]
    rfl
  | abandon _ _ _ _ hnot =>
    rw [hnot] at hlate'
    cases hlate'
  | start _ _ _ _ hrest' | install _ _ _ hrest' | read _ _ _ hrest' | store _ _ _ _ hrest'
  | bind _ _ _ hrest' =>
    rw [(RunPc.late_of_rest hrest').1] at hlate'
    cases hlate'

/-- The flag is down and every half has the target of the worker. -/
structure Still (g : GpuWorker) : Prop where
  down : g.targetDirty = false
  notUploading : g.pc.uploading = false
  halves : g.targetNbits ≠ 0 → ∀ h ∈ g.halves, (g.half h).powTargetNbits = g.targetNbits

theorem Still.congr (h : Still g) (hsame : SameTargets g g')
    (hdirty : g'.targetDirty = g.targetDirty) (hpc : g'.pc = g.pc) : Still g' where
  down := hdirty.trans h.down
  notUploading := hpc ▸ h.notUploading
  halves hzero x hx := by
    rw [hsame.halves] at hx
    rw [hsame.pow, hsame.target]
    exact h.halves (hsame.target ▸ hzero) x hx

theorem Still.move (h : Still g) (hinv : TargetInv false g) (hmove : TargetMove g g') :
    Still g' := by
  have hdown := hmove.dirty_eq_false h.down
  have hinv' := hinv.move hmove
  -- at a line of an install the invariant says it all
  have hinside : ∀ rest, g'.pc.rest = some rest → Still g' := fun rest hrest =>
    ⟨hdown, (RunPc.late_of_rest hrest).2, hinv'.uploaded_of_rest hrest hdown rfl⟩
  cases hmove with
  | elsewhere hsame hdirty hfrom hrunning hto hback =>
    refine ⟨hdown, (RunPc.plain_iff.mp hto).2, fun hzero x hx => ?_⟩
    rw [hsame.halves] at hx
    rw [hsame.pow, hsame.target]
    exact h.halves (hsame.target ▸ hzero) x hx
  | abandon hsame hdirty hnbits hto hlate =>
    obtain rfl := hinv.nbits _ hnbits
    have htarget : g'.targetNbits = g.targetNbits := hsame.target
    have hhalves : g'.halves = g.halves := hsame.halves
    refine ⟨hdown, (RunPc.plain_iff.mp hto).2, fun hzero x hx => ?_⟩
    rw [hhalves] at hx
    rw [htarget] at hzero ⊢
    rw [hsame.pow]
    exact pow_uploadPowTarget hzero fun _ => h.halves hzero x hx
  | clear hsame hrest hdirty hto =>
    refine ⟨hdown, (RunPc.plain_iff.mp hto).2, fun hzero x hx => ?_⟩
    rw [hsame.halves] at hx
    rw [hsame.pow, hsame.target]
    exact h.halves (hsame.target ▸ hzero) x hx
  | exchange _ hup =>
    rw [h.down] at hup
    cases hup
  | load _ _ hfrom | upload _ _ hfrom =>
    have hnot := h.notUploading
    rw [hfrom] at hnot
    cases hnot
  | start _ _ _ _ hrest' | install _ _ _ hrest' | read _ _ _ hrest' | store _ _ _ _ hrest'
  | bind _ _ _ hrest' => exact hinside _ hrest'

end Invariant

end PropMiner.Jobs
