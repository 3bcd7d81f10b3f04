import PropMiner.Jobs.Frames
import PropMiner.Semantics.Monitor
import PropMiner.Semantics.Ring
import Mathlib.Tactic.IntervalCases

/-!
# The mining pipeline

A worker keeps one or two batches on the GPU while it launches the next: two halves that
change places in ping-pong mode, a ring of three in triple-buffer mode. Deferred share
jobs read a half after its batch was scanned, so a half is launched on again only when
they are done.

What the pipeline promises is written as a monitor, whose state is the queue of batches
of the current job that were not scanned yet, with the share jobs of each half. The
run loop has no such queue: it finds the batch to scan by index arithmetic, or by the
pointer it swapped. The queue can be read off the variables of `run` (`Track.inFlight`),
and every step moves it as the monitor says.

## Main definitions

* `Pipeline`, `pipeline` — the monitor
* `Track`, `Phase`, `Track.inFlight` — the queue that the variables of `run` stand for

## Main results

* `pipelined` — every run of any number of workers is accepted, for each worker
-/

set_option autoImplicit false

namespace PropMiner.Jobs

open PropMiner.Semantics (Machine Monitor)
open PropMiner.Semantics.Ring

/-! ### What the pipeline promises -/

/-- A batch on its way through the GPU. -/
structure Batch where
  half : HalfId
  seed : UInt64
  count : ℕ
  deriving DecidableEq, Repr

structure Pipeline where
  /-- queued under the current job and not scanned, oldest first -/
  inFlight : List Batch := []
  /-- the batch scanned last -/
  scanned : Option Batch := none
  /-- the share jobs that read a half and are not done -/
  pending : HalfId → ℕ := fun _ => 0

namespace Pipeline

def observe (m : Pipeline) : Event → Pipeline
  | .rotated _ => { m with inFlight := [] }
  | .queued _ half _ _ seed count => { m with inFlight := m.inFlight ++ [⟨half, seed, count⟩] }
  | .scanned _ half seed count =>
      { m with inFlight := m.inFlight.tail, scanned := some ⟨half, seed, count⟩ }
  | .shareQueued _ half =>
      { m with pending := Function.update m.pending half (m.pending half + 1) }
  | .shareDone _ half =>
      { m with pending := Function.update m.pending half (m.pending half - 1) }
  | _ => m

/-- A batch is queued on a half that is free and has no share job pending; it is the
oldest batch that is scanned, with its own seed and size; a winner is a header of the
batch scanned last, and its nonce is that batch's seed plus the index. -/
def Allows (m : Pipeline) : Event → Prop
  | .queued _ half _ _ _ _ => (∀ b ∈ m.inFlight, b.half ≠ half) ∧ m.pending half = 0
  | .scanned _ half seed count => m.inFlight.head? = some ⟨half, seed, count⟩
  | .winner _ half index nonce =>
      ∃ b, m.scanned = some b ∧ b.half = half ∧ index < b.count ∧
        nonce = b.seed + UInt64.ofNat index
  | .shareDone _ half => 0 < m.pending half
  | _ => True

end Pipeline

/-- The monitor of worker `w`. -/
def pipeline (w : ℕ) : Monitor Event Pipeline where
  start := {}
  observe m e := if e.ofWorker w then m.observe e else m
  allows m e := e.ofWorker w = true → m.Allows e

/-- The batch that worker `w` queues with this event. -/
def Event.queuedBatch (w : ℕ) : Event → Option Batch
  | .queued w' half _ _ seed count => if w' = w then some ⟨half, seed, count⟩ else none
  | _ => none

/-- The batch that worker `w` scans with this event. -/
def Event.scannedBatch (w : ℕ) : Event → Option Batch
  | .scanned w' half seed count => if w' = w then some ⟨half, seed, count⟩ else none
  | _ => none

theorem pipeline_observe {w : ℕ} {m : Pipeline} {e : Event} (he : e.ofWorker w = true) :
    (pipeline w).observe m e = m.observe e :=
  if_pos he

/-- One event puts a batch at the end of the queue, or takes it from the front. -/
theorem inFlight_observe {w : ℕ} {m : Pipeline} {e : Event} (hallows : (pipeline w).allows m e)
    (hne : e ≠ .rotated w) :
    m.inFlight ++ (e.queuedBatch w).toList =
      (e.scannedBatch w).toList ++ ((pipeline w).observe m e).inFlight := by
  by_cases hown : e.ofWorker w = true
  · have hevent := hallows hown
    rw [pipeline_observe hown]
    cases e with
    | queued w' half c allocated seed count =>
      rw [Event.queuedBatch, if_pos (of_decide_eq_true hown)]
      rfl
    | scanned w' half seed count =>
      obtain ⟨tail, htail⟩ := List.head?_eq_some_iff.mp hevent
      rw [Event.scannedBatch, if_pos (of_decide_eq_true hown)]
      change m.inFlight ++ [] = [_] ++ m.inFlight.tail
      rw [htail, List.append_nil]
      rfl
    | rotated w' => exact absurd (congrArg Event.rotated (of_decide_eq_true hown)) hne
    | _ => exact List.append_nil _
  · -- the event is another worker's
    have hsame : (pipeline w).observe m e = m := if_neg hown
    rw [hsame]
    cases e with
    | queued w' half c allocated seed count =>
      rw [Event.queuedBatch, if_neg fun hw => hown (decide_eq_true hw)]
      exact List.append_nil _
    | scanned w' half seed count =>
      rw [Event.scannedBatch, if_neg fun hw => hown (decide_eq_true hw)]
      exact List.append_nil _
    | _ => exact List.append_nil _

/-- Batches leave the queue in the order in which they enter it, and none is lost: what
was scanned and what is in flight is what was queued since the last rotation. -/
theorem pipeline_conserves {w : ℕ} {pre seg : List Event}
    (haccepts : (pipeline w).Accepts (pre ++ .rotated w :: seg))
    (hseg : .rotated w ∉ seg) :
    seg.filterMap (Event.queuedBatch w) = seg.filterMap (Event.scannedBatch w) ++
      ((pipeline w).after (pre ++ .rotated w :: seg)).inFlight := by
  induction seg using List.reverseRecOn with
  | nil => simp [Monitor.after, pipeline, Pipeline.observe, Event.ofWorker]
  | append_singleton seg e ih =>
    rw [← List.cons_append, ← List.append_assoc] at haccepts ⊢
    have hprev : (pipeline w).Accepts (pre ++ .rotated w :: seg) := by
      intro pre' e' post' heq
      exact haccepts pre' e' (post' ++ [e]) (by rw [heq]; simp)
    have hih := ih hprev fun hmem => hseg (List.mem_append_left _ hmem)
    have hne : e ≠ .rotated w := fun heq => hseg (by simp [heq])
    have hmove := inFlight_observe (haccepts _ e [] rfl) hne
    have hone : ∀ f : Event → Option Batch, [e].filterMap f = (f e).toList := by
      intro f
      cases hf : f e <;> simp [hf]
    rw [Monitor.after_append, List.filterMap_append, List.filterMap_append, hih, hone, hone,
      List.append_assoc, hmove, List.append_assoc]
    rfl

/-! ### The variables that steer the mining -/

/-- The variables of `run` that say which half is next, with the seeds of the batches. -/
structure Track where
  triple : Bool
  ping : HalfId
  pong : HalfId
  first : Bool
  launchI : ℕ
  tripleWarmup : ℕ
  batch : ℕ
  seed : HalfId → UInt64

def GpuWorker.track (g : GpuWorker) : Track where
  triple := g.cfg.tripleBufferActive
  ping := g.ping
  pong := g.pong
  first := g.first
  launchI := g.launchI
  tripleWarmup := g.tripleWarmup
  batch := g.batch
  seed h := (g.half h).batchSeedStart

/-- Where `run` is, as far as mining is concerned. -/
inductive Phase
  /-- the new job is put into the halves -/
  | rotating
  /-- between the end of a round and the next launch -/
  | round
  | completing (half : HalfId)
  | triggering (half : HalfId) (winners : List ℕ)
  | ended

def RunPc.phase : RunPc → Phase
  | .install .. | .bind .. | .clearDirty _ => .rotating
  | .complete half => .completing half
  | .trigger half winners => .triggering half winners
  | .ended => .ended
  | _ => .round

/-- The three halves of the ring, from this index on. -/
def ringFrom (i : ℕ) : List HalfId :=
  [View.ring i, View.ring ((i + 1) % View.numHalves), View.ring ((i + 2) % View.numHalves)]

theorem ringFrom_succ {i : ℕ} (hi : i < View.numHalves) :
    ringFrom ((i + 1) % View.numHalves) = (ringFrom i).tail ++ [View.ring i] := by
  change i < 3 at hi
  interval_cases i <;> rfl

theorem ringFrom_nodup {i : ℕ} (hi : i < View.numHalves) : (ringFrom i).Nodup := by
  change i < 3 at hi
  interval_cases i <;> decide

namespace Track

/-- `launch_i` as the round starts. -/
def launchIndex (t : Track) : ℕ := if t.first then 0 else t.launchI

/-- The halves in the order in which they are launched on. In ping-pong mode they change
places at the end of a round. -/
def order (t : Track) (p : Phase) : List HalfId :=
  if t.triple then ringFrom t.launchIndex
  else match p with
    | .completing _ | .triggering .. => [t.pong, t.ping]
    | _ => [t.ping, t.pong]

/-- How many batches are in flight between two rounds. -/
def depth (t : Track) : ℕ := if t.triple then View.pipelineDepth else 1

/-- How many batches are in flight. -/
def backlog (t : Track) : Phase → ℕ
  | .round => if t.first then 0 else t.depth - t.tripleWarmup
  | .completing _ => t.depth + 1
  | .triggering .. => t.depth
  | .rotating | .ended => 0

def batchOf (t : Track) (h : HalfId) : Batch := ⟨h, t.seed h, t.batch⟩

/-- The batches in flight, oldest first. -/
def inFlight (t : Track) (p : Phase) : List Batch := (busy (t.order p) (t.backlog p)).map t.batchOf

variable {t t' : Track} {p p' : Phase} {k : HalfId} {rest : List HalfId}

theorem length_order : (t.order p).length = t.depth + 1 := by
  unfold order depth
  split_ifs
  · rfl
  · cases p <;> rfl

theorem length_of_order (horder : t.order p = k :: rest) : rest.length = t.depth := by
  have hlength := t.length_order (p := p)
  rw [horder, List.length_cons] at hlength
  exact Nat.succ_inj.mp hlength

theorem backlog_round_le : t.backlog .round ≤ t.depth := by
  simp only [backlog]
  split_ifs
  · exact Nat.zero_le _
  · exact Nat.sub_le _ _

theorem inFlight_of_backlog (h : t.backlog p = 0) : t.inFlight p = [] := by
  rw [inFlight, h, busy_zero, List.map_nil]

/-- While a batch is waited for, nothing of the order depends on the line. -/
theorem order_scanned {h : HalfId} {winners : List ℕ} :
    t.order (.triggering h winners) = t.order (.completing h) := rfl

/-- What holds at the lines between a launch and the end of its round. -/
def At (t : Track) (m : Pipeline) : Phase → Prop
  | .completing h =>
      (t.order (.completing h)).head? = some h ∧ t.first = false ∧ t.tripleWarmup = 0
  | .triggering h winners =>
      m.scanned = some (t.batchOf h) ∧ (∀ k ∈ winners, k < t.batch) ∧
        t.first = false ∧ t.tripleWarmup = 0
  | _ => True

end Track

/-- The monitor's queue is the one that the variables of `run` stand for. -/
structure Mining (t : Track) (p : Phase) (m : Pipeline) : Prop where
  distinct : t.ping ≠ t.pong
  launchI : t.launchI < View.numHalves
  warmup : t.tripleWarmup ≤ if t.triple then View.pipelineDepth else 0
  inFlight : m.inFlight = t.inFlight p
  position : t.At m p

namespace Mining

variable {t t' : Track} {p p' : Phase} {m m' : Pipeline} {k : HalfId} {rest : List HalfId}

theorem launchIndex_lt (h : Mining t p m) : t.launchIndex < View.numHalves := by
  unfold Track.launchIndex
  split_ifs
  · exact Nat.succ_pos _
  · exact h.launchI

theorem nodup_order (h : Mining t p m) : (t.order p).Nodup := by
  unfold Track.order
  split_ifs
  · exact ringFrom_nodup h.launchIndex_lt
  · cases p <;> simp [h.distinct, h.distinct.symm]

theorem warmup_of_triple (h : Mining t p m) (htriple : t.triple = true) :
    t.tripleWarmup ≤ View.pipelineDepth := by
  simpa [htriple] using h.warmup

theorem warmup_of_pingPong (h : Mining t p m) (htriple : t.triple = false) :
    t.tripleWarmup = 0 := by
  simpa [htriple] using h.warmup

/-- A new job, or none: the queue is empty and the round that follows is the first. -/
theorem restart (h : Mining t p m) {first : Bool} {batch : ℕ}
    (hbacklog : { t with first, batch }.backlog p' = 0) (hat : { t with first, batch }.At m' p')
    (hempty : m'.inFlight = []) : Mining { t with first, batch } p' m' := by
  refine ⟨h.distinct, h.launchI, h.warmup, ?_, hat⟩
  rw [hempty, Track.inFlight_of_backlog hbacklog]

/-- The half that is launched on is not in flight. -/
theorem free_of_order (h : Mining t .round m) (horder : t.order .round = k :: rest) :
    ∀ b ∈ m.inFlight, b.half ≠ k := by
  intro b hb
  rw [h.inFlight, Track.inFlight, horder] at hb
  obtain ⟨half, hhalf, rfl⟩ := List.mem_map.mp hb
  have hnodup : (k :: rest).Nodup := horder ▸ h.nodup_order
  have hidle : t.backlog .round ≤ rest.length :=
    Track.length_of_order horder ▸ Track.backlog_round_le
  rintro rfl
  exact not_mem_busy hnodup hidle hhalf

/-- A launch puts one batch at the end of the queue. -/
theorem inFlight_launch (h : Mining t .round m) (horder : t.order .round = k :: rest)
    (horder' : t'.order p' = rest ++ [k]) (hbacklog : t'.backlog p' = t.backlog .round + 1)
    (hbatch : t'.batch = t.batch) (hseed : ∀ half ≠ k, t'.seed half = t.seed half) :
    t'.inFlight p' = m.inFlight ++ [t'.batchOf k] := by
  have hidle : t.backlog .round ≤ rest.length :=
    Track.length_of_order horder ▸ Track.backlog_round_le
  have hsame : ∀ half ∈ busy (k :: rest) (t.backlog .round), t'.batchOf half = t.batchOf half := by
    intro half hhalf
    have hne : half ≠ k := by
      rintro rfl
      exact not_mem_busy (horder ▸ h.nodup_order) hidle hhalf
    rw [Track.batchOf, hseed half hne, hbatch, Track.batchOf]
  rw [h.inFlight, Track.inFlight, horder', hbacklog, busy_push hidle, List.map_append,
    List.map_congr_left hsame, Track.inFlight, horder, List.map_singleton]

/-- The batch that is waited for is the oldest. -/
theorem inFlight_scan {half : HalfId} (h : Mining t (.completing half) m) (winners : List ℕ) :
    m.inFlight = t.batchOf half :: t.inFlight (.triggering half winners) := by
  obtain ⟨rest, horder⟩ := List.head?_eq_some_iff.mp h.position.1
  have hlength := Track.length_of_order horder
  rw [h.inFlight, Track.inFlight, Track.inFlight, Track.order_scanned, horder]
  simp only [Track.backlog, ← hlength]
  rw [busy_pop, List.map_cons]

end Mining

/-! ### The steps of a worker -/

/-- `share_jobs_pending` of each half. -/
def GpuWorker.shares (g : GpuWorker) (h : HalfId) : ℕ := (g.half h).shareJobsPending

/-- The share jobs that are not done. -/
def GpuWorker.shareJobs (g : GpuWorker) : List ShareTriggerJob := g.shareJob.toList ++ g.shareQueue

/-- The monitor's state is that of the worker. Nothing is said of the queue once `run` is
over. -/
structure Follows (g : GpuWorker) (m : Pipeline) : Prop where
  mining : g.pc.phase ≠ .ended → Mining g.track g.pc.phase m
  counter : g.shares = m.pending
  jobs : ∀ h, m.pending h = g.shareJobs.countP (·.half = h)

theorem Follows.mining_of_phase {g : GpuWorker} {m : Pipeline} (h : Follows g m) {phase : Phase}
    (hphase : g.pc.phase = phase) (hlive : phase ≠ .ended) : Mining g.track phase m := by
  subst hphase
  exact h.mining hlive

/-- The monitor of worker `w` follows a step that ends like this. -/
def Followed (w : ℕ) (m : Pipeline) (r : View × List Event) : Prop :=
  (pipeline w).AllowsAll m r.2 ∧ Follows r.1.worker (r.2.foldl (pipeline w).observe m)

/-- The events that say nothing about the pipeline. -/
def Event.silent : Event → Bool
  | .rotated _ | .queued .. | .scanned .. | .winner .. | .shareQueued .. | .shareDone .. => false
  | _ => true

section Events

variable {w : ℕ} {m : Pipeline} {e : Event} {es : List Event}

theorem pipeline_ignores (hes : ∀ e ∈ es, e.ofWorker w = true → e.silent = true) :
    (pipeline w).AllowsAll m es ∧ es.foldl (pipeline w).observe m = m := by
  apply Monitor.allowsAll_of_ignored
  · intro e he hw
    have hsilent := hes e he hw
    cases e with
    | rotated | queued | scanned | winner | shareQueued | shareDone => cases hsilent
    | _ => trivial
  · intro e he
    by_cases hw : e.ofWorker w = true
    · rw [pipeline_observe hw]
      have hsilent := hes e he hw
      cases e with
      | rotated | queued | scanned | winner | shareQueued | shareDone => cases hsilent
      | _ => rfl
    · exact if_neg hw

end Events

section Halves

variable {g : GpuWorker} {h : HalfId} {f : Half → Half}

theorem track_setHalf (hf : ∀ x, (f x).batchSeedStart = x.batchSeedStart) :
    (g.setHalf h f).track = g.track := by
  have hseed : (g.setHalf h f).track.seed = g.track.seed := by
    funext half
    by_cases heq : half = h
    · subst heq
      simp [GpuWorker.track, GpuWorker.setHalf, hf]
    · simp [GpuWorker.track, GpuWorker.setHalf, heq]
  exact congrArg (fun seed => { g.track with seed }) hseed

theorem shares_setHalf (hf : ∀ x, (f x).shareJobsPending = x.shareJobsPending) :
    (g.setHalf h f).shares = g.shares := by
  funext half
  by_cases heq : half = h
  · subst heq
    simp [GpuWorker.shares, GpuWorker.setHalf, hf]
  · simp [GpuWorker.shares, GpuWorker.setHalf, heq]

theorem shares_setHalf_update (h : HalfId) (f : Half → Half) :
    (g.setHalf h f).shares = Function.update g.shares h (f (g.half h)).shareJobsPending := by
  funext half
  by_cases heq : half = h
  · subst heq
    simp [GpuWorker.shares, GpuWorker.setHalf]
  · simp [GpuWorker.shares, GpuWorker.setHalf, heq]

theorem track_queueBatch (g : GpuWorker) (h : HalfId) :
    (View.queueBatch g h).track = { g.track with
      seed := Function.update g.track.seed h (g.cfg.seedBase + g.globalIter) } := by
  have hseed : (View.queueBatch g h).track.seed =
      Function.update g.track.seed h (g.cfg.seedBase + g.globalIter) := by
    funext half
    by_cases heq : half = h
    · subst heq
      simp [GpuWorker.track, View.queueBatch, GpuWorker.setHalf, Half.beginBatch]
    · simp [GpuWorker.track, View.queueBatch, GpuWorker.setHalf, heq]
  exact congrArg (fun seed => { g.track with seed }) hseed

theorem shares_queueBatch (g : GpuWorker) (h : HalfId) : (View.queueBatch g h).shares = g.shares :=
  shares_setHalf fun _ => rfl

theorem track_uploadPowTarget (nbits : UInt32) : (g.uploadPowTarget h nbits).track = g.track :=
  track_setHalf fun _ => rfl

theorem shares_uploadPowTarget (nbits : UInt32) : (g.uploadPowTarget h nbits).shares = g.shares :=
  shares_setHalf fun _ => rfl

/-- An upload to some of the halves. -/
theorem same_uploads (nbits : UInt32) (halves : List HalfId) (g : GpuWorker) :
    let g' := halves.foldl (fun g h => g.uploadPowTarget h nbits) g
    g'.track = g.track ∧ g'.shares = g.shares ∧ g'.shareJobs = g.shareJobs := by
  induction halves generalizing g with
  | nil => exact ⟨rfl, rfl, rfl⟩
  | cons h halves ih =>
    obtain ⟨htrack, hshares, hjobs⟩ := ih (g.uploadPowTarget h nbits)
    exact ⟨htrack.trans (track_uploadPowTarget nbits), hshares.trans (shares_uploadPowTarget nbits),
      hjobs⟩

end Halves

section Steps

variable {w : ℕ} {m : Pipeline} {v : View} {H : Heap} {g : GpuWorker} {a : Answer}
  {r : View × List Event} {es : List Event}

/-- A step that changes no variable of the mining, and stays in its phase. -/
theorem Follows.quiet (h : Follows v.worker m) (htrack : g.track = v.worker.track)
    (hphase : g.pc.phase = v.worker.pc.phase) (hshares : g.shares = v.worker.shares)
    (hjobs : g.shareJobs = v.worker.shareJobs)
    (hes : ∀ e ∈ es, e.ofWorker w = true → e.silent = true) : Followed w m (⟨H, g⟩, es) := by
  obtain ⟨hall, hsame⟩ := pipeline_ignores (m := m) hes
  refine ⟨hall, ?_⟩
  rw [hsame]
  refine ⟨?_, hshares.trans h.counter, ?_⟩
  · change g.pc.phase ≠ .ended → Mining g.track g.pc.phase m
    rw [hphase, htrack]
    exact h.mining
  · change ∀ half, m.pending half = g.shareJobs.countP (·.half = half)
    rw [hjobs]
    exact h.jobs

theorem Follows.goto (h : Follows v.worker m) {pc : RunPc} (hphase : pc.phase = v.worker.pc.phase) :
    Followed w m (v.goto pc, []) := h.quiet rfl hphase rfl rfl nofun

theorem Follows.exit (h : Follows v.worker m) : Followed w m (v.exit, []) :=
  ⟨trivial, fun hne => absurd rfl hne, h.counter, h.jobs⟩

/-- The job is replaced or given up. -/
theorem Follows.rotated (h : Follows v.worker m) (hlive : v.worker.pc.phase ≠ .ended)
    (first : Bool) (batch : ℕ) (htrack : g.track = { v.worker.track with first, batch })
    (hbacklog : g.track.backlog g.pc.phase = 0)
    (hat : ∀ m', g.track.At m' g.pc.phase) (hshares : g.shares = v.worker.shares)
    (hjobs : g.shareJobs = v.worker.shareJobs) :
    Followed w m (⟨H, g⟩, [.rotated w]) := by
  have hown : (Event.rotated w).ofWorker w = true := by simp [Event.ofWorker]
  refine ⟨⟨fun _ => trivial, trivial⟩, ?_⟩
  rw [List.foldl_cons, List.foldl_nil, pipeline_observe hown]
  refine ⟨fun _ => ?_, hshares.trans h.counter, ?_⟩
  · rw [htrack] at hbacklog hat ⊢
    exact (h.mining hlive).restart hbacklog (hat _) rfl
  · change ∀ half, m.pending half = g.shareJobs.countP (·.half = half)
    rw [hjobs]
    exact h.jobs

theorem Follows.giveUp (h : Follows v.worker m) (hlive : v.worker.pc.phase ≠ .ended) :
    Followed w m (v.giveUp w) :=
  h.rotated hlive true v.worker.batch rfl rfl (fun _ => trivial) rfl rfl

theorem Follows.rotate (h : Follows v.worker m) {new : Ctx} {swap : Bool}
    (hpc : v.worker.pc = .drain new swap) (hstep : v.rotate w new swap = some r) :
    Followed w m r := by
  have hlive : v.worker.pc.phase ≠ .ended := by rw [hpc]; nofun
  have hphase : (View.startHalves v.worker swap).phase = .rotating := by
    unfold View.startHalves
    dsimp only
    split_ifs <;> rfl
  unfold View.rotate at hstep
  dsimp only at hstep
  split_ifs at hstep
  obtain rfl := Option.some.inj hstep
  refine h.rotated hlive v.worker.first v.worker.matmulsPerPoll rfl ?_ (fun m' => ?_) rfl rfl
  · simp only [hphase, Track.backlog]
  · simp only [hphase, Track.At]

theorem Follows.installCurrent (h : Follows v.worker m) {c : Ctx} {pc : InstallPc}
    {bound todo : List HalfId} {half : HalfId} (hphase : v.worker.pc.phase = .rotating)
    (hstep : v.installCurrent w c pc a bound half todo = some r) : Followed w m r := by
  obtain ⟨⟨x, result⟩, -, rfl⟩ := Option.map_eq_some_iff.mp hstep
  cases result with
  | inside pc => exact h.quiet rfl hphase.symm rfl rfl nofun
  | returned =>
    refine h.quiet rfl hphase.symm rfl rfl ?_
    simp [Event.silent]
  | threw =>
    let v' : View := { v with heap := v.heap.modify c fun _ => x }
    have h' : Follows v'.worker m := h
    exact h'.giveUp (by rw [hphase]; nofun)

theorem Follows.bindThrows (h : Follows v.worker m) {swap : Bool}
    (hphase : v.worker.pc.phase = .rotating) : Followed w m (v.bindThrows w swap) := by
  cases swap with
  | false => exact h.giveUp (by rw [hphase]; nofun)
  | true => exact h.exit

theorem Follows.upload (h : Follows g m) {half : HalfId} (nbits : UInt32) :
    Follows (g.uploadPowTarget half nbits) m := by
  refine ⟨?_, (shares_uploadPowTarget nbits).trans h.counter, h.jobs⟩
  rw [track_uploadPowTarget]
  exact h.mining

theorem phase_nextHalf (swap : Bool) (bound : List HalfId) (half : HalfId) (todo : List HalfId) :
    (View.nextHalf swap bound half todo).phase = .rotating := by
  cases todo with
  | nil => rfl
  | cons next todo => cases swap <;> rfl

theorem Follows.bindHalf (h : Follows v.worker m) {c : Ctx} {pc : BindPc} {swap : Bool}
    {bound todo : List HalfId} {half : HalfId} (hphase : v.worker.pc.phase = .rotating)
    (hstep : v.bindHalf w c swap bound half todo pc a = some r) : Followed w m r := by
  unfold View.bindHalf at hstep
  split at hstep
  case h_4 nbits =>
    obtain rfl := Option.some.inj hstep
    have h' : Follows (v.worker.uploadPowTarget half nbits) m := h.upload nbits
    let v' : View := { v with worker := v.worker.uploadPowTarget half nbits }
    exact Follows.quiet (v := v') h' rfl ((phase_nextHalf ..).trans hphase.symm) rfl rfl nofun
  case h_5 =>
    obtain rfl := Option.some.inj hstep
    exact h.bindThrows hphase
  case h_6 nbits far =>
    obtain rfl := Option.some.inj hstep
    cases far with
    | false => exact h.bindThrows hphase
    | true =>
      let v' : View := { v with worker := v.worker.uploadPowTarget half nbits }
      have h' : Follows v'.worker m := h.upload nbits
      exact h'.bindThrows hphase
  case h_7 => cases hstep
  all_goals
    obtain rfl := Option.some.inj hstep
    exact h.quiet rfl hphase.symm rfl rfl nofun

/-- After an install or a swap the pipeline is filled anew. -/
theorem Follows.clearDirty (h : Follows v.worker m) {swap : Bool}
    (hpc : v.worker.pc = .clearDirty swap) : Followed w m (v.clearDirty swap, []) := by
  have hphase : v.worker.pc.phase = .rotating := by rw [hpc]; rfl
  have hmining : Mining v.worker.track .rotating m := h.mining_of_phase hphase nofun
  have hempty : m.inFlight = [] := hmining.inFlight.trans (Track.inFlight_of_backlog rfl)
  have hnext : (v.clearDirty swap).worker.pc.phase = .round := by cases swap <;> rfl
  refine ⟨trivial, fun _ => ?_, h.counter, h.jobs⟩
  rw [hnext]
  exact hmining.restart rfl trivial hempty

/-! #### Mining -/

/-- A launch: the batch goes on a half that is free, at the end of the queue. -/
theorem Follows.launch (h : Follows v.worker m) {k : HalfId} (rest : List HalfId) {c : Ctx}
    (hround : v.worker.pc.phase = .round) (horder : v.worker.track.order .round = k :: rest)
    (hpending : (v.worker.half k).shareJobsPending = 0)
    (horder' : g.track.order g.pc.phase = rest ++ [k])
    (hbacklog : g.track.backlog g.pc.phase = v.worker.track.backlog .round + 1)
    (hbatch : g.track.batch = v.worker.track.batch)
    (hseed : g.track.seed =
      Function.update v.worker.track.seed k (v.worker.cfg.seedBase + v.worker.globalIter))
    (hrest : ∀ m', m'.inFlight = g.track.inFlight g.pc.phase → Mining g.track g.pc.phase m')
    (hshares : g.shares = v.worker.shares) (hjobs : g.shareJobs = v.worker.shareJobs)
    (hes : ∀ e ∈ es, e.silent = true) :
    Followed w m (⟨H, g⟩, v.queuedEvent w c k :: es) := by
  have hmining : Mining v.worker.track .round m := h.mining_of_phase hround nofun
  have hown : (v.queuedEvent w c k).ofWorker w = true := by
    simp [View.queuedEvent, Event.ofWorker]
  have hnext : g.track.inFlight g.pc.phase = m.inFlight ++ [g.track.batchOf k] := by
    refine hmining.inFlight_launch horder horder' hbacklog hbatch fun half hne => ?_
    rw [hseed, Function.update_of_ne hne]
  have hbatchOf : g.track.batchOf k =
      ⟨k, v.worker.cfg.seedBase + v.worker.globalIter, v.worker.batch⟩ := by
    rw [Track.batchOf, hseed, Function.update_self, hbatch]
    rfl
  obtain ⟨hall, hsame⟩ := pipeline_ignores (w := w)
    (m := (pipeline w).observe m (v.queuedEvent w c k)) fun e he _ => hes e he
  refine ⟨⟨fun _ => ⟨hmining.free_of_order horder, ?_⟩, hall⟩, ?_⟩
  · rw [← h.counter]
    exact hpending
  · rw [List.foldl_cons, hsame, pipeline_observe hown]
    refine ⟨fun _ => hrest _ ?_, hshares.trans h.counter, ?_⟩
    · rw [hnext, hbatchOf]
      rfl
    · change ∀ half, m.pending half = g.shareJobs.countP (·.half = half)
      rw [hjobs]
      exact h.jobs

theorem Track.order_triple {t : Track} {p : Phase} (htriple : t.triple = true) :
    t.order p = ringFrom t.launchIndex := by
  unfold Track.order
  exact if_pos htriple

/-- The variables after a launch on the ring. -/
def Track.launchTriple (t : Track) (tripleWarmup : ℕ) (seed : HalfId → UInt64) : Track :=
  { t with
    first := false, launchI := (t.launchIndex + 1) % View.numHalves, tripleWarmup, seed }

theorem Track.order_launchTriple {t : Track} {p : Phase} (htriple : t.triple = true)
    (hindex : t.launchIndex < View.numHalves) (warmup : ℕ) (seed : HalfId → UInt64) :
    (t.launchTriple warmup seed).order p =
      (ringFrom t.launchIndex).tail ++ [View.ring t.launchIndex] := by
  have htriple' : (t.launchTriple warmup seed).triple = true := htriple
  rw [Track.order_triple htriple']
  exact ringFrom_succ hindex

theorem track_launchTriple (g : GpuWorker) (warmup : ℕ) (pc : RunPc) :
    (View.launchTriple g warmup pc).track = g.track.launchTriple warmup
      (Function.update g.track.seed (View.ring g.track.launchIndex)
        (g.cfg.seedBase + g.globalIter)) := by
  have hqueue := track_queueBatch g (View.ring g.track.launchIndex)
  exact congrArg (fun t : Track => { t with
    first := false
    launchI := (g.track.launchIndex + 1) % View.numHalves
    tripleWarmup := warmup }) hqueue

/-- A launch on the ring. -/
theorem Follows.launchTriple (h : Follows v.worker m) {c : Ctx} {warmup : ℕ} {pc : RunPc}
    (hround : v.worker.pc.phase = .round) (htriple : v.worker.cfg.tripleBufferActive = true)
    (hpending : (v.worker.half (View.ring (View.launchIndex v.worker))).shareJobsPending = 0)
    (hwarmup : warmup ≤ View.pipelineDepth)
    (hbacklog : ∀ seed, (v.worker.track.launchTriple warmup seed).backlog pc.phase =
      v.worker.track.backlog .round + 1)
    (hat : ∀ seed m', (v.worker.track.launchTriple warmup seed).At m' pc.phase)
    (hes : ∀ e ∈ es, e.silent = true) :
    Followed w m ({ v with worker := View.launchTriple v.worker warmup pc },
      v.queuedEvent w c (View.ring (View.launchIndex v.worker)) :: es) := by
  have hmining : Mining v.worker.track .round m := h.mining_of_phase hround nofun
  have htrack := track_launchTriple v.worker warmup pc
  refine h.launch (ringFrom v.worker.track.launchIndex).tail hround ?_ hpending
    ?order ?backlog rfl ?seed ?rest ?shares rfl hes
  · exact Track.order_triple htriple
  case order =>
    rw [htrack]
    exact Track.order_launchTriple htriple hmining.launchIndex_lt _ _
  case backlog =>
    rw [htrack]
    exact hbacklog _
  case seed =>
    rw [htrack]
    rfl
  case rest =>
    intro m' hflight
    rw [htrack] at hflight ⊢
    refine ⟨hmining.distinct, Nat.mod_lt _ (Nat.succ_pos _), ?_, hflight, hat _ _⟩
    have htriple' : v.worker.track.triple = true := htriple
    simpa [Track.launchTriple, htriple'] using hwarmup
  case shares => exact shares_queueBatch v.worker _

theorem warmup_le_of_mining (h : Mining g.track .round m)
    (htriple : g.cfg.tripleBufferActive = true) : View.warmup g ≤ View.pipelineDepth := by
  unfold View.warmup
  split_ifs
  · exact le_rfl
  · exact h.warmup_of_triple htriple

/-- In the ring the batches in flight are those that the warm-up has launched. -/
theorem backlog_triple (htriple : g.cfg.tripleBufferActive = true) :
    g.track.backlog .round = View.pipelineDepth - View.warmup g := by
  have htriple' : g.track.triple = true := htriple
  unfold View.warmup
  simp only [Track.backlog, Track.depth, htriple', if_true]
  change (if g.first then 0 else View.pipelineDepth - g.tripleWarmup) = _
  split_ifs
  · exact (Nat.sub_self _).symm
  · rfl

theorem Follows.mineTripleWarmup (h : Follows v.worker m) {c : Ctx}
    (hround : v.worker.pc.phase = .round) (htriple : v.worker.cfg.tripleBufferActive = true)
    (hpending : (v.worker.half (View.ring (View.launchIndex v.worker))).shareJobsPending = 0)
    (hpos : 0 < View.warmup v.worker) :
    Followed w m ({ v with worker := View.launchTriple v.worker (View.warmup v.worker - 1) .top },
      [v.queuedEvent w c (View.ring (View.launchIndex v.worker)), .loopEnd w]) := by
  have hmining : Mining v.worker.track .round m := h.mining_of_phase hround nofun
  have hle := warmup_le_of_mining hmining htriple
  have htriple' : v.worker.track.triple = true := htriple
  refine h.launchTriple hround htriple hpending ((Nat.sub_le _ _).trans hle) (fun seed => ?_)
    (fun _ _ => trivial) (by simp [Event.silent])
  rw [backlog_triple htriple]
  simp only [RunPc.phase, Track.backlog, Track.launchTriple, Track.depth, htriple', if_true,
    Bool.false_eq_true, if_false]
  omega

theorem Follows.mineTriple (h : Follows v.worker m) {c : Ctx}
    (hround : v.worker.pc.phase = .round) (htriple : v.worker.cfg.tripleBufferActive = true)
    (hpending : (v.worker.half (View.ring (View.launchIndex v.worker))).shareJobsPending = 0)
    (hzero : View.warmup v.worker = 0) :
    Followed w m ({ v with
        worker := View.launchTriple v.worker 0 (.complete (View.completeHalf v.worker)) },
      [v.queuedEvent w c (View.ring (View.launchIndex v.worker))]) := by
  have hmining : Mining v.worker.track .round m := h.mining_of_phase hround nofun
  have htriple' : v.worker.track.triple = true := htriple
  refine h.launchTriple hround htriple hpending (Nat.zero_le _) (fun seed => ?_)
    (fun seed m' => ⟨?_, rfl, rfl⟩) nofun
  · rw [backlog_triple htriple, hzero]
    simp [RunPc.phase, Track.backlog, Track.launchTriple, Track.depth, htriple']
  · -- `complete_i` is the index after `launch_i`, where the oldest batch is
    rw [Track.order_launchTriple htriple' hmining.launchIndex_lt]
    rfl

theorem Track.order_pingPong {t : Track} (htriple : t.triple = false) :
    t.order .round = [t.ping, t.pong] := by
  unfold Track.order
  rw [if_neg (by simp [htriple])]

theorem Follows.mineFirstPing (h : Follows v.worker m) {c : Ctx}
    (hround : v.worker.pc.phase = .round) (htriple : v.worker.cfg.tripleBufferActive = false)
    (hpending : (v.worker.half v.worker.ping).shareJobsPending = 0)
    (hfirst : v.worker.first = true) :
    Followed w m ({ v with worker := { View.queueBatch v.worker v.worker.ping with
        first := false, ping := v.worker.pong, pong := v.worker.ping, pc := .top } },
      [v.queuedEvent w c v.worker.ping, .loopEnd w]) := by
  have hmining : Mining v.worker.track .round m := h.mining_of_phase hround nofun
  have hzero : v.worker.tripleWarmup = 0 := hmining.warmup_of_pingPong htriple
  have hseed := congrArg Track.seed (track_queueBatch v.worker v.worker.ping)
  refine h.launch [v.worker.pong] hround ?_ hpending ?_ ?_ rfl hseed (fun m' hflight => ?_)
    (shares_queueBatch v.worker _) rfl (by simp [Event.silent])
  · exact Track.order_pingPong htriple
  · exact Track.order_pingPong htriple
  · simp [Track.backlog, Track.depth, RunPc.phase, GpuWorker.track, View.queueBatch,
      GpuWorker.setHalf, hfirst, htriple, hzero]
  · exact ⟨hmining.distinct.symm, hmining.launchI, hmining.warmup, hflight, trivial⟩

theorem Follows.minePingPong (h : Follows v.worker m) {c : Ctx}
    (hround : v.worker.pc.phase = .round) (htriple : v.worker.cfg.tripleBufferActive = false)
    (hpending : (v.worker.half v.worker.ping).shareJobsPending = 0)
    (hfirst : v.worker.first = false) :
    Followed w m ({ v with worker := { View.queueBatch v.worker v.worker.ping with
        pc := .complete v.worker.pong } }, [v.queuedEvent w c v.worker.ping]) := by
  have hmining : Mining v.worker.track .round m := h.mining_of_phase hround nofun
  have hzero : v.worker.tripleWarmup = 0 := hmining.warmup_of_pingPong htriple
  have hseed := congrArg Track.seed (track_queueBatch v.worker v.worker.ping)
  have horder' : ∀ t : Track, t.triple = false →
      t.order (.completing v.worker.pong) = [t.pong, t.ping] := by
    intro t ht
    unfold Track.order
    rw [if_neg (by simp [ht])]
  refine h.launch [v.worker.pong] hround ?_ hpending (horder' _ htriple) ?_ rfl hseed
    (fun m' hflight => ?_) (shares_queueBatch v.worker _) rfl nofun
  · exact Track.order_pingPong htriple
  · simp [Track.backlog, Track.depth, RunPc.phase, GpuWorker.track, View.queueBatch,
      GpuWorker.setHalf, hfirst, htriple, hzero]
  · refine ⟨hmining.distinct, hmining.launchI, hmining.warmup, hflight, ?_, hfirst, hzero⟩
    exact congrArg List.head? (horder' _ htriple)

theorem Follows.mine (h : Follows v.worker m) (hpc : v.worker.pc = .mine)
    (hstep : v.mine w = some r) : Followed w m r := by
  have hround : v.worker.pc.phase = .round := by rw [hpc]; rfl
  refine View.mine_cases hstep ?idle ?exit ?tripleWarmup ?triple ?firstPing ?pingPong
  case idle =>
    intro _
    refine h.quiet rfl hround.symm rfl rfl ?_
    simp [Event.silent]
  case exit =>
    intro _
    exact h.exit
  case tripleWarmup =>
    intro c _ htriple hpending hpos
    exact h.mineTripleWarmup hround htriple hpending hpos
  case triple =>
    intro c _ htriple hpending hzero
    exact h.mineTriple hround htriple hpending hzero
  case firstPing =>
    intro c _ htriple hpending hfirst
    exact h.mineFirstPing hround htriple hpending hfirst
  case pingPong =>
    intro c _ htriple hpending hfirst
    exact h.minePingPong hround htriple hpending hfirst

/-- The oldest batch is scanned, with the seed and size it was queued with. -/
theorem Follows.scan (h : Follows v.worker m) {half : HalfId} {hits : List ℕ}
    (hpc : v.worker.pc = .complete half) : Followed w m (v.scan w half hits) := by
  have hmining : Mining v.worker.track (.completing half) m :=
    h.mining_of_phase (by rw [hpc]; rfl) nofun
  let winners := (List.range v.worker.batch).filter (· ∈ hits)
  have hflight := hmining.inFlight_scan winners
  obtain ⟨-, hfirst, hwarmup⟩ := hmining.position
  have hown : (Event.scanned w half (v.worker.half half).batchSeedStart
      v.worker.batch).ofWorker w = true := by simp [Event.ofWorker]
  refine ⟨⟨fun _ => ?_, trivial⟩, ?_⟩
  · change m.inFlight.head? = _
    rw [hflight]
    rfl
  · change Follows _ ((pipeline w).observe m _)
    rw [pipeline_observe hown]
    refine ⟨fun _ => ?_, h.counter, h.jobs⟩
    refine ⟨hmining.distinct, hmining.launchI, hmining.warmup, ?_, rfl, ?_, hfirst, hwarmup⟩
    · change m.inFlight.tail = _
      rw [hflight]
      rfl
    · intro k hk
      exact List.mem_range.mp (List.mem_of_mem_filter hk)

/-- A winner of the batch that was scanned, and its share job if it is deferred. -/
theorem Follows.trigger (h : Follows v.worker m) {c : Ctx} {half : HalfId} {k : ℕ}
    {winners : List ℕ} (hpc : v.worker.pc = .trigger half (k :: winners)) :
    Followed w m (v.trigger w c half k winners) := by
  have hmining : Mining v.worker.track (.triggering half (k :: winners)) m :=
    h.mining_of_phase (by rw [hpc]; rfl) nofun
  obtain ⟨hscanned, hwinners, hfirst, hwarmup⟩ := hmining.position
  have hmining' : ∀ pending, Mining v.worker.track (.triggering half winners)
      { m with pending } := by
    intro pending
    refine ⟨hmining.distinct, hmining.launchI, hmining.warmup, hmining.inFlight, hscanned, ?_,
      hfirst, hwarmup⟩
    exact fun k' hk' => hwinners k' (List.mem_cons_of_mem k hk')
  have hallows : m.Allows
      (.winner w half k ((v.worker.half half).batchSeedStart + UInt64.ofNat k)) :=
    ⟨_, hscanned, rfl, hwinners k (List.mem_cons_self ..), rfl⟩
  have hwinner : (pipeline w).observe m
      (.winner w half k ((v.worker.half half).batchSeedStart + UInt64.ofNat k)) = m := by
    rw [pipeline_observe (by simp [Event.ofWorker])]
    rfl
  unfold View.trigger
  dsimp only
  split_ifs
  · refine ⟨⟨fun _ => hallows, fun _ => trivial, trivial⟩, ?_⟩
    rw [List.foldl_cons, hwinner, List.foldl_cons, List.foldl_nil,
      pipeline_observe (by simp [Event.ofWorker])]
    refine ⟨fun _ => ?_, ?_, fun half' => ?_⟩
    · have htrack : (v.worker.setHalf half Half.addShareJob).track = v.worker.track :=
        track_setHalf fun _ => rfl
      change Mining (v.worker.setHalf half Half.addShareJob).track _ _
      rw [htrack]
      exact hmining' _
    · change (v.worker.setHalf half Half.addShareJob).shares = _
      rw [shares_setHalf_update]
      change _ = Function.update m.pending half (m.pending half + 1)
      rw [← h.counter]
      rfl
    · change Function.update m.pending half (m.pending half + 1) half' = List.countP _
        (v.worker.shareJob.toList ++ (v.worker.shareQueue ++ [_]))
      rw [← List.append_assoc, List.countP_append]
      by_cases heq : half' = half
      · subst heq
        rw [Function.update_self, h.jobs]
        simp [GpuWorker.shareJobs, View.shareTriggerJob]
      · rw [Function.update_of_ne heq, h.jobs]
        simp [GpuWorker.shareJobs, View.shareTriggerJob, Ne.symm heq]
  · refine ⟨⟨fun _ => hallows, trivial⟩, ?_⟩
    rw [List.foldl_cons, hwinner, List.foldl_nil]
    exact ⟨fun _ => hmining' m.pending, h.counter, h.jobs⟩

/-- At the end of a round nothing happens to the queue: in ping-pong mode the half that
was scanned is the one to launch on. -/
theorem Follows.endRound (h : Follows v.worker m) {half : HalfId}
    (hpc : v.worker.pc = .trigger half []) : Followed w m (v.endRound w) := by
  have hmining : Mining v.worker.track (.triggering half []) m :=
    h.mining_of_phase (by rw [hpc]; rfl) nofun
  obtain ⟨-, -, hfirst, hwarmup⟩ := hmining.position
  have hbacklog : ∀ t : Track, t.triple = v.worker.track.triple → t.first = false →
      t.tripleWarmup = 0 → t.backlog .round = v.worker.track.backlog (.triggering half []) := by
    intro t htriple hfirst hwarmup
    simp [Track.backlog, Track.depth, htriple, hfirst, hwarmup]
  have hsilent : ∀ e ∈ [Event.loopEnd w], e.ofWorker w = true → e.silent = true := by
    simp [Event.silent]
  obtain ⟨hall, hsame⟩ := pipeline_ignores (m := m) hsilent
  unfold View.endRound
  dsimp only
  split_ifs with htriple
  · refine ⟨hall, ?_⟩
    rw [hsame]
    refine ⟨fun _ => ⟨hmining.distinct, hmining.launchI, hmining.warmup, ?_, trivial⟩,
      h.counter, h.jobs⟩
    have htriple' : v.worker.track.triple = true := htriple
    rw [hmining.inFlight, Track.inFlight, Track.order_triple htriple',
      ← hbacklog v.worker.track rfl hfirst hwarmup]
    change _ = v.worker.track.inFlight .round
    rw [Track.inFlight, Track.order_triple htriple']
  · refine ⟨hall, ?_⟩
    rw [hsame]
    refine ⟨fun _ => ⟨hmining.distinct.symm, hmining.launchI, hmining.warmup, ?_, trivial⟩,
      h.counter, h.jobs⟩
    let t' : Track := { v.worker.track with ping := v.worker.pong, pong := v.worker.ping }
    have horder : v.worker.track.order (.triggering half []) = t'.order .round := by
      have hpingPong : ¬ v.worker.track.triple = true := htriple
      simp [Track.order, t', hpingPong]
      exact ⟨rfl, rfl⟩
    change _ = t'.inFlight .round
    rw [hmining.inFlight, Track.inFlight, horder, ← hbacklog t' rfl hfirst hwarmup]
    rfl

/-- The run loop. -/
theorem Follows.runStep (h : Follows v.worker m) (hstep : runStep w v a = some r) :
    Followed w m r := by
  refine runStep_cases hstep ?top ?readSigma ?asyncFailed ?submitInstall ?drain ?install ?bind
    ?clearDirty ?takeReady ?want ?freeStale ?testDirty ?loadTarget ?upload ?mine ?complete
    ?trigger ?endRound ?exit
  case top =>
    intro hpc
    have hphase : v.worker.pc.phase = .round := by rw [hpc]; rfl
    unfold View.runTop
    split_ifs
    · exact h.exit
    · exact h.quiet rfl rfl rfl rfl nofun
    · refine h.quiet rfl hphase.symm rfl rfl ?_
      simp [Event.silent]
  case readSigma =>
    intro hpc
    have hphase : v.worker.pc.phase = .round := by rw [hpc]; rfl
    unfold View.readSigma
    dsimp only
    split
    · split_ifs <;> exact h.goto hphase.symm
    · split_ifs <;> exact h.goto hphase.symm
  case asyncFailed =>
    intro new hpc
    have hphase : v.worker.pc.phase = .round := by rw [hpc]; rfl
    unfold View.askFailed
    split_ifs <;> exact h.quiet rfl hphase.symm rfl rfl nofun
  case submitInstall =>
    intro new hpc
    have hphase : v.worker.pc.phase = .round := by rw [hpc]; rfl
    unfold View.submitAsyncInstall
    split_ifs <;> exact h.quiet rfl hphase.symm rfl rfl nofun
  case drain =>
    intro new swap hpc hrotate
    exact h.rotate hpc hrotate
  case install =>
    intro pc bound half todo c hpc _ hinstall
    exact h.installCurrent (by rw [hpc]; rfl) hinstall
  case bind =>
    intro pc swap bound half todo c hpc _ hbind
    exact h.bindHalf (by rw [hpc]; rfl) hbind
  case clearDirty =>
    intro swap hpc
    exact h.clearDirty hpc
  case takeReady =>
    intro hpc
    have hphase : v.worker.pc.phase = .round := by rw [hpc]; rfl
    unfold View.takeAsyncReady
    split <;> exact h.quiet rfl hphase.symm rfl rfl nofun
  case want =>
    intro ready hpc
    have hphase : v.worker.pc.phase = .round := by rw [hpc]; rfl
    unfold View.readWant
    dsimp only
    split_ifs <;> exact h.goto hphase.symm
  case freeStale =>
    intro ready hpc
    exact h.quiet rfl (by rw [hpc]; rfl) rfl rfl nofun
  case testDirty =>
    intro hpc
    have hphase : v.worker.pc.phase = .round := by rw [hpc]; rfl
    unfold View.testDirty
    split_ifs <;> exact h.quiet rfl hphase.symm rfl rfl nofun
  case loadTarget =>
    intro hpc
    exact h.goto (by rw [hpc]; rfl)
  case upload =>
    intro nbits hpc _
    obtain ⟨htrack, hshares, hjobs⟩ := same_uploads nbits v.worker.halves v.worker
    exact h.quiet htrack (by rw [hpc]; rfl) hshares hjobs nofun
  case mine =>
    intro hpc hmine
    exact h.mine hpc hmine
  case complete =>
    intro half hits hpc _
    exact h.scan hpc
  case trigger =>
    intro half k winners c hpc _ _
    exact h.trigger hpc
  case endRound =>
    intro half hpc
    exact h.endRound hpc
  case exit =>
    intro _ _ _
    exact h.exit

/-- The background installer knows nothing of the mining. -/
theorem Follows.installerStep (h : Follows v.worker m) (hstep : installerStep w v a = some r) :
    Followed w m r := by
  refine installerStep_cases hstep ?wait ?guard ?refused ?install ?publish ?supersede ?markFailed
  case install =>
    intro pc c _ hinstall
    obtain ⟨⟨x, result⟩, -, rfl⟩ := Option.map_eq_some_iff.mp hinstall
    cases result with
    | inside pc => exact h.quiet rfl rfl rfl rfl nofun
    | returned =>
      refine h.quiet rfl rfl rfl rfl ?_
      simp [Event.silent]
    | threw => exact h.quiet rfl rfl rfl rfl nofun
  all_goals
    intros
    exact h.quiet rfl rfl rfl rfl nofun

/-- The share thread counts a job off its half. -/
theorem Follows.shareStep (h : Follows v.worker m) (hstep : shareStep w v = some r) :
    Followed w m r := by
  unfold PropMiner.Jobs.shareStep at hstep
  dsimp only at hstep
  split at hstep
  · cases hstep
  · rename_i job rest hjob hqueue
    obtain rfl := Option.some.inj hstep
    refine h.quiet rfl rfl rfl ?_ nofun
    simp [GpuWorker.shareJobs, hjob, hqueue]
  · rename_i job hjob
    obtain rfl := Option.some.inj hstep
    have hjobs : v.worker.shareJobs = job :: v.worker.shareQueue := by
      simp [GpuWorker.shareJobs, hjob]
    have hown : (Event.shareDone w job.half).ofWorker w = true := by simp [Event.ofWorker]
    refine ⟨⟨fun _ => ?_, trivial⟩, ?_⟩
    · change 0 < m.pending job.half
      rw [h.jobs, hjobs]
      simp
    · rw [List.foldl_cons, List.foldl_nil, pipeline_observe hown]
      refine ⟨fun hlive => ?_, ?_, fun half => ?_⟩
      · have htrack : (v.worker.setHalf job.half Half.shareJobDone).track = v.worker.track :=
          track_setHalf fun _ => rfl
        change Mining (v.worker.setHalf job.half Half.shareJobDone).track _ _
        rw [htrack]
        obtain ⟨hdistinct, hlaunch, hwarmup, hflight, hat⟩ := h.mining hlive
        refine ⟨hdistinct, hlaunch, hwarmup, hflight, ?_⟩
        revert hat
        change Track.At _ _ v.worker.pc.phase → Track.At _ _ v.worker.pc.phase
        cases v.worker.pc.phase <;> exact id
      · change (v.worker.setHalf job.half Half.shareJobDone).shares = _
        rw [shares_setHalf_update]
        change _ = Function.update m.pending job.half (m.pending job.half - 1)
        rw [← h.counter]
        rfl
      · change Function.update m.pending job.half (m.pending job.half - 1) half =
          List.countP _ ([] ++ v.worker.shareQueue)
        by_cases heq : half = job.half
        · subst heq
          rw [Function.update_self, h.jobs, hjobs]
          simp
        · rw [Function.update_of_ne heq, h.jobs, hjobs]
          simp [Ne.symm heq]

end Steps

/-! ### Runs -/

section Runs

variable {n : ℕ} {s s' : Miner n} {m : Pipeline} {w w' : Fin n} {es : List Event} {a : Input n}

theorem ofWorker_of_ne {e : Event} (he : e.ofWorker w' = true) (hne : w ≠ w') :
    e.ofWorker w = false := by
  have hval : (w' : ℕ) ≠ w := fun h => hne (Fin.val_inj.mp h).symm
  cases e with
  | published | targetSet | sigmaSet => rfl
  | _ =>
    simp only [Event.ofWorker, decide_eq_true_eq] at he
    simp [Event.ofWorker, he, hval]

/-- A step of the threads of a worker, seen by the monitor of any worker. -/
theorem followed_update {r : View × List Event} (h : Follows (s.workers w) m)
    (hown : Own w' (s.workers w') r) (hfollowed : w = w' → Followed w m r) :
    (pipeline w).AllowsAll m r.2 ∧
      Follows ((s.update w' r.1).workers w) (r.2.foldl (pipeline w).observe m) := by
  by_cases hw : w = w'
  · subst hw
    rw [Miner.workers_update_self]
    exact hfollowed rfl
  · have hes : ∀ e ∈ r.2, e.ofWorker w = true → e.silent = true := by
      intro e he hmine
      rw [ofWorker_of_ne (hown.events e he) hw] at hmine
      cases hmine
    obtain ⟨hall, hsame⟩ := pipeline_ignores (m := m) hes
    rw [hsame, Miner.workers_update_of_ne _ hw]
    exact ⟨hall, h⟩

theorem Follows.step (h : Follows (s.workers w) m) (hstep : s.step a = some (s', es)) :
    (pipeline w).AllowsAll m es ∧ Follows (s'.workers w) (es.foldl (pipeline w).observe m) := by
  refine step_cases (P := fun r => (pipeline w).AllowsAll m r.2 ∧
    Follows (r.1.workers w) (r.2.foldl (pipeline w).observe m)) hstep ?orchestrator ?run
      ?installer ?share
  case orchestrator =>
    intro _ horchestrated
    have hes : ∀ e ∈ es, e.ofWorker w = true → e.silent = true := by
      intro e he hmine
      rw [horchestrated.events e he w] at hmine
      cases hmine
    obtain ⟨hall, hsame⟩ := pipeline_ignores (m := m) hes
    rw [hsame, horchestrated.workers w]
    exact ⟨hall, h.mining, h.counter, h.jobs⟩
  case run =>
    rintro w' x q rfl hrun
    refine followed_update h (own_runStep hrun) ?_
    rintro rfl
    exact Follows.runStep (v := s.view w) h hrun
  case installer =>
    rintro w' x q rfl hinstaller
    refine followed_update h (own_installerStep hinstaller) ?_
    rintro rfl
    exact Follows.installerStep (v := s.view w) h hinstaller
  case share =>
    rintro w' q rfl hshare
    refine followed_update h (own_shareStep hshare) ?_
    rintro rfl
    exact Follows.shareStep (v := s.view w) h hshare

theorem follows_start (cfg : Fin n → Config) (mpp : Fin n → ℕ) :
    Follows ((Miner.start cfg mpp).workers w) (pipeline w).start := by
  refine ⟨fun _ => ⟨nofun, Nat.succ_pos _, Nat.zero_le _, ?_, trivial⟩, rfl, fun _ => rfl⟩
  exact (Track.inFlight_of_backlog rfl).symm

end Runs

/-- In every run, whatever the workers meet, each worker queues a batch only on a half that
is free and has no share job pending, scans the batches of a job in the order in which
they were queued, each once and without leaving one out, and takes the nonces of the
winners from the batch that was scanned. -/
theorem pipelined {n : ℕ} {cfg : Fin n → Config} {mpp : Fin n → ℕ} {tr : List Event}
    {s : Miner n} (hrun : (machine n).Run Machine.anyStep (Miner.start cfg mpp) tr s) (w : Fin n) :
    (pipeline w).Accepts tr ∧
      (∀ h, ((s.workers w).half h).shareJobsPending = ((pipeline w).after tr).pending h) ∧
      ∀ pre seg post, tr = pre ++ .rotated (w : ℕ) :: seg ++ post → .rotated (w : ℕ) ∉ seg →
        seg.filterMap (Event.scannedBatch w) <+: seg.filterMap (Event.queuedBatch w) := by
  obtain ⟨haccepts, hfollows⟩ := hrun.monitored (N := pipeline w)
    (R := fun s m => Follows (s.workers w) m) (follows_start cfg mpp)
    fun _ _ _ _ _ h _ hstep => h.step hstep
  refine ⟨haccepts, fun h => congrFun hfollows.counter h, ?_⟩
  rintro pre seg post rfl hseg
  have hbefore : (pipeline w).Accepts (pre ++ .rotated (w : ℕ) :: seg) := by
    intro pre' e post' heq
    exact haccepts pre' e (post' ++ post) (by rw [heq]; simp)
  rw [pipeline_conserves hbefore hseg]
  exact List.prefix_append _ _

/-- The ring is filled, the first batch has a winner, and its half is launched on again
when the share job is done. -/
def winnerRun : List (Input 1) :=
  let job : List (Input 1) := .publish 1 :: List.replicate 4 .publisher
  job ++ List.replicate 27 (.run 0 .ok) ++ [.run 0 (.headers [1])] ++
    List.replicate 2 (.run 0 .ok) ++ List.replicate 2 (.share 0) ++ List.replicate 4 (.run 0 .ok)

theorem pipelined_of_winner :
    ∃ tr s, (machine 1).Run Machine.anyStep
        (Miner.start (fun _ => { tripleBufferActive := true }) fun _ => 2) tr s ∧
      .winner 0 .ping 1 1 ∈ tr ∧ .shareDone 0 .ping ∈ tr ∧ .queued 0 .ping 0 true 6 2 ∈ tr ∧
        (pipeline 0).Accepts tr := by
  have hexec : (machine 1).exec Machine.anyStep winnerRun
    (Miner.start (fun _ => { tripleBufferActive := true }) fun _ => 2) = some (_, _) := rfl
  have hrun := Machine.run_of_exec hexec
  exact ⟨_, _, hrun, by decide, by decide, by decide, (pipelined hrun 0).1⟩

end PropMiner.Jobs
