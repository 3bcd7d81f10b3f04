import Mathlib.Data.Nat.Basic
import Mathlib.Logic.Function.Basic
import Mathlib.Order.Basic
import Mathlib.Tactic.SplitIfs

/-!
# Queueing a batch

`GpuWorker::queue_batch`: a batch of `count` nonces is mined either by one
`iter_batch` call or by a captured graph that covers `graph_batch` nonces at a
time. The graph always writes into the first `graph_batch` header slots, so each
sub-batch is copied from there to its own place, the one at offset 0 last.

What a slot holds is a hit header or nothing: `none` is a cleared header, whose
status is 0. What the driver answers to each call is part of the input, so every
exit of the function (all sub-batches done, a failed wait, an exception anywhere)
is a run of the model. A launch that was accepted has written its hits by the time
the stream is drained.

## Main definitions

* `queueBatch` — the function, on one half of the pipeline
* `Exact` — the slots hold what `iter_batch` alone would have left there
* `Complete` — which failures leave the batch exact, for which hits

## Main results

* `queueBatch_exact_iff` — a batch that returns is exact exactly when `Complete`
* `queueBatch_misattributes` — a stalled sub-batch moves a hit to another nonce
-/

set_option autoImplicit false

namespace PropMiner.Worker

variable {η : Type*}

/-- The header slots of a half. -/
abbrev Slots (η : Type*) := ℕ → Option η

/-- The header that mining a nonce produces, if it is a hit. -/
abbrev Hits (η : Type*) := UInt64 → Option η

/-- `memset` of the first `n` slots. -/
def clearHeaders (n : ℕ) (s : Slots η) : Slots η := fun i => if i < n then none else s i

/-- What mining `n` nonces from `seed` on does to the slots: a hit sets its slot and
any other nonce leaves it alone. -/
def mineInto (hits : Hits η) (seed : UInt64) (n : ℕ) (s : Slots η) : Slots η := fun i =>
  if i < n then (hits (seed + UInt64.ofNat i)).or (s i) else s i

/-- The loop that copies slot `i` to slot `off + i`, for `i < n`. -/
def copyHeaders (off : ℕ) : ℕ → Slots η → Slots η
  | 0, s => s
  | n + 1, s =>
      let s := copyHeaders off n s
      Function.update s (off + n) (s n)

/-- The fields of `HalfBuffers` that `queue_batch` uses. The events and the seed
buffers may be missing. -/
structure HalfBuffers (η : Type*) where
  hostHeaders : Slots η
  graphReady : Bool
  graphBatchCount : ℕ
  batchSeedStart : UInt64
  powTargetNbits : UInt32
  batchMinedTargetNbits : UInt32
  /-- the seed in device memory, which the graph reads -/
  seedDev : UInt64
  batchStartEvent : Bool
  subBatchDoneEvent : Bool
  batchDoneEvent : Bool
  pinnedSeedHost : Bool
  seedDevPtr : Bool

/-! ### What the driver answers -/

/-- The answer of `cudaEventQuery`. -/
inductive EventStatus
  | success | notReady | error
  deriving DecidableEq, Repr

/-- How `spin_wait_batch_event` ends: the event fired, a stall or an abort was
noticed, or it threw. -/
inductive SpinResult
  | fired | gaveUp | threw
  deriving DecidableEq, Repr

/-- What one call of `wait_half_stream` meets. -/
structure WaitAnswers where
  streamSync : Bool := true
  query : EventStatus := .success
  eventSync : Bool := true
  spin : SpinResult := .fired
  deriving DecidableEq, Repr

/-- What the calls of one sub-batch meet; `true` is success. -/
structure SubLaunch where
  syncClear : Bool := true
  /-- `cudaStreamWaitEvent` on a preloaded seed, else the upload of the seed -/
  seedReady : Bool := true
  launch : Bool := true
  eventRecord : Bool := true
  wait : WaitAnswers := {}
  /-- the upload of the next sub-batch's seed -/
  nextSeed : Bool := true
  deriving DecidableEq, Repr

/-- The driver and the environment during one call of `queue_batch`. -/
structure Driver where
  /-- `PROPMINER_ASYNC_SEED`, with its copy stream and its event -/
  asyncSeedEnabled : Bool := false
  stallRestartMs : ℤ := 0
  startRecord : Bool := true
  preload : Bool := true
  /-- by the number of the sub-batch, counted from offset 0 -/
  subLaunch : ℕ → SubLaunch := fun _ => {}
  syncClear : Bool := true
  iterBatch : Bool := true
  doneRecord : Bool := true

/-! ### The function -/

/-- `wait_half_stream`: its result, or `none` where it throws. -/
def waitHalfStream (subBatchDoneEvent : Bool) (stallMs : ℤ) (a : WaitAnswers) : Option Bool :=
  if subBatchDoneEvent then
    match a.query with
    | .success => some true
    | .error => none
    | .notReady =>
        if stallMs ≤ 0 then if a.eventSync then some true else none
        else match a.spin with
          | .fired => some true
          -- an exception of the spin wait is caught and reported as a failure
          | .gaveUp | .threw => some false
  else if a.streamSync then some true else none

/-- How the body of the sub-batch loop ends. -/
inductive SubResult (η : Type*)
  | done (half : HalfBuffers η) (seedPreloaded : Bool)
  | failedWait (half : HalfBuffers η)
  | threw (half : HalfBuffers η)

/-- The condition under which seeds travel on their own stream. -/
def asyncSeed (d : Driver) (half : HalfBuffers η) : Bool :=
  d.asyncSeedEnabled && half.pinnedSeedHost && half.seedDevPtr

/-- The sub-batch number `k`, at offset `k * graph_batch`, up to its launch: whether
the graph was launched, and the half with the hits it writes. -/
def launchSubBatch (d : Driver) (hits : Hits η) (seed : UInt64) (k : ℕ) (seedPreloaded : Bool)
    (half : HalfBuffers η) : Bool × HalfBuffers η :=
  let a := d.subLaunch k
  let g := half.graphBatchCount
  let half := { half with hostHeaders := clearHeaders g half.hostHeaders }
  if !a.syncClear then (false, half)
  -- `upload_seed_for_graph` wants both seed buffers
  else if !seedPreloaded && !(half.pinnedSeedHost && half.seedDevPtr) then (false, half)
  else if !a.seedReady then (false, half)
  else
    let half := { half with
      seedDev := if seedPreloaded then half.seedDev else seed + UInt64.ofNat (k * g) }
    if !a.launch then (false, half)
    else (true, { half with hostHeaders := mineInto hits half.seedDev g half.hostHeaders })

/-- The rest of the round: wait, send the next seed ahead, copy the headers. -/
def finishSubBatch (d : Driver) (seed : UInt64) (k : ℕ) (half : HalfBuffers η) : SubResult η :=
  let a := d.subLaunch k
  let g := half.graphBatchCount
  if half.subBatchDoneEvent && !a.eventRecord then .threw half
  else match waitHalfStream half.subBatchDoneEvent d.stallRestartMs a.wait with
    | none => .threw half
    | some false => .failedWait half
    | some true =>
        if asyncSeed d half && decide (0 < k) then
          if !a.nextSeed then .threw half
          else .done { half with
            seedDev := seed + UInt64.ofNat ((k - 1) * g)
            hostHeaders := copyHeaders (k * g) g half.hostHeaders } true
        else .done { half with
          hostHeaders := copyHeaders (k * g) g half.hostHeaders } false

/-- One round of the sub-batch loop. -/
def subBatch (d : Driver) (hits : Hits η) (seed : UInt64) (k : ℕ) (seedPreloaded : Bool)
    (half : HalfBuffers η) : SubResult η :=
  match launchSubBatch d hits seed k seedPreloaded half with
  | (false, half) => .threw half
  | (true, half) => finishSubBatch d seed k half

/-- The sub-batches `k - 1, …, 0`, until one does not get through. -/
def subBatches (d : Driver) (hits : Hits η) (seed : UInt64) :
    ℕ → Bool → HalfBuffers η → SubResult η
  | 0, seedPreloaded, half => .done half seedPreloaded
  | k + 1, seedPreloaded, half =>
      match subBatch d hits seed k seedPreloaded half with
      | .done half seedPreloaded => subBatches d hits seed k seedPreloaded half
      | r => r

/-- `can_graph`. -/
def canGraph (half : HalfBuffers η) (count : ℕ) : Bool :=
  half.graphReady && decide (0 < half.graphBatchCount) && decide (count % half.graphBatchCount = 0)

/-- The `try` block with its handler: `launched_graph`, and the half. -/
def graphPath (d : Driver) (hits : Hits η) (seed : UInt64) (count : ℕ) (half : HalfBuffers η) :
    Bool × HalfBuffers η :=
  let g := half.graphBatchCount
  let async := asyncSeed d half
  if async && !d.preload then (false, { half with graphReady := false })
  else
    let half := if async then
        { half with seedDev := seed + (UInt64.ofNat count - UInt64.ofNat g) }
      else half
    match subBatches d hits seed (count / g) async half with
    | .done half _ => (true, half)
    -- the `break` only leaves the loop, and the next statement sets the flag again
    | .failedWait half => (true, { half with graphReady := false })
    | .threw half => (false, { half with graphReady := false })

/-- The first lines of `queue_batch`: pin the seed and the target, clear the headers. -/
def beginBatch (half : HalfBuffers η) (seedLoStart : UInt64) (count : ℕ) : HalfBuffers η :=
  { half with
    batchSeedStart := seedLoStart
    batchMinedTargetNbits := half.powTargetNbits
    hostHeaders := clearHeaders count half.hostHeaders }

/-- The last lines of `queue_batch`: `iter_batch` unless the graph was launched, and
the completion event. -/
def finishBatch (d : Driver) (hits : Hits η) (seedLoStart : UInt64) (count : ℕ)
    (launchedGraph : Bool) (half : HalfBuffers η) : Option (HalfBuffers η) :=
  if !launchedGraph && !(d.syncClear && d.iterBatch) then none
  else if half.batchDoneEvent && !d.doneRecord then none
  else some { half with
    hostHeaders := if launchedGraph then half.hostHeaders
      else mineInto hits seedLoStart count half.hostHeaders }

/-- `queue_batch`, up to the point where its stream is drained; `none` where it
throws. -/
def queueBatch (d : Driver) (hits : Hits η) (half : HalfBuffers η) (seedLoStart : UInt64)
    (count : ℕ) : Option (HalfBuffers η) :=
  let half := beginBatch half seedLoStart count
  if half.batchStartEvent && !d.startRecord then none
  else
    let r := if canGraph half count then graphPath d hits seedLoStart count half else (false, half)
    finishBatch d hits seedLoStart count r.1 r.2

/-! ### What is asked of it -/

/-- Each of the `count` slots holds what the plain `iter_batch` path leaves there. -/
def Exact (hits : Hits η) (seed : UInt64) (count : ℕ) (s : Slots η) : Prop :=
  ∀ i < count, s i = mineInto hits seed count (clearHeaders count s) i

/-- Why a sub-batch does not get through. -/
inductive Failure
  | threw (launched : Bool)
  | failedWait
  deriving DecidableEq, Repr

/-- Whether sub-batch `k` gets as far as its launch. -/
def launches (d : Driver) (half : HalfBuffers η) (k : ℕ) : Bool :=
  let a := d.subLaunch k
  a.syncClear && (half.pinnedSeedHost && half.seedDevPtr) && a.seedReady && a.launch

/-- How the driver fails sub-batch `k`, if it does. -/
def failure (d : Driver) (half : HalfBuffers η) (k : ℕ) : Option Failure :=
  let a := d.subLaunch k
  if !launches d half k then some (.threw false)
  else if half.subBatchDoneEvent && !a.eventRecord then some (.threw true)
  else match waitHalfStream half.subBatchDoneEvent d.stallRestartMs a.wait with
    | none => some (.threw true)
    | some false => some .failedWait
    | some true =>
        if asyncSeed d half && decide (0 < k) && !a.nextSeed then some (.threw true) else none

/-- The first failure among the sub-batches `k - 1, …, 0`, and where it is. -/
def firstFailure (d : Driver) (half : HalfBuffers η) : ℕ → Option (ℕ × Failure)
  | 0 => none
  | k + 1 =>
      match failure d half k with
      | none => firstFailure d half k
      | some f => some (k, f)

/-- Which hits survive a failure at sub-batch `k`. An exception after the launch
leaves the hits of sub-batch `k` in the first slots, which must not show through
where the batch has none; a failed wait leaves nothing behind but the first slots,
so there must be no hit to lose unless only offset 0 was missing. -/
def Survives (hits : Hits η) (seed : UInt64) (g k : ℕ) : Failure → Prop
  | .threw false => True
  | .threw true => ∀ j < g, hits (seed + UInt64.ofNat j) = none →
      hits (seed + UInt64.ofNat (k * g + j)) = none
  | .failedWait => k = 0 ∨ ∀ i < (k + 1) * g, hits (seed + UInt64.ofNat i) = none

/-- The graph is not used, or its seed could not be preloaded, or every sub-batch
gets through, or the hits survive the first failure. -/
def Complete (d : Driver) (hits : Hits η) (half : HalfBuffers η) (seed : UInt64) (count : ℕ) :
    Prop :=
  canGraph half count = true → (asyncSeed d half = true → d.preload = true) →
    ∀ k f, firstFailure d half (count / half.graphBatchCount) = some (k, f) →
      Survives hits seed half.graphBatchCount k f

/-! ### Slots -/

section Slots

variable {hits : Hits η} {seed : UInt64} {g k n count off i : ℕ} {s : Slots η}

/-- The slots of a batch that was mined whole. -/
def mined (hits : Hits η) (seed : UInt64) : Slots η := fun i => hits (seed + UInt64.ofNat i)

theorem exact_iff : Exact hits seed count s ↔ ∀ i < count, s i = mined hits seed i := by
  refine forall₂_congr fun i hi => ?_
  simp [mineInto, clearHeaders, hi, mined]

/-- Source and destination of the copy loop do not overlap, or are the same. -/
theorem copyHeaders_apply (hoff : off = 0 ∨ n ≤ off) :
    copyHeaders off n s i = if off ≤ i ∧ i < off + n then s (i - off) else s i := by
  induction n generalizing i with
  | zero =>
    rw [copyHeaders, if_neg]
    omega
  | succ n ih =>
    have hn : off = 0 ∨ n ≤ off := by omega
    simp only [copyHeaders]
    by_cases hi : i = off + n
    · subst hi
      rw [Function.update_self, ih hn, if_neg (by omega), if_pos (by omega),
        Nat.add_sub_cancel_left]
    · rw [Function.update_of_ne hi, ih hn]
      refine if_congr ?_ rfl rfl
      omega

/-- The first slots after sub-batch `k` was launched. -/
def launchedSlots (hits : Hits η) (seed : UInt64) (g k : ℕ) (s : Slots η) : Slots η :=
  mineInto hits (seed + UInt64.ofNat (k * g)) g (clearHeaders g s)

theorem launchedSlots_of_lt (hi : i < g) :
    launchedSlots hits seed g k s i = mined hits seed (k * g + i) := by
  simp [launchedSlots, mineInto, clearHeaders, hi, mined, UInt64.add_assoc]

theorem launchedSlots_of_le (hi : g ≤ i) : launchedSlots hits seed g k s i = s i := by
  simp [launchedSlots, mineInto, clearHeaders, Nat.not_lt.mpr hi]

/-- The slots when the sub-batches `k, k + 1, …` are done and those below are not. -/
structure Pending (hits : Hits η) (seed : UInt64) (g count k : ℕ) (s : Slots η) : Prop where
  finished : ∀ i, k * g ≤ i → i < count → s i = mined hits seed i
  untouched : ∀ i, g ≤ i → i < k * g → s i = none

theorem Pending.step (hp : Pending hits seed g count (k + 1) s) :
    Pending hits seed g count k (copyHeaders (k * g) g (launchedSlots hits seed g k s)) := by
  have hsucc : (k + 1) * g = k * g + g := Nat.succ_mul k g
  have hoff : k * g = 0 ∨ g ≤ k * g := by
    rcases Nat.eq_zero_or_pos k with rfl | hk
    · exact .inl (Nat.zero_mul g)
    · exact .inr (Nat.le_mul_of_pos_left g hk)
  constructor
  · intro i hle hlt
    rw [copyHeaders_apply hoff]
    by_cases hi : i < k * g + g
    · rw [if_pos ⟨hle, hi⟩, launchedSlots_of_lt (by omega)]
      congr 1
      omega
    · rw [if_neg (by omega), launchedSlots_of_le (by omega)]
      exact hp.finished i (by omega) hlt
  · intro i hle hlt
    rw [copyHeaders_apply hoff, if_neg (by omega), launchedSlots_of_le hle]
    exact hp.untouched i hle (by omega)

/-- The slots that a failure at sub-batch `k` leaves behind. -/
structure Left (hits : Hits η) (seed : UInt64) (g count k : ℕ) (f : Failure) (s : Slots η) :
    Prop extends Pending hits seed g count (k + 1) s where
  scratch : ∀ j < g, s j = if f = .threw false then none else mined hits seed (k * g + j)

theorem Pending.left (hp : Pending hits seed g count (k + 1) s) {f : Failure}
    (hf : f ≠ .threw false) : Left hits seed g count k f (launchedSlots hits seed g k s) where
  finished i hle hlt := by
    rw [launchedSlots_of_le ((Nat.le_mul_of_pos_left g k.succ_pos).trans hle)]
    exact hp.finished i hle hlt
  untouched i hle hlt := by
    rw [launchedSlots_of_le hle]
    exact hp.untouched i hle hlt
  scratch j hj := by rw [if_neg hf, launchedSlots_of_lt hj]

theorem Pending.left_clear (hp : Pending hits seed g count (k + 1) s) :
    Left hits seed g count k (.threw false) (clearHeaders g s) where
  finished i hle hlt := by
    have hg : ¬ i < g := Nat.not_lt.mpr ((Nat.le_mul_of_pos_left g k.succ_pos).trans hle)
    simpa [clearHeaders, hg] using hp.finished i hle hlt
  untouched i hle hlt := by
    simpa [clearHeaders, Nat.not_lt.mpr hle] using hp.untouched i hle hlt
  scratch j hj := by simp [clearHeaders, hj]

/-- After a failed wait the slots stay as they are. -/
theorem Left.exact_iff_of_failedWait (hl : Left hits seed g count k .failedWait s)
    (hle : (k + 1) * g ≤ count) :
    (∀ i < count, s i = mined hits seed i) ↔ Survives hits seed g k .failedWait := by
  have hsucc : (k + 1) * g = k * g + g := Nat.succ_mul k g
  have hscratch : ∀ j < g, s j = mined hits seed (k * g + j) := fun j hj => by
    simpa using hl.scratch j hj
  constructor
  · intro hexact
    rcases Nat.eq_zero_or_pos k with hk | hk
    · exact .inl hk
    right
    have hg : g ≤ k * g := Nat.le_mul_of_pos_left g hk
    have hnone : ∀ i, g ≤ i → i < (k + 1) * g → mined hits seed i = none := fun i hge hlt =>
      (hexact i (by omega)).symm.trans (hl.untouched i hge hlt)
    intro i hi
    by_cases hge : g ≤ i
    · exact hnone i hge hi
    · -- a slot of the scratch region shows sub-batch `k`, which has no hit
      have hshown := (hscratch i (by omega)).symm.trans (hexact i (by omega))
      exact hshown.symm.trans (hnone _ (by omega) (by omega))
  · intro hsurvives i hi
    by_cases hge : (k + 1) * g ≤ i
    · exact hl.finished i hge hi
    by_cases hg : g ≤ i
    · rcases hsurvives with rfl | hnone
      · omega
      · exact (hl.untouched i hg (by omega)).trans (hnone i (by omega)).symm
    · rw [hscratch i (by omega)]
      rcases hsurvives with rfl | hnone
      · rw [Nat.zero_mul, Nat.zero_add]
      · exact (hnone _ (by omega)).trans (hnone i (by omega)).symm

/-- After an exception `iter_batch` mines over the slots. -/
theorem Left.exact_iff_of_threw {launched : Bool}
    (hl : Left hits seed g count k (.threw launched) s) (hle : (k + 1) * g ≤ count) :
    (∀ i < count, mineInto hits seed count s i = mined hits seed i) ↔
      Survives hits seed g k (.threw launched) := by
  have hg : g ≤ (k + 1) * g := Nat.le_mul_of_pos_left g k.succ_pos
  have hslot : ∀ i < count, mineInto hits seed count s i = mined hits seed i ↔
      (mined hits seed i = none → s i = none) := by
    intro i hi
    rw [mineInto, if_pos hi]
    change (mined hits seed i).or (s i) = mined hits seed i ↔ _
    cases mined hits seed i <;> simp
  rw [forall₂_congr hslot]
  -- above the scratch region a slot is finished or untouched, and never shows through
  have habove : ∀ i < count, g ≤ i → mined hits seed i = none → s i = none := by
    intro i hi hge hnone
    by_cases hfin : (k + 1) * g ≤ i
    · exact (hl.finished i hfin hi).trans hnone
    · exact hl.untouched i hge (Nat.lt_of_not_le hfin)
  cases launched with
  | false =>
    refine ⟨fun _ => trivial, fun _ i hi hnone => ?_⟩
    by_cases hge : g ≤ i
    · exact habove i hi hge hnone
    · simpa using hl.scratch i (Nat.lt_of_not_le hge)
  | true =>
    have hscratch : ∀ j < g, s j = mined hits seed (k * g + j) := fun j hj => by
      simpa using hl.scratch j hj
    constructor
    · intro hclean j hj hnone
      exact (hscratch j hj).symm.trans (hclean j (by omega) hnone)
    · intro hsurvives i hi hnone
      by_cases hge : g ≤ i
      · exact habove i hi hge hnone
      · rw [hscratch i (by omega)]
        exact hsurvives i (by omega) hnone

end Slots

/-! ### The sub-batch loop -/

section Loop

variable {d : Driver} {hits : Hits η} {seed : UInt64} {k count : ℕ}
  {half half' : HalfBuffers η} {seedPreloaded : Bool}

/-- Two values of a half with the same buffers, events and graph. -/
structure SameSetup (half half' : HalfBuffers η) : Prop where
  graphBatchCount : half'.graphBatchCount = half.graphBatchCount
  subBatchDoneEvent : half'.subBatchDoneEvent = half.subBatchDoneEvent
  pinnedSeedHost : half'.pinnedSeedHost = half.pinnedSeedHost
  seedDevPtr : half'.seedDevPtr = half.seedDevPtr

theorem SameSetup.trans {half'' : HalfBuffers η} (h : SameSetup half half')
    (h' : SameSetup half' half'') : SameSetup half half'' where
  graphBatchCount := h'.graphBatchCount.trans h.graphBatchCount
  subBatchDoneEvent := h'.subBatchDoneEvent.trans h.subBatchDoneEvent
  pinnedSeedHost := h'.pinnedSeedHost.trans h.pinnedSeedHost
  seedDevPtr := h'.seedDevPtr.trans h.seedDevPtr

theorem SameSetup.asyncSeed (h : SameSetup half half') : asyncSeed d half' = asyncSeed d half := by
  rw [Worker.asyncSeed, Worker.asyncSeed, h.pinnedSeedHost, h.seedDevPtr]

theorem SameSetup.failure (h : SameSetup half half') (k : ℕ) :
    failure d half' k = failure d half k := by
  rw [Worker.failure, Worker.failure, launches, launches, h.asyncSeed, h.subBatchDoneEvent,
    h.pinnedSeedHost, h.seedDevPtr]

theorem SameSetup.firstFailure (h : SameSetup half half') (k : ℕ) :
    firstFailure d half' k = firstFailure d half k := by
  induction k with
  | zero => rfl
  | succ k ih => rw [Worker.firstFailure, Worker.firstFailure, h.failure, ih]

/-- The seed of the next sub-batch `k` is on the device if seeds travel ahead. -/
structure SeedAhead (d : Driver) (half : HalfBuffers η) (seed : UInt64) (seedPreloaded : Bool)
    (k : ℕ) : Prop where
  preloaded : seedPreloaded = asyncSeed d half
  seedDev : seedPreloaded = true → half.seedDev = seed + UInt64.ofNat (k * half.graphBatchCount)

/-- Seeds travel ahead only if both seed buffers are there. -/
theorem SeedAhead.buffers (hseed : SeedAhead d half seed seedPreloaded k) :
    (seedPreloaded || (half.pinnedSeedHost && half.seedDevPtr)) =
      (half.pinnedSeedHost && half.seedDevPtr) := by
  rw [hseed.preloaded, asyncSeed]
  cases half.pinnedSeedHost <;> cases half.seedDevPtr <;> simp

theorem launchSubBatch_spec (hseed : SeedAhead d half seed seedPreloaded k) :
    ∃ half', launchSubBatch d hits seed k seedPreloaded half = (launches d half k, half') ∧
      SameSetup half half' ∧
      half'.hostHeaders =
        if launches d half k then
          launchedSlots hits seed half.graphBatchCount k half.hostHeaders
        else clearHeaders half.graphBatchCount half.hostHeaders := by
  have hbuffers := hseed.buffers
  have hdev : (if seedPreloaded then half.seedDev
      else seed + UInt64.ofNat (k * half.graphBatchCount)) =
        seed + UInt64.ofNat (k * half.graphBatchCount) := by
    split_ifs with hpre
    · exact hseed.seedDev hpre
    · rfl
  simp only [launchSubBatch, launches, ← Bool.not_or, hbuffers, hdev, Bool.not_eq_true']
  split_ifs with hclear hmissing hready hlaunch
  all_goals refine ⟨_, Prod.ext ?_ rfl, ⟨rfl, rfl, rfl, rfl⟩, ?_⟩
  all_goals simp_all [launchedSlots]

/-- How a round ends, by what the driver does to it. -/
def RoundSpec (d : Driver) (hits : Hits η) (seed : UInt64) (k : ℕ) (half : HalfBuffers η)
    (r : SubResult η) : Option Failure → Prop
  | none => ∃ half' pre, r = .done half' pre ∧ SameSetup half half' ∧
      (0 < k → SeedAhead d half' seed pre (k - 1)) ∧
      half'.hostHeaders = copyHeaders (k * half.graphBatchCount) half.graphBatchCount
        (launchedSlots hits seed half.graphBatchCount k half.hostHeaders)
  | some (.threw false) => ∃ half', r = .threw half' ∧
      half'.hostHeaders = clearHeaders half.graphBatchCount half.hostHeaders
  | some (.threw true) => ∃ half', r = .threw half' ∧
      half'.hostHeaders = launchedSlots hits seed half.graphBatchCount k half.hostHeaders
  | some .failedWait => ∃ half', r = .failedWait half' ∧
      half'.hostHeaders = launchedSlots hits seed half.graphBatchCount k half.hostHeaders

theorem finishSubBatch_spec (hsame : SameSetup half half')
    (hslots : half'.hostHeaders =
      launchedSlots hits seed half.graphBatchCount k half.hostHeaders)
    (hlaunch : launches d half k = true) :
    RoundSpec d hits seed k half (finishSubBatch d seed k half') (failure d half k) := by
  simp only [failure, finishSubBatch, hlaunch, hsame.subBatchDoneEvent, hsame.asyncSeed,
    hsame.graphBatchCount]
  cases half.subBatchDoneEvent && !(d.subLaunch k).eventRecord with
  | true => exact ⟨half', rfl, hslots⟩
  | false =>
    simp only [Bool.not_true, Bool.false_eq_true, if_false]
    cases waitHalfStream half.subBatchDoneEvent d.stallRestartMs (d.subLaunch k).wait with
    | none => exact ⟨half', rfl, hslots⟩
    | some fired =>
      cases fired with
      | false => exact ⟨half', rfl, hslots⟩
      | true =>
        have hsetup : SameSetup half { half' with
            graphBatchCount := half.graphBatchCount,
            subBatchDoneEvent := half.subBatchDoneEvent } :=
          ⟨rfl, rfl, hsame.pinnedSeedHost, hsame.seedDevPtr⟩
        cases hahead : asyncSeed d half && decide (0 < k) with
        | false =>
          refine ⟨_, _, rfl, hsetup.trans ⟨rfl, rfl, rfl, rfl⟩, fun hk => ⟨?_, nofun⟩, ?_⟩
          · refine Eq.trans ?_ (hsetup.trans ⟨rfl, rfl, rfl, rfl⟩).asyncSeed.symm
            simpa [hk] using hahead.symm
          · rw [hslots]
        | true =>
          cases hnext : (d.subLaunch k).nextSeed with
          | false => exact ⟨half', rfl, hslots⟩
          | true =>
            refine ⟨_, _, rfl, hsetup.trans ⟨rfl, rfl, rfl, rfl⟩, fun hk => ⟨?_, fun _ => rfl⟩, ?_⟩
            · refine Eq.trans ?_ (hsetup.trans ⟨rfl, rfl, rfl, rfl⟩).asyncSeed.symm
              simpa [hk] using hahead.symm
            · rw [hslots]

/-- One round of the loop does what the driver's answers to it say. -/
theorem subBatch_spec (hseed : SeedAhead d half seed seedPreloaded k) :
    RoundSpec d hits seed k half (subBatch d hits seed k seedPreloaded half)
      (failure d half k) := by
  obtain ⟨half', hrun, hsame, hslots⟩ := @launchSubBatch_spec _ d hits _ _ _ _ hseed
  rw [subBatch, hrun]
  cases hlaunch : launches d half k with
  | false =>
    have hfail : failure d half k = some (.threw false) := by simp [failure, hlaunch]
    rw [hfail]
    exact ⟨half', rfl, by simpa [hlaunch] using hslots⟩
  | true => exact finishSubBatch_spec hsame (by simpa [hlaunch] using hslots) hlaunch

theorem firstFailure_lt {k' : ℕ} {f : Failure} (h : firstFailure d half k = some (k', f)) :
    k' < k := by
  induction k with
  | zero => cases h
  | succ k ih =>
    rw [firstFailure] at h
    split at h
    · exact (ih h).trans (Nat.lt_succ_self k)
    · cases h
      exact Nat.lt_succ_self _

/-- How the loop ends, by the first failure the driver has for it. -/
def LoopSpec (hits : Hits η) (seed : UInt64) (g count : ℕ) (r : SubResult η) :
    Option (ℕ × Failure) → Prop
  | none => ∃ half pre, r = .done half pre ∧ ∀ i < count, half.hostHeaders i = mined hits seed i
  | some (k, .failedWait) => ∃ half, r = .failedWait half ∧
      Left hits seed g count k .failedWait half.hostHeaders
  | some (k, .threw launched) => ∃ half, r = .threw half ∧
      Left hits seed g count k (.threw launched) half.hostHeaders

theorem subBatches_spec
    (hp : Pending hits seed half.graphBatchCount count k half.hostHeaders)
    (hseed : 0 < k → SeedAhead d half seed seedPreloaded (k - 1)) :
    LoopSpec hits seed half.graphBatchCount count (subBatches d hits seed k seedPreloaded half)
      (firstFailure d half k) := by
  -- the sub-batches run downwards, so the induction is on how many are left
  induction k generalizing half seedPreloaded with
  | zero =>
    refine ⟨half, seedPreloaded, rfl, fun i hi => hp.finished i ?_ hi⟩
    rw [Nat.zero_mul]
    exact Nat.zero_le i
  | succ k ih =>
    have hround := @subBatch_spec _ d hits _ _ _ _ (hseed k.succ_pos)
    rw [Nat.add_sub_cancel] at hround
    rw [subBatches, firstFailure]
    cases hfail : failure d half k with
    | none =>
      rw [hfail] at hround
      obtain ⟨half', pre, hrun, hsame, hnext, hslots⟩ := hround
      rw [hrun]
      have hpending : Pending hits seed half'.graphBatchCount count k half'.hostHeaders := by
        rw [hslots, hsame.graphBatchCount]
        exact hp.step
      have hloop := ih hpending hnext
      rwa [hsame.graphBatchCount, hsame.firstFailure] at hloop
    | some f =>
      rw [hfail] at hround
      match f, hround with
      | .threw false, ⟨half', hrun, hslots⟩ =>
        rw [hrun]
        exact ⟨half', rfl, hslots ▸ hp.left_clear⟩
      | .threw true, ⟨half', hrun, hslots⟩ =>
        rw [hrun]
        exact ⟨half', rfl, hslots ▸ hp.left (by decide)⟩
      | .failedWait, ⟨half', hrun, hslots⟩ =>
        rw [hrun]
        exact ⟨half', rfl, hslots ▸ hp.left (by decide)⟩

end Loop

/-! ### The batch -/

section Batch

variable {d : Driver} {hits : Hits η} {seed : UInt64} {count : ℕ} {half half' : HalfBuffers η}

/-- The half at the top of the `try` block. -/
structure Cleared (half : HalfBuffers η) (count : ℕ) : Prop where
  cleared : ∀ i < count, half.hostHeaders i = none
  depth_pos : 0 < half.graphBatchCount
  divides : half.graphBatchCount ∣ count

theorem Cleared.pending (hc : Cleared half count) :
    Pending hits seed half.graphBatchCount count (count / half.graphBatchCount)
      half.hostHeaders where
  finished i hle hlt := by
    rw [Nat.div_mul_cancel hc.divides] at hle
    omega
  untouched i _ hlt := by
    rw [Nat.div_mul_cancel hc.divides] at hlt
    exact hc.cleared i hlt

/-- The preloaded seed is that of the last sub-batch, which runs first. -/
theorem Cleared.seedAhead (hc : Cleared half count)
    (hdev : asyncSeed d half = true →
      half.seedDev = seed + (UInt64.ofNat count - UInt64.ofNat half.graphBatchCount))
    (hpos : 0 < count / half.graphBatchCount) :
    SeedAhead d half seed (asyncSeed d half) (count / half.graphBatchCount - 1) := by
  refine ⟨rfl, fun hasync => ?_⟩
  have hle : half.graphBatchCount ≤ count :=
    Nat.le_of_dvd (Nat.pos_of_div_pos hpos) hc.divides
  rw [hdev hasync, Nat.sub_mul, Nat.div_mul_cancel hc.divides, Nat.one_mul, UInt64.ofNat_sub hle]

/-- What the `try` block leaves is exact, after `iter_batch` where it did not get
through, exactly when the hits survive its first failure. -/
theorem graphPath_exact_iff (hc : Cleared half count) {launched : Bool}
    (hrun : graphPath d hits seed count half = (launched, half')) :
    (∀ i < count,
        (if launched then half'.hostHeaders else mineInto hits seed count half'.hostHeaders) i =
          mined hits seed i) ↔
      ((asyncSeed d half = true → d.preload = true) →
        ∀ k f, firstFailure d half (count / half.graphBatchCount) = some (k, f) →
          Survives hits seed half.graphBatchCount k f) := by
  by_cases hpreload : asyncSeed d half = true ∧ d.preload = false
  · -- the slots are still cleared, and `iter_batch` mines them all
    obtain ⟨hasync, hfail⟩ := hpreload
    simp only [graphPath, hasync, hfail, Bool.not_false, Bool.and_self, if_true, Prod.mk.injEq]
      at hrun
    obtain ⟨rfl, rfl⟩ := hrun
    refine iff_of_true (fun i hi => ?_) fun h => absurd (h hasync) (by simp [hfail])
    simp [mineInto, hi, hc.cleared i hi, mined]
  have hok : asyncSeed d half = true → d.preload = true := fun hasync => by
    simpa [hasync] using hpreload
  have hnot : (asyncSeed d half && !d.preload) = false := by
    cases hasync : asyncSeed d half with
    | false => rfl
    | true => simp [hok hasync]
  -- the half that enters the loop
  obtain ⟨start, hstart, hsame, hslots, hdev⟩ : ∃ start : HalfBuffers η,
      start = (if asyncSeed d half then { half with
        seedDev := seed + (UInt64.ofNat count - UInt64.ofNat half.graphBatchCount) } else half) ∧
      SameSetup half start ∧ start.hostHeaders = half.hostHeaders ∧
      (asyncSeed d half = true → start.seedDev =
        seed + (UInt64.ofNat count - UInt64.ofNat half.graphBatchCount)) := by
    refine ⟨_, rfl, ?_⟩
    split_ifs with hasync
    · exact ⟨⟨rfl, rfl, rfl, rfl⟩, rfl, fun _ => rfl⟩
    · exact ⟨⟨rfl, rfl, rfl, rfl⟩, rfl, fun h => absurd h hasync⟩
  have hcstart : Cleared start count := by
    refine ⟨fun i hi => hslots ▸ hc.cleared i hi, ?_, ?_⟩
    · rw [hsame.graphBatchCount]
      exact hc.depth_pos
    · rw [hsame.graphBatchCount]
      exact hc.divides
  have hahead := @Cleared.seedAhead _ d seed _ _ hcstart
    (by rw [hsame.asyncSeed, hsame.graphBatchCount]; exact hdev)
  have hloop := @subBatches_spec _ d hits seed _ _ _ _ hcstart.pending hahead
  rw [hsame.asyncSeed, hsame.graphBatchCount, hsame.firstFailure] at hloop
  simp only [graphPath, hnot, Bool.false_eq_true, if_false, ← hstart] at hrun
  cases hfirst : firstFailure d half (count / half.graphBatchCount) with
  | none =>
    rw [hfirst] at hloop
    obtain ⟨last, pre, hdone, hexact⟩ := hloop
    simp only [hdone, Prod.mk.injEq] at hrun
    obtain ⟨rfl, rfl⟩ := hrun
    exact iff_of_true hexact fun _ => nofun
  | some kf =>
    obtain ⟨k, f⟩ := kf
    have hfit : (k + 1) * half.graphBatchCount ≤ count :=
      (Nat.mul_le_mul_right _ (firstFailure_lt hfirst)).trans (Nat.div_mul_le_self _ _)
    -- there is one first failure, so the condition is about that one
    have hcond : ((asyncSeed d half = true → d.preload = true) →
        ∀ k' f', some (k, f) = some (k', f') → Survives hits seed half.graphBatchCount k' f') ↔
          Survives hits seed half.graphBatchCount k f := by
      constructor
      · exact fun h => h hok k f rfl
      · rintro h - _ _ ⟨⟩
        exact h
    rw [hfirst] at hloop
    rw [hcond]
    cases f with
    | failedWait =>
      obtain ⟨last, hfailed, hleft⟩ := hloop
      simp only [hfailed, Prod.mk.injEq] at hrun
      obtain ⟨rfl, rfl⟩ := hrun
      exact hleft.exact_iff_of_failedWait hfit
    | threw launched =>
      obtain ⟨last, hthrew, hleft⟩ := hloop
      simp only [hthrew, Prod.mk.injEq] at hrun
      obtain ⟨rfl, rfl⟩ := hrun
      exact hleft.exact_iff_of_threw hfit

theorem sameSetup_beginBatch (half : HalfBuffers η) (seed : UInt64) (count : ℕ) :
    SameSetup half (beginBatch half seed count) := ⟨rfl, rfl, rfl, rfl⟩

theorem cleared_beginBatch (seed : UInt64)
    (hgraph : canGraph (beginBatch half seed count) count = true) :
    Cleared (beginBatch half seed count) count := by
  simp only [canGraph, Bool.and_eq_true, decide_eq_true_eq] at hgraph
  exact ⟨fun i hi => if_pos hi, hgraph.1.2, Nat.dvd_of_mod_eq_zero hgraph.2⟩

theorem hostHeaders_of_finishBatch {launched : Bool}
    (hrun : finishBatch d hits seed count launched half = some half') :
    half'.hostHeaders =
      if launched then half.hostHeaders else mineInto hits seed count half.hostHeaders := by
  unfold finishBatch at hrun
  split at hrun
  · cases hrun
  · split at hrun
    · cases hrun
    · obtain rfl := Option.some.inj hrun
      rfl

/-- A call of `queue_batch` that returns leaves the headers of the plain `iter_batch`
path exactly when the batch is complete. -/
theorem queueBatch_exact_iff (d : Driver) (hits : Hits η) (half half' : HalfBuffers η)
    (seed : UInt64) (count : ℕ) (hrun : queueBatch d hits half seed count = some half') :
    Exact hits seed count half'.hostHeaders ↔ Complete d hits half seed count := by
  rw [exact_iff]
  unfold queueBatch at hrun
  simp only at hrun
  split at hrun
  · cases hrun
  rw [hostHeaders_of_finishBatch hrun]
  by_cases hgraph : canGraph (beginBatch half seed count) count = true
  · simp only [if_pos hgraph]
    have hsame := sameSetup_beginBatch half seed count
    refine (graphPath_exact_iff (cleared_beginBatch seed hgraph) rfl).trans ?_
    rw [hsame.asyncSeed, hsame.graphBatchCount, hsame.firstFailure]
    exact ⟨fun h _ => h, fun h => h hgraph⟩
  · -- without the graph every cleared slot is mined by `iter_batch`
    refine iff_of_true (fun i hi => ?_) fun h => absurd h hgraph
    simp only [if_neg hgraph]
    simp [mineInto, hi, beginBatch, clearHeaders, mined]

/-- A half with a captured graph for `depth` nonces and every buffer and event. -/
def graphHalf (depth : ℕ) : HalfBuffers Unit where
  hostHeaders _ := none
  graphReady := true
  graphBatchCount := depth
  batchSeedStart := 0
  powTargetNbits := 0
  batchMinedTargetNbits := 0
  seedDev := 0
  batchStartEvent := true
  subBatchDoneEvent := true
  batchDoneEvent := true
  pinnedSeedHost := true
  seedDevPtr := true

/-- Only nonce 1 is a hit. -/
def hitAtOne : Hits Unit := fun n => if n = 1 then some () else none

/-- Two sub-batches of one nonce each get through. -/
theorem queueBatch_exact_of_two :
    ∃ half', queueBatch {} hitAtOne (graphHalf 1) 0 2 = some half' ∧
      (Exact hitAtOne 0 2 half'.hostHeaders ↔ Complete {} hitAtOne (graphHalf 1) 0 2) :=
  ⟨_, rfl, queueBatch_exact_iff {} hitAtOne (graphHalf 1) _ 0 2 rfl⟩

/-- The second of two sub-batches, which runs first, stalls. -/
def stallAtOne : Driver where
  stallRestartMs := 1
  subLaunch k := if k = 1 then { wait := { query := .notReady, spin := .gaveUp } } else {}

/-- A stalled sub-batch ends the batch: its hit, at nonce 1, stays in the slot of
nonce 0, which was never mined. -/
theorem queueBatch_misattributes :
    ∃ half', queueBatch stallAtOne hitAtOne (graphHalf 1) 0 2 = some half' ∧
      half'.hostHeaders 0 = some () ∧ half'.hostHeaders 1 = none ∧
      ¬ Exact hitAtOne 0 2 half'.hostHeaders := by
  refine ⟨_, rfl, rfl, rfl, fun hexact => ?_⟩
  have hslot := exact_iff.mp hexact 1 (by decide)
  revert hslot
  decide

end Batch

end PropMiner.Worker
