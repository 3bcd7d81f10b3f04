import Mathlib.Data.List.Basic

/-!
# Streams of deferred operations

A device that works off operations in the order in which they were enqueued. What the
state will be once everything is done is known when an operation is enqueued, and does
not depend on how far the device has got.

## Main definitions

* `OpStream`, `OpStream.enqueue`, `OpStream.advance`
* `OpStream.settled` — the state once everything is done

## Main results

* `OpStream.settled_enqueue`, `OpStream.eq_of_advance`
* `OpStream.settled_eq` — what no pending operation changes is already as it will be
-/

set_option autoImplicit false

namespace PropMiner.Semantics

/-- A state, and the operations that are still to be done on it, oldest first. -/
structure OpStream (σ ο : Type*) where
  state : σ
  queue : List ο := []

namespace OpStream

variable {σ ο β : Type*} {exec : σ → ο → σ} {d d' : OpStream σ ο} {ops : List ο}

def enqueue (d : OpStream σ ο) (ops : List ο) : OpStream σ ο := { d with queue := d.queue ++ ops }

/-- The device does the next operation. -/
def advance (exec : σ → ο → σ) (d : OpStream σ ο) : Option (OpStream σ ο) :=
  match d.queue with
  | [] => none
  | op :: rest => some ⟨exec d.state op, rest⟩

/-- The state once everything is done. -/
def settled (exec : σ → ο → σ) (d : OpStream σ ο) : σ := d.queue.foldl exec d.state

theorem settled_enqueue : (d.enqueue ops).settled exec = ops.foldl exec (d.settled exec) :=
  List.foldl_append

theorem eq_of_advance (h : d.advance exec = some d') :
    ∃ op rest, d.queue = op :: rest ∧ d' = ⟨exec d.state op, rest⟩ := by
  unfold advance at h
  split at h
  case h_1 => cases h
  case h_2 op rest hqueue => exact ⟨op, rest, hqueue, (Option.some.inj h).symm⟩

/-- What no pending operation changes is already as it will be. -/
theorem settled_eq (f : σ → β) (h : ∀ op ∈ d.queue, ∀ s, f (exec s op) = f s) :
    f (d.settled exec) = f d.state := by
  obtain ⟨state, queue⟩ := d
  change f (queue.foldl exec state) = f state
  induction queue generalizing state with
  | nil => rfl
  | cons op rest ih =>
    rw [List.foldl_cons, ih _ fun op' hop' => h op' (List.mem_cons_of_mem op hop')]
    exact h op (List.mem_cons_self ..) state

end OpStream

end PropMiner.Semantics
