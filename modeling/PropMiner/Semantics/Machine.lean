import Mathlib.Logic.Relation
import Mathlib.Data.List.Basic

/-!
# Machines with observable events

A `Machine` is a partial step function on states. Each step consumes one input
(which thread moves, and what the environment answers it) and emits a list of
observable events. Concurrency is interleaving: the inputs name the thread that
moves, so a run is one schedule.

Runs are taken under a guard on steps. The guard that is always true gives every
run; a proper guard gives the runs in which every step meets a condition.

## Main definitions

* `Machine.Run` — the guarded runs from a state, with the events they emit
* `Machine.exec` — the run of a list of inputs, computed

## Main results

* `Machine.Run.invariant` — a property of trace and state kept by every guarded
  step holds along every guarded run
* `Machine.split_snoc` — where an event lies in a trace that has just grown
* `Machine.run_of_exec` — a computed run is a run
-/

set_option autoImplicit false

namespace PropMiner.Semantics

/-- A partial step function whose steps emit events. -/
structure Machine (σ α ε : Type*) where
  step : σ → α → Option (σ × List ε)

namespace Machine

variable {σ α ε : Type*} {M : Machine σ α ε} {guard : σ → α → Prop}
  {s t u : σ} {tr tr' : List ε}

/-- `M.Run guard s tr t`: a sequence of steps, each meeting `guard` in the state
it starts from, leads from `s` to `t` and emits `tr`. -/
inductive Run (M : Machine σ α ε) (guard : σ → α → Prop) (s : σ) : List ε → σ → Prop
  | refl : Run M guard s [] s
  | snoc {tr : List ε} {t u : σ} {a : α} {es : List ε} :
      Run M guard s tr t → guard t a → M.step t a = some (u, es) →
        Run M guard s (tr ++ es) u

/-- The guard that admits every step. -/
def anyStep : σ → α → Prop := fun _ _ => True

instance (s : σ) (a : α) : Decidable (anyStep s a) := .isTrue trivial

theorem Run.trans (h : M.Run guard s tr t) (h' : M.Run guard t tr' u) :
    M.Run guard s (tr ++ tr') u := by
  induction h' with
  | refl => simpa using h
  | snoc _ hg hstep ih => simpa using ih.snoc hg hstep

/-- The invariant rule: what holds at the start and is kept by every guarded step
holds of the trace and the state along every guarded run. -/
theorem Run.invariant {I : List ε → σ → Prop} (hinit : I [] s)
    (hkeep : ∀ tr t a u es, I tr t → guard t a → M.step t a = some (u, es) → I (tr ++ es) u)
    (h : M.Run guard s tr t) : I tr t := by
  induction h with
  | refl => exact hinit
  | snoc _ hg hstep ih => exact hkeep _ _ _ _ _ ih hg hstep

/-- The invariant rule for properties of the state alone. -/
theorem Run.stateInvariant {I : σ → Prop} (hinit : I s)
    (hkeep : ∀ t a u es, I t → guard t a → M.step t a = some (u, es) → I u)
    (h : M.Run guard s tr t) : I t :=
  h.invariant (I := fun _ t => I t) hinit fun _ t a u es => hkeep t a u es

/-- Where an event lies in a trace that has just grown: it is the last one, or it was
there before. -/
theorem split_snoc {e e' : ε} {pre post : List ε} (h : tr ++ [e] = pre ++ e' :: post) :
    pre = tr ∧ e' = e ∨ ∃ init, tr = pre ++ e' :: init := by
  rcases List.eq_nil_or_concat post with rfl | ⟨init, last, rfl⟩
  · obtain ⟨rfl, hsingle⟩ := List.append_inj' h rfl
    exact .inl ⟨rfl, (List.singleton_inj.mp hsingle).symm⟩
  · rw [List.concat_eq_append, ← List.cons_append, ← List.append_assoc] at h
    exact .inr ⟨init, (List.append_inj' h rfl).1⟩

/-! ### Computed runs -/

/-- Run a list of inputs, refusing any step that does not meet the guard. -/
def exec (M : Machine σ α ε) (guard : σ → α → Prop) [∀ s a, Decidable (guard s a)] :
    List α → σ → Option (σ × List ε)
  | [], s => some (s, [])
  | a :: rest, s =>
      if guard s a then
        match M.step s a with
        | none => none
        | some (t, es) => (exec M guard rest t).map fun r => (r.1, es ++ r.2)
      else none

theorem run_of_exec [∀ s a, Decidable (guard s a)] {inputs : List α} :
    ∀ {s : σ} {r : σ × List ε}, M.exec guard inputs s = some r → M.Run guard s r.2 r.1 := by
  induction inputs with
  | nil =>
    intro s r h
    obtain rfl := Option.some.inj h
    exact .refl
  | cons a rest ih =>
    intro s r h
    simp only [exec] at h
    split_ifs at h with hg
    cases hstep : M.step s a with
    | none => simp [hstep] at h
    | some next =>
      obtain ⟨t, es⟩ := next
      simp only [hstep, Option.map_eq_some_iff] at h
      obtain ⟨r', hr', rfl⟩ := h
      have hfirst : M.Run guard s ([] ++ es) t := Run.refl.snoc hg hstep
      exact hfirst.trans (ih hr')

/-- A computed run whose result passes a test is a run to a state with that
property. -/
theorem exists_run_of_exec [∀ s a, Decidable (guard s a)] {inputs : List α}
    {p : σ × List ε → Bool} (h : (M.exec guard inputs s).any p = true) :
    ∃ t tr, M.Run guard s tr t ∧ p (t, tr) = true := by
  rw [Option.any_eq_true] at h
  obtain ⟨r, hr, hp⟩ := h
  exact ⟨r.1, r.2, run_of_exec hr, hp⟩

end Machine

end PropMiner.Semantics
