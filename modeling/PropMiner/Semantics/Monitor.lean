import PropMiner.Semantics.Machine

/-!
# Monitors over traces

A monitor watches a trace. It keeps a state of its own, says of each event whether it is
allowed in that state, and moves on. What a system promises about the order of its events
is stated as "every trace is accepted", and the monitor's state is the abstract model.

## Main definitions

* `Monitor` — an abstract state, how it follows the events, and what it allows
* `Monitor.Accepts` — every event was allowed when it came

## Main results

* `Machine.Run.monitored` — a machine whose steps are followed by a monitor only has
  accepted traces
-/

set_option autoImplicit false

namespace PropMiner.Semantics

/-- An abstract state that follows events and says which are allowed. -/
structure Monitor (ε μ : Type*) where
  start : μ
  observe : μ → ε → μ
  allows : μ → ε → Prop

namespace Monitor

variable {ε μ : Type*} {N : Monitor ε μ} {m : μ} {tr es : List ε}

/-- The state after a trace. -/
def after (N : Monitor ε μ) (tr : List ε) : μ := tr.foldl N.observe N.start

/-- Every event of the trace was allowed when it came. -/
def Accepts (N : Monitor ε μ) (tr : List ε) : Prop :=
  ∀ pre e post, tr = pre ++ e :: post → N.allows (N.after pre) e

/-- The events are allowed one after the other, from this state. -/
def AllowsAll (N : Monitor ε μ) : μ → List ε → Prop
  | _, [] => True
  | m, e :: es => N.allows m e ∧ AllowsAll N (N.observe m e) es

theorem accepts_nil (N : Monitor ε μ) : N.Accepts [] := by
  intro pre e post h
  simp at h

theorem after_append : N.after (tr ++ es) = es.foldl N.observe (N.after tr) :=
  List.foldl_append

theorem Accepts.snoc {e : ε} (h : N.Accepts tr) (he : N.allows (N.after tr) e) :
    N.Accepts (tr ++ [e]) := by
  intro pre e' post heq
  rcases Machine.split_snoc heq with ⟨rfl, rfl⟩ | ⟨init, hinit⟩
  · exact he
  · exact h pre e' init hinit

theorem Accepts.append (h : N.Accepts tr) (hes : N.AllowsAll (N.after tr) es) :
    N.Accepts (tr ++ es) := by
  induction es generalizing tr with
  | nil => simpa using h
  | cons e es ih =>
    have hsnoc := h.snoc hes.1
    rw [← List.singleton_append, ← List.append_assoc]
    apply ih hsnoc
    rw [after_append]
    exact hes.2

theorem allowsAll_append {es' : List ε} (h : N.AllowsAll m es)
    (h' : N.AllowsAll (es.foldl N.observe m) es') : N.AllowsAll m (es ++ es') := by
  induction es generalizing m with
  | nil => exact h'
  | cons e es ih => exact ⟨h.1, ih h.2 h'⟩

/-- Events that are always allowed. -/
theorem allowsAll_of_forall (h : ∀ e ∈ es, ∀ m, N.allows m e) : N.AllowsAll m es := by
  induction es generalizing m with
  | nil => trivial
  | cons e es ih =>
    refine ⟨h e (List.mem_cons_self ..) m, ih ?_⟩
    exact fun e' he' => h e' (List.mem_cons_of_mem e he')

/-- Events that the monitor ignores. -/
theorem allowsAll_of_ignored (hallows : ∀ e ∈ es, N.allows m e)
    (hobserve : ∀ e ∈ es, N.observe m e = m) :
    N.AllowsAll m es ∧ es.foldl N.observe m = m := by
  induction es with
  | nil => exact ⟨trivial, rfl⟩
  | cons e es ih =>
    have hsame := hobserve e (List.mem_cons_self ..)
    obtain ⟨hall, hfold⟩ := ih (fun e' he' => hallows e' (List.mem_cons_of_mem e he'))
      fun e' he' => hobserve e' (List.mem_cons_of_mem e he')
    refine ⟨⟨hallows e (List.mem_cons_self ..), ?_⟩, ?_⟩
    · rw [hsame]
      exact hall
    · rw [List.foldl_cons, hsame]
      exact hfold

end Monitor

/-- The simulation rule: if the monitor can follow every step, in a relation between the
states of machine and monitor, then it accepts the trace of every run. -/
theorem Machine.Run.monitored {σ α ε μ : Type*} {M : Machine σ α ε} {N : Monitor ε μ}
    {guard : σ → α → Prop} {R : σ → μ → Prop} {s t : σ} {tr : List ε} (hstart : R s N.start)
    (hstep : ∀ t m a u es, R t m → guard t a → M.step t a = some (u, es) →
      N.AllowsAll m es ∧ R u (es.foldl N.observe m))
    (h : M.Run guard s tr t) : N.Accepts tr ∧ R t (N.after tr) := by
  refine h.invariant (I := fun tr t => N.Accepts tr ∧ R t (N.after tr))
    ⟨N.accepts_nil, hstart⟩ ?_
  rintro tr t a u es ⟨haccepts, hrel⟩ hguard hmove
  obtain ⟨hall, hrel'⟩ := hstep t (N.after tr) a u es hrel hguard hmove
  refine ⟨haccepts.append hall, ?_⟩
  rwa [Monitor.after_append]

end PropMiner.Semantics
