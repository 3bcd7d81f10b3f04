import Mathlib.Data.List.Basic

/-!
# Computations that may fail

Taking an `Except` computation apart from the outside: what a result says about the steps
that led to it, and when there is a result at all.

## Main definitions

* `Succeeds` — a computation that has a result

## Main results

* `bind_eq_ok` — what the result of a sequence says about its parts
* `succeeds_bind_iff`, `succeeds_mapM_iff` — when a sequence or a loop has a result
* `mapM_eq_ok` — the result of a loop whose rounds all have one
-/

set_option autoImplicit false

namespace PropMiner.Semantics

variable {ε α β : Type}

theorem ok_bind (a : α) (f : α → Except ε β) : (Except.ok a >>= f) = f a := rfl

theorem bind_eq_ok {x : Except ε α} {f : α → Except ε β} {b : β} :
    (x >>= f) = .ok b ↔ ∃ a, x = .ok a ∧ f a = .ok b := by
  cases x with
  | error e => simp [bind, Except.bind]
  | ok a => simp [bind, Except.bind]

theorem map_eq_ok {x : Except ε α} {f : α → β} {b : β} :
    x.map f = .ok b ↔ ∃ a, x = .ok a ∧ f a = b := by
  cases x with
  | error e => simp [Except.map]
  | ok a => simp [Except.map]

/-- A check that answers `false` when it fails. -/
theorem reject_eq_ok_true {p : Prop} [Decidable p] {x : Except ε Bool} :
    (if p then .ok false else x) = .ok true ↔ ¬ p ∧ x = .ok true := by
  by_cases hp : p
  · simp [hp]
  · simp [hp]

/-- The computation has a result. -/
def Succeeds (x : Except ε α) : Prop := ∃ a, x = .ok a

theorem succeeds_pure (a : α) : Succeeds (pure a : Except ε α) := ⟨a, rfl⟩

theorem succeeds_bind_iff {x : Except ε α} {f : α → Except ε β} :
    Succeeds (x >>= f) ↔ ∃ a, x = .ok a ∧ Succeeds (f a) := by
  constructor
  · rintro ⟨b, hb⟩
    obtain ⟨a, ha, hf⟩ := bind_eq_ok.mp hb
    exact ⟨a, ha, b, hf⟩
  · rintro ⟨a, rfl, hf⟩
    exact hf

/-- A loop has a result iff each of its rounds has one. -/
theorem succeeds_mapM_iff {f : α → Except ε β} {l : List α} :
    Succeeds (l.mapM f) ↔ ∀ a ∈ l, Succeeds (f a) := by
  induction l with
  | nil => simp [List.mapM_nil, succeeds_pure]
  | cons a l ih =>
    rw [List.mapM_cons, List.forall_mem_cons, ← ih, succeeds_bind_iff]
    constructor
    · rintro ⟨b, hb, hrest⟩
      obtain ⟨bs, hbs, -⟩ := succeeds_bind_iff.mp hrest
      exact ⟨⟨b, hb⟩, bs, hbs⟩
    · rintro ⟨⟨b, hb⟩, bs, hbs⟩
      exact ⟨b, hb, succeeds_bind_iff.mpr ⟨bs, hbs, succeeds_pure _⟩⟩

/-- A loop all of whose rounds have a result. -/
theorem mapM_eq_ok {f : α → Except ε β} {g : α → β} {l : List α}
    (h : ∀ a ∈ l, f a = .ok (g a)) : l.mapM f = .ok (l.map g) := by
  induction l with
  | nil => rfl
  | cons a l ih =>
    obtain ⟨ha, hl⟩ := List.forall_mem_cons.mp h
    rw [List.mapM_cons, ha, ok_bind, ih hl]
    rfl

end PropMiner.Semantics
