import Mathlib.Data.List.GetD

/-!
# Folding into slots

A sequence is dealt out to `n` slots in turn: element `s` goes to slot `s % n`, where it is
combined with what the slot holds. Each slot is then the fold of every `n`-th element.

## Main definitions

* `Slots.step`, `Slots.fold` — one element, and the elements of a sequence in order
* `Slots.word` — one slot, from the elements that belong to it

## Main results

* `Slots.fold_eq` — slot by slot
-/

set_option autoImplicit false

namespace PropMiner.Semantics.Slots

variable {α β : Type*} (n : ℕ) (f : β → α → β) (init : β)

/-- Element `s` of a sequence goes to its slot. -/
def step (slots : List β) (s : ℕ) (x : α) : List β :=
  slots.set (s % n) (f (slots.getD (s % n) init) x)

/-- The first `steps` elements of a sequence. -/
def fold (X : ℕ → α) (steps : ℕ) : List β :=
  (List.range steps).foldl (fun slots s => step n f init slots s (X s)) (List.replicate n init)

/-- Slot `t`: elements `t`, `t + n`, `t + 2 n`, … -/
def word (X : ℕ → α) (steps t : ℕ) : β :=
  ((List.range steps).filter (· % n = t)).foldl (fun m s => f m (X s)) init

variable {n f init} {X Y : ℕ → α} {steps : ℕ}

theorem fold_succ : fold n f init X (steps + 1) =
    step n f init (fold n f init X steps) steps (X steps) := by
  rw [fold, List.range_succ, List.foldl_append]
  rfl

theorem word_succ (t : ℕ) : word n f init X (steps + 1) t =
    if steps % n = t then f (word n f init X steps t) (X steps) else word n f init X steps t := by
  unfold word
  rw [List.range_succ, List.filter_append, List.foldl_append]
  by_cases ht : steps % n = t <;> simp [ht]

/-- Elements that change nothing leave a slot as it was. -/
theorem word_eq_init (h : ∀ s < steps, f init (X s) = init) (t : ℕ) :
    word n f init X steps t = init := by
  induction steps with
  | zero => rfl
  | succ steps ih =>
    rw [word_succ, ih fun s hs => h s (Nat.lt_succ_of_lt hs), h steps (Nat.lt_succ_self steps),
      ite_self]

/-- Only the elements that are used count. -/
theorem fold_congr (h : ∀ s < steps, X s = Y s) :
    fold n f init X steps = fold n f init Y steps := by
  induction steps with
  | zero => rfl
  | succ steps ih =>
    rw [fold_succ, fold_succ, h steps (Nat.lt_succ_self steps),
      ih fun s hs => h s (Nat.lt_succ_of_lt hs)]

theorem fold_eq (hn : 0 < n) (X : ℕ → α) (steps : ℕ) :
    fold n f init X steps = (List.range n).map (word n f init X steps) := by
  induction steps with
  | zero =>
    apply List.ext_getElem
    · rw [fold, List.length_map, List.length_range]
      exact List.length_replicate
    · intro t _ ht
      rw [List.getElem_map]
      exact List.getElem_replicate _
  | succ steps ih =>
    have hslot : steps % n < n := Nat.mod_lt steps hn
    rw [fold_succ, ih, step]
    apply List.ext_getElem
    · rw [List.length_set, List.length_map, List.length_map]
    · intro t _ ht
      rw [List.length_map, List.length_range] at ht
      rw [List.getElem_set, List.getElem_map, List.getElem_map, List.getElem_range, word_succ]
      by_cases hst : steps % n = t
      · subst hst
        have hlen : steps % n < ((List.range n).map (word n f init X steps)).length := by
          rwa [List.length_map, List.length_range]
        rw [if_pos rfl, if_pos rfl, List.getD_eq_getElem _ _ hlen, List.getElem_map,
          List.getElem_range]
      · rw [if_neg hst, if_neg hst]

end PropMiner.Semantics.Slots
