import Mathlib.Data.List.Basic

/-!
# Input through a buffer

An input of any length goes through a buffer of bounded size. As long as there is input, a full
buffer is emptied, and as much of the input as there is room for is copied. A full buffer is emptied
only when more input is there, so the end of the input can be treated in another way.

The result does not depend on how the input is cut: the loop acts as if every element were put on
its own.

## Main definitions

* `Buffer` — a state with room for some elements
* `Buffer.push` — one element
* `Buffer.absorb` — the loop

## Main results

* `Buffer.absorb_eq_foldlM` — the loop puts one element after the other
-/

set_option autoImplicit false

namespace PropMiner.Semantics

/-- A state that has room for some elements, and is emptied when it has not. -/
structure Buffer (m : Type → Type) [Monad m] (σ α : Type) where
  room : σ → ℕ
  /-- makes room where there is none -/
  flush : σ → m {s : σ // 0 < room s}
  put : σ → α → σ
  flush_of_room : ∀ (s : σ) (h : 0 < room s), flush s = pure ⟨s, h⟩
  room_put : ∀ (s : σ) (a : α), 0 < room s → room (put s a) + 1 = room s

namespace Buffer

variable {m : Type → Type} [Monad m] {σ α : Type} (B : Buffer m σ α)

/-- One element. -/
def push (s : σ) (a : α) : m σ := do
  let s ← B.flush s
  return B.put s.1 a

/-- The loop. Elements that fit are put by `bulk`. -/
def absorb (bulk : σ → List α → σ) (s : σ) (input : List α) : m σ :=
  if _hinput : input = [] then pure s
  else do
    let ⟨s, _hroom⟩ ← B.flush s
    absorb bulk (bulk s (input.take (B.room s))) (input.drop (B.room s))
termination_by input.length
decreasing_by
  have := List.length_pos_iff.mpr _hinput
  rw [List.length_drop]
  omega

variable [LawfulMonad m] {B}

/-- Elements that fit need no flush. -/
theorem foldlM_push {s : σ} {l : List α} (h : l.length ≤ B.room s) :
    l.foldlM B.push s = pure (l.foldl B.put s) := by
  induction l generalizing s with
  | nil => rfl
  | cons a l ih =>
    rw [List.length_cons] at h
    have hroom : 0 < B.room s := by omega
    have hput := B.room_put s a hroom
    have hfits : l.length ≤ B.room (B.put s a) := by omega
    rw [List.foldlM_cons, push, B.flush_of_room s hroom, pure_bind, pure_bind, ih hfits,
      List.foldl_cons]

/-- The loop puts one element after the other. -/
theorem absorb_eq_foldlM {bulk : σ → List α → σ}
    (hbulk : ∀ s l, l.length ≤ B.room s → bulk s l = l.foldl B.put s) (s : σ) (input : List α) :
    B.absorb bulk s input = input.foldlM B.push s := by
  induction hn : input.length using Nat.strongRecOn generalizing s input with
  | ind n ih =>
    cases input with
    | nil =>
      rw [absorb, dif_pos rfl]
      rfl
    | cons a rest =>
      rw [absorb, dif_neg (List.cons_ne_nil a rest), List.foldlM_cons, push, bind_assoc]
      congr 1
      funext ⟨s', hroom⟩
      obtain ⟨k, hk⟩ : ∃ k, B.room s' = k + 1 := ⟨_, (Nat.succ_pred_eq_of_pos hroom).symm⟩
      have hput := B.room_put s' a hroom
      have hfits : (rest.take k).length ≤ B.room (B.put s' a) :=
        Nat.le_trans (List.length_take_le _ _) (by omega)
      dsimp only
      rw [ih _ (by rw [← hn, List.length_drop, List.length_cons]; omega) _ _ rfl, pure_bind, hk,
        List.take_succ_cons, List.drop_succ_cons,
        hbulk _ _ (by rw [List.length_cons]; omega), List.foldl_cons]
      conv_rhs => rw [← List.take_append_drop k rest]
      rw [List.foldlM_append, foldlM_push hfits, pure_bind]

end Buffer

end PropMiner.Semantics
