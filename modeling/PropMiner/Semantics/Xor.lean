import Mathlib.Algebra.Ring.Parity
import Mathlib.Data.List.Count

/-!
# Xor over a list

What cancels in the xor of a list of words: pairs of equal ones.

## Main definitions

* `xorSum` — the xor of a function over a list

## Main results

* `foldl_xor` — a loop that xors into a variable
* `xorSum_of_even` — everything cancels if every element occurs an even number of times
* `xorSum_single` — what is left of one element that occurs an odd number of times
-/

set_option autoImplicit false

namespace PropMiner.Semantics

variable {α β : Type*}

def xorSum (f : α → UInt32) : List α → UInt32
  | [] => 0
  | a :: l => f a ^^^ xorSum f l

variable {f g : α → UInt32} {l : List α}

@[simp] theorem xorSum_nil (f : α → UInt32) : xorSum f [] = 0 := rfl

@[simp] theorem xorSum_cons (f : α → UInt32) (a : α) (l : List α) :
    xorSum f (a :: l) = f a ^^^ xorSum f l := rfl

theorem foldl_xor (f : α → UInt32) (l : List α) (x : UInt32) :
    l.foldl (fun x a => x ^^^ f a) x = x ^^^ xorSum f l := by
  induction l generalizing x with
  | nil => exact UInt32.xor_zero.symm
  | cons a l ih => rw [List.foldl_cons, ih, xorSum_cons, UInt32.xor_assoc]

theorem xorSum_append (f : α → UInt32) (l l' : List α) :
    xorSum f (l ++ l') = xorSum f l ^^^ xorSum f l' := by
  induction l with
  | nil => exact UInt32.zero_xor.symm
  | cons a l ih => rw [List.cons_append, xorSum_cons, ih, xorSum_cons, UInt32.xor_assoc]

theorem xorSum_flatMap (f : β → UInt32) (h : α → List β) (l : List α) :
    xorSum f (l.flatMap h) = xorSum (fun a => xorSum f (h a)) l := by
  induction l with
  | nil => rfl
  | cons a l ih => rw [List.flatMap_cons, xorSum_append, ih, xorSum_cons]

theorem xorSum_map (f : β → UInt32) (h : α → β) (l : List α) :
    xorSum f (l.map h) = xorSum (fun a => f (h a)) l := by
  induction l with
  | nil => rfl
  | cons a l ih => rw [List.map_cons, xorSum_cons, ih, xorSum_cons]

theorem xorSum_congr (h : ∀ a ∈ l, f a = g a) : xorSum f l = xorSum g l := by
  induction l with
  | nil => rfl
  | cons a l ih =>
    obtain ⟨ha, hl⟩ := List.forall_mem_cons.mp h
    rw [xorSum_cons, xorSum_cons, ha, ih hl]

theorem xorSum_eq_zero (h : ∀ a ∈ l, f a = 0) : xorSum f l = 0 := by
  induction l with
  | nil => rfl
  | cons a l ih =>
    obtain ⟨ha, hl⟩ := List.forall_mem_cons.mp h
    rw [xorSum_cons, ha, ih hl, UInt32.xor_self]

variable [DecidableEq α]

/-- One element counts if it occurs an odd number of times. -/
theorem xorSum_single (c : α) (x : UInt32) (l : List α) :
    xorSum (fun a => if a = c then x else 0) l = if Odd (l.count c) then x else 0 := by
  induction l with
  | nil => rfl
  | cons a l ih =>
    rw [xorSum_cons, ih, List.count_cons]
    by_cases ha : a = c
    · rw [if_pos ha, beq_iff_eq.mpr ha, if_pos rfl]
      by_cases hodd : Odd (l.count c)
      · rw [if_pos hodd, if_neg fun h => Nat.odd_add_one.mp h hodd, UInt32.xor_self]
      · rw [if_neg hodd, if_pos (Nat.odd_add_one.mpr hodd), UInt32.xor_zero]
    · rw [if_neg ha, beq_false_of_ne ha, UInt32.zero_xor]
      rfl

/-- One element apart from the others. -/
theorem xorSum_filter (f : α → UInt32) (c : α) (l : List α) :
    xorSum f l = (if Odd (l.count c) then f c else 0) ^^^ xorSum f (l.filter (· ≠ c)) := by
  rw [← xorSum_single]
  induction l with
  | nil => exact UInt32.xor_zero.symm
  | cons a l ih =>
    rw [xorSum_cons, ih, xorSum_cons]
    by_cases ha : a = c
    · rw [if_pos ha, List.filter_cons_of_neg (by simpa using ha), ha, UInt32.xor_assoc]
    · rw [if_neg ha, List.filter_cons_of_pos (by simpa using ha), xorSum_cons, UInt32.zero_xor,
        ← UInt32.xor_assoc, UInt32.xor_comm (f a), UInt32.xor_assoc]

/-- Elements that occur an even number of times cancel. -/
theorem xorSum_of_even (f : α → UInt32) (h : ∀ a ∈ l, Even (l.count a)) : xorSum f l = 0 := by
  -- by induction on the length: all occurrences of the first element are taken out at once
  induction hlen : l.length using Nat.strong_induction_on generalizing l with
  | _ n ih =>
    cases l with
    | nil => rfl
    | cons a rest =>
      have hodd : ¬ Odd ((a :: rest).count a) :=
        Nat.not_odd_iff_even.mpr (h a List.mem_cons_self)
      have hshorter : ((a :: rest).filter (· ≠ a)).length < n := by
        rw [← hlen, List.filter_cons_of_neg (by simp)]
        exact Nat.lt_succ_of_le (List.length_filter_le _ _)
      have hrest : ∀ b ∈ (a :: rest).filter (· ≠ a),
          Even (((a :: rest).filter (· ≠ a)).count b) := by
        intro b hb
        obtain ⟨hmem, hne⟩ := List.mem_filter.mp hb
        have hcount : ((a :: rest).filter (· ≠ a)).count b = (a :: rest).count b :=
          List.count_filter hne
        rw [hcount]
        exact h b hmem
      rw [xorSum_filter f a, if_neg hodd, ih _ hshorter hrest rfl, UInt32.xor_self]

end PropMiner.Semantics
