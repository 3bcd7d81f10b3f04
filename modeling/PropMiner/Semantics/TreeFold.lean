import Mathlib.Data.Nat.Log
import Mathlib.Data.List.GetD
import Mathlib.Tactic.Ring

/-!
# Folding a list over a left-balanced tree

The leaves of a tree are a list, and every inner node joins two subtrees. The tree is left-balanced:
the left subtree of a node has as many leaves as the largest power of two that leaves something for
the right one. The join is not associative, so the shape matters.

The same value is reached in other ways. Going up level by level, neighbours are joined and a last
element without a neighbour is kept for the next level. Going from left to right, perfect subtrees
are kept on a stack and joined at the end from the right.

## Main definitions

* `split`, `fold` — the left-balanced tree
* `rootFold` — the same with another join at the root
* `pairUp` — one level up
* `stackOf` — the perfect subtrees that make up a list

## Main results

* `fold_pairUp`, `rootFold_pairUp` — going up a level does not change the value
* `stackOf_concat`, `stackOf_concat_concat` — how the stack grows with a leaf
* `foldl_stackOf` — the stack and a last leaf make the tree
* `fold_map`, `rootFold_map` — the tree over values of another kind
-/

set_option autoImplicit false

namespace PropMiner.Semantics.TreeFold

variable {α β : Type*} {f : α → α → α} {r : α → α → β} {k n : ℕ}

/-! ### Where a list is split -/

/-- The number of leaves on the left: the largest power of two below `n`. -/
def split (n : ℕ) : ℕ := 2 ^ Nat.log 2 (n - 1)

theorem split_pos (n : ℕ) : 0 < split n := Nat.pow_pos (by omega)

theorem split_lt (hn : 2 ≤ n) : split n < n := by
  have hle : split n ≤ n - 1 := Nat.pow_log_le_self 2 (by omega)
  omega

/-- One level up everything is halved. -/
theorem two_mul_split (hn : 3 ≤ n) : 2 * split ((n + 1) / 2) = split n := by
  have hhalf : (n + 1) / 2 - 1 = (n - 1) / 2 := by omega
  have hlog : 0 < Nat.log 2 (n - 1) := Nat.log_pos (by omega) (by omega)
  rw [split, hhalf, Nat.log_div_base, ← pow_succ', Nat.sub_add_cancel hlog, split]

/-! ### The tree -/

section Fold

variable [Inhabited α]

/-- The value of the tree over a list that is not empty. -/
def fold (f : α → α → α) (l : List α) : α :=
  if _h : 2 ≤ l.length then
    f (fold f (l.take (split l.length))) (fold f (l.drop (split l.length)))
  else l.headD default
termination_by l.length
decreasing_by
  · simp only [List.length_take]
    have := split_lt _h
    omega
  · simp only [List.length_drop]
    have := split_pos l.length
    omega

@[simp] theorem fold_singleton (a : α) : fold f [a] = a := by
  rw [fold]
  rfl

theorem fold_of_two_le {l : List α} (h : 2 ≤ l.length) :
    fold f l = f (fold f (l.take (split l.length))) (fold f (l.drop (split l.length))) := by
  rw [fold, dif_pos h]

/-- The value of a tree whose two topmost subtrees are joined by `r`. -/
def rootFold (f : α → α → α) (r : α → α → β) (l : List α) : β :=
  r (fold f (l.take (split l.length))) (fold f (l.drop (split l.length)))

theorem rootFold_self {l : List α} (h : 2 ≤ l.length) : rootFold f f l = fold f l :=
  (fold_of_two_le h).symm

@[simp] theorem rootFold_pair (a b : α) : rootFold f r [a, b] = r a b := by
  have hsplit : split 2 = 1 := rfl
  simp [rootFold, hsplit]

end Fold

/-! ### Level by level -/

/-- One level up: neighbours are joined, a last element without a neighbour is kept. -/
def pairUp (f : α → α → α) : List α → List α
  | [] => []
  | [a] => [a]
  | a :: b :: l => f a b :: pairUp f l

@[simp] theorem pairUp_nil : pairUp f ([] : List α) = [] := rfl

@[simp] theorem pairUp_cons_cons (a b : α) (l : List α) :
    pairUp f (a :: b :: l) = f a b :: pairUp f l := rfl

theorem length_pairUp (l : List α) : (pairUp f l).length = (l.length + 1) / 2 := by
  fun_induction pairUp f l with
  | case1 => simp
  | case2 a => simp
  | case3 a b l ih =>
    simp only [List.length_cons, ih]
    omega

theorem getElem?_pairUp (l : List α) (j : ℕ) :
    (pairUp f l)[j]? = Option.merge f l[2 * j]? l[2 * j + 1]? := by
  fun_induction pairUp f l generalizing j with
  | case1 => simp
  | case2 a => cases j <;> simp [Nat.mul_add]
  | case3 a b l ih =>
    cases j with
    | zero => simp
    | succ j => simp [ih, Nat.mul_add]

theorem pairUp_append {xs : List α} (hxs : 2 ∣ xs.length) (ys : List α) :
    pairUp f (xs ++ ys) = pairUp f xs ++ pairUp f ys := by
  fun_induction pairUp f xs with
  | case1 => simp
  | case2 a => simp at hxs
  | case3 a b l ih =>
    have hl : 2 ∣ l.length := by simpa [Nat.dvd_add_left] using hxs
    rw [List.cons_append, List.cons_append, pairUp_cons_cons, ih hl, List.cons_append]

/-- The two subtrees of a node, one level up. -/
theorem pairUp_split {l : List α} (hl : 3 ≤ l.length) :
    (pairUp f l).take (split (pairUp f l).length) = pairUp f (l.take (split l.length)) ∧
      (pairUp f l).drop (split (pairUp f l).length) = pairUp f (l.drop (split l.length)) := by
  have hdouble := two_mul_split hl
  have htake : (l.take (split l.length)).length = split l.length := by
    rw [List.length_take, Nat.min_eq_left (split_lt (by omega)).le]
  have heven : 2 ∣ (l.take (split l.length)).length := by
    rw [htake, ← hdouble]
    exact Nat.dvd_mul_right 2 _
  have hpairs : pairUp f l =
      pairUp f (l.take (split l.length)) ++ pairUp f (l.drop (split l.length)) := by
    rw [← pairUp_append heven, List.take_append_drop]
  have hlen : split (pairUp f l).length = (pairUp f (l.take (split l.length))).length := by
    rw [length_pairUp, length_pairUp, htake]
    omega
  rw [hlen, hpairs]
  exact ⟨List.take_left, List.drop_left⟩

section Levels

variable [Inhabited α]

/-- Going up a level keeps the value of the tree. -/
theorem fold_pairUp (l : List α) : fold f (pairUp f l) = fold f l := by
  induction hn : l.length using Nat.strong_induction_on generalizing l with
  | _ n ih =>
    match l, hn with
    | [], _ => rfl
    | [a], _ => rfl
    | [a, b], _ => simp [← rootFold_self (l := [a, b])]
    | a :: b :: c :: l, hn =>
      have hlen : 3 ≤ (a :: b :: c :: l).length := by simp
      generalize a :: b :: c :: l = l at hlen hn
      obtain ⟨htake, hdrop⟩ := pairUp_split (f := f) hlen
      have hpos := split_pos l.length
      have hlt := split_lt (n := l.length) (by omega)
      have htwo : 2 ≤ l.length := by omega
      rw [fold_of_two_le (l := pairUp f l) (by rw [length_pairUp]; omega), htake, hdrop,
        ih _ (by rw [← hn, List.length_take]; omega) _ rfl,
        ih _ (by rw [← hn, List.length_drop]; omega) _ rfl, fold_of_two_le htwo]

/-- Going up a level below the topmost two subtrees. -/
theorem rootFold_pairUp {l : List α} (hl : 3 ≤ l.length) :
    rootFold f r (pairUp f l) = rootFold f r l := by
  obtain ⟨htake, hdrop⟩ := pairUp_split (f := f) hl
  rw [rootFold, htake, hdrop, fold_pairUp, fold_pairUp, rootFold]

end Levels

/-! ### A stack of perfect subtrees -/

/-- The perfect subtrees that a list of leaves is made of, one for each bit of their number: the
smallest one, which stands on the right, is on top. -/
def stackOf (f : α → α → α) (l : List α) : List α :=
  if h : l = [] then []
  else if l.length % 2 = 0 then stackOf f (pairUp f l)
  else l.getLast h :: stackOf f (pairUp f l.dropLast)
termination_by l.length
decreasing_by
  · have := List.length_pos_iff.mpr h
    rw [length_pairUp]
    omega
  · have := List.length_pos_iff.mpr h
    rw [length_pairUp, List.length_dropLast]
    omega

@[simp] theorem stackOf_nil : stackOf f [] = [] := by rw [stackOf, dif_pos rfl]

section Stack

variable {l : List α}

theorem stackOf_pairUp (hl : l.length % 2 = 0) : stackOf f (pairUp f l) = stackOf f l := by
  by_cases hnil : l = []
  · rw [hnil, pairUp_nil]
  · conv_rhs => rw [stackOf, dif_neg hnil, if_pos hl]

theorem stackOf_concat (hl : l.length % 2 = 0) (a : α) :
    stackOf f (l ++ [a]) = a :: stackOf f l := by
  have hodd : ¬ (l ++ [a]).length % 2 = 0 := by
    rw [List.length_append, List.length_singleton]
    omega
  rw [stackOf, dif_neg (by simp), if_neg hodd, List.getLast_concat, List.dropLast_concat,
    stackOf_pairUp hl]

theorem pairUp_concat (hl : l.length % 2 = 0) (a : α) : pairUp f (l ++ [a]) = pairUp f l ++ [a] :=
  pairUp_append (Nat.dvd_of_mod_eq_zero hl) [a]

theorem pairUp_concat_concat (hl : l.length % 2 = 0) (a b : α) :
    pairUp f (l ++ [a] ++ [b]) = pairUp f l ++ [f a b] := by
  rw [List.append_assoc]
  exact pairUp_append (Nat.dvd_of_mod_eq_zero hl) [a, b]

/-- An odd number of leaves is an even one and one more. -/
theorem exists_concat (hl : ¬ l.length % 2 = 0) :
    ∃ init a, init.length % 2 = 0 ∧ l = init ++ [a] := by
  rcases List.eq_nil_or_concat l with rfl | ⟨init, a, rfl⟩
  · exact absurd rfl hl
  · refine ⟨init, a, ?_, List.concat_eq_append⟩
    rw [List.concat_eq_append, List.length_append, List.length_singleton] at hl
    omega

/-- A leaf is added: a subtree on the stack that it completes is joined with it. -/
theorem stackOf_concat_concat (hl : l.length % 2 = 0) (a b : α) :
    stackOf f (l ++ [a] ++ [b]) = stackOf f (pairUp f l ++ [f a b]) := by
  have heven : (l ++ [a] ++ [b]).length % 2 = 0 := by
    simp only [List.length_append, List.length_singleton]
    omega
  rw [← pairUp_concat_concat hl, stackOf_pairUp heven]

theorem length_stackOf_le (hl : l.length < 2 ^ k) : (stackOf f l).length ≤ k := by
  induction k generalizing l with
  | zero =>
    rw [pow_zero, Nat.lt_one_iff, List.length_eq_zero_iff] at hl
    rw [hl, stackOf_nil]
    exact Nat.le_refl 0
  | succ k ih =>
    rw [pow_succ] at hl
    have hhalf : ∀ init : List α, init.length % 2 = 0 → init.length < 2 ^ k * 2 →
        (stackOf f init).length ≤ k := by
      intro init heven hlt
      rw [← stackOf_pairUp heven]
      exact ih (by rw [length_pairUp]; omega)
    by_cases heven : l.length % 2 = 0
    · have := hhalf l heven hl
      omega
    · obtain ⟨init, a, hinit, rfl⟩ := exists_concat heven
      rw [List.length_append] at hl
      have := hhalf init hinit (by omega)
      rw [stackOf_concat hinit, List.length_cons]
      omega

/-- Joined from the top down, the stack and a last leaf make the tree. -/
theorem foldl_stackOf [Inhabited α] {cv : β → α}
    (hcv : ∀ a b, cv (r a b) = f a b) (hl : l ≠ []) (last : β) :
    (stackOf f l).foldl (fun current left => r left (cv current)) last =
      rootFold f r (l ++ [cv last]) := by
  induction hn : l.length using Nat.strong_induction_on generalizing l last with
  | _ n ih =>
    have hpos := List.length_pos_iff.mpr hl
    have hpairs : ∀ init : List α, init ≠ [] → pairUp f init ≠ [] := by
      intro init hinit
      have := List.length_pos_iff.mpr hinit
      rw [← List.length_pos_iff, length_pairUp]
      omega
    by_cases heven : l.length % 2 = 0
    · rw [← stackOf_pairUp heven, ih _ (by rw [length_pairUp]; omega) (hpairs l hl) _ rfl,
        ← pairUp_concat heven, rootFold_pairUp]
      rw [List.length_append, List.length_singleton]
      omega
    · obtain ⟨init, a, hinit, rfl⟩ := exists_concat heven
      rw [stackOf_concat hinit, List.foldl_cons]
      by_cases hnil : init = []
      · subst hnil
        rw [stackOf_nil]
        exact (rootFold_pair a (cv last)).symm
      · have hlen := List.length_pos_iff.mpr hnil
        rw [List.length_append, List.length_singleton] at hn
        rw [← stackOf_pairUp hinit, ih _ (by rw [length_pairUp]; omega) (hpairs init hnil) _ rfl,
          hcv, ← pairUp_concat_concat hinit, rootFold_pairUp]
        simp only [List.length_append, List.length_singleton]
        omega

end Stack

/-! ### Another kind of values -/

section Map

variable [Inhabited α] [Inhabited β] {g : α → β} {f' : β → β → β}

theorem fold_map (hg : ∀ a b, g (f a b) = f' (g a) (g b)) {l : List α} (hl : l ≠ []) :
    fold f' (l.map g) = g (fold f l) := by
  induction hn : l.length using Nat.strong_induction_on generalizing l with
  | _ n ih =>
    have hpos := List.length_pos_iff.mpr hl
    by_cases htwo : 2 ≤ l.length
    · have hlt := split_lt htwo
      have hsplit := split_pos l.length
      have htake : l.take (split l.length) ≠ [] := by
        rw [← List.length_pos_iff, List.length_take]
        omega
      have hdrop : l.drop (split l.length) ≠ [] := by
        rw [← List.length_pos_iff, List.length_drop]
        omega
      rw [fold_of_two_le (by rwa [List.length_map]), fold_of_two_le htwo, List.length_map,
        ← List.map_take, ← List.map_drop, ih _ (by rw [List.length_take]; omega) htake rfl,
        ih _ (by rw [List.length_drop]; omega) hdrop rfl, hg]
    · obtain ⟨a, rfl⟩ := List.length_eq_one_iff.mp (by omega : l.length = 1)
      rw [List.map_singleton, fold_singleton, fold_singleton]

theorem rootFold_map {γ γ' : Type*} {g' : γ → γ'} {r : α → α → γ} {r' : β → β → γ'}
    (hg : ∀ a b, g (f a b) = f' (g a) (g b)) (hr : ∀ a b, g' (r a b) = r' (g a) (g b))
    {l : List α} (hl : 2 ≤ l.length) : rootFold f' r' (l.map g) = g' (rootFold f r l) := by
  have hlt := split_lt hl
  have hsplit := split_pos l.length
  have htake : l.take (split l.length) ≠ [] := by
    rw [← List.length_pos_iff, List.length_take]
    omega
  have hdrop : l.drop (split l.length) ≠ [] := by
    rw [← List.length_pos_iff, List.length_drop]
    omega
  rw [rootFold, rootFold, List.length_map, ← List.map_take, ← List.map_drop, fold_map hg htake,
    fold_map hg hdrop, hr]

end Map

end PropMiner.Semantics.TreeFold
