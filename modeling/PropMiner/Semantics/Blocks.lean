import Mathlib.Data.List.Basic
import Mathlib.Data.List.GetD

/-!
# Streams in blocks

A stream that is produced in blocks of one length, and the part of it between two positions. A
reader goes through the blocks that meet the part and skips what lies before and behind it.

## Main definitions

* `blockAt` — an element of the concatenation of blocks

## Main results

* `flatMap_range_mul` — positions block by block are the positions in order
* `flatMap_window` — the reader gets exactly the part
* `flatMap_range_min` — a last block that is shorter than the others
* `take_drop_flatMap`, `take_flatMap`, `map_range_flatMap` — one block out of many, the first ones,
  and all of them
* `meets_block_iff` — the blocks that an interval meets
-/

set_option autoImplicit false

namespace PropMiner.Semantics

variable {α : Type*} {m start stop first last : ℕ}

/-- The positions of `n` blocks from block `first` on, block by block. -/
theorem flatMap_range'_mul (first n m : ℕ) :
    ((List.range n).flatMap fun b => (List.range m).map fun i => (first + b) * m + i) =
      List.range' (first * m) (n * m) := by
  induction n with
  | zero => simp
  | succ n ih =>
    have hblock : ((List.range m).map fun i => (first + n) * m + i) =
        List.range' ((first + n) * m) m := by
      rw [List.range'_eq_map_range]
    rw [List.range_succ, List.flatMap_append, ih, List.flatMap_singleton, hblock, Nat.succ_mul,
      ← List.range'_append_1, Nat.add_mul]

theorem flatMap_range_mul (g : ℕ → α) (n m : ℕ) :
    ((List.range n).flatMap fun b => (List.range m).map fun i => g (b * m + i)) =
      (List.range (n * m)).map g := by
  have hpositions := congrArg (List.map g) (flatMap_range'_mul 0 n m)
  simpa [List.map_flatMap, List.range_eq_range', Function.comp_def] using hpositions

/-- Skipping what lies outside of a part of an interval. -/
theorem filterMap_range'_window (g : ℕ → α) {a n : ℕ} (hstart : a ≤ start) (hlen : start ≤ stop)
    (hstop : stop ≤ a + n) :
    (List.range' a n).filterMap (fun x => if x < start ∨ stop ≤ x then none else some (g x)) =
      (List.range (stop - start)).map fun j => g (start + j) := by
  -- the interval falls into what is before the part, the part, and what is behind it
  have hsplit : List.range' a n = List.range' a (start - a) ++
      (List.range' start (stop - start) ++ List.range' stop (a + n - stop)) := by
    have h1 : stop = start + (stop - start) := by omega
    have h2 : start = a + (start - a) := by omega
    have hn : n = start - a + (stop - start + (a + n - stop)) := by omega
    conv_rhs => rw [h1, Nat.add_sub_cancel_left, List.range'_append_1]
    conv_rhs => rw [h2, Nat.add_sub_cancel_left, List.range'_append_1]
    congr 1
    omega
  have hbefore : (List.range' a (start - a)).filterMap
      (fun x => if x < start ∨ stop ≤ x then none else some (g x)) = [] := by
    rw [List.filterMap_eq_nil_iff]
    intro x hx
    have hlt := (List.mem_range'_1.mp hx).2
    exact if_pos (.inl (by omega))
  have hbehind : (List.range' stop (a + n - stop)).filterMap
      (fun x => if x < start ∨ stop ≤ x then none else some (g x)) = [] := by
    rw [List.filterMap_eq_nil_iff]
    intro x hx
    exact if_pos (.inr (List.mem_range'_1.mp hx).1)
  have hpart : (List.range' start (stop - start)).filterMap
      (fun x => if x < start ∨ stop ≤ x then none else some (g x)) =
        (List.range' start (stop - start)).map g := by
    rw [← List.filterMap_eq_map]
    apply List.filterMap_congr
    intro x hx
    obtain ⟨hle, hlt⟩ := List.mem_range'_1.mp hx
    exact if_neg (by omega)
  rw [hsplit, List.filterMap_append, List.filterMap_append, hbefore, hbehind, hpart,
    List.nil_append, List.append_nil, List.range'_eq_map_range, List.map_map]
  rfl

/-- A reader that goes through all blocks from `first` to `last` and skips the positions
outside of the part from `start` to `stop`. -/
theorem flatMap_window (g : ℕ → α) (hstart : first * m ≤ start) (hlen : start ≤ stop)
    (hstop : stop ≤ last * m) (hblocks : first ≤ last) :
    ((List.range (last - first)).flatMap fun b => (List.range m).filterMap fun i =>
        if (first + b) * m + i < start ∨ stop ≤ (first + b) * m + i then none
        else some (g ((first + b) * m + i))) =
      (List.range (stop - start)).map fun j => g (start + j) := by
  have hcover : stop ≤ first * m + (last - first) * m := by
    rw [← Nat.add_mul, Nat.add_sub_cancel' hblocks]
    exact hstop
  rw [← filterMap_range'_window g hstart hlen hcover, ← flatMap_range'_mul,
    List.filterMap_flatMap]
  congr 1
  funext b
  rw [List.filterMap_map]
  rfl

/-- Blocks of `m` positions up to a stop, the last of which may be shorter. -/
theorem flatMap_range_min (g : ℕ → α) (hm : 0 < m) (stop : ℕ) :
    ((List.range ((stop + (m - 1)) / m)).flatMap fun b =>
        (List.range (min m (stop - b * m))).map fun i => g (b * m + i)) =
      (List.range stop).map g := by
  have hcover : stop ≤ (stop + (m - 1)) / m * m := by
    have hdiv := Nat.div_add_mod (stop + (m - 1)) m
    have hmod := Nat.mod_lt (stop + (m - 1)) hm
    rw [Nat.mul_comm] at hdiv
    omega
  have hwindow := @flatMap_window _ m 0 stop 0 ((stop + (m - 1)) / m) g (by omega) (by omega)
    hcover (Nat.zero_le _)
  simp only [Nat.sub_zero, Nat.zero_add] at hwindow
  rw [← hwindow]
  refine congrArg (fun f => (List.range ((stop + (m - 1)) / m)).flatMap f) (funext fun b => ?_)
  -- a short block is a block in which the positions from `stop` on are skipped
  have hblock := @filterMap_range'_window _ 0 (min m (stop - b * m)) (fun i => g (b * m + i)) 0 m
    (by omega) (by omega) (by omega)
  simp only [Nat.sub_zero, Nat.zero_add, ← List.range_eq_range'] at hblock
  rw [← hblock]
  apply List.filterMap_congr
  intro i hi
  have hlt := List.mem_range.mp hi
  exact if_congr (by omega) rfl rfl

/-- The blocks that meet the part from `start` to `stop`. -/
theorem meets_block_iff {b : ℕ} (hm : 0 < m) (hlen : start < stop) :
    (∃ x, (b * m ≤ x ∧ x < (b + 1) * m) ∧ start ≤ x ∧ x < stop) ↔
      start / m ≤ b ∧ b ≤ (stop - 1) / m := by
  rw [Nat.le_div_iff_mul_le hm, ← Nat.lt_succ_iff, Nat.div_lt_iff_lt_mul hm]
  constructor
  · rintro ⟨x, ⟨hlo, hhi⟩, hstart, hstop⟩
    exact ⟨Nat.lt_of_le_of_lt hstart hhi, by omega⟩
  · rintro ⟨hfirst, hlast⟩
    rw [Nat.succ_mul] at hfirst
    -- the first position of the part that is not before the block
    refine ⟨max start (b * m), ?_, Nat.le_max_left _ _, by omega⟩
    rw [Nat.add_mul, Nat.one_mul]
    omega

/-- Element `i` of the concatenation of blocks of `m` elements. -/
def blockAt (m : ℕ) (block : ℕ → List α) (default : α) (i : ℕ) : α :=
  (block (i / m)).getD (i % m) default

/-- The blocks one after the other are the stream. -/
theorem flatMap_blocks {block : ℕ → List α} {default : α} (hm : 0 < m)
    (hlength : ∀ b, (block b).length = m) (n : ℕ) :
    (List.range n).flatMap block = (List.range (n * m)).map (blockAt m block default) := by
  rw [← flatMap_range_mul]
  congr 1
  funext b
  apply List.ext_getElem
  · rw [hlength, List.length_map, List.length_range]
  · intro i hi hi'
    rw [List.length_map, List.length_range] at hi'
    rw [List.getElem_map, List.getElem_range, blockAt, Nat.mul_comm b m, Nat.mul_add_div hm,
      Nat.mul_add_mod, Nat.div_eq_of_lt hi', Nat.mod_eq_of_lt hi', Nat.add_zero,
      List.getD_eq_getElem]

/-- A block among blocks of one length. -/
theorem take_drop_flatMap {ι : Type*} {f : ι → List α} {l : List ι}
    (hlength : ∀ x ∈ l, (f x).length = m) {u : ℕ} (hu : u < l.length) :
    ((l.flatMap f).drop (u * m)).take m = f l[u] := by
  induction l generalizing u with
  | nil => cases hu
  | cons x l ih =>
    obtain ⟨hx, hl⟩ := List.forall_mem_cons.mp hlength
    rw [List.flatMap_cons]
    cases u with
    | zero => rw [Nat.zero_mul, List.drop_zero, List.take_left' hx, List.getElem_cons_zero]
    | succ u =>
      rw [Nat.succ_mul, Nat.add_comm, ← List.drop_drop, List.drop_left' hx,
        ih hl (Nat.lt_of_succ_lt_succ hu), List.getElem_cons_succ]

/-- The first of many blocks. -/
theorem take_flatMap {ι : Type*} {f : ι → List α} {l : List ι}
    (hlength : ∀ x ∈ l, (f x).length = m) (u : ℕ) :
    (l.flatMap f).take (u * m) = (l.take u).flatMap f := by
  induction l generalizing u with
  | nil => simp
  | cons x l ih =>
    obtain ⟨hx, hl⟩ := List.forall_mem_cons.mp hlength
    cases u with
    | zero => simp
    | succ u =>
      rw [List.flatMap_cons, List.take_succ_cons, List.flatMap_cons, Nat.succ_mul, Nat.add_comm,
        ← hx, List.take_length_add_append, hx, ih hl]

theorem length_flatMap_of_forall {ι : Type*} {f : ι → List α} {l : List ι}
    (hlength : ∀ x ∈ l, (f x).length = m) : (l.flatMap f).length = l.length * m := by
  rw [List.length_flatMap, List.map_congr_left hlength, List.map_const', List.sum_replicate_nat]

/-- The blocks one after the other, cut apart again. -/
theorem map_range_flatMap {ι β : Type*} {f : ι → List α} {g : List α → β} {l : List ι} (hm : 0 < m)
    (hlength : ∀ x ∈ l, (f x).length = m) :
    ((List.range ((l.flatMap f).length / m)).map fun u => g (((l.flatMap f).drop (u * m)).take m)) =
      l.map fun x => g (f x) := by
  have hcount : (l.flatMap f).length / m = l.length := by
    rw [length_flatMap_of_forall hlength, Nat.mul_div_cancel _ hm]
  rw [hcount]
  apply List.ext_getElem
  · simp
  · intro u hu hu'
    rw [List.length_map] at hu'
    simp only [List.getElem_map, List.getElem_range]
    rw [take_drop_flatMap hlength hu']

/-- An element of a block among blocks of one length. -/
theorem getD_drop_flatMap {ι : Type*} {f : ι → List α} {l : List ι}
    (hlength : ∀ x ∈ l, (f x).length = m) {u j : ℕ} (hu : u < l.length) (hj : j < m) (d : α) :
    ((l.flatMap f).drop (u * m)).getD j d = (f l[u]).getD j d := by
  rw [← take_drop_flatMap hlength hu, List.getD_eq_getElem?_getD, List.getD_eq_getElem?_getD,
    List.getElem?_take_of_lt hj]

end PropMiner.Semantics
