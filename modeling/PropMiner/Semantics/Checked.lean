import Mathlib.Data.List.GetD

/-!
# Reads and writes that must be in range

An access behind the end of a vector has no meaning in C++, and no result here. A loop that writes
one entry after the other fills the vector from the front.

## Main definitions

* `store` — a write in range
* `Filled` — the entries that are written so far

## Main results

* `Filled.foldlM_store` — what a loop of writes leaves
* `Filled.eq_map_range` — a vector that is filled up
* `mapM_eq_some` — a loop of reads all of which are in range
-/

set_option autoImplicit false

namespace PropMiner.Semantics.Checked

variable {α β : Type*} {f : ℕ → α} {l : List α} {n : ℕ}

/-- `l[i] = x` -/
def store (l : List α) (i : ℕ) (x : α) : Option (List α) :=
  if i < l.length then some (l.set i x) else none

/-- The first `n` entries are those of `f`. -/
def Filled (f : ℕ → α) (n : ℕ) (l : List α) : Prop := ∀ i < n, l[i]? = some (f i)

theorem filled_zero (f : ℕ → α) (l : List α) : Filled f 0 l := fun i hi => absurd hi i.not_lt_zero

theorem Filled.set (h : Filled f n l) (hn : n < l.length) : Filled f (n + 1) (l.set n (f n)) := by
  intro i hi
  rw [List.getElem?_set]
  by_cases heq : n = i
  · subst heq
    rw [if_pos rfl, if_pos hn]
  · rw [if_neg heq]
    exact h i (by omega)

/-- A loop that writes the next `len` entries. -/
theorem Filled.foldlM_store {body : List α → ℕ → Option (List α)} {len : ℕ} (h : Filled f n l)
    (hlen : n + len ≤ l.length) (hbody : ∀ l, ∀ j < len, body l j = store l (n + j) (f (n + j))) :
    ∃ l', (List.range len).foldlM body l = some l' ∧ l'.length = l.length ∧
      Filled f (n + len) l' := by
  induction len with
  | zero => exact ⟨l, rfl, rfl, h⟩
  | succ len ih =>
    obtain ⟨l', hrun, hlength, hfilled⟩ :=
      ih (by omega) fun l j hj => hbody l j (Nat.lt_succ_of_lt hj)
    have hin : n + len < l'.length := by omega
    refine ⟨l'.set (n + len) (f (n + len)), ?_, by rw [List.length_set, hlength],
      hfilled.set hin⟩
    rw [List.range_succ, List.foldlM_append, hrun]
    change List.foldlM body l' [len] = _
    rw [List.foldlM_cons, hbody l' len (Nat.lt_succ_self len), store, if_pos hin]
    rfl

theorem Filled.eq_map_range (h : Filled f l.length l) : l = (List.range l.length).map f := by
  apply List.ext_getElem?
  intro i
  by_cases hi : i < l.length
  · rw [h i hi, List.getElem?_map, List.getElem?_range hi]
    rfl
  · rw [List.getElem?_eq_none (by omega), List.getElem?_eq_none (by simpa using hi)]

/-- A loop all of whose rounds have a result. -/
theorem mapM_eq_some {g : β → Option α} {f : β → α} {l : List β} (h : ∀ b ∈ l, g b = some (f b)) :
    l.mapM g = some (l.map f) := by
  induction l with
  | nil => rfl
  | cons b l ih =>
    obtain ⟨hb, hl⟩ := List.forall_mem_cons.mp h
    rw [List.mapM_cons, hb, ih hl]
    rfl

end PropMiner.Semantics.Checked
