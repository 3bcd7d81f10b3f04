import Mathlib.Data.List.Sort
import Mathlib.Order.Defs.Unbundled

/-!
# Sets in order

A set that is kept as an increasing list, and walked in that order. An element is compared with
`<` only; it is put in front of the first one it is below, unless it is there already.

## Main definitions

* `OrderedSet` — an increasing list
* `OrderedSet.insert`, `OrderedSet.ofList` — one more element, and those of a list

## Main results

* `OrderedSet.mem_insert`, `OrderedSet.mem_foldl_insert` — the elements after one insertion, and
  after a loop of insertions
-/

set_option autoImplicit false

namespace PropMiner.Semantics

/-- The elements of a set, each one below those behind it. -/
structure OrderedSet (α : Type*) [LT α] where
  elems : List α
  increasing : elems.Pairwise (· < ·)

namespace OrderedSet

variable {α β : Type*} [LT α]

def empty : OrderedSet α := ⟨[], .nil⟩

instance : Membership α (OrderedSet α) := ⟨fun s x => x ∈ s.elems⟩

instance [DecidableEq α] (x : α) (s : OrderedSet α) : Decidable (x ∈ s) :=
  inferInstanceAs (Decidable (x ∈ s.elems))

theorem ext_elems {s t : OrderedSet α} (h : s.elems = t.elems) : s = t := by
  cases s
  cases t
  cases h
  rfl

theorem ext_mem [IsTrans α (· < ·)] [Std.Irrefl (α := α) (· < ·)] {s t : OrderedSet α}
    (h : ∀ x, x ∈ s ↔ x ∈ t) : s = t :=
  ext_elems (s.increasing.eq_of_mem_iff t.increasing h)

theorem not_mem_empty (x : α) : x ∉ (empty : OrderedSet α) := List.not_mem_nil

variable [DecidableLT α]

/-- The place of an element in an increasing list. -/
def insertElem (x : α) : List α → List α
  | [] => [x]
  | y :: l => if x < y then x :: y :: l else if y < x then y :: insertElem x l else y :: l

variable [Std.Trichotomous (α := α) (· < ·)]

theorem mem_insertElem {x y : α} {l : List α} : y ∈ insertElem x l ↔ y = x ∨ y ∈ l := by
  induction l with
  | nil => simp [insertElem]
  | cons z l ih =>
    rw [insertElem]
    split_ifs with hlt hgt
    · exact List.mem_cons
    · rw [List.mem_cons, ih, List.mem_cons, or_left_comm]
    · obtain rfl : x = z := Std.Trichotomous.trichotomous x z hlt hgt
      rw [List.mem_cons, ← or_assoc, or_self]

variable [IsTrans α (· < ·)]

theorem pairwise_insertElem (x : α) {l : List α} (hl : l.Pairwise (· < ·)) :
    (insertElem x l).Pairwise (· < ·) := by
  induction l with
  | nil => exact List.pairwise_singleton _ x
  | cons y l ih =>
    obtain ⟨hy, hrest⟩ := List.pairwise_cons.mp hl
    rw [insertElem]
    split_ifs with hlt hgt
    · refine List.pairwise_cons.mpr ⟨fun z hz => ?_, hl⟩
      rcases List.mem_cons.mp hz with rfl | hz
      · exact hlt
      · exact IsTrans.trans x y z hlt (hy z hz)
    · refine List.pairwise_cons.mpr ⟨fun z hz => ?_, ih hrest⟩
      rcases mem_insertElem.mp hz with rfl | hz
      · exact hgt
      · exact hy z hz
    · exact hl

/-- `insert` of an ordered set. -/
def insert (x : α) (s : OrderedSet α) : OrderedSet α :=
  ⟨insertElem x s.elems, pairwise_insertElem x s.increasing⟩

theorem mem_insert {x y : α} {s : OrderedSet α} : y ∈ s.insert x ↔ y = x ∨ y ∈ s := mem_insertElem

/-- A loop of insertions. -/
theorem mem_foldl_insert {f : β → α} {l : List β} {s : OrderedSet α} {y : α} :
    y ∈ l.foldl (fun s b => s.insert (f b)) s ↔ (∃ b ∈ l, y = f b) ∨ y ∈ s := by
  induction l generalizing s with
  | nil => simp
  | cons b l ih =>
    rw [List.foldl_cons, ih, mem_insert, List.exists_mem_cons_iff, or_assoc, or_left_comm]

/-- `collect` into a set -/
def ofList (l : List α) : OrderedSet α := l.foldl (fun s x => s.insert x) empty

theorem mem_ofList {l : List α} {x : α} : x ∈ ofList l ↔ x ∈ l := by
  rw [ofList, mem_foldl_insert (f := fun x => x)]
  simp [not_mem_empty]

end OrderedSet

end PropMiner.Semantics
