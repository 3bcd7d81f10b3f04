import Mathlib.Data.List.Infix
import Mathlib.Data.List.Nodup

/-!
# Rings of slots

Slots that are used round robin, as a list: the slot to use next comes first. The busy
slots are the last ones, the oldest first. Using a slot moves it to the end; completing
the oldest shortens the busy part from the left.

## Main definitions

* `busy` — the busy slots, oldest first

## Main results

* `busy_push`, `not_mem_busy` — a slot that is used while another is idle was not busy
* `busy_pop` — the oldest slot is completed
-/

set_option autoImplicit false

namespace PropMiner.Semantics.Ring

variable {κ : Type*} {order rest : List κ} {k : κ} {count : ℕ}

/-- The busy slots when there are `count` of them: the last of the slots in the order of
their use. -/
def busy (order : List κ) (count : ℕ) : List κ := order.drop (order.length - count)

@[simp] theorem busy_zero : busy order 0 = [] := by
  simp [busy]

theorem busy_cons (hidle : count ≤ rest.length) : busy (k :: rest) count = busy rest count := by
  have hlength : (k :: rest).length - count = rest.length - count + 1 := by
    rw [List.length_cons]
    omega
  rw [busy, hlength, List.drop_succ_cons, busy]

theorem busy_full : busy order order.length = order := by
  simp [busy]

theorem not_mem_busy (hnodup : (k :: rest).Nodup) (hidle : count ≤ rest.length) :
    k ∉ busy (k :: rest) count := by
  intro hmem
  rw [busy_cons hidle] at hmem
  exact (List.nodup_cons.mp hnodup).1 (List.mem_of_mem_drop hmem)

/-- The next slot is used: it becomes the newest busy one. -/
theorem busy_push (hidle : count ≤ rest.length) :
    busy (rest ++ [k]) (count + 1) = busy (k :: rest) count ++ [k] := by
  have hlength : (rest ++ [k]).length - (count + 1) = rest.length - count := by
    rw [List.length_append, List.length_singleton]
    omega
  rw [busy_cons hidle, busy, hlength, List.drop_append_of_le_length (Nat.sub_le _ _), busy]

/-- All slots are busy and the oldest, which is the one to be used next, is completed. -/
theorem busy_pop : busy (k :: rest) (rest.length + 1) = k :: busy (k :: rest) rest.length := by
  rw [busy_cons le_rfl, busy_full]
  exact busy_full

end PropMiner.Semantics.Ring
