import PropMiner.Semantics.LittleEndian

/-!
# Bincode readers

Readers for a format without tags: integers of eight bytes, arrays of a fixed length, and
lists that follow their count. A reader that takes exactly the bytes of a value, whatever
stands behind them, determines the value, and readers with that property compose.

## Main definitions

* `Reader` — takes bytes from the front
* `array`, `u64`, `byteVec`, `vec`, `noneTag` — the pieces of the format
* `Takes` — a reader takes these bytes and no more, and gives this value

## Main results

* `Takes.bind`, `takes_vec` — sequences and lists
* `Takes.unique` — the bytes determine the value
-/

set_option autoImplicit false

namespace PropMiner.Semantics.Bincode

variable {α β γ : Type} {n : ℕ} {bs cs : List UInt8} {a a' : α} {b : β}

abbrev Reader := StateT (List UInt8) Option

/-- `[u8; n]` -/
def array (n : ℕ) : Reader (List UInt8) := fun bs =>
  if n ≤ bs.length then some (bs.take n, bs.drop n) else none

/-- `u64`, least significant byte first -/
def u64 : Reader ℕ := do
  let bs ← array 8
  return LittleEndian.value bs

/-- As many items as a count announces. -/
def items (item : Reader α) : ℕ → Reader (List α)
  | 0 => return []
  | n + 1 => do
      let a ← item
      let as ← items item n
      return a :: as

/-- `Vec<T>` -/
def vec (item : Reader α) : Reader (List α) := do
  let count ← u64
  items item count

/-- `Vec<u8>` -/
def byteVec : Reader (List UInt8) := do
  let length ← u64
  array length

/-- The tag of an `Option` that holds nothing. -/
def noneTag : Reader Unit := do
  let tag ← array 1
  if tag = [0] then return () else failure

/-- The reader takes these bytes from the front of any others, and gives this value. -/
def Takes (p : Reader α) (bs : List UInt8) (a : α) : Prop :=
  ∀ rest, p (bs ++ rest) = some (a, rest)

theorem Takes.run {p : Reader α} (h : Takes p bs a) : p bs = some (a, []) := by
  have hrun := h []
  rwa [List.append_nil] at hrun

theorem Takes.unique {p : Reader α} (h : Takes p bs a) (h' : Takes p bs a') : a = a' := by
  have hsame := h.run.symm.trans h'.run
  exact congrArg Prod.fst (Option.some.inj hsame)

theorem takes_pure (a : α) : Takes (pure a) [] a := fun _ => rfl

theorem Takes.bind {p : Reader α} {f : α → Reader β} (hp : Takes p bs a) (hf : Takes (f a) cs b) :
    Takes (p >>= f) (bs ++ cs) b := by
  intro rest
  change (p (bs ++ cs ++ rest)).bind _ = _
  rw [List.append_assoc, hp]
  exact hf rest

/-- The last step of a sequence. -/
theorem Takes.bind_pure {p : Reader α} (hp : Takes p bs a) (f : α → β) :
    Takes (p >>= fun a => pure (f a)) bs (f a) := by
  have hbind := Takes.bind (f := fun a => pure (f a)) hp (takes_pure (f a))
  rwa [List.append_nil] at hbind

theorem takes_array (h : bs.length = n) : Takes (array n) bs bs := by
  intro rest
  have hle : n ≤ (bs ++ rest).length := by
    rw [List.length_append]
    omega
  rw [array, if_pos hle, List.take_left' h, List.drop_left' h]

theorem takes_u64 {v : ℕ} (h : v < 2 ^ 64) : Takes u64 (LittleEndian.bytesOf 8 v) v := by
  have hvalue : LittleEndian.value (LittleEndian.bytesOf 8 v) = v := by
    rw [LittleEndian.value_bytesOf]
    exact Nat.mod_eq_of_lt h
  have htakes := (takes_array (LittleEndian.length_bytesOf 8 v)).bind_pure LittleEndian.value
  rwa [hvalue] at htakes

theorem takes_byteVec (h : bs.length < 2 ^ 64) :
    Takes byteVec (LittleEndian.bytesOf 8 bs.length ++ bs) bs :=
  (takes_u64 h).bind (takes_array rfl)

theorem takes_noneTag : Takes noneTag [0] () := fun _ => rfl

/-- Items one after the other, each taken with its own value. -/
theorem takes_items {item : Reader β} {xs : List α} {write : α → List UInt8} {value : α → β}
    (h : ∀ x ∈ xs, Takes item (write x) (value x)) :
    Takes (items item xs.length) (xs.flatMap write) (xs.map value) := by
  induction xs with
  | nil => exact takes_pure []
  | cons x xs ih =>
    rw [List.forall_mem_cons] at h
    exact h.1.bind ((ih h.2).bind_pure _)

theorem takes_vec {item : Reader β} {xs : List α} {write : α → List UInt8} {value : α → β}
    (h : ∀ x ∈ xs, Takes item (write x) (value x)) (hlength : xs.length < 2 ^ 64) :
    Takes (vec item) (LittleEndian.bytesOf 8 xs.length ++ xs.flatMap write) (xs.map value) :=
  (takes_u64 hlength).bind (takes_items h)

end PropMiner.Semantics.Bincode
