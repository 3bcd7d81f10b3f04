import PropMiner.Semantics.Blocks
import PropMiner.Semantics.OrderedSet
import Mathlib.Data.List.Sort
import Mathlib.Tactic.NormNum

/-!
# The leaves that a share opens

A share opens some rows of `A`. The Merkle tree over `A` has a leaf for every 1024 bytes, whatever
the length of a row: a row lies in one leaf or in several, and a leaf holds one row or parts of
several. `compute_leaf_indices_from_rows` numbers the leaves that are sent along, and the library
numbers them once more for the proof, with indices of 64 bits.

## Main definitions

* `computeLeafIndicesFromRows`, `MerkleTree.computeLeafIndicesFromRows` — the host and the library
* `Overlaps` — a leaf and a row have a byte in common
* `openedLeafData` — the leaves that are copied from the device

## Main results

* `computeLeafIndicesFromRows_exact` — the leaves in order, none missing and none too many
* `computeLeafIndicesFromRows_eq_library` — host and library number the same leaves
* `exists_openedLeafData_eq` — each byte of a row is in what is sent
-/

set_option autoImplicit false

namespace PropMiner.Worker

open PropMiner.Semantics

/-! ### The indices -/

section Indices

variable {α : Type*} [LT α] [DecidableLT α] [Std.Trichotomous (α := α) (· < ·)]
  [IsTrans α (· < ·)]

/-- `CHUNK_LEN` -/
def chunkLen : UInt64 := 1024

def firstLeaf (r rowWidth : UInt64) : UInt64 := r * rowWidth / chunkLen

def lastLeaf (r rowWidth : UInt64) : UInt64 := ((r + 1) * rowWidth - 1) / chunkLen

/-- The loop over the leaves of one row. The counter ends below `2 ^ 54` and does not wrap. -/
def insertLeaves (ofNat : ℕ → α) (rowWidth : UInt64) (uniq : OrderedSet α) (r : UInt64) :
    OrderedSet α :=
  let first := (firstLeaf r rowWidth).toNat
  let last := (lastLeaf r rowWidth).toNat
  (List.range' first (last + 1 - first)).foldl (fun uniq li => uniq.insert (ofNat li)) uniq

/-- The loop over the rows. -/
def leafSet (ofNat : ℕ → α) (rowWidth : UInt64) (rows : List UInt64) : OrderedSet α :=
  rows.foldl (insertLeaves ofNat rowWidth) .empty

/-- `compute_leaf_indices_from_rows`: the indices are cut to 32 bits. -/
def computeLeafIndicesFromRows (rowIndices : List UInt32) (rowWidth : UInt64) : List UInt32 :=
  (leafSet UInt32.ofNat rowWidth (rowIndices.map UInt32.toUInt64)).elems

/-- `MerkleTree::compute_leaf_indices_from_rows` of the library -/
def MerkleTree.computeLeafIndicesFromRows (rowIndices : List UInt64) (cols : UInt64) :
    List UInt64 :=
  (leafSet UInt64.ofNat cols rowIndices).elems

variable {ofNat : ℕ → α} {rowWidth : UInt64}

theorem mem_insertLeaves {uniq : OrderedSet α} {r : UInt64} {x : α} :
    x ∈ insertLeaves ofNat rowWidth uniq r ↔
      (∃ li, ((firstLeaf r rowWidth).toNat ≤ li ∧ li ≤ (lastLeaf r rowWidth).toNat) ∧
        x = ofNat li) ∨ x ∈ uniq := by
  rw [insertLeaves, OrderedSet.mem_foldl_insert]
  refine or_congr_left (exists_congr fun li => and_congr_left fun _ => ?_)
  rw [List.mem_range'_1]
  omega

theorem mem_foldl_insertLeaves {uniq : OrderedSet α} {rows : List UInt64} {x : α} :
    x ∈ rows.foldl (insertLeaves ofNat rowWidth) uniq ↔
      (∃ r ∈ rows, ∃ li, ((firstLeaf r rowWidth).toNat ≤ li ∧ li ≤ (lastLeaf r rowWidth).toNat) ∧
        x = ofNat li) ∨ x ∈ uniq := by
  induction rows generalizing uniq with
  | nil => simp
  | cons r rows ih =>
    rw [List.foldl_cons, ih, mem_insertLeaves, List.exists_mem_cons_iff, or_assoc, or_left_comm]

end Indices

/-! ### Leaves and rows -/

/-- Some byte of the leaf is one of the row. -/
def Overlaps (leaf row width : ℕ) : Prop :=
  ∃ byte, (leaf * 1024 ≤ byte ∧ byte < (leaf + 1) * 1024) ∧
    row * width ≤ byte ∧ byte < (row + 1) * width

section Exact

variable {rowIndices : List UInt32} {rowWidth : UInt64} {r : UInt64}

/-- The indices of the first and the last leaf are exact. -/
theorem toNat_leaf (hwidth : 0 < rowWidth) (hr : (r.toNat + 1) * rowWidth.toNat ≤ 2 ^ 42) :
    (firstLeaf r rowWidth).toNat = r.toNat * rowWidth.toNat / 1024 ∧
      (lastLeaf r rowWidth).toNat = ((r.toNat + 1) * rowWidth.toNat - 1) / 1024 := by
  have hpos : 0 < rowWidth.toNat := UInt64.lt_iff_toNat_lt.mp hwidth
  -- nothing gets near `2 ^ 64`, and the product from which one is taken is not zero
  have hle : r.toNat + 1 ≤ (r.toNat + 1) * rowWidth.toNat := Nat.le_mul_of_pos_right _ hpos
  have hsucc : (r + 1).toNat = r.toNat + 1 := by
    rw [UInt64.toNat_add]
    exact Nat.mod_eq_of_lt (by rw [UInt64.toNat_one]; omega)
  have hmul : ((r + 1) * rowWidth).toNat = (r.toNat + 1) * rowWidth.toNat := by
    rw [UInt64.toNat_mul, hsucc]
    exact Nat.mod_eq_of_lt (by omega)
  have hfirst : (r * rowWidth).toNat = r.toNat * rowWidth.toNat := by
    rw [UInt64.toNat_mul]
    rw [Nat.add_mul] at hr
    exact Nat.mod_eq_of_lt (by omega)
  constructor
  · rw [firstLeaf, UInt64.toNat_div, hfirst]
    rfl
  · have hone : (1 : UInt64) ≤ (r + 1) * rowWidth := by
      rw [UInt64.le_iff_toNat_le, hmul, UInt64.toNat_one]
      omega
    rw [lastLeaf, UInt64.toNat_div, UInt64.toNat_sub_of_le _ _ hone, hmul]
    rfl

theorem overlaps_iff (hwidth : 0 < rowWidth) (hr : (r.toNat + 1) * rowWidth.toNat ≤ 2 ^ 42)
    (leaf : ℕ) : Overlaps leaf r.toNat rowWidth.toNat ↔
      (firstLeaf r rowWidth).toNat ≤ leaf ∧ leaf ≤ (lastLeaf r rowWidth).toNat := by
  have hpos : 0 < rowWidth.toNat := UInt64.lt_iff_toNat_lt.mp hwidth
  obtain ⟨hfirst, hlast⟩ := toNat_leaf hwidth hr
  rw [hfirst, hlast]
  refine meets_block_iff (by norm_num) ?_
  rw [Nat.add_mul, Nat.one_mul]
  omega

/-- A leaf of a row has an index of 32 bits. -/
theorem Overlaps.lt {leaf row width : ℕ} (h : Overlaps leaf row width)
    (hrow : (row + 1) * width ≤ 2 ^ 42) : leaf < 2 ^ 32 := by
  obtain ⟨byte, ⟨hlo, -⟩, -, hhi⟩ := h
  omega

/-- The indices of either width: those of the leaves that overlap a row. -/
theorem mem_map_leafSet {α : Type*} [LT α] [DecidableLT α] [Std.Trichotomous (α := α) (· < ·)]
    [IsTrans α (· < ·)] {ofNat : ℕ → α} {toNat : α → ℕ}
    (hcast : ∀ li < 2 ^ 32, toNat (ofNat li) = li) (hwidth : 0 < rowWidth) {rows : List UInt64}
    (hrows : ∀ r ∈ rows, (r.toNat + 1) * rowWidth.toNat ≤ 2 ^ 42) (leaf : ℕ) :
    leaf ∈ (leafSet ofNat rowWidth rows).elems.map toNat ↔
      ∃ r ∈ rows, Overlaps leaf r.toNat rowWidth.toNat := by
  rw [List.mem_map]
  constructor
  · rintro ⟨x, hx, rfl⟩
    rcases mem_foldl_insertLeaves.mp hx with ⟨r, hr, li, hli, rfl⟩ | hempty
    · -- the index of a leaf that overlaps a row is not changed by the cast
      have hover := (overlaps_iff hwidth (hrows r hr) li).mpr hli
      rw [hcast li (hover.lt (hrows r hr))]
      exact ⟨r, hr, hover⟩
    · exact absurd hempty (OrderedSet.not_mem_empty x)
  · rintro ⟨r, hr, hover⟩
    have hli := (overlaps_iff hwidth (hrows r hr) leaf).mp hover
    exact ⟨ofNat leaf, mem_foldl_insertLeaves.mpr (.inl ⟨r, hr, leaf, hli, rfl⟩),
      hcast leaf (hover.lt (hrows r hr))⟩

theorem mem_map_computeLeafIndicesFromRows (hwidth : 0 < rowWidth)
    (hrows : ∀ row ∈ rowIndices, (row.toNat + 1) * rowWidth.toNat ≤ 2 ^ 42) (leaf : ℕ) :
    leaf ∈ (computeLeafIndicesFromRows rowIndices rowWidth).map UInt32.toNat ↔
      ∃ row ∈ rowIndices, Overlaps leaf row.toNat rowWidth.toNat := by
  have hcast : ∀ li < 2 ^ 32, (UInt32.ofNat li).toNat = li := fun li hli =>
    UInt32.toNat_ofNat_of_lt' hli
  have hrows' : ∀ r ∈ rowIndices.map UInt32.toUInt64,
      (r.toNat + 1) * rowWidth.toNat ≤ 2 ^ 42 := by simpa using hrows
  simpa [computeLeafIndicesFromRows] using mem_map_leafSet hcast hwidth hrows' leaf

end Exact

/-- The indices are those of the leaves that have a byte of a row, in increasing order. -/
theorem computeLeafIndicesFromRows_exact (rowIndices : List UInt32) (rowWidth : UInt64)
    (hwidth : 0 < rowWidth)
    (hrows : ∀ row ∈ rowIndices, (row.toNat + 1) * rowWidth.toNat ≤ 2 ^ 42) :
    (computeLeafIndicesFromRows rowIndices rowWidth).Pairwise (· < ·) ∧
      ∀ leaf : ℕ, leaf ∈ (computeLeafIndicesFromRows rowIndices rowWidth).map UInt32.toNat ↔
        ∃ row ∈ rowIndices, Overlaps leaf row.toNat rowWidth.toNat :=
  ⟨OrderedSet.increasing _, mem_map_computeLeafIndicesFromRows hwidth hrows⟩

/-- Rows of 700 bytes, one of them twice: the first leaf holds parts of two rows, and one row lies
in two leaves. -/
theorem computeLeafIndicesFromRows_exact_sample :
    computeLeafIndicesFromRows [3, 0, 1, 3] 700 = [0, 1, 2] ∧
      ∀ leaf : ℕ, leaf ∈ ([0, 1, 2] : List UInt32).map UInt32.toNat ↔
        ∃ row ∈ ([3, 0, 1, 3] : List UInt32), Overlaps leaf row.toNat 700 := by
  have hindices : computeLeafIndicesFromRows [3, 0, 1, 3] 700 = [0, 1, 2] := by decide +kernel
  have hexact := computeLeafIndicesFromRows_exact [3, 0, 1, 3] 700 (by decide) (by simp)
  rw [hindices] at hexact
  exact ⟨hindices, hexact.2⟩

/-! ### The data -/

section Data

variable {rowIndices : List UInt32} {rowWidth : UInt64}

/-- Host and library number the same leaves in the same order. -/
theorem computeLeafIndicesFromRows_eq_library (hwidth : 0 < rowWidth)
    (hrows : ∀ row ∈ rowIndices, (row.toNat + 1) * rowWidth.toNat ≤ 2 ^ 42) :
    (computeLeafIndicesFromRows rowIndices rowWidth).map UInt32.toNat =
      (MerkleTree.computeLeafIndicesFromRows (rowIndices.map UInt32.toUInt64) rowWidth).map
        UInt64.toNat := by
  have hcast : ∀ li < 2 ^ 32, (UInt64.ofNat li).toNat = li := fun li hli =>
    UInt64.toNat_ofNat_of_lt' (hli.trans (by norm_num))
  have hhost : ((computeLeafIndicesFromRows rowIndices rowWidth).map UInt32.toNat).Pairwise
      (· < ·) :=
    List.pairwise_map.mpr ((OrderedSet.increasing _).imp UInt32.lt_iff_toNat_lt.mp)
  have hlibrary : ((MerkleTree.computeLeafIndicesFromRows (rowIndices.map UInt32.toUInt64)
      rowWidth).map UInt64.toNat).Pairwise (· < ·) :=
    List.pairwise_map.mpr ((OrderedSet.increasing _).imp UInt64.lt_iff_toNat_lt.mp)
  refine hhost.eq_of_mem_iff hlibrary fun leaf => ?_
  rw [mem_map_computeLeafIndicesFromRows hwidth hrows, MerkleTree.computeLeafIndicesFromRows,
    mem_map_leafSet hcast hwidth (by simpa using hrows)]
  simp

/-- `pinned_opened_leaves`: the leaves one after the other, copied from the matrix `a`. -/
def openedLeafData (a : ℕ → UInt8) (leafIndices : List UInt32) : List UInt8 :=
  leafIndices.flatMap fun leaf => (List.range 1024).map fun j => a (leaf.toNat * 1024 + j)

/-- Every byte of a row is found in the leaf it belongs to. -/
theorem exists_openedLeafData_eq (a : ℕ → UInt8) (hwidth : 0 < rowWidth)
    (hrows : ∀ row ∈ rowIndices, (row.toNat + 1) * rowWidth.toNat ≤ 2 ^ 42) {row : UInt32}
    (hrow : row ∈ rowIndices) {j : ℕ} (hj : j < rowWidth.toNat) :
    let byte := row.toNat * rowWidth.toNat + j
    let leaves := computeLeafIndicesFromRows rowIndices rowWidth
    ∃ i, (leaves.map UInt32.toNat)[i]? = some (byte / 1024) ∧
      (openedLeafData a leaves).getD (i * 1024 + byte % 1024) 0 = a byte := by
  intro byte leaves
  have hover : Overlaps (byte / 1024) row.toNat rowWidth.toNat := by
    refine ⟨byte, ⟨by omega, by omega⟩, by omega, ?_⟩
    rw [Nat.add_mul, Nat.one_mul]
    omega
  obtain ⟨i, hi⟩ := List.mem_iff_getElem?.mp
    ((mem_map_computeLeafIndicesFromRows hwidth hrows _).mpr ⟨row, hrow, hover⟩)
  refine ⟨i, hi, ?_⟩
  obtain ⟨hlt, hleaf⟩ := List.getElem?_eq_some_iff.mp hi
  rw [List.length_map] at hlt
  rw [List.getElem_map] at hleaf
  have hlength : ∀ leaf ∈ leaves, ((List.range 1024).map fun j =>
      a (leaf.toNat * 1024 + j)).length = 1024 := by simp
  have hread := getD_drop_flatMap hlength hlt (Nat.mod_lt byte (by norm_num : 0 < 1024)) 0
  rw [List.getD_eq_getElem?_getD, List.getElem?_drop, ← List.getD_eq_getElem?_getD] at hread
  rw [openedLeafData, hread, List.getD_eq_getElem _ _ (by simp [Nat.mod_lt]), List.getElem_map,
    List.getElem_range, hleaf, Nat.div_add_mod']

end Data

end PropMiner.Worker
