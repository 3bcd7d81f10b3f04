import PropMiner.Semantics.LittleEndian
import Mathlib.Data.List.Destutter
import Mathlib.Data.List.Sort

/-!
# The header of a hit

`HostSignalHeader` reads the header that the device writes for a hit: coordinates of a tile, the
size of the tiles, and two tables with as many bytes as a thread has registers.
`extract_indices` turns them into the rows and columns of the hit.

All numbers are read where they stand, and as zero where the buffer is too short for them; its size
is compared as an `int`. The tables are read without a look at the size, and the offsets are
products of 32 bits. A null pointer gives the zeros of an empty buffer.

## Main definitions

* `HostSignalHeader.extractIndices` — the function, with the vectors it fills
* `HostSignalHeader.Extracts` — what it is for
* `HostSignalHeader.InRange` — the headers on which it does that

## Main results

* `HostSignalHeader.extracts_iff`
-/

set_option autoImplicit false

namespace PropMiner.Worker

open PropMiner.Semantics

/-- `HostSignalHeader`: the buffer -/
structure HostSignalHeader where
  data : List UInt8
  deriving DecidableEq, Repr

/-- The two vectors that `extract_indices` fills. -/
structure Indices where
  aRows : List UInt32
  bCols : List UInt32
  deriving DecidableEq, Repr

/-- How `extract_indices` ends, and what the vectors hold then; a read outside of the buffer has no
meaning in the source. -/
inductive Extraction
  | threw (what : String) (out : Indices)
  | returned (out : Indices)
  | readsOutside
  deriving DecidableEq, Repr

/-- The loop that reads both tables. -/
def readTables (data : List UInt8) : ℕ → Option (List UInt8 × List UInt8)
  | 0 => some ([], [])
  | i + 1 => do
    let (rbuf, cbuf) ← readTables data i
    let r ← data[66 + i]?
    let c ← data[322 + i]?
    return (rbuf ++ [r], cbuf ++ [c])

/-- `std::sort` and `std::unique` -/
def sortUnique (buf : List UInt8) : List UInt8 := (buf.insertionSort (· ≤ ·)).destutter (· ≠ ·)

namespace HostSignalHeader

variable (h : HostSignalHeader)

/-- `static_cast<int>(size_)` -/
def size : ℤ := (h.data.length : ℤ).bmod (2 ^ 32)

/-- `le32` -/
def le32 (off : ℕ) : Int32 :=
  if h.size < off + 4 then 0
  else (UInt32.ofNat (LittleEndian.value ((h.data.drop off).take 4))).toInt32

/-- `tile_row_coord` -/
def tileRowCoord : UInt32 := (h.le32 40).toUInt32

/-- `tile_col_coord` -/
def tileColCoord : UInt32 := (h.le32 44).toUInt32

/-- `mma_tile_m` -/
def mmaTileM : Int32 := h.le32 592

/-- `mma_tile_n` -/
def mmaTileN : Int32 := h.le32 596

/-- `num_registers_per_thread` -/
def numRegistersPerThread : UInt16 :=
  if h.size < 66 then 0
  else UInt16.ofNat (LittleEndian.value ((h.data.drop 64).take 2))

/-- `row_off` -/
def rowOff : UInt32 := h.tileRowCoord * h.mmaTileM.toUInt32

/-- `col_off` -/
def colOff : UInt32 := h.tileColCoord * h.mmaTileN.toUInt32

/-- `extract_indices`, on vectors that hold `out` -/
def extractIndices (out : Indices) : Extraction :=
  if h.numRegistersPerThread = 0 ∨ 256 < h.numRegistersPerThread then
    .threw "invalid num_registers_per_thread" out
  else
    match readTables h.data h.numRegistersPerThread.toNat with
    | none => .readsOutside
    | some (rbuf, cbuf) =>
      .returned ⟨(sortUnique rbuf).map fun r => h.rowOff + r.toUInt32,
        (sortUnique cbuf).map fun c => h.colOff + c.toUInt32⟩

/-- The first bytes of the table of rows, as many as there are registers. -/
def threadRows : List UInt8 := (h.data.drop 66).take h.numRegistersPerThread.toNat

/-- The first bytes of the table of columns. -/
def threadCols : List UInt8 := (h.data.drop 322).take h.numRegistersPerThread.toNat

/-- The row of a byte of the table. -/
def row (b : UInt8) : ℤ := h.tileRowCoord.toNat * h.mmaTileM.toInt + b.toNat

/-- The column of a byte of the table. -/
def col (c : UInt8) : ℤ := h.tileColCoord.toNat * h.mmaTileN.toInt + c.toNat

end HostSignalHeader

/-- The numbers of a set, each once and in their order. -/
def Lists (l : List UInt32) (s : ℤ → Prop) : Prop :=
  l.Pairwise (· < ·) ∧ ∀ x : ℤ, (∃ i ∈ l, x = i.toNat) ↔ s x

/-- An end that `extract_indices` is meant to have: it throws and changes nothing, or stays inside
of the buffer and lists the rows and the columns. -/
def Extraction.Meant (h : HostSignalHeader) (out : Indices) : Extraction → Prop
  | .threw _ after => after = out
  | .readsOutside => False
  | .returned after => Lists after.aRows (fun x => ∃ b ∈ h.threadRows, x = h.row b) ∧
      Lists after.bCols (fun x => ∃ c ∈ h.threadCols, x = h.col c)

/-- The function ends as it is meant to. -/
def HostSignalHeader.Extracts (h : HostSignalHeader) (out : Indices) : Prop :=
  (h.extractIndices out).Meant h out

/-- No registers or too many, or both tables are in the buffer and all rows and columns are numbers
of 32 bits. -/
def HostSignalHeader.InRange (h : HostSignalHeader) : Prop :=
  h.numRegistersPerThread = 0 ∨ 256 < h.numRegistersPerThread ∨
    322 + h.numRegistersPerThread.toNat ≤ h.data.length ∧
      (∀ b ∈ h.threadRows, 0 ≤ h.row b ∧ h.row b < 2 ^ 32) ∧
      ∀ c ∈ h.threadCols, 0 ≤ h.col c ∧ h.col c < 2 ^ 32

/-! ### The tables -/

section Tables

variable {data : List UInt8} {n : ℕ}

/-- Tables that are in the buffer. -/
theorem readTables_of_le (h : 322 + n ≤ data.length) :
    readTables data n = some ((data.drop 66).take n, (data.drop 322).take n) := by
  induction n with
  | zero => rfl
  | succ n ih =>
    have hrow : 66 + n < data.length := by omega
    have hcol : 322 + n < data.length := by omega
    rw [readTables, ih (by omega), List.getElem?_eq_getElem hrow, List.getElem?_eq_getElem hcol,
      List.take_add_one, List.take_add_one, List.getElem?_drop, List.getElem?_drop,
      List.getElem?_eq_getElem hrow, List.getElem?_eq_getElem hcol]
    rfl

/-- Tables of which the second ends behind the buffer. -/
theorem readTables_of_gt (hn : n ≠ 0) (h : data.length < 322 + n) : readTables data n = none := by
  obtain ⟨n, rfl⟩ := Nat.exists_eq_succ_of_ne_zero hn
  -- the last of these reads is outside, whatever happened before it
  have hlast : data[322 + n]? = none := List.getElem?_eq_none (by omega)
  rw [readTables, hlast]
  cases readTables data n with
  | none => rfl
  | some bufs =>
    cases data[66 + n]? with
    | none => rfl
    | some r => rfl

theorem mem_sortUnique {buf : List UInt8} {b : UInt8} : b ∈ sortUnique buf ↔ b ∈ buf := by
  rw [sortUnique, (List.pairwise_insertionSort (· ≤ ·) buf).destutter_eq_dedup, List.mem_dedup,
    List.mem_insertionSort]

theorem pairwise_sortUnique (buf : List UInt8) : (sortUnique buf).Pairwise (· < ·) := by
  have hsorted := List.pairwise_insertionSort (· ≤ ·) buf
  rw [sortUnique, hsorted.destutter_eq_dedup]
  have hle := hsorted.sublist (List.dedup_sublist _)
  apply (hle.and (List.nodup_dedup _)).imp
  rintro a b ⟨hab, hne⟩
  exact UInt8.lt_of_le_of_ne hab hne

end Tables

/-! ### Offsets -/

section Offsets

/-- An offset that is computed in 32 bits, against the product of the numbers. -/
theorem toNat_offset (t : UInt32) (m : Int32) (b : UInt8) :
    (((t * m.toUInt32 + b.toUInt32).toNat : ℕ) : ℤ) =
      ((t.toNat : ℤ) * m.toInt + b.toNat) % 2 ^ 32 := by
  have hm : m.toInt % 2 ^ 32 = (m.toUInt32.toNat : ℤ) % 2 ^ 32 := by
    have hbmod : m.toInt = (m.toUInt32.toNat : ℤ).bmod (2 ^ 32) := BitVec.toInt_eq_toNat_bmod _
    rw [hbmod]
    exact Int.bmod_emod
  have hproduct : (t.toNat : ℤ) * m.toInt % 2 ^ 32 = (t.toNat : ℤ) * m.toUInt32.toNat % 2 ^ 32 := by
    rw [Int.mul_emod, hm, ← Int.mul_emod]
  rw [UInt32.toNat_add, UInt32.toNat_mul, UInt8.toNat_toUInt32]
  rw [Int.natCast_mod, Nat.cast_add, Int.natCast_mod, Nat.cast_mul, Nat.cast_pow, Nat.cast_ofNat,
    ← hproduct, Int.emod_add_emod]

/-- Rows or columns from the bytes of a table: the list is right if no sum leaves 32 bits. -/
theorem lists_map_iff {buf : List UInt8} {off : UInt32} {z : UInt8 → ℤ} {start : ℤ}
    (hz : ∀ b, z b = start + b.toNat)
    (hoff : ∀ b : UInt8, (((off + b.toUInt32).toNat : ℕ) : ℤ) = z b % 2 ^ 32) :
    Lists ((sortUnique buf).map fun b => off + b.toUInt32) (fun x => ∃ b ∈ buf, x = z b) ↔
      ∀ b ∈ buf, 0 ≤ z b ∧ z b < 2 ^ 32 := by
  constructor
  · rintro ⟨-, hset⟩ b hb
    obtain ⟨i, -, hi⟩ := (hset (z b)).mpr ⟨b, hb, rfl⟩
    have hlt := i.toNat_lt
    omega
  · intro hrange
    have hexact : ∀ b ∈ buf, (((off + b.toUInt32).toNat : ℕ) : ℤ) = z b := fun b hb =>
      (hoff b).trans (Int.emod_eq_of_lt (hrange b hb).1 (hrange b hb).2)
    refine ⟨?_, fun x => ⟨?_, ?_⟩⟩
    · rw [List.pairwise_map]
      apply (pairwise_sortUnique buf).imp_of_mem
      intro a b ha hb hab
      have ha' := hexact a (mem_sortUnique.mp ha)
      have hb' := hexact b (mem_sortUnique.mp hb)
      rw [hz] at ha' hb'
      have hlt : a.toNat < b.toNat := UInt8.lt_iff_toNat_lt.mp hab
      apply UInt32.lt_iff_toNat_lt.mpr
      omega
    · rintro ⟨i, hi, rfl⟩
      obtain ⟨b, hb, rfl⟩ := List.mem_map.mp hi
      exact ⟨b, mem_sortUnique.mp hb, hexact b (mem_sortUnique.mp hb)⟩
    · rintro ⟨b, hb, rfl⟩
      exact ⟨_, List.mem_map_of_mem (mem_sortUnique.mpr hb), (hexact b hb).symm⟩

end Offsets

namespace HostSignalHeader

variable {h : HostSignalHeader}

theorem extractIndices_of_le
    (hcount : ¬ (h.numRegistersPerThread = 0 ∨ 256 < h.numRegistersPerThread))
    (hin : 322 + h.numRegistersPerThread.toNat ≤ h.data.length) (out : Indices) :
    h.extractIndices out = .returned
      ⟨(sortUnique h.threadRows).map fun r => h.rowOff + r.toUInt32,
        (sortUnique h.threadCols).map fun c => h.colOff + c.toUInt32⟩ := by
  rw [extractIndices, if_neg hcount, readTables_of_le hin]
  rfl

theorem extractIndices_of_gt
    (hcount : ¬ (h.numRegistersPerThread = 0 ∨ 256 < h.numRegistersPerThread))
    (hout : h.data.length < 322 + h.numRegistersPerThread.toNat) (out : Indices) :
    h.extractIndices out = .readsOutside := by
  have hpos : h.numRegistersPerThread.toNat ≠ 0 := fun hzero =>
    hcount (.inl (UInt16.toNat_inj.mp hzero))
  rw [extractIndices, if_neg hcount, readTables_of_gt hpos hout]

/-- The function does what it is for on the headers in range, and on no other. -/
theorem extracts_iff (h : HostSignalHeader) (out : Indices) : h.Extracts out ↔ h.InRange := by
  unfold Extracts InRange
  by_cases hcount : h.numRegistersPerThread = 0 ∨ 256 < h.numRegistersPerThread
  · rw [extractIndices, if_pos hcount]
    exact iff_of_true rfl (hcount.imp_right .inl)
  · obtain ⟨hpos, hmax⟩ := not_or.mp hcount
    rw [or_iff_right hpos, or_iff_right hmax]
    by_cases hin : 322 + h.numRegistersPerThread.toNat ≤ h.data.length
    · rw [extractIndices_of_le hcount hin, and_iff_right hin]
      apply and_congr
      · apply lists_map_iff (fun _ => rfl)
        exact toNat_offset h.tileRowCoord h.mmaTileM
      · apply lists_map_iff (fun _ => rfl)
        exact toNat_offset h.tileColCoord h.mmaTileN
    · rw [extractIndices_of_gt hcount (Nat.lt_of_not_le hin)]
      exact iff_of_false id fun hrange => hin hrange.1

end HostSignalHeader

/-- One register, in a buffer that ends with the number of registers. -/
def shortHeader : HostSignalHeader := ⟨List.replicate 64 0 ++ [1, 0]⟩

theorem extractIndices_shortHeader :
    shortHeader.numRegistersPerThread = 1 ∧ shortHeader.data.length = 66 ∧
    shortHeader.extractIndices ⟨[], []⟩ = .readsOutside ∧ ¬ shortHeader.Extracts ⟨[], []⟩ := by
  have hcount : shortHeader.numRegistersPerThread = 1 := by decide +kernel
  have hread : shortHeader.extractIndices ⟨[], []⟩ = .readsOutside := by
    apply HostSignalHeader.extractIndices_of_gt
    · rw [hcount]
      decide
    · rw [hcount]
      decide
  refine ⟨hcount, by decide, hread, fun hextracts => ?_⟩
  rw [HostSignalHeader.Extracts, hread] at hextracts
  exact hextracts

end PropMiner.Worker
