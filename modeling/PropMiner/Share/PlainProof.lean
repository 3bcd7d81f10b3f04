import PropMiner.Semantics.Bincode
import PropMiner.Share.Encoders

/-!
# Reading a plain proof

The bincode proof has no tags: what a byte means depends on every count before it. A reader
of the format, on the output of `encode_plain_proof`, takes all of it and finds what was
written. So different proofs have different encodings.

## Main definitions

* `OwnedProof.WellFormed` — whole leaves and whole siblings
* `readPlainProof` — the reader for a certificate version
* `PlainShare` — the arguments of `encode_plain_proof`
* `PlainShare.RecoveredAs`, `PlainShare.Same` — what is to be found again

## Main results

* `takes_writeMatrixMerkleProof`, `PlainShare.takes_encode` — the reader takes exactly what was
  written
* `PlainShare.readPlainProof_encode` — it recovers the proof, and no other proof has that output
-/

set_option autoImplicit false

namespace PropMiner.Share

open PropMiner.Semantics PropMiner.Semantics.Bincode

/-! ### Pieces -/

section Pieces

variable {n : ℕ} {bs : List UInt8}

theorem flatMap_piece (n : ℕ) (bs : List UInt8) (count : ℕ) :
    (List.range count).flatMap (piece n bs) = bs.take (count * n) := by
  induction count with
  | zero => simp
  | succ count ih =>
    rw [List.range_succ, List.flatMap_append, ih, List.flatMap_singleton, Nat.succ_mul,
      List.take_add]
    rfl

/-- The pieces of a buffer of whole pieces are the buffer. -/
theorem flatMap_piece_of_dvd (h : n ∣ bs.length) :
    (List.range (bs.length / n)).flatMap (piece n bs) = bs := by
  rw [flatMap_piece, Nat.div_mul_cancel h, List.take_length]

theorem length_piece {i : ℕ} (h : i < bs.length / n) : (piece n bs i).length = n := by
  have hle : (i + 1) * n ≤ bs.length :=
    (Nat.mul_le_mul_right n h).trans (Nat.div_mul_le_self bs.length n)
  rw [piece, List.length_take, List.length_drop, Nat.min_eq_left]
  rw [Nat.succ_mul] at hle
  omega

theorem length_of_mem_pieces {slice : List UInt8}
    (h : slice ∈ (List.range (bs.length / n)).map (piece n bs)) : slice.length = n := by
  obtain ⟨i, hi, rfl⟩ := List.mem_map.mp h
  exact length_piece (List.mem_range.mp hi)

end Pieces

/-- Leaf data of whole leaves, and siblings of whole hashes. -/
structure OwnedProof.WellFormed (p : OwnedProof) : Prop where
  leaves : 1024 ∣ p.leafData.length
  siblings : 32 ∣ p.siblings.length

/-! ### The reader -/

/-- The part of a proof for one matrix, as it is read. -/
structure MatrixProof where
  leaves : List (List UInt8)
  leafIndices : List ℕ
  totalLeaves : ℕ
  root : List UInt8
  siblings : List (List UInt8)
  indices : List ℕ
  deriving DecidableEq

structure PlainProof where
  m : ℕ
  n : ℕ
  k : ℕ
  r : ℕ
  a : MatrixProof
  b : MatrixProof
  deriving DecidableEq

def readMatrixProof : Reader MatrixProof := do
  let leaves ← vec byteVec
  let leafIndices ← vec u64
  let totalLeaves ← u64
  let root ← array 32
  let siblings ← vec (array 32)
  let indices ← vec u64
  return { leaves, leafIndices, totalLeaves, root, siblings, indices }

/-- From version 2 on, an empty option stands at the end. -/
def readPlainProof (certVersion : ℤ) : Reader PlainProof := do
  let m ← u64
  let n ← u64
  let k ← u64
  let r ← u64
  let a ← readMatrixProof
  let b ← readMatrixProof
  if 2 ≤ certVersion then
    let _ ← noneTag
    return { m, n, k, r, a, b }
  else
    return { m, n, k, r, a, b }

/-- What is read of a proof, its root given apart, and of the indices. -/
def OwnedProof.asRead (p : OwnedProof) (root : Bytes32) (indices : List UInt32) : MatrixProof where
  leaves := (List.range p.leafCount).map (piece 1024 p.leafData)
  leafIndices := p.leafIndices.map UInt32.toNat
  totalLeaves := p.totalLeaves.toNat
  root := root.bytes
  siblings := (List.range p.siblingCount).map (piece 32 p.siblings)
  indices := indices.map UInt32.toNat

section Takes

variable {p : OwnedProof} {root : Bytes32} {indices : List UInt32}

theorem takes_index (idx : UInt32) : Takes u64 (writeU64 idx.toNat) idx.toNat :=
  takes_u64 (idx.toNat_lt.trans (by norm_num))

theorem takes_indices (h : indices.length < 2 ^ 64) :
    Takes (vec u64) (writeU64 indices.length ++ indices.flatMap fun idx => writeU64 idx.toNat)
      (indices.map UInt32.toNat) :=
  takes_vec (fun idx _ => takes_index idx) h

theorem takes_leaves (h : p.leafCount < 2 ^ 64) :
    Takes (vec byteVec) (writeU64 p.leafCount ++
        (List.range p.leafCount).flatMap fun i => writeU64 1024 ++ piece 1024 p.leafData i)
      ((List.range p.leafCount).map (piece 1024 p.leafData)) := by
  have hleaf : ∀ i ∈ List.range p.leafCount,
      Takes byteVec (writeU64 1024 ++ piece 1024 p.leafData i) (piece 1024 p.leafData i) := by
    intro i hi
    have hlength := length_piece (List.mem_range.mp hi)
    have htakes : Takes byteVec (writeU64 (piece 1024 p.leafData i).length ++
        piece 1024 p.leafData i) (piece 1024 p.leafData i) :=
      takes_byteVec (by rw [hlength]; norm_num)
    rwa [hlength] at htakes
  have htakes := takes_vec hleaf (by rwa [List.length_range])
  rwa [List.length_range] at htakes

theorem takes_siblings (h : p.siblingCount < 2 ^ 64) :
    Takes (vec (array 32)) (writeU64 p.siblingCount ++
        (List.range p.siblingCount).flatMap (piece 32 p.siblings))
      ((List.range p.siblingCount).map (piece 32 p.siblings)) := by
  have hsibling : ∀ i ∈ List.range p.siblingCount,
      Takes (array 32) (piece 32 p.siblings i) (piece 32 p.siblings i) :=
    fun i hi => takes_array (length_piece (List.mem_range.mp hi))
  have htakes := takes_vec hsibling (by rwa [List.length_range])
  rwa [List.length_range] at htakes

/-- Every count of the part for one matrix fits in its eight bytes. -/
structure Counted (p : OwnedProof) (indices : List UInt32) : Prop where
  leaves : p.leafCount < 2 ^ 64
  leafIndices : p.leafIndices.length < 2 ^ 64
  siblings : p.siblingCount < 2 ^ 64
  indices : indices.length < 2 ^ 64

theorem length_le_flatMap {α : Type} {xs : List α} {write : α → List UInt8}
    (h : ∀ x ∈ xs, 0 < (write x).length) : xs.length ≤ (xs.flatMap write).length := by
  induction xs with
  | nil => exact Nat.le_refl 0
  | cons x xs ih =>
    rw [List.forall_mem_cons] at h
    have hrest := ih h.2
    have hpos := h.1
    rw [List.flatMap_cons, List.length_append, List.length_cons]
    omega

theorem length_le_writeIndices (indices : List UInt32) :
    indices.length ≤ (indices.flatMap fun idx => writeU64 idx.toNat).length :=
  length_le_flatMap fun idx _ => by rw [writeU64, LittleEndian.length_bytesOf]; norm_num

/-- Each item takes a byte or more, so an output that fits has no more items than that. -/
theorem counted_of_length (h : (writeMatrixMerkleProof p root indices).length < 2 ^ 64) :
    Counted p indices := by
  have hleaves : (List.range p.leafCount).length ≤ ((List.range p.leafCount).flatMap
      fun i => writeU64 1024 ++ piece 1024 p.leafData i).length :=
    length_le_flatMap fun i _ => by
      rw [List.length_append, writeU64, LittleEndian.length_bytesOf]
      omega
  have hsiblings : (List.range p.siblingCount).length ≤
      ((List.range p.siblingCount).flatMap (piece 32 p.siblings)).length :=
    length_le_flatMap fun i hi => by
      rw [length_piece (List.mem_range.mp hi)]
      norm_num
  have hleafIndices := length_le_writeIndices p.leafIndices
  have hindices := length_le_writeIndices indices
  simp only [writeMatrixMerkleProof, writeMerkleProof, List.length_append] at h
  rw [List.length_range] at hleaves hsiblings
  exact ⟨by omega, by omega, by omega, by omega⟩

theorem takes_writeMatrixMerkleProof (h : Counted p indices) :
    Takes readMatrixProof (writeMatrixMerkleProof p root indices) (p.asRead root indices) := by
  have hbytes : writeMatrixMerkleProof p root indices =
      (writeU64 p.leafCount ++
        (List.range p.leafCount).flatMap fun i => writeU64 1024 ++ piece 1024 p.leafData i) ++
      ((writeU64 p.leafIndices.length ++ p.leafIndices.flatMap fun idx => writeU64 idx.toNat) ++
      (writeU64 p.totalLeaves.toNat ++ (root.bytes ++
      ((writeU64 p.siblingCount ++ (List.range p.siblingCount).flatMap (piece 32 p.siblings)) ++
      (writeU64 indices.length ++ indices.flatMap fun idx => writeU64 idx.toNat))))) := by
    simp only [writeMatrixMerkleProof, writeMerkleProof, List.append_assoc]
  rw [hbytes]
  -- one step for each piece that the reader takes
  apply (takes_leaves h.leaves).bind
  apply (takes_indices h.leafIndices).bind
  apply (takes_index p.totalLeaves).bind
  apply (takes_array root.length_eq).bind
  apply (takes_siblings h.siblings).bind
  exact (takes_indices h.indices).bind_pure _

end Takes

/-! ### The whole proof -/

/-- The arguments of `encode_plain_proof`. -/
structure PlainShare where
  cfg : MiningConfig
  aProof : OwnedProof
  bProof : OwnedProof
  aRowIndices : List UInt32
  bColIndices : List UInt32
  hashA : Bytes32
  hashB : Bytes32

namespace PlainShare

variable {x y : PlainShare} {certVersion : ℤ}

def encode (x : PlainShare) (certVersion : ℤ) : List UInt8 :=
  encodePlainProof x.cfg x.aProof x.bProof x.aRowIndices x.bColIndices x.hashA x.hashB certVersion

structure WellFormed (x : PlainShare) : Prop where
  a : x.aProof.WellFormed
  b : x.bProof.WellFormed

def asRead (x : PlainShare) : PlainProof where
  m := x.cfg.m.val
  n := x.cfg.n.val
  k := x.cfg.k.val
  r := x.cfg.r.val
  a := x.aProof.asRead x.hashA x.aRowIndices
  b := x.bProof.asRead x.hashB x.bColIndices

theorem takes_encode (h : (x.encode certVersion).length < 2 ^ 64) :
    Takes (readPlainProof certVersion) (x.encode certVersion) x.asRead := by
  have ha : Counted x.aProof x.aRowIndices := by
    have hpart : (writeMatrixMerkleProof x.aProof x.hashA x.aRowIndices).length < 2 ^ 64 := by
      simp only [encode, encodePlainProof, List.length_append] at h
      omega
    exact counted_of_length hpart
  have hb : Counted x.bProof x.bColIndices := by
    have hpart : (writeMatrixMerkleProof x.bProof x.hashB x.bColIndices).length < 2 ^ 64 := by
      simp only [encode, encodePlainProof, List.length_append] at h
      omega
    exact counted_of_length hpart
  have hdim : ∀ d : Dim, Takes u64 (writeU64 d.val) d.val :=
    fun d => takes_u64 (d.lt.trans (by norm_num))
  have hbytes : x.encode certVersion = writeU64 x.cfg.m.val ++ (writeU64 x.cfg.n.val ++
      (writeU64 x.cfg.k.val ++ (writeU64 x.cfg.r.val ++
      (writeMatrixMerkleProof x.aProof x.hashA x.aRowIndices ++
      (writeMatrixMerkleProof x.bProof x.hashB x.bColIndices ++
      if 2 ≤ certVersion then [0x00] else []))))) := by
    simp only [encode, encodePlainProof, List.append_assoc]
  rw [hbytes]
  apply (hdim x.cfg.m).bind
  apply (hdim x.cfg.n).bind
  apply (hdim x.cfg.k).bind
  apply (hdim x.cfg.r).bind
  apply (takes_writeMatrixMerkleProof ha).bind
  apply (takes_writeMatrixMerkleProof hb).bind
  split_ifs with hversion
  · exact takes_noneTag.bind_pure _
  · exact takes_pure _

/-- What a reader has found for one matrix is what was written. -/
structure Recovers (d : MatrixProof) (p : OwnedProof) (root : Bytes32) (indices : List UInt32) :
    Prop where
  leaves : d.leaves.flatten = p.leafData
  leaf : ∀ leaf ∈ d.leaves, leaf.length = 1024
  leafIndices : d.leafIndices = p.leafIndices.map UInt32.toNat
  totalLeaves : d.totalLeaves = p.totalLeaves.toNat
  root : d.root = root.bytes
  siblings : d.siblings.flatten = p.siblings
  sibling : ∀ sibling ∈ d.siblings, sibling.length = 32
  indices : d.indices = indices.map UInt32.toNat

theorem recovers_asRead {p : OwnedProof} (h : p.WellFormed) (root : Bytes32)
    (indices : List UInt32) : Recovers (p.asRead root indices) p root indices where
  leaves := flatMap_piece_of_dvd h.leaves
  leaf _ hleaf := length_of_mem_pieces hleaf
  leafIndices := rfl
  totalLeaves := rfl
  root := rfl
  siblings := flatMap_piece_of_dvd h.siblings
  sibling _ hsibling := length_of_mem_pieces hsibling
  indices := rfl

/-- What was found determines all that was written. -/
theorem Recovers.unique {d : MatrixProof} {p q : OwnedProof} {root root' : Bytes32}
    {indices indices' : List UInt32} (h : Recovers d p root indices)
    (h' : Recovers d q root' indices') :
    { p with root := root } = { q with root := root' } ∧ indices = indices' := by
  obtain ⟨_, leafData, leafIndices, siblings, totalLeaves⟩ := p
  obtain ⟨_, leafData', leafIndices', siblings', totalLeaves'⟩ := q
  obtain ⟨root, _⟩ := root
  obtain ⟨root', _⟩ := root'
  obtain rfl : leafData = leafData' := h.leaves.symm.trans h'.leaves
  obtain rfl : leafIndices = leafIndices' :=
    Words.map_toNat_injective (h.leafIndices.symm.trans h'.leafIndices)
  obtain rfl : siblings = siblings' := h.siblings.symm.trans h'.siblings
  obtain rfl : totalLeaves = totalLeaves' :=
    UInt32.toNat_inj.mp (h.totalLeaves.symm.trans h'.totalLeaves)
  obtain rfl : root = root' := h.root.symm.trans h'.root
  exact ⟨rfl, Words.map_toNat_injective (h.indices.symm.trans h'.indices)⟩

/-- A reader has found the dimensions and both parts. -/
structure RecoveredAs (x : PlainShare) (d : PlainProof) : Prop where
  m : d.m = x.cfg.m.val
  n : d.n = x.cfg.n.val
  k : d.k = x.cfg.k.val
  r : d.r = x.cfg.r.val
  a : Recovers d.a x.aProof x.hashA x.aRowIndices
  b : Recovers d.b x.bProof x.hashB x.bColIndices

/-- The same proof: the patterns of the shape, and the root that a proof brings along, are not
part of it. -/
structure Same (x y : PlainShare) : Prop where
  m : x.cfg.m = y.cfg.m
  n : x.cfg.n = y.cfg.n
  k : x.cfg.k = y.cfg.k
  r : x.cfg.r = y.cfg.r
  aProof : { x.aProof with root := x.hashA } = { y.aProof with root := y.hashA }
  bProof : { x.bProof with root := x.hashB } = { y.bProof with root := y.hashB }
  aRowIndices : x.aRowIndices = y.aRowIndices
  bColIndices : x.bColIndices = y.bColIndices

theorem recoveredAs_asRead (h : x.WellFormed) : x.RecoveredAs x.asRead :=
  ⟨rfl, rfl, rfl, rfl, recovers_asRead h.a _ _, recovers_asRead h.b _ _⟩

theorem RecoveredAs.same {d : PlainProof} (hx : x.RecoveredAs d) (hy : y.RecoveredAs d) :
    x.Same y := by
  have hdim : ∀ {c d : Dim}, c.val = d.val → c = d := by
    rintro ⟨c, _⟩ ⟨d, _⟩ rfl
    rfl
  obtain ⟨haProof, haIndices⟩ := hx.a.unique hy.a
  obtain ⟨hbProof, hbIndices⟩ := hx.b.unique hy.b
  exact ⟨hdim (hx.m.symm.trans hy.m), hdim (hx.n.symm.trans hy.n), hdim (hx.k.symm.trans hy.k),
    hdim (hx.r.symm.trans hy.r), haProof, hbProof, haIndices, hbIndices⟩

/-- **Plain proofs.** On the output of `encode_plain_proof` the reader for that version takes
everything and recovers the proof, and every proof with that output is the same. -/
theorem readPlainProof_encode (hx : x.WellFormed)
    (hlength : (x.encode certVersion).length < 2 ^ 64) :
    (∃ d, readPlainProof certVersion (x.encode certVersion) = some (d, []) ∧ x.RecoveredAs d) ∧
      ∀ y : PlainShare, y.WellFormed → y.encode certVersion = x.encode certVersion → x.Same y := by
  have hread := takes_encode hlength
  refine ⟨⟨_, hread.run, recoveredAs_asRead hx⟩, fun y hy hsame => ?_⟩
  have hread' : Takes (readPlainProof certVersion) (y.encode certVersion) y.asRead :=
    takes_encode (by rwa [hsame])
  rw [hsame] at hread'
  have hrecovered := recoveredAs_asRead hy
  rw [← hread.unique hread'] at hrecovered
  exact (recoveredAs_asRead hx).same hrecovered

/-- One leaf for each matrix, two siblings for the first. -/
def oneLeaf : PlainShare where
  cfg := ⟨⟨8192, by decide⟩, ⟨32768, by decide⟩, ⟨128, by decide⟩, ⟨0, by decide⟩, {}, {}⟩
  aProof := ⟨.fill 1, List.replicate 1024 2, [7], List.replicate 64 3, 4096⟩
  bProof := ⟨.fill 4, List.replicate 1024 5, [0], [], 1⟩
  aRowIndices := [0, 8]
  bColIndices := [0]
  hashA := .fill 1
  hashB := .fill 4

theorem readPlainProof_oneLeaf :
    ∃ d, readPlainProof 2 (oneLeaf.encode 2) = some (d, []) ∧ oneLeaf.RecoveredAs d :=
  (readPlainProof_encode ⟨⟨⟨1, List.length_replicate⟩, ⟨2, List.length_replicate⟩⟩,
    ⟨⟨1, List.length_replicate⟩, ⟨0, rfl⟩⟩⟩ (by decide +kernel)).1

end PlainShare

end PropMiner.Share
