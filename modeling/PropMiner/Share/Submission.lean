import PropMiner.Proto.Fields
import PropMiner.Share.Builder
import PropMiner.Share.PlainProof

/-!
# Reading a share submission

The output of `encode_share_submission`, in memory and read with `ProtoReader`: the fields
come out in order with what was put in, and so do the fields of the two Merkle proofs that
lie in it as messages of their own.

## Main definitions

* `ReadsProof` — a buffer is read as a Merkle proof
* `ReadsSubmission` — a buffer is read as a submission

## Main results

* `readsProof_of_presents` — a proof that was written is read again
* `readsSubmission_of_encodeSigned` — so is a submission
-/

set_option autoImplicit false

namespace PropMiner.Share

open PropMiner.Semantics PropMiner.Proto
open PropMiner.Wire (Field)

variable {L : Library} {mem : Memory} {share : ShareFound} {cfg : SignedConfig}
  {aProof bProof p : OwnedProof} {columns : List (List UInt8)} {audit out : List UInt8}
  {ws : List WireField}

/-- The fields of a Merkle proof: the leaves, their indices, the number of leaves, the
siblings, and nothing else. -/
structure ReadsProof (mem : Memory) (data len : UInt64) (p : OwnedProof) (ws : List WireField) :
    Prop where
  read : readAll mem data len = some (.ok ws)
  known : ∀ w ∈ ws, w.field = 1 ∨ w.field = 2 ∨ w.field = 3 ∨ w.field = 4
  leaves : (slicesOf mem ws 1).flatten = p.leafData
  leaf : ∀ leaf ∈ slicesOf mem ws 1, leaf.length = 1024
  leafIndices : numbersOf ws 2 = p.leafIndices.map UInt32.toUInt64
  totalLeaves : numbersOf ws 3 = [p.totalLeaves.toUInt64]
  siblings : (slicesOf mem ws 4).flatten = p.siblings
  sibling : ∀ sibling ∈ slicesOf mem ws 4, sibling.length = 32

/-- The fields of a submission: each once, in order, with what was put in. The two proofs, and
the audit if there is one, are messages of their own. -/
structure ReadsSubmission (mem : Memory) (data len : UInt64) (share : ShareFound)
    (cfg : SignedConfig) (aProof bProof : OwnedProof) (columns : List (List UInt8))
    (audit : List UInt8) (ws : List WireField) : Prop where
  read : readAll mem data len = some (.ok ws)
  order : ws.map (·.field) =
    [2, 3, 4, 5, 6, 7, 8, 9, 10, 11, 12, 13, 14, 15, 16] ++ if audit = [] then [] else [17]
  sigma : slicesOf mem ws 2 = [share.job.sigma.toList]
  config : slicesOf mem ws 3 = [cfg.toBytes]
  rootA : slicesOf mem ws 4 = [aProof.root.bytes]
  hashB : slicesOf mem ws 5 = [share.hashB.bytes]
  aSlice : slicesOf mem ws 6 = [share.aSlice]
  bColumns : slicesOf mem ws 7 = [columns.flatten]
  proofA : ∃ w vs, ws.filter (·.field = 8) = [w] ∧ ReadsProof mem w.data w.len aProof vs
  proofB : ∃ w vs, ws.filter (·.field = 9) = [w] ∧ ReadsProof mem w.data w.len bProof vs
  claimedHash : slicesOf mem ws 10 = [share.claimedHash.bytes]
  target : numbersOf ws 11 = [share.job.targetNbits.toUInt64]
  tileRow : numbersOf ws 12 = [share.tileRow.toUInt64]
  tileCol : numbersOf ws 13 = [share.tileCol.toUInt64]
  m : numbersOf ws 14 = [cfg.m.toUInt32.toUInt64]
  n : numbersOf ws 15 = [cfg.n.toUInt32.toUInt64]
  bSeed : slicesOf mem ws 16 = [share.job.bSeed.bytes]
  audit : audit ≠ [] → ∃ w vs, ws.filter (·.field = 17) = [w] ∧
    readAll mem w.data w.len = some (.ok vs) ∧ vs.map (·.field) = [1] ∧ slicesOf mem vs 1 = [audit]

/-! ### Proofs -/

section Proofs

/-- The fields of each kind stand together in a proof. -/
theorem filter_merkleProofFields (p : OwnedProof) :
    (merkleProofFields p).filter (·.number = 1) =
        (List.range p.leafCount).map (fun i => ⟨1, .bytes (piece 1024 p.leafData i)⟩) ∧
      (merkleProofFields p).filter (·.number = 2) =
        p.leafIndices.map (fun idx => ⟨2, .fixed32 idx⟩) ∧
      (merkleProofFields p).filter (·.number = 3) = [⟨3, .fixed32 p.totalLeaves⟩] ∧
      (merkleProofFields p).filter (·.number = 4) =
        (List.range p.siblingCount).map fun i => ⟨4, .bytes (piece 32 p.siblings i)⟩ := by
  simp [merkleProofFields, List.filter_map, Function.comp_def]

theorem number_of_mem_merkleProofFields {f : Field} (h : f ∈ merkleProofFields p) :
    f.number = 1 ∨ f.number = 2 ∨ f.number = 3 ∨ f.number = 4 := by
  simp only [merkleProofFields, List.mem_append, List.mem_map, List.mem_singleton] at h
  obtain ((⟨_, _, rfl⟩ | ⟨_, _, rfl⟩) | rfl) | ⟨_, _, rfl⟩ := h <;> simp

/-- Whole pieces come back as pieces of the same length, and together as the buffer. -/
theorem slices_pieces {n : ℕ} {bs : List UInt8} (h : n ∣ bs.length) {slices : List (List UInt8)}
    (hslices : slices = (List.range (bs.length / n)).map (piece n bs)) :
    slices.flatten = bs ∧ ∀ slice ∈ slices, slice.length = n := by
  subst hslices
  exact ⟨flatMap_piece_of_dvd h, fun _ hslice => length_of_mem_pieces hslice⟩

theorem readsProof_of_presents (hp : p.WellFormed) {f : Field} {w : WireField}
    (hw : Presents mem f w) (hslice : f.value.slice = encodeMerkleProof p) :
    ∃ vs, ReadsProof mem w.data w.len p vs := by
  obtain ⟨vs, hread, hvs⟩ := hw.exists_readAll hslice
  obtain ⟨hone, htwo, hthree, hfour⟩ := filter_merkleProofFields p
  have hleaves : slicesOf mem vs 1 = (List.range p.leafCount).map (piece 1024 p.leafData) := by
    rw [slicesOf_of_presents hvs, hone, List.map_map]
    rfl
  have hsiblings : slicesOf mem vs 4 = (List.range p.siblingCount).map (piece 32 p.siblings) := by
    rw [slicesOf_of_presents hvs, hfour, List.map_map]
    rfl
  obtain ⟨hleafData, hleaf⟩ := slices_pieces hp.leaves hleaves
  obtain ⟨hsiblingData, hsibling⟩ := slices_pieces hp.siblings hsiblings
  refine ⟨vs, hread, fun v hv => ?_, hleafData, hleaf, ?_, ?_, hsiblingData, hsibling⟩
  · have hnumber : v.field ∈ (merkleProofFields p).map (·.number) := by
      rw [← map_field_of_presents hvs]
      exact List.mem_map_of_mem hv
    obtain ⟨f, hf, hsame⟩ := List.mem_map.mp hnumber
    rw [← hsame]
    exact number_of_mem_merkleProofFields hf
  · rw [numbersOf_of_presents hvs, htwo, List.map_map]
    rfl
  · rw [numbersOf_of_presents hvs, hthree]
    rfl

end Proofs

/-! ### Submissions -/

section Submissions

/-- The one field with a number that stands once in a message. -/
theorem exists_of_filter_singleton {fs : List Field} {f : Field} {number : UInt32}
    (hws : List.Forall₂ (Presents mem) fs ws) (h : fs.filter (·.number = number) = [f]) :
    ∃ w, ws.filter (·.field = number) = [w] ∧ Presents mem f w := by
  have hkept := filter_of_presents hws number
  rw [h] at hkept
  obtain ⟨w, rest, hw, hrest, hws'⟩ := List.forall₂_cons_left_iff.mp hkept
  rw [List.forall₂_nil_left_iff.mp hrest] at hws'
  exact ⟨w, hws', hw⟩

/-- A proof that stands once in a message. -/
theorem exists_readsProof {fs : List Field} {number : UInt32} (hp : p.WellFormed)
    (hws : List.Forall₂ (Presents mem) fs ws)
    (h : fs.filter (·.number = number) = [⟨number, .bytes (encodeMerkleProof p)⟩]) :
    ∃ w vs, ws.filter (·.field = number) = [w] ∧ ReadsProof mem w.data w.len p vs := by
  obtain ⟨w, hfilter, hw⟩ := exists_of_filter_singleton hws h
  obtain ⟨vs, hvs⟩ := readsProof_of_presents hp hw rfl
  exact ⟨w, vs, hfilter, hvs⟩

theorem exists_audit {fs : List Field} (hws : List.Forall₂ (Presents mem) fs ws)
    (h : fs.filter (·.number = 17) = [⟨17, .bytes (encodeAuditProof audit)⟩]) :
    ∃ w vs, ws.filter (·.field = 17) = [w] ∧ readAll mem w.data w.len = some (.ok vs) ∧
      vs.map (·.field) = [1] ∧ slicesOf mem vs 1 = [audit] := by
  obtain ⟨w, hfilter, hw⟩ := exists_of_filter_singleton hws h
  have hslice : encodeAuditProof audit = [⟨1, .bytes audit⟩].flatMap Field.encode :=
    (List.flatMap_singleton _ _).symm
  obtain ⟨vs, hread, hvs⟩ := hw.exists_readAll hslice
  exact ⟨w, vs, hfilter, hread, map_field_of_presents hvs, slicesOf_of_presents hvs 1⟩

theorem slicesOf_of_filter {fs : List Field} {number : UInt32} {bs : List UInt8}
    (hws : List.Forall₂ (Presents mem) fs ws)
    (h : fs.filter (·.number = number) = [⟨number, .bytes bs⟩]) :
    slicesOf mem ws number = [bs] := by
  rw [slicesOf_of_presents hws, h]
  rfl

theorem numbersOf_of_filter {fs : List Field} {number v : UInt32}
    (hws : List.Forall₂ (Presents mem) fs ws)
    (h : fs.filter (·.number = number) = [⟨number, .fixed32 v⟩] ∨
      fs.filter (·.number = number) = [⟨number, int32Value v⟩]) :
    numbersOf ws number = [v.toUInt64] := by
  rw [numbersOf_of_presents hws]
  rcases h with h | h
  · rw [h]
    rfl
  · rw [h]
    rfl

/-- **Submissions.** A submission that lies in memory is read as its fields, in order, and its
two proofs are read as what they were made of. -/
theorem readsSubmission_of_encodeSigned (ha : aProof.WellFormed) (hb : bProof.WellFormed)
    (hout : L.encodeSigned share cfg aProof bProof audit = .ok out) (b : Buffer)
    (hbytes : bytesAt mem b.data b.len.toNat = out) :
    let k := UInt64.ofInt cfg.k.toInt
    ∃ columns ws, (share.bColIndices.mapM fun col =>
        L.bseedExpandRange share.job.bSeed (col.toUInt64 * k) k) = .ok columns ∧
      ReadsSubmission mem b.data b.len share cfg aProof bProof columns audit ws := by
  intro k
  obtain ⟨columns, hcolumns, hencode⟩ := bind_eq_ok.mp hout
  have hwritten := (Except.ok.inj hencode).symm
  rw [← hbytes, ← bytesBetween_add] at hwritten
  obtain ⟨ws, hread, hws⟩ := b.exists_readAll hwritten
  refine ⟨columns, ws, mapM_of_expandColumns hcolumns, hread, (map_field_of_presents hws).trans ?_,
    slicesOf_of_filter hws ?_, slicesOf_of_filter hws ?_, slicesOf_of_filter hws ?_,
    slicesOf_of_filter hws ?_, slicesOf_of_filter hws ?_, slicesOf_of_filter hws ?_,
    exists_readsProof ha hws ?_, exists_readsProof hb hws ?_, slicesOf_of_filter hws ?_,
    numbersOf_of_filter hws (.inl ?_), numbersOf_of_filter hws (.inr ?_),
    numbersOf_of_filter hws (.inr ?_), numbersOf_of_filter hws (.inl ?_),
    numbersOf_of_filter hws (.inl ?_), slicesOf_of_filter hws ?_,
    fun haudit => exists_audit hws ?_⟩
  case refine_17 =>
    rw [submissionFields, if_neg haudit]
    rfl
  -- each number stands once in the list, with or without an audit
  all_goals
    rw [submissionFields]
    split_ifs
    · rfl
    · rfl

/-- The sample share with a leaf for each matrix and an audit. -/
theorem readsSubmission_sampleShare :
    ∃ out columns ws, sampleLibrary.encodeSigned (sampleShare dim128 0) (sampleConfig dim128).signed
        PlainShare.oneLeaf.aProof PlainShare.oneLeaf.bProof [1] = .ok out ∧
      ReadsSubmission (memoryOf out) 0x1000 (UInt64.ofNat out.length) (sampleShare dim128 0)
        (sampleConfig dim128).signed PlainShare.oneLeaf.aProof PlainShare.oneLeaf.bProof columns [1]
        ws := by
  obtain ⟨out, hout, hlength⟩ : ∃ out, sampleLibrary.encodeSigned (sampleShare dim128 0)
      (sampleConfig dim128).signed PlainShare.oneLeaf.aProof PlainShare.oneLeaf.bProof [1] =
        .ok out ∧
      out.length < 2 ^ 63 := ⟨_, rfl, by decide +kernel⟩
  have hlen : (UInt64.ofNat out.length).toNat = out.length :=
    UInt64.toNat_ofNat_of_lt' (hlength.trans (by norm_num))
  have hbytes : bytesAt (memoryOf (out ++ [])) 0x1000 out.length = out := bytesAt_memoryOf hlength
  rw [List.append_nil] at hbytes
  have hend : (0x1000 : UInt64).toNat + (UInt64.ofNat out.length).toNat < 2 ^ 64 := by
    rw [hlen]
    change 0x1000 + out.length < 2 ^ 64
    omega
  obtain ⟨columns, ws, -, hreads⟩ := readsSubmission_of_encodeSigned
    ⟨⟨1, List.length_replicate⟩, ⟨2, List.length_replicate⟩⟩ ⟨⟨1, List.length_replicate⟩, ⟨0, rfl⟩⟩
    hout ⟨0x1000, UInt64.ofNat out.length, hend⟩ (by rw [hlen]; exact hbytes)
  exact ⟨out, columns, ws, hout, hreads⟩

end Submissions

end PropMiner.Share
