import PropMiner.Semantics.Fallible
import PropMiner.Share.Encoders
import PropMiner.Share.Transcript

/-!
# The columns of a share

Three loops expand the opened columns of `B` from its seed: `compute_claimed_hash` column by
column, or all of `B` at once with `PROPMINER_BCOL_CACHE=0`, and `encode_share_submission` once
more. If the library expands ranges of one stream, as its documentation says, they all cut the
same bytes out of it, and no offset leaves 64 bits.

## Main definitions

* `columnOf` — the bytes of a column, by their places in the stream
* `Library.ExpandsAs` — what is assumed of the library

## Main results

* `Library.mapM_expand`, `Library.full_expand`, `Library.secretB_eq` — the two ways to a column
* `Library.claimedHash_columns` — the claimed hash is the same both ways, and the columns that it is
  computed from are sent
-/

set_option autoImplicit false

namespace PropMiner.Share

open PropMiner.Semantics

/-- Column `col` of the matrix that a stream spells in columns of `k` bytes. -/
def columnOf (stream : UInt64 → UInt8) (k : ℕ) (col : UInt32) : List UInt8 :=
  (List.range k).map fun i => stream (UInt64.ofNat (col.toNat * k + i))

theorem length_columnOf (stream : UInt64 → UInt8) (k : ℕ) (col : UInt32) :
    (columnOf stream k col).length = k := by
  rw [columnOf, List.length_map, List.length_range]

/-- A piece of a list of places. -/
theorem take_drop_map_range {α : Type*} (g : ℕ → α) {a k n : ℕ} (h : a + k ≤ n) :
    (((List.range n).map g).drop a).take k = (List.range k).map fun i => g (a + i) := by
  apply List.ext_getElem
  · simp only [List.length_take, List.length_drop, List.length_map, List.length_range]
    omega
  · intro i _ _
    simp only [List.getElem_take, List.getElem_drop, List.getElem_map, List.getElem_range]

namespace Library

/-- Ranges are expanded from these streams. -/
def ExpandsAs (L : Library) (stream : Bytes32 → UInt64 → UInt8) : Prop :=
  ∀ bseed byteOffset n, L.bseedExpandRangeRaw bseed byteOffset n =
    .ok fun i => stream bseed (byteOffset + UInt64.ofNat i)

variable {L : Library} {stream : Bytes32 → UInt64 → UInt8} {seed : Bytes32} {k : ℕ}

theorem bseedExpandRange_eq (hstream : L.ExpandsAs stream) (off n : UInt64) :
    L.bseedExpandRange seed off n =
      .ok ((List.range n.toNat).map fun i => stream seed (off + UInt64.ofNat i)) := by
  rw [bseedExpandRange, hstream]
  rfl

/-- The place of a byte, as it is computed in 64 bits. -/
theorem offset_eq (col : UInt32) (k i : ℕ) :
    col.toUInt64 * UInt64.ofNat k + UInt64.ofNat i = UInt64.ofNat (col.toNat * k + i) := by
  rw [UInt64.ofNat_add, UInt64.ofNat_mul]
  congr 2
  exact (UInt64.ofNat_uInt32ToNat col).symm

/-- Columns one by one. -/
theorem mapM_expand (hstream : L.ExpandsAs stream) (hk : k < 2 ^ 31) (cols : List UInt32) :
    (cols.mapM fun col => L.bseedExpandRange seed (col.toUInt64 * UInt64.ofNat k)
      (UInt64.ofNat k)) = .ok (cols.map (columnOf (stream seed) k)) := by
  have hlen : (UInt64.ofNat k).toNat = k :=
    UInt64.toNat_ofNat_of_lt' (hk.trans (by norm_num))
  apply mapM_eq_ok
  intro col _
  rw [bseedExpandRange_eq hstream, hlen, columnOf]
  congr 2
  funext i
  rw [offset_eq]

/-- Columns cut out of the whole matrix. -/
theorem full_expand (hstream : L.ExpandsAs stream) {n : ℕ} (hn : n < 2 ^ 31) (hk : k < 2 ^ 31)
    {cols : List UInt32} (hcols : ∀ j ∈ cols, j.toNat < n) :
    ∃ bSlice, L.bseedExpandRange seed 0 (UInt64.ofNat n * UInt64.ofNat k) = .ok bSlice ∧
      (cols.map fun col => (bSlice.drop (col.toNat * k)).take k) =
        cols.map (columnOf (stream seed) k) := by
  have hlen : (UInt64.ofNat n * UInt64.ofNat k).toNat = n * k := by
    rw [← UInt64.ofNat_mul]
    refine UInt64.toNat_ofNat_of_lt' (lt_of_lt_of_le ?_ (by norm_num : 2 ^ 31 * 2 ^ 31 ≤ _))
    exact Nat.mul_lt_mul_of_lt_of_le hn hk.le (by norm_num)
  refine ⟨_, bseedExpandRange_eq hstream _ _, ?_⟩
  apply List.map_congr_left
  intro col hcol
  -- the last byte of the column is still inside the matrix
  have hinside : col.toNat * k + k ≤ n * k := by
    rw [← Nat.succ_mul]
    exact Nat.mul_le_mul_right k (hcols col hcol)
  rw [hlen, take_drop_map_range _ hinside, columnOf]
  apply List.map_congr_left
  intro i _
  rw [UInt64.zero_add]

/-- Both ways lead to the same columns. -/
theorem secretB_eq (hstream : L.ExpandsAs stream) {cfg : MiningConfig} {cols : List UInt32}
    (hcols : ∀ j ∈ cols, j.toNat < cfg.n.val) :
    L.secretB cfg seed cols = .ok (cols.map (columnOf (stream seed) cfg.k.val)) := by
  unfold secretB
  cases L.bcolTargetedExpandEnabled with
  | true => exact mapM_expand hstream cfg.k.lt cols
  | false =>
    obtain ⟨bSlice, hslice, hcut⟩ := @full_expand _ _ seed _ hstream _ cfg.n.lt cfg.k.lt _ hcols
    rw [if_neg Bool.false_ne_true, hslice, ok_bind, hcut]
    rfl

end Library

/-- Whichever way the columns are expanded, the claimed hash is the same, and the columns it is
computed from are those of the submission. -/
theorem Library.claimedHash_columns (L : Library) (cfg : MiningConfig) (share : ShareFound)
    (jobKey hashA hashB : Bytes32) (aProof bProof : OwnedProof) (auditSiblings : List UInt8)
    (hrange : L.ExpandsRanges) (hcols : ∀ j ∈ share.bColIndices, j.toNat < cfg.n.val) :
    let targeted := { L with bcolTargetedExpandEnabled := true }
    let legacy := { L with bcolTargetedExpandEnabled := false }
    let seeds := L.deriveNoiseSeeds jobKey hashA hashB
    let hashOf := fun columns => L.jackpotHash (jackpotTranscript (L.noisyRows cfg share seeds.2)
      (L.noisyCols cfg columns share.bColIndices seeds.1) cfg.k.val cfg.r.val).msg seeds.2
    targeted.computeClaimedHash cfg share jobKey hashA hashB =
      legacy.computeClaimedHash cfg share jobKey hashA hashB ∧
    ∃ columns,
      targeted.secretB cfg share.job.bSeed share.bColIndices = .ok columns ∧
      legacy.secretB cfg share.job.bSeed share.bColIndices = .ok columns ∧
      targeted.computeClaimedHash cfg share jobKey hashA hashB = .ok (hashOf columns) ∧
      legacy.computeClaimedHash cfg share jobKey hashA hashB = .ok (hashOf columns) ∧
      columns.flatten.length = share.bColIndices.length * cfg.k.val ∧
      ⟨7, .bytes columns.flatten⟩ ∈
        shareSubmission share cfg aProof bProof columns.flatten auditSiblings ∧
      L.encodeShareSubmission share cfg aProof bProof auditSiblings =
        .ok ((shareSubmission share cfg aProof bProof columns.flatten auditSiblings).flatMap
          Wire.Field.encode) := by
  intro targeted legacy seeds hashOf
  obtain ⟨stream, hstream⟩ := hrange
  let columns := share.bColIndices.map (columnOf (stream share.job.bSeed) cfg.k.val)
  have htargeted : targeted.secretB cfg share.job.bSeed share.bColIndices = .ok columns :=
    secretB_eq (L := targeted) hstream hcols
  have hlegacy : legacy.secretB cfg share.job.bSeed share.bColIndices = .ok columns :=
    secretB_eq (L := legacy) hstream hcols
  -- the flag is read for the columns and nowhere else
  have hhash : targeted.computeClaimedHash cfg share jobKey hashA hashB = .ok (hashOf columns) := by
    rw [computeClaimedHash_eq, htargeted]
    rfl
  have hhash' : legacy.computeClaimedHash cfg share jobKey hashA hashB = .ok (hashOf columns) := by
    rw [computeClaimedHash_eq, hlegacy]
    rfl
  refine ⟨hhash.trans hhash'.symm, columns, htargeted, hlegacy, hhash, hhash', ?_, ?_, ?_⟩
  · rw [List.length_flatten, List.map_map]
    have hlengths : share.bColIndices.map
        (List.length ∘ columnOf (stream share.job.bSeed) cfg.k.val) =
          List.replicate share.bColIndices.length cfg.k.val :=
      List.eq_replicate_iff.mpr ⟨List.length_map _, fun len hlen => by
        obtain ⟨col, -, rfl⟩ := List.mem_map.mp hlen
        exact length_columnOf _ _ col⟩
    rw [hlengths, List.sum_replicate_nat]
  · exact List.mem_append_left _ (by simp)
  · have hexpand := @mapM_expand _ _ share.job.bSeed _ hstream cfg.k.lt share.bColIndices
    rw [encodeShareSubmission, encodeSigned, expandColumns_signed, hexpand]
    rfl

/-- Byte `i` of every stream is `i`. -/
def countingLibrary : Library :=
  { echoLibrary with
    bseedExpandRangeRaw := fun _ byteOffset _ =>
      .ok fun i => (byteOffset + UInt64.ofNat i).toUInt8 }

theorem claimedHash_columns_counting :
    let share := { echoShare with bColIndices := [1] }
    let proof : OwnedProof := ⟨.fill 0, [], [], [], 1⟩
    let hash := countingLibrary.jackpotHash (jackpotTranscript
      (countingLibrary.noisyRows echoConfig share (.fill 0))
      (countingLibrary.noisyCols echoConfig [[4, 5, 6, 7]] [1] (.fill 0)) 4 2).msg (.fill 0)
    (∀ flag, { countingLibrary with bcolTargetedExpandEnabled := flag }.computeClaimedHash
      echoConfig share (.fill 0) (.fill 0) (.fill 0) = .ok hash) ∧
    countingLibrary.encodeShareSubmission share echoConfig proof proof [] =
      .ok ((shareSubmission share echoConfig proof proof [4, 5, 6, 7] []).flatMap
        Wire.Field.encode) := by
  intro share proof hash
  obtain ⟨-, columns, hsecretB, -, htargeted, hlegacy, -, -, hencode⟩ :=
    countingLibrary.claimedHash_columns echoConfig share (.fill 0) (.fill 0) (.fill 0) proof proof
      [] ⟨fun _ i => i.toUInt8, fun _ _ _ => rfl⟩ (List.forall_mem_singleton.mpr (by decide))
  have hcolumns : countingLibrary.secretB echoConfig share.job.bSeed share.bColIndices =
      .ok [[4, 5, 6, 7]] := by
    decide +kernel
  obtain rfl : columns = [[4, 5, 6, 7]] := Except.ok.inj (hsecretB.symm.trans hcolumns)
  exact ⟨Bool.forall_bool.mpr ⟨hlegacy, htargeted⟩, hencode⟩

end PropMiner.Share
