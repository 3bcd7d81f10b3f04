import PropMiner.Share.Target
import PropMiner.Semantics.Blocks
import PropMiner.Semantics.TreeFold

/-!
# The keyed Merkle tree

`pearl-blake3`: `hasher.rs` and the tree of `merkle.rs`. The data is cut into chunks of 1024 bytes.
The chaining values of the chunks are the lowest layer, and a layer is combined in pairs until two
nodes are left, whose parent is the root. A tree over at most one chunk has the hash of the data as
its only node.

The BLAKE3 functions under one key are those of a crate, and a parameter here. A number of bytes or
chunks fits into 64 bits by far and is not cut.

## Main definitions

* `Blake3Hasher` — the BLAKE3 functions under one key
* `Blake3Hasher.hashChunks`, `Blake3Hasher.combineLayer` — the layers of a tree
* `MerkleTree.new`, `MerkleTree.root`

## Main results

* `hashChunks_eq` — the segments of 64 chunks do not show
* `layer_induction` — a layer and the one above it
* `root_new` — the root is that of the left-balanced tree over the chunks
-/

set_option autoImplicit false

namespace PropMiner.Merkle

open PropMiner.Semantics PropMiner.Semantics.TreeFold

/-- `Digest` -/
abbrev Digest := Share.Bytes32

instance : Inhabited Digest := ⟨.fill 0⟩

/-- What a call of the library can end with instead of a result. -/
inductive Failure
  | err (msg : String)
  | panic
  deriving DecidableEq, Repr

/-- `l[i]` -/
def index {α : Type} (l : List α) (i : ℕ) : Except Failure α :=
  match l[i]? with
  | some a => .ok a
  | none => .error .panic

theorem index_of_lt {α : Type} [Inhabited α] {l : List α} {i : ℕ} (h : i < l.length) :
    index l i = .ok (l.getD i default) := by
  rw [index, List.getElem?_eq_getElem h, List.getD_eq_getElem _ _ h]

/-- `CHUNK_LEN` -/
def chunkLen : ℕ := 1024

/-- `CHUNKS_PER_SEGMENT` -/
def chunksPerSegment : ℕ := 64

/-- `Blake3Hasher`: what the crate computes under the key of the hasher. -/
structure Blake3Hasher where
  hash : List UInt8 → Digest
  /-- the chaining value of a chunk that is not the root; the chunk's index is the counter -/
  chunkCv : List UInt8 → ℕ → Digest
  parentCv : Digest → Digest → Digest
  rootCv : Digest → Digest → Digest

/-! ### Chunks -/

/-- The number of chunks, the last of which may be short. -/
def numChunks (n : ℕ) : ℕ := (n + (chunkLen - 1)) / chunkLen

/-- Chunk `i` of the data. -/
def chunk (data : List UInt8) (i : ℕ) : List UInt8 := (data.drop (i * chunkLen)).take chunkLen

theorem length_chunk (data : List UInt8) (i : ℕ) :
    (chunk data i).length = min chunkLen (data.length - i * chunkLen) := by
  rw [chunk, List.length_take, List.length_drop]

/-- `padded_chunk_len` -/
def paddedChunkLen (rawLen : ℕ) : ℕ := numChunks rawLen * chunkLen

/-- `pad_to_chunk_boundary` -/
def padToChunkBoundary (data : List UInt8) : List UInt8 :=
  data ++ List.replicate (paddedChunkLen data.length - data.length) 0

theorem lt_numChunks_iff {i n : ℕ} : i < numChunks n ↔ i * chunkLen < n := by
  rw [numChunks, Nat.lt_div_iff_mul_lt (by decide)]
  unfold chunkLen
  omega

theorem length_padToChunkBoundary (data : List UInt8) :
    (padToChunkBoundary data).length = numChunks data.length * chunkLen := by
  rw [padToChunkBoundary, List.length_append, List.length_replicate, paddedChunkLen, numChunks,
    chunkLen]
  omega

namespace Blake3Hasher

variable (H : Blake3Hasher)

/-- The bytes of a segment. -/
def segmentData (data : List UInt8) (segIdx : ℕ) : List UInt8 :=
  let startByte := segIdx * chunksPerSegment * chunkLen
  let endByte := min ((segIdx + 1) * (chunksPerSegment * chunkLen)) data.length
  (data.take endByte).drop startByte

/-- `process_segment`: full chunks are hashed in one call, a short one behind them on its own. -/
def processSegment (data : List UInt8) (segIdx : ℕ) : List Digest :=
  let startChunk := segIdx * chunksPerSegment
  let segment := segmentData data segIdx
  let numFull := segment.length / chunkLen
  let fullCvs := (List.range numFull).map fun i => H.chunkCv (chunk segment i) (startChunk + i)
  let lastChunk := segment.drop (numFull * chunkLen)
  if lastChunk.isEmpty then fullCvs else fullCvs ++ [H.chunkCv lastChunk (startChunk + numFull)]

/-- `hash_chunks` -/
def hashChunks (data : List UInt8) : List Digest :=
  if data.isEmpty then []
  else
    (List.range ((numChunks data.length + (chunksPerSegment - 1)) / chunksPerSegment)).flatMap
      (H.processSegment data)

/-- `combine_layer` -/
def combineLayer (prev : List Digest) : List Digest := pairUp H.parentCv prev

theorem length_segmentData (data : List UInt8) (segIdx : ℕ) :
    (segmentData data segIdx).length = min 65536 (data.length - segIdx * 65536) := by
  simp only [segmentData, List.length_drop, List.length_take, chunksPerSegment, chunkLen]
  omega

theorem chunk_segmentData (data : List UInt8) (segIdx : ℕ) {i : ℕ} (hi : i < chunksPerSegment) :
    chunk (segmentData data segIdx) i = chunk data (segIdx * chunksPerSegment + i) := by
  have hend : segIdx * chunksPerSegment * chunkLen + (i * chunkLen + chunkLen) ≤
      (segIdx + 1) * (chunksPerSegment * chunkLen) := by
    unfold chunksPerSegment chunkLen at *
    omega
  rw [chunk, chunk, segmentData, ← List.take_eq_take_min, List.drop_drop, ← Nat.add_mul,
    List.drop_take, List.take_take, Nat.min_eq_left]
  rw [Nat.add_mul (segIdx * chunksPerSegment)]
  omega

/-- A segment in the order of its chunks. -/
theorem processSegment_eq (data : List UInt8) (segIdx : ℕ) :
    H.processSegment data segIdx =
      (List.range (min chunksPerSegment (numChunks data.length - segIdx * chunksPerSegment))).map
        fun i => H.chunkCv (chunk data (segIdx * chunksPerSegment + i))
          (segIdx * chunksPerSegment + i) := by
  have hlen := length_segmentData data segIdx
  simp only [processSegment]
  generalize hfull : (segmentData data segIdx).length / chunkLen = numFull
  have hcount : numFull ≤ chunksPerSegment := by
    unfold chunksPerSegment chunkLen at *
    omega
  have hcvs : ((List.range numFull).map fun i => H.chunkCv (chunk (segmentData data segIdx) i)
      (segIdx * chunksPerSegment + i)) = (List.range numFull).map fun i =>
        H.chunkCv (chunk data (segIdx * chunksPerSegment + i)) (segIdx * chunksPerSegment + i) := by
    apply List.map_congr_left
    intro i hi
    rw [chunk_segmentData data segIdx (Nat.lt_of_lt_of_le (List.mem_range.mp hi) hcount)]
  rw [hcvs]
  split_ifs with hlast
  · -- no bytes behind the full chunks
    rw [List.isEmpty_iff, List.drop_eq_nil_iff] at hlast
    congr 2
    unfold numChunks chunksPerSegment chunkLen at *
    omega
  · rw [List.isEmpty_iff, List.drop_eq_nil_iff, Nat.not_le] at hlast
    have hpartial : (segmentData data segIdx).drop (numFull * chunkLen) =
        chunk data (segIdx * chunksPerSegment + numFull) := by
      rw [← chunk_segmentData data segIdx, chunk, List.take_of_length_le]
      · rw [List.length_drop]
        unfold chunkLen at *
        omega
      · unfold chunksPerSegment chunkLen at *
        omega
    have hsucc : min chunksPerSegment (numChunks data.length - segIdx * chunksPerSegment) =
        numFull + 1 := by
      unfold numChunks chunksPerSegment chunkLen at *
      omega
    rw [hsucc, List.range_succ, List.map_append, List.map_singleton, hpartial]

/-- One chaining value per chunk, in order. -/
theorem hashChunks_eq (data : List UInt8) :
    H.hashChunks data =
      (List.range (numChunks data.length)).map fun i => H.chunkCv (chunk data i) i := by
  rw [hashChunks]
  split_ifs with hempty
  · rw [List.isEmpty_iff.mp hempty]
    rfl
  · rw [funext (H.processSegment_eq data)]
    exact flatMap_range_min (fun i => H.chunkCv (chunk data i) i) (by decide) _

/-! ### Layers -/

/-- The root on top of the last two nodes. -/
def topLayers (layer : List Digest) : List (List Digest) :=
  match layer with
  | [left, right] => [layer, [H.rootCv left right]]
  | _ => [layer]

/-- The loop over the layers. -/
def layersFrom (layer : List Digest) : List (List Digest) :=
  if 2 < layer.length then layer :: layersFrom (H.combineLayer layer) else H.topLayers layer
termination_by layer.length
decreasing_by
  rw [combineLayer, length_pairUp]
  omega

theorem length_combineLayer (layer : List Digest) :
    (H.combineLayer layer).length = (layer.length + 1) / 2 := length_pairUp layer

theorem layersFrom_of_two_lt {layer : List Digest} (h : 2 < layer.length) :
    H.layersFrom layer = layer :: H.layersFrom (H.combineLayer layer) := by
  rw [layersFrom, if_pos h]

theorem layersFrom_singleton (d : Digest) : H.layersFrom [d] = [[d]] := by
  rw [layersFrom, if_neg (by simp)]
  rfl

theorem layersFrom_pair (left right : Digest) :
    H.layersFrom [left, right] = [[left, right], [H.rootCv left right]] := by
  rw [layersFrom, if_neg (by simp), topLayers]

/-- The root of the left-balanced tree. -/
def treeRoot (layer : List Digest) : Digest := rootFold H.parentCv H.rootCv layer

theorem treeRoot_pair (left right : Digest) : H.treeRoot [left, right] = H.rootCv left right :=
  rootFold_pair left right

theorem treeRoot_combineLayer {layer : List Digest} (h : 2 < layer.length) :
    H.treeRoot (H.combineLayer layer) = H.treeRoot layer := rootFold_pairUp h

theorem two_le_length_combineLayer {layer : List Digest} (hlt : 2 < layer.length) :
    2 ≤ (H.combineLayer layer).length := by
  rw [length_combineLayer]
  omega

/-- An induction over the layers: two nodes, or a layer and the one above it. -/
theorem layer_induction {P : ∀ layer : List Digest, 2 ≤ layer.length → Prop}
    (pair : ∀ left right, P [left, right] le_rfl)
    (above : ∀ layer (hlt : 2 < layer.length),
      P (H.combineLayer layer) (H.two_le_length_combineLayer hlt) → P layer hlt.le)
    (layer : List Digest) (h : 2 ≤ layer.length) : P layer h := by
  induction hn : layer.length using Nat.strong_induction_on generalizing layer with
  | _ n ih =>
    by_cases hlt : 2 < layer.length
    · have hlen := H.length_combineLayer layer
      exact above layer hlt (ih _ (by omega) _ _ rfl)
    · obtain ⟨left, right, rfl⟩ := List.length_eq_two.mp (by omega : layer.length = 2)
      exact pair left right

/-- The last layer is the root. -/
theorem getLast?_layersFrom {layer : List Digest} (h : 2 ≤ layer.length) :
    (H.layersFrom layer).getLast? = some [H.treeRoot layer] := by
  induction layer, h using H.layer_induction with
  | pair left right =>
    rw [layersFrom_pair, treeRoot_pair]
    rfl
  | above layer hlt ih =>
    rw [layersFrom_of_two_lt H hlt, List.getLast?_cons, ih, treeRoot_combineLayer H hlt]
    rfl

theorem head?_layersFrom (layer : List Digest) : (H.layersFrom layer).head? = some layer := by
  rw [layersFrom]
  split_ifs
  · rfl
  · unfold topLayers
    split
    · rfl
    · rfl

end Blake3Hasher

/-! ### The tree -/

/-- `MerkleTree`. Its key is that of the hasher. -/
structure MerkleTree where
  layers : List (List Digest)
  data : List UInt8

namespace MerkleTree

variable (H : Blake3Hasher) {data : List UInt8}

/-- `MerkleTree::new` -/
def new (data : List UInt8) : MerkleTree :=
  if data.isEmpty then ⟨[[]], []⟩
  else if data.length ≤ chunkLen then ⟨[[H.hash data]], data⟩
  else ⟨H.layersFrom (H.hashChunks data), data⟩

/-- `root` -/
def root (t : MerkleTree) : Except Failure Digest :=
  match t.layers.getLast? with
  | some last => index last 0
  | none => .ok (.fill 0)

/-- `leaf_hashes` -/
def leafHashes (t : MerkleTree) : List Digest := t.layers.headD []

/-- `num_leaves` -/
def numLeaves (t : MerkleTree) : ℕ := t.leafHashes.length

theorem new_of_chunkLen_lt (h : chunkLen < data.length) :
    new H data = ⟨H.layersFrom (H.hashChunks data), data⟩ := by
  have hne : ¬ data.isEmpty := by
    rw [List.isEmpty_iff_length_eq_zero]
    omega
  rw [new, if_neg hne, if_neg (Nat.not_le.mpr h)]

theorem two_le_numChunks (h : chunkLen < data.length) : 2 ≤ numChunks data.length := by
  have hlt := (lt_numChunks_iff (i := 1) (n := data.length)).mpr (by rwa [Nat.one_mul])
  omega

theorem leafHashes_new (h : chunkLen < data.length) :
    (new H data).leafHashes = H.hashChunks data := by
  rw [new_of_chunkLen_lt H h, leafHashes, List.headD_eq_head?_getD, H.head?_layersFrom]
  rfl

theorem length_hashChunks : (H.hashChunks data).length = numChunks data.length := by
  rw [H.hashChunks_eq, List.length_map, List.length_range]

theorem numLeaves_new (h : chunkLen < data.length) :
    (new H data).numLeaves = numChunks data.length := by
  rw [numLeaves, leafHashes_new H h, length_hashChunks]

theorem root_new (h : chunkLen < data.length) :
    (new H data).root = .ok (H.treeRoot (H.hashChunks data)) := by
  have hlen : 2 ≤ (H.hashChunks data).length := by
    rw [length_hashChunks]
    exact two_le_numChunks h
  rw [new_of_chunkLen_lt H h, root, H.getLast?_layersFrom hlen]
  rfl

end MerkleTree

end PropMiner.Merkle
