import PropMiner.Merkle.Tree
import PropMiner.Semantics.Absorb
import PropMiner.Semantics.Blake3

/-!
# The reference hasher

`blake3_reference.c`: BLAKE3 over an input that comes in pieces. A chunk buffers a block and a
hasher buffers a chunk; both are emptied only when more input comes, since the last block and the
last chunk are treated in another way. The chaining values of the chunks behind are joined as far as
they make perfect subtrees, and wait on a stack. The end of the input joins the stack from the top
down.

A pop from the empty stack and a push onto a full one are `none` here. A number of blocks in a chunk
is at most sixteen, and not cut.

## Main definitions

* `Output` — a node before it is decided whether it is the root
* `ChunkState`, `ChunkState.update` — a chunk that is being read
* `Hasher`, `Hasher.update`, `Hasher.finalize` — the hasher
* `Blake3Hasher.keyed` — the functions of a tree, as the hasher computes them

## Main results

* `Absorbed.foldlM` — what the hasher holds after any pieces
* `exists_finalize` — the output is that of the tree over the chunks, however the input is cut
* `finalize_short` — up to 64 bytes it is the hash of one block
* `root_eq_keyed_hash` — the root of a Merkle tree is the keyed hash of its data
-/

set_option autoImplicit false

namespace PropMiner.Merkle.Reference

open PropMiner.Semantics PropMiner.Semantics.Blake3 PropMiner.Semantics.TreeFold

abbrev ChainingValue := Vector UInt32 8

instance : Inhabited ChainingValue := ⟨iv⟩

/-! ### Outputs -/

/-- `output` -/
structure Output where
  inputChainingValue : ChainingValue
  blockWords : Block
  counter : UInt64
  blockLen : UInt32
  flags : UInt32

theorem eight_le : 8 ≤ 16 := by decide

/-- The first half of what `compress` gives. -/
def firstHalf (out : Block) : ChainingValue := Vector.ofFn fun i => out.get (i.castLE eight_le)

/-- The bytes of words, least significant first. -/
def bytesOfWords (words : List UInt32) : List UInt8 :=
  words.flatMap fun w => LittleEndian.bytesOf 4 w.toNat

namespace Output

/-- `output_chaining_value` -/
def chainingValue (o : Output) : ChainingValue :=
  firstHalf (compress o.inputChainingValue o.blockWords o.counter o.blockLen o.flags)

/-- One round of the loop: 64 bytes of the output stream. -/
def streamBlock (o : Output) (outputBlockCounter : UInt64) : List UInt8 :=
  bytesOfWords (compress o.inputChainingValue o.blockWords outputBlockCounter o.blockLen
    (o.flags ||| root)).toList

/-- The loop of `output_root_bytes`. -/
def rootBytesFrom (o : Output) (outputBlockCounter : UInt64) (outLen : ℕ) : List UInt8 :=
  if _h : outLen = 0 then []
  else (o.streamBlock outputBlockCounter).take outLen ++
    rootBytesFrom o (outputBlockCounter + 1) (outLen - 64)
termination_by outLen

/-- `output_root_bytes` -/
def rootBytes (o : Output) (outLen : ℕ) : List UInt8 := o.rootBytesFrom 0 outLen

/-- A byte of the output stream. -/
def streamByte (o : Output) (pos : ℕ) : UInt8 :=
  blockAt 64 (fun b => o.streamBlock (UInt64.ofNat b)) 0 pos

theorem length_streamBlock (o : Output) (i : UInt64) : (o.streamBlock i).length = 64 := by
  rw [streamBlock, bytesOfWords, List.length_flatMap]
  simp

theorem take_streamBlock (o : Output) (b n : ℕ) :
    (o.streamBlock (UInt64.ofNat b)).take n =
      (List.range (min n 64)).map fun i => o.streamByte (b * 64 + i) := by
  apply List.ext_getElem
  · rw [List.length_take, length_streamBlock, List.length_map, List.length_range]
  · intro i hi hi'
    have hlt : i < 64 := by
      rw [List.length_take, length_streamBlock] at hi
      omega
    have hdiv : (b * 64 + i) / 64 = b := by omega
    have hmod : (b * 64 + i) % 64 = i := by omega
    rw [List.getElem_take, List.getElem_map, List.getElem_range, streamByte, blockAt, hdiv, hmod,
      List.getD_eq_getElem]

/-- The output is the stream, up to the length that is asked for. -/
theorem rootBytes_eq (o : Output) (outLen : ℕ) :
    o.rootBytes outLen = (List.range outLen).map o.streamByte := by
  have hfrom : ∀ b, o.rootBytesFrom (UInt64.ofNat b) outLen =
      (List.range outLen).map fun i => o.streamByte (b * 64 + i) := by
    induction outLen using Nat.strong_induction_on with
    | _ outLen ih =>
      intro b
      rw [rootBytesFrom]
      split_ifs with hzero
      · rw [hzero]
        rfl
      · have hsplit : outLen = min outLen 64 + (outLen - 64) := by omega
        have hnext : UInt64.ofNat b + 1 = UInt64.ofNat (b + 1) := (UInt64.ofNat_add b 1).symm
        rw [take_streamBlock, hnext, ih _ (by omega)]
        conv_rhs => rw [hsplit, List.range_add, List.map_append, List.map_map]
        refine congrArg _ (List.map_congr_left fun i hi => ?_)
        have hpos : (b + 1) * 64 + i = b * 64 + (min outLen 64 + i) := by
          have := List.mem_range.mp hi
          omega
        rw [Function.comp_apply, hpos]
  have hzero := hfrom 0
  simp only [Nat.zero_mul, Nat.zero_add] at hzero
  exact hzero

@[simp] theorem length_rootBytes (o : Output) (outLen : ℕ) :
    (o.rootBytes outLen).length = outLen := by
  rw [rootBytes_eq, List.length_map, List.length_range]

/-- The first 32 bytes. -/
def digest (o : Output) : Digest := ⟨o.rootBytes 32, o.length_rootBytes 32⟩

end Output

/-! ### Chunks -/

/-- `_blake3_chunk_state`. Of the block buffer only the written part is kept; zeros are behind
it. -/
structure ChunkState where
  chainingValue : ChainingValue
  chunkCounter : UInt64
  block : List UInt8
  blocksCompressed : ℕ
  flags : UInt32
  length_block : block.length ≤ 64

namespace ChunkState

/-- `chunk_state_init` -/
def init (keyWords : ChainingValue) (chunkCounter : UInt64) (flags : UInt32) : ChunkState where
  chainingValue := keyWords
  chunkCounter := chunkCounter
  block := []
  blocksCompressed := 0
  flags := flags
  length_block := by simp

/-- `chunk_state_len` -/
def len (s : ChunkState) : ℕ := 64 * s.blocksCompressed + s.block.length

/-- `chunk_state_start_flag` -/
def startFlag (s : ChunkState) : UInt32 := if s.blocksCompressed = 0 then chunkStart else 0

/-- A full block is compressed. More input is coming, so it is not the last one. -/
def compressBlock (s : ChunkState) : ChunkState :=
  { s with
    chainingValue := firstHalf (compress s.chainingValue (blockWords s.block) s.chunkCounter 64
      (s.flags ||| s.startFlag))
    blocksCompressed := s.blocksCompressed + 1
    block := []
    length_block := by simp }

/-- Bytes are copied behind those in the block. -/
def copy (s : ChunkState) (input : List UInt8) : ChunkState :=
  { s with
    block := (s.block ++ input).take 64
    length_block := List.length_take_le _ _ }

/-- The block buffer. -/
def buffer : Buffer Id ChunkState UInt8 where
  room s := 64 - s.block.length
  flush s :=
    if h : s.block.length = 64 then pure ⟨s.compressBlock, by simp [compressBlock]⟩
    else pure ⟨s, by have := s.length_block; omega⟩
  put s a := s.copy [a]
  flush_of_room s h := dif_neg (by omega)
  room_put s a h := by
    simp only [copy, List.length_take, List.length_append, List.length_singleton]
    omega

/-- `chunk_state_update` -/
def update (s : ChunkState) (input : List UInt8) : ChunkState :=
  Id.run (buffer.absorb copy s input)

/-- `chunk_state_output` -/
def output (s : ChunkState) : Output where
  inputChainingValue := s.chainingValue
  blockWords := blockWords s.block
  counter := s.chunkCounter
  blockLen := UInt32.ofNat s.block.length
  flags := s.flags ||| s.startFlag ||| chunkEnd

theorem copy_eq_foldl (s : ChunkState) (l : List UInt8) (h : l.length ≤ buffer.room s) :
    s.copy l = l.foldl buffer.put s := by
  induction l generalizing s with
  | nil =>
    simp [copy, List.take_of_length_le s.length_block]
  | cons a l ih =>
    rw [List.length_cons] at h
    have hroom := buffer.room_put s a (by omega)
    have hfits : (s.block ++ [a]).take 64 = s.block ++ [a] := by
      refine List.take_of_length_le ?_
      rw [List.length_append, List.length_singleton]
      dsimp only [buffer] at h
      omega
    rw [List.foldl_cons, ← ih _ (by omega)]
    simp only [copy, buffer, hfits, List.append_assoc, List.singleton_append]

/-- The loop reads one byte after the other. -/
theorem update_eq_foldl (s : ChunkState) (input : List UInt8) :
    s.update input = input.foldl (fun s a => Id.run (buffer.push s a)) s := by
  rw [update, Buffer.absorb_eq_foldlM copy_eq_foldl, List.idRun_foldlM]

/-- Input that fits into the block is only copied. -/
theorem update_of_fits {s : ChunkState} {input : List UInt8} (h : input.length ≤ buffer.room s) :
    s.update input = s.copy input := by
  rw [update, Buffer.absorb_eq_foldlM copy_eq_foldl, Buffer.foldlM_push h, copy_eq_foldl s input h]
  rfl

@[simp] theorem update_nil (s : ChunkState) : s.update [] = s := by
  rw [update_eq_foldl, List.foldl_nil]

theorem update_append (s : ChunkState) (x y : List UInt8) :
    s.update (x ++ y) = (s.update x).update y := by
  simp only [update_eq_foldl, List.foldl_append]

theorem len_push (s : ChunkState) (a : UInt8) : (Id.run (buffer.push s a)).len = s.len + 1 := by
  have hle := s.length_block
  simp only [Buffer.push, buffer]
  split_ifs with hfull
  · simp [copy, compressBlock, len]
    omega
  · simp [copy, len]
    omega

theorem chunkCounter_update (s : ChunkState) (input : List UInt8) :
    (s.update input).chunkCounter = s.chunkCounter := by
  rw [update_eq_foldl]
  refine List.foldlRecOn input _ (motive := fun t : ChunkState => t.chunkCounter = s.chunkCounter)
    rfl fun t ht a _ => ?_
  rw [← ht]
  simp only [Buffer.push, buffer]
  split_ifs <;> rfl

theorem len_update (s : ChunkState) (input : List UInt8) :
    (s.update input).len = s.len + input.length := by
  rw [update_eq_foldl]
  induction input generalizing s with
  | nil => rfl
  | cons a input ih =>
    rw [List.foldl_cons, ih, len_push, List.length_cons]
    omega

end ChunkState

/-! ### Parents -/

/-- `parent_output` -/
def parentOutput (left right keyWords : ChainingValue) (flags : UInt32) : Output where
  inputChainingValue := keyWords
  blockWords := left ++ right
  counter := 0
  blockLen := 64
  flags := parent ||| flags

/-- `parent_cv` -/
def parentCv (keyWords : ChainingValue) (flags : UInt32) (left right : ChainingValue) :
    ChainingValue :=
  (parentOutput left right keyWords flags).chainingValue

/-- `hasher_add_chunk_cv`. The top of the stack comes first; it has room for 54 values. -/
def addChunkCv (keyWords : ChainingValue) (flags : UInt32) :
    List ChainingValue → ChainingValue → UInt64 → Option (List ChainingValue)
  | stack, newCv, totalChunks =>
    if totalChunks &&& 1 = 0 then
      match stack with
      | [] => none
      | left :: stack =>
        addChunkCv keyWords flags stack (parentCv keyWords flags left newCv) (totalChunks >>> 1)
    else if stack.length < 54 then some (newCv :: stack) else none

theorem and_one_eq_zero_iff (n : UInt64) : n &&& 1 = 0 ↔ n.toNat % 2 = 0 := by
  rw [← UInt64.toNat_inj, UInt64.toNat_and]
  exact iff_of_eq (congrArg (· = 0) (Nat.and_one_is_mod n.toNat))

theorem addChunkCv_of_even {keyWords : ChainingValue} {flags : UInt32} {totalChunks : UInt64}
    (h : totalChunks.toNat % 2 = 0) (left newCv : ChainingValue) (stack : List ChainingValue) :
    addChunkCv keyWords flags (left :: stack) newCv totalChunks =
      addChunkCv keyWords flags stack (parentCv keyWords flags left newCv) (totalChunks >>> 1) := by
  rw [addChunkCv, if_pos ((and_one_eq_zero_iff _).mpr h)]

theorem addChunkCv_of_odd {keyWords : ChainingValue} {flags : UInt32} {totalChunks : UInt64}
    (h : ¬ totalChunks.toNat % 2 = 0) (newCv : ChainingValue) {stack : List ChainingValue}
    (hstack : stack.length < 54) :
    addChunkCv keyWords flags stack newCv totalChunks = some (newCv :: stack) := by
  unfold addChunkCv
  rw [if_neg (mt (and_one_eq_zero_iff _).mp h), if_pos hstack]

/-- A chunk more: the stack of the subtrees of one chunk more. -/
theorem addChunkCv_stackOf (keyWords : ChainingValue) (flags : UInt32) {cvs : List ChainingValue}
    (newCv : ChainingValue) {totalChunks : UInt64} (htotal : totalChunks.toNat = cvs.length + 1)
    (hlt : cvs.length < 2 ^ 54) :
    addChunkCv keyWords flags (stackOf (parentCv keyWords flags) cvs) newCv totalChunks =
      some (stackOf (parentCv keyWords flags) (cvs ++ [newCv])) := by
  induction hn : cvs.length using Nat.strong_induction_on generalizing cvs newCv totalChunks with
  | _ n ih =>
    by_cases heven : cvs.length % 2 = 0
    · have hstack : (stackOf (parentCv keyWords flags) cvs).length ≤ 53 := by
        rw [← stackOf_pairUp heven]
        refine length_stackOf_le ?_
        rw [length_pairUp]
        omega
      rw [addChunkCv_of_odd (by omega) _ (by omega), stackOf_concat heven]
    · obtain ⟨init, cv, hinit, rfl⟩ := exists_concat heven
      rw [List.length_append, List.length_singleton] at htotal hlt hn
      have hhalf : (totalChunks >>> 1).toNat =
          (pairUp (parentCv keyWords flags) init).length + 1 := by
        rw [length_pairUp, UInt64.toNat_shiftRight, htotal]
        simp [Nat.shiftRight_eq_div_pow]
        omega
      rw [stackOf_concat hinit, addChunkCv_of_even (by omega), ← stackOf_pairUp hinit,
        ih _ (by rw [length_pairUp]; omega) _ hhalf (by rw [length_pairUp]; omega) rfl,
        stackOf_concat_concat hinit]

/-! ### The hasher -/

/-- `blake3_hasher` -/
@[ext] structure Hasher where
  chunkState : ChunkState
  keyWords : ChainingValue
  cvStack : List ChainingValue
  flags : UInt32
  len_chunkState : chunkState.len ≤ 1024

namespace Hasher

/-- `hasher_init_internal` -/
def initInternal (keyWords : ChainingValue) (flags : UInt32) : Hasher where
  chunkState := .init keyWords 0 flags
  keyWords := keyWords
  cvStack := []
  flags := flags
  len_chunkState := by simp [ChunkState.len, ChunkState.init]

/-- `blake3_hasher_init` -/
def init : Hasher := initInternal iv 0

/-- The next chunk begins. -/
def nextChunk (h : Hasher) (cvStack : List ChainingValue) : Hasher :=
  { h with
    chunkState := .init h.keyWords (h.chunkState.chunkCounter + 1) h.flags
    cvStack := cvStack
    len_chunkState := by simp [ChunkState.len, ChunkState.init] }

/-- Input for the current chunk. -/
def write (h : Hasher) (input : List UInt8) : Hasher :=
  { h with
    chunkState := h.chunkState.update (input.take (1024 - h.chunkState.len))
    len_chunkState := by
      have := h.len_chunkState
      rw [ChunkState.len_update, List.length_take]
      omega }

/-- The chunk buffer. -/
def buffer : Buffer Option Hasher UInt8 where
  room h := 1024 - h.chunkState.len
  flush h :=
    if hfull : h.chunkState.len = 1024 then
      (addChunkCv h.keyWords h.flags h.cvStack h.chunkState.output.chainingValue
        (h.chunkState.chunkCounter + 1)).map fun cvStack =>
          ⟨h.nextChunk cvStack, by simp [nextChunk, ChunkState.len, ChunkState.init]⟩
    else pure ⟨h, by have := h.len_chunkState; omega⟩
  put h a := h.write [a]
  flush_of_room h hroom := dif_neg (by omega)
  room_put h a hroom := by
    simp only [write, ChunkState.len_update, List.length_take, List.length_singleton]
    omega

/-- `blake3_hasher_update` -/
def update (h : Hasher) (input : List UInt8) : Option Hasher := buffer.absorb write h input

/-- The node over the stack and the current chunk. -/
def rootOutput (h : Hasher) : Output :=
  h.cvStack.foldl (fun current left => parentOutput left current.chainingValue h.keyWords h.flags)
    h.chunkState.output

/-- `blake3_hasher_finalize` -/
def finalize (h : Hasher) (outLen : ℕ) : List UInt8 := h.rootOutput.rootBytes outLen

theorem chunkState_write {h : Hasher} {l : List UInt8} (hl : l.length ≤ buffer.room h) :
    (h.write l).chunkState = h.chunkState.update l := by
  dsimp only [buffer, write] at hl ⊢
  rw [List.take_of_length_le hl]

theorem write_eq_foldl (h : Hasher) (l : List UInt8) (hl : l.length ≤ buffer.room h) :
    h.write l = l.foldl buffer.put h := by
  induction l generalizing h with
  | nil => simp [write]
  | cons a l ih =>
    rw [List.length_cons] at hl
    have hroom := buffer.room_put h a (by omega)
    rw [List.foldl_cons, ← ih _ (by omega)]
    refine Hasher.ext ?_ rfl rfl rfl
    have hput : (buffer.put h a).chunkState = h.chunkState.update [a] :=
      chunkState_write (by rw [List.length_singleton]; omega)
    rw [chunkState_write (by rwa [List.length_cons]), chunkState_write (by omega), hput,
      ← ChunkState.update_append, List.singleton_append]

/-- The loop reads one byte after the other. -/
theorem update_eq_foldlM (h : Hasher) (input : List UInt8) :
    h.update input = input.foldlM buffer.push h := Buffer.absorb_eq_foldlM write_eq_foldl h input

theorem push_of_full {h : Hasher} {cvStack : List ChainingValue} (hfull : h.chunkState.len = 1024)
    (hstack : addChunkCv h.keyWords h.flags h.cvStack h.chunkState.output.chainingValue
      (h.chunkState.chunkCounter + 1) = some cvStack) (a : UInt8) :
    buffer.push h a = some ((h.nextChunk cvStack).write [a]) := by
  simp only [Buffer.push, buffer, dif_pos hfull, hstack]
  rfl

theorem push_of_room {h : Hasher} (hroom : h.chunkState.len < 1024) (a : UInt8) :
    buffer.push h a = some (h.write [a]) := by
  simp only [Buffer.push, buffer, dif_neg (Nat.ne_of_lt hroom)]
  rfl

end Hasher

/-! ### The tree over the chunks -/

section Tree

variable (keyWords : ChainingValue) (flags : UInt32)

/-- A chunk that has been read. -/
def chunkAt (i : ℕ) (bytes : List UInt8) : ChunkState :=
  (ChunkState.init keyWords (UInt64.ofNat i) flags).update bytes

/-- The chaining values of the first chunks. -/
def chunkCvs (data : List UInt8) (n : ℕ) : List ChainingValue :=
  (List.range n).map fun i => (chunkAt keyWords flags i (chunk data i)).output.chainingValue

theorem length_chunkCvs (data : List UInt8) (n : ℕ) :
    (chunkCvs keyWords flags data n).length = n := by
  rw [chunkCvs, List.length_map, List.length_range]

/-- The root of the tree over the chunks of the data. -/
def treeOutput (data : List UInt8) : Output :=
  if data.length ≤ chunkLen then (chunkAt keyWords flags 0 data).output
  else rootFold (parentCv keyWords flags) (fun left right => parentOutput left right keyWords flags)
    (chunkCvs keyWords flags data (numChunks data.length))

/-- The number of chunks behind the current one. A full chunk is current until more input comes. -/
def chunksBehind (n : ℕ) : ℕ := (n - 1) / chunkLen

variable {keyWords flags}

/-- What a hasher holds that has read some data. -/
structure Absorbed (keyWords : ChainingValue) (flags : UInt32) (data : List UInt8) (h : Hasher) :
    Prop where
  keyWords_eq : h.keyWords = keyWords
  flags_eq : h.flags = flags
  chunkState_eq : h.chunkState = chunkAt keyWords flags (chunksBehind data.length)
    (data.drop (chunksBehind data.length * chunkLen))
  cvStack_eq : h.cvStack = stackOf (parentCv keyWords flags)
    (chunkCvs keyWords flags data (chunksBehind data.length))

variable {data : List UInt8} {h : Hasher}

theorem absorbed_init (keyWords : ChainingValue) (flags : UInt32) :
    Absorbed keyWords flags [] (.initInternal keyWords flags) where
  keyWords_eq := rfl
  flags_eq := rfl
  chunkState_eq := (ChunkState.update_nil _).symm
  cvStack_eq := stackOf_nil.symm

theorem len_chunkAt (i : ℕ) (bytes : List UInt8) :
    (chunkAt keyWords flags i bytes).len = bytes.length := by
  rw [chunkAt, ChunkState.len_update]
  simp [ChunkState.len, ChunkState.init]

/-- Chunks that are full stay as they are when the data grows. -/
theorem chunkCvs_concat {n : ℕ} (hn : n * chunkLen ≤ data.length) (a : UInt8) :
    chunkCvs keyWords flags (data ++ [a]) n = chunkCvs keyWords flags data n := by
  refine List.map_congr_left fun i hi => ?_
  have hi : (i + 1) * chunkLen ≤ n * chunkLen := Nat.mul_le_mul_right _ (List.mem_range.mp hi)
  rw [Nat.succ_mul] at hi
  rw [chunk, chunk, List.drop_append_of_le_length (by omega),
    List.take_append_of_le_length (by rw [List.length_drop]; omega)]

theorem chunkCvs_succ (data : List UInt8) (n : ℕ) :
    chunkCvs keyWords flags data (n + 1) = chunkCvs keyWords flags data n ++
      [(chunkAt keyWords flags n (chunk data n)).output.chainingValue] := by
  rw [chunkCvs, List.range_succ, List.map_append, List.map_singleton, chunkCvs]

/-- A byte more. -/
theorem Absorbed.push (habs : Absorbed keyWords flags data h)
    (hlen : data.length < 2 ^ 64) (a : UInt8) :
    ∃ h', Hasher.buffer.push h a = some h' ∧ Absorbed keyWords flags (data ++ [a]) h' := by
  obtain ⟨hkey, hflags, hchunk, hstack⟩ := habs
  obtain ⟨m, hm⟩ : ∃ m, chunksBehind data.length = m := ⟨_, rfl⟩
  have hsize : (data ++ [a]).length = data.length + 1 := by
    rw [List.length_append, List.length_singleton]
  have hle : m * chunkLen ≤ data.length := by
    rw [← hm, chunksBehind, chunkLen]
    omega
  have hlast : (h.chunkState).len = data.length - m * chunkLen := by
    rw [hchunk, len_chunkAt, List.length_drop, hm]
  rw [hm] at hchunk hstack
  by_cases hfull : h.chunkState.len = 1024
  · -- the chunk is closed, and the byte is the first of the next one
    have hnext : chunksBehind (data.length + 1) = m + 1 := by
      rw [chunksBehind, chunkLen] at *
      omega
    have hend : data.length = (m + 1) * chunkLen := by
      rw [Nat.succ_mul]
      rw [chunkLen] at *
      omega
    have hwhole : chunk data m = data.drop (m * chunkLen) := by
      rw [chunk, List.take_of_length_le (by rw [List.length_drop, hend, Nat.succ_mul]; omega)]
    have hcounter : h.chunkState.chunkCounter + 1 = UInt64.ofNat (m + 1) := by
      rw [hchunk, chunkAt, ChunkState.chunkCounter_update, UInt64.ofNat_add]
      rfl
    have hcvs := length_chunkCvs keyWords flags data m
    have htotal : (UInt64.ofNat (m + 1)).toNat = (chunkCvs keyWords flags data m).length + 1 := by
      rw [hcvs, UInt64.toNat_ofNat_of_lt']
      rw [hend, chunkLen] at hlen
      exact Nat.lt_of_le_of_lt (by omega : m + 1 ≤ 2 ^ 54) (by decide)
    have hpush := addChunkCv_stackOf keyWords flags
      (chunkAt keyWords flags m (chunk data m)).output.chainingValue htotal
      (by rw [hcvs]; rw [hend, chunkLen] at hlen; omega)
    rw [← chunkCvs_succ, hwhole, ← hchunk, ← hstack, ← hcounter, ← hkey, ← hflags] at hpush
    refine ⟨_, Hasher.push_of_full hfull hpush a, hkey, hflags, ?_, ?_⟩
    · have hroom : [a].length ≤ Hasher.buffer.room (h.nextChunk
          (stackOf (parentCv h.keyWords h.flags)
            (chunkCvs h.keyWords h.flags data (m + 1)))) := by
        simp [Hasher.buffer, Hasher.nextChunk, ChunkState.len, ChunkState.init]
      rw [Hasher.chunkState_write hroom, hsize, hnext, List.drop_append_of_le_length hend.ge,
        ← hend, List.drop_length, List.nil_append, Hasher.nextChunk, hcounter, hkey, hflags,
        chunkAt]
    · change stackOf _ _ = _
      rw [hsize, hnext, chunkCvs_concat hend.ge, hkey, hflags]
  · have hroom : h.chunkState.len < 1024 := by
      have := h.len_chunkState
      omega
    have hsame : chunksBehind (data.length + 1) = m := by
      rw [chunksBehind, chunkLen] at *
      omega
    refine ⟨_, Hasher.push_of_room hroom a, hkey, hflags, ?_, ?_⟩
    · have hfits : [a].length ≤ Hasher.buffer.room h := by
        dsimp only [Hasher.buffer, List.length_singleton]
        omega
      rw [Hasher.chunkState_write hfits, hchunk, hsize, hsame, chunkAt, chunkAt,
        List.drop_append_of_le_length hle, ChunkState.update_append]
    · change h.cvStack = _
      rw [hstack, hsize, hsame, chunkCvs_concat hle]

theorem Absorbed.update (habs : Absorbed keyWords flags data h)
    {input : List UInt8} (hlen : data.length + input.length ≤ 2 ^ 64) :
    ∃ h', h.update input = some h' ∧ Absorbed keyWords flags (data ++ input) h' := by
  rw [Hasher.update_eq_foldlM]
  induction input generalizing data h with
  | nil => exact ⟨h, rfl, by rwa [List.append_nil]⟩
  | cons a input ih =>
    rw [List.length_cons] at hlen
    obtain ⟨h₁, hpush, habs₁⟩ := habs.push (by omega) a
    have hsize : (data ++ [a]).length = data.length + 1 := by
      rw [List.length_append, List.length_singleton]
    obtain ⟨h₂, hrest, habs₂⟩ := ih habs₁ (by omega)
    rw [List.append_assoc, List.singleton_append] at habs₂
    exact ⟨h₂, by rw [List.foldlM_cons, hpush]; exact hrest, habs₂⟩

/-- Any number of pieces. -/
theorem Absorbed.foldlM (habs : Absorbed keyWords flags data h)
    {pieces : List (List UInt8)} (hlen : data.length + pieces.flatten.length ≤ 2 ^ 64) :
    ∃ h', pieces.foldlM Hasher.update h = some h' ∧
      Absorbed keyWords flags (data ++ pieces.flatten) h' := by
  induction pieces generalizing data h with
  | nil => exact ⟨h, rfl, by rwa [List.flatten_nil, List.append_nil]⟩
  | cons piece pieces ih =>
    rw [List.flatten_cons, List.length_append] at hlen
    obtain ⟨h₁, hpiece, habs₁⟩ := habs.update (by omega : data.length + piece.length ≤ 2 ^ 64)
    obtain ⟨h₂, hrest, habs₂⟩ := ih habs₁ (by rw [List.length_append]; omega)
    rw [List.append_assoc, ← List.flatten_cons] at habs₂
    exact ⟨h₂, by rw [List.foldlM_cons, hpiece]; exact hrest, habs₂⟩

/-- The stack and the current chunk make the tree. -/
theorem Absorbed.rootOutput_eq (habs : Absorbed keyWords flags data h) :
    h.rootOutput = treeOutput keyWords flags data := by
  obtain ⟨hkey, hflags, hchunk, hstack⟩ := habs
  rw [Hasher.rootOutput, hkey, hflags, hchunk, hstack, treeOutput]
  split_ifs with hone
  · have hbehind : chunksBehind data.length = 0 := by
      rw [chunksBehind, chunkLen] at *
      omega
    rw [hbehind, Nat.zero_mul, List.drop_zero, chunkCvs, List.range_zero, List.map_nil, stackOf_nil,
      List.foldl_nil]
  · obtain ⟨m, hm⟩ : ∃ m, chunksBehind data.length = m := ⟨_, rfl⟩
    have hpos : 0 < m := by
      rw [← hm, chunksBehind]
      unfold chunkLen at *
      omega
    have hcount : numChunks data.length = m + 1 := by
      rw [numChunks, ← hm, chunksBehind]
      unfold chunkLen at *
      omega
    have hlast : chunk data m = data.drop (m * chunkLen) := by
      refine List.take_of_length_le ?_
      rw [List.length_drop, ← hm, chunksBehind]
      unfold chunkLen
      omega
    have hne : chunkCvs keyWords flags data m ≠ [] := by
      rw [← List.length_pos_iff, length_chunkCvs]
      exact hpos
    rw [hm, hcount, chunkCvs_succ, hlast]
    have hparent : ∀ left right, (parentOutput left right keyWords flags).chainingValue =
        parentCv keyWords flags left right := fun _ _ => rfl
    exact foldl_stackOf hparent hne _

/-- However the input is cut, the stack neither runs empty nor over, and the output is that of the
tree over the chunks. -/
theorem exists_finalize (keyWords : ChainingValue) (flags : UInt32) (pieces : List (List UInt8))
    (hlen : pieces.flatten.length ≤ 2 ^ 64) :
    ∃ h, pieces.foldlM Hasher.update (.initInternal keyWords flags) = some h ∧
      ∀ outLen, h.finalize outLen =
        (treeOutput keyWords flags pieces.flatten).rootBytes outLen := by
  obtain ⟨h, hpieces, habs⟩ := (absorbed_init keyWords flags).foldlM
    (by rwa [List.length_nil, Nat.zero_add])
  exact ⟨h, hpieces, fun outLen => by rw [Hasher.finalize, habs.rootOutput_eq, List.nil_append]⟩

/-- An input of at most 64 bytes is one block: the chunk, and the root. -/
theorem treeOutput_block (hlen : data.length ≤ 64) :
    treeOutput keyWords flags data =
      ⟨keyWords, blockWords data, 0, UInt32.ofNat data.length,
        flags ||| chunkStart ||| chunkEnd⟩ := by
  have hroom : data.length ≤ ChunkState.buffer.room (.init keyWords (UInt64.ofNat 0) flags) := hlen
  rw [treeOutput, if_pos (hlen.trans (by decide)), chunkAt, ChunkState.update_of_fits hroom]
  simp only [ChunkState.output, ChunkState.copy, ChunkState.init, ChunkState.startFlag,
    List.nil_append, List.take_of_length_le hlen]
  rfl

theorem rootBytes_block (hlen : data.length ≤ 64) :
    (treeOutput iv 0 data).rootBytes 32 = hashBlock data := by
  have hflags : (0 : UInt32) ||| chunkStart ||| chunkEnd ||| root =
      chunkStart ||| chunkEnd ||| root := by decide
  rw [treeOutput_block hlen, Output.rootBytes, Output.rootBytesFrom, dif_neg (by decide),
    Output.rootBytesFrom, dif_pos rfl, List.append_nil, Output.streamBlock, hflags, hashBlock,
    bytesOfWords]
  generalize (compress iv (blockWords data) 0 (UInt32.ofNat data.length)
    (chunkStart ||| chunkEnd ||| root)).toList = words
  have hword : ∀ w ∈ words, (LittleEndian.bytesOf 4 w.toNat).length = 4 := fun _ _ =>
    LittleEndian.length_bytesOf _ _
  exact take_flatMap hword 8

/-- Up to 64 bytes, in any pieces, the hash is that of one block. -/
theorem finalize_short (pieces : List (List UInt8)) (hlen : pieces.flatten.length ≤ 64) :
    ∃ h, pieces.foldlM Hasher.update .init = some h ∧
      h.finalize 32 = hashBlock pieces.flatten := by
  obtain ⟨h, hpieces, hfinal⟩ := exists_finalize iv 0 pieces (hlen.trans (by norm_num))
  exact ⟨h, hpieces, by rw [hfinal, rootBytes_block hlen]⟩

theorem finalize_short_abc :
    ∃ h, [[0x61], [], [0x62, 0x63]].foldlM Hasher.update .init = some h ∧
      h.finalize 32 = hashBlock [0x61, 0x62, 0x63] :=
  finalize_short [[0x61], [], [0x62, 0x63]] (by decide)

end Tree

/-! ### The functions of a tree -/

/-- `words_from_little_endian_bytes`, of 32 bytes -/
def wordsOf (d : Digest) : ChainingValue :=
  Vector.ofFn fun i => UInt32.ofNat (LittleEndian.value ((d.bytes.drop (i.val * 4)).take 4))

/-- The bytes of a chaining value. -/
def digestOf (cv : ChainingValue) : Digest where
  bytes := bytesOfWords cv.toList
  length_eq := by
    rw [bytesOfWords, List.length_flatMap]
    simp

theorem wordsOf_digestOf (cv : ChainingValue) : wordsOf (digestOf cv) = cv := by
  apply Vector.ext
  intro i hi
  have hword : ((bytesOfWords cv.toList).drop (i * 4)).take 4 =
      LittleEndian.bytesOf 4 cv[i].toNat :=
    take_drop_flatMap (fun _ _ => LittleEndian.length_bytesOf _ _) (by simpa using hi)
  rw [wordsOf, Vector.getElem_ofFn]
  dsimp only [digestOf]
  have hlt : cv[i].toNat < 256 ^ 4 := cv[i].toNat_lt
  rw [hword, LittleEndian.value_bytesOf, Nat.mod_eq_of_lt hlt, UInt32.ofNat_toNat]

/-- `blake3_hasher_init_keyed` -/
def Hasher.initKeyed (key : Digest) : Hasher := .initInternal (wordsOf key) keyedHash

/-- `Blake3Ref::keyed_hash` -/
def keyedHashOf (key : Digest) (data : List UInt8) : Option Digest := do
  let h ← (Hasher.initKeyed key).update data
  return h.rootOutput.digest

theorem keyedHashOf_eq (key : Digest) {data : List UInt8} (hlen : data.length ≤ 2 ^ 64) :
    keyedHashOf key data = some (treeOutput (wordsOf key) keyedHash data).digest := by
  obtain ⟨h, hupdate, habs⟩ := (absorbed_init (wordsOf key) keyedHash).update
    (by rwa [List.length_nil, Nat.zero_add] : ([] : List UInt8).length + data.length ≤ 2 ^ 64)
  rw [keyedHashOf, Hasher.initKeyed, hupdate, ← List.nil_append data, ← habs.rootOutput_eq]
  rfl

end PropMiner.Merkle.Reference

namespace PropMiner.Merkle

open PropMiner.Semantics PropMiner.Semantics.TreeFold Reference

/-- The functions of `hasher.rs`: a chunk with its counter, a parent below the root, the root. -/
def Blake3Hasher.keyed (key : Digest) : Blake3Hasher where
  hash data := (keyedHashOf key data).getD default
  chunkCv bytes i := digestOf (chunkAt (wordsOf key) Blake3.keyedHash i bytes).output.chainingValue
  parentCv left right :=
    digestOf (Reference.parentCv (wordsOf key) Blake3.keyedHash (wordsOf left) (wordsOf right))
  rootCv left right :=
    (parentOutput (wordsOf left) (wordsOf right) (wordsOf key) Blake3.keyedHash).digest

theorem hashChunks_keyed (key : Digest) (data : List UInt8) :
    (Blake3Hasher.keyed key).hashChunks data =
      (chunkCvs (wordsOf key) Blake3.keyedHash data (numChunks data.length)).map digestOf := by
  rw [Blake3Hasher.hashChunks_eq, chunkCvs, List.map_map]
  rfl

/-- The root of the tree, as the hasher computes it. -/
theorem root_keyed (key : Digest) {data : List UInt8} (hne : data ≠ [])
    (hlen : data.length ≤ 2 ^ 64) :
    (MerkleTree.new (.keyed key) data).root =
      .ok (treeOutput (wordsOf key) Blake3.keyedHash data).digest := by
  by_cases hone : data.length ≤ chunkLen
  · have hhash : (Blake3Hasher.keyed key).hash data =
        (treeOutput (wordsOf key) Blake3.keyedHash data).digest := by
      dsimp only [Blake3Hasher.keyed]
      rw [keyedHashOf_eq key hlen, Option.getD_some]
    rw [MerkleTree.new, if_neg (by simpa using hne), if_pos hone, ← hhash]
    rfl
  · have htwo :
        2 ≤ (chunkCvs (wordsOf key) Blake3.keyedHash data (numChunks data.length)).length := by
      rw [length_chunkCvs]
      exact MerkleTree.two_le_numChunks (by omega)
    have hparent : ∀ left right, digestOf (parentCv (wordsOf key) Blake3.keyedHash left right) =
        (Blake3Hasher.keyed key).parentCv (digestOf left) (digestOf right) := by
      intro left right
      dsimp only [Blake3Hasher.keyed]
      rw [wordsOf_digestOf, wordsOf_digestOf]
    have hroot : ∀ left right,
        (parentOutput left right (wordsOf key) Blake3.keyedHash).digest =
          (Blake3Hasher.keyed key).rootCv (digestOf left) (digestOf right) := by
      intro left right
      dsimp only [Blake3Hasher.keyed]
      rw [wordsOf_digestOf, wordsOf_digestOf]
    rw [MerkleTree.root_new _ (by omega), hashChunks_keyed, Blake3Hasher.treeRoot,
      rootFold_map hparent hroot htwo, treeOutput, if_neg hone]

/-- The root of the tree is the keyed hash of the data, read in any pieces. -/
theorem root_eq_keyed_hash (key : Digest) (pieces : List (List UInt8))
    (hne : pieces.flatten ≠ []) (hlen : pieces.flatten.length ≤ 2 ^ 64) :
    ∃ h, pieces.foldlM Hasher.update (.initKeyed key) = some h ∧
      ∃ root, (MerkleTree.new (.keyed key) pieces.flatten).root = .ok root ∧
        h.finalize 32 = root.bytes := by
  obtain ⟨h, hpieces, hfinal⟩ := exists_finalize (wordsOf key) Blake3.keyedHash pieces hlen
  exact ⟨h, hpieces, _, root_keyed key hne hlen, hfinal 32⟩

theorem root_eq_keyed_hash_pieces :
    ∃ h, [List.replicate 1500 1, [], List.replicate 1500 2].foldlM Hasher.update
        (.initKeyed (.fill 0)) = some h ∧
      ∃ root, (MerkleTree.new (.keyed (.fill 0))
          [List.replicate 1500 1, [], List.replicate 1500 2].flatten).root = .ok root ∧
        h.finalize 32 = root.bytes := by
  have hlength : [List.replicate 1500 (1 : UInt8), [], List.replicate 1500 2].flatten.length =
      3000 := by
    rw [List.length_flatten]
    simp only [List.map_cons, List.map_nil, List.length_replicate]
    rfl
  refine root_eq_keyed_hash (.fill 0) _ ?_ ?_
  · rw [← List.length_pos_iff, hlength]
    decide
  · rw [hlength]
    decide

end PropMiner.Merkle
