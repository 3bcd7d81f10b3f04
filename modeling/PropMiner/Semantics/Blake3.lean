import PropMiner.Semantics.LittleEndian

/-!
# BLAKE3 of a single block

The compression function of BLAKE3 on sixteen 32-bit words, and the hash of an input that fits
into one block: the block is the first and the last one of its chunk, and the root of the tree.

## Main definitions

* `g`, `roundFunction`, `permute`, `compress` — the compression
* `blockWords`, `hashBlock` — the hash of up to 64 bytes

## Main results

* `permute_words`, `roundFunction_words` — a permutation and a round, written out
* `compress_words` — the words of the hash
-/

set_option autoImplicit false

namespace PropMiner.Semantics.Blake3

/-- Sixteen words: a state or a message block. -/
abbrev Block := Vector UInt32 16

scoped instance blockSize_neZero : NeZero 16 := ⟨by decide⟩

theorem index_lt (a : Fin 16) : a.val < 16 := a.isLt

def iv : Vector UInt32 8 :=
  #v[0x6A09E667, 0xBB67AE85, 0x3C6EF372, 0xA54FF53A, 0x510E527F, 0x9B05688C, 0x1F83D9AB, 0x5BE0CD19]

def msgPermutation : Vector (Fin 16) 16 := #v[2, 6, 3, 10, 7, 0, 4, 13, 1, 11, 12, 5, 9, 14, 15, 8]

def chunkStart : UInt32 := (1 : UInt32) <<< 0

def chunkEnd : UInt32 := (1 : UInt32) <<< 1

def parent : UInt32 := (1 : UInt32) <<< 2

def root : UInt32 := (1 : UInt32) <<< 3

def keyedHash : UInt32 := (1 : UInt32) <<< 4

def rotateRight (x n : UInt32) : UInt32 := (x >>> n) ||| (x <<< (32 - n))

/-- The mixing function, on four words of the state in place. -/
def g (state : Block) (a b c d : Fin 16) (mx my : UInt32) : Block :=
  let state := state.set a (state.get a + state.get b + mx) (index_lt a)
  let state := state.set d (rotateRight (state.get d ^^^ state.get a) 16) (index_lt d)
  let state := state.set c (state.get c + state.get d) (index_lt c)
  let state := state.set b (rotateRight (state.get b ^^^ state.get c) 12) (index_lt b)
  let state := state.set a (state.get a + state.get b + my) (index_lt a)
  let state := state.set d (rotateRight (state.get d ^^^ state.get a) 8) (index_lt d)
  let state := state.set c (state.get c + state.get d) (index_lt c)
  state.set b (rotateRight (state.get b ^^^ state.get c) 7) (index_lt b)

def roundFunction (state m : Block) : Block :=
  -- the columns
  let state := g state 0 4 8 12 (m.get 0) (m.get 1)
  let state := g state 1 5 9 13 (m.get 2) (m.get 3)
  let state := g state 2 6 10 14 (m.get 4) (m.get 5)
  let state := g state 3 7 11 15 (m.get 6) (m.get 7)
  -- the diagonals
  let state := g state 0 5 10 15 (m.get 8) (m.get 9)
  let state := g state 1 6 11 12 (m.get 10) (m.get 11)
  let state := g state 2 7 8 13 (m.get 12) (m.get 13)
  g state 3 4 9 14 (m.get 14) (m.get 15)

def permute (m : Block) : Block := Vector.ofFn fun i => m.get (msgPermutation.get i)

/-- The state before the first round. -/
def initialState (cv : Vector UInt32 8) (counter : UInt64) (blockLen flags : UInt32) : Block :=
  #v[cv[0], cv[1], cv[2], cv[3], cv[4], cv[5], cv[6], cv[7], iv[0], iv[1], iv[2], iv[3],
    counter.toUInt32, (counter >>> 32).toUInt32, blockLen, flags]

/-- The seven rounds. -/
def rounds (state block : Block) : Block :=
  let state := roundFunction state block
  let block := permute block
  let state := roundFunction state block
  let block := permute block
  let state := roundFunction state block
  let block := permute block
  let state := roundFunction state block
  let block := permute block
  let state := roundFunction state block
  let block := permute block
  let state := roundFunction state block
  let block := permute block
  roundFunction state block

def compress (cv : Vector UInt32 8) (block : Block) (counter : UInt64) (blockLen flags : UInt32) :
    Block :=
  let state := rounds (initialState cv counter blockLen flags) block
  Vector.ofFn fun i =>
    if h : i.val < 8 then state[i.val] ^^^ state[i.val + 8] else state[i.val] ^^^ cv[i.val - 8]

/-- A word of the first half that comes out. -/
def outputWord (state : Block) (i : Fin 8) : UInt32 := state[i.val] ^^^ state[i.val + 8]

/-- The words of up to 64 bytes, least significant byte first. -/
def blockWords (input : List UInt8) : Block :=
  Vector.ofFn fun i => UInt32.ofNat (LittleEndian.value ((input.drop (4 * i.val)).take 4))

/-- The hash of an input of at most 64 bytes. -/
def hashBlock (input : List UInt8) : List UInt8 :=
  let out := compress iv (blockWords input) 0 (UInt32.ofNat input.length)
    (chunkStart ||| chunkEnd ||| root)
  (out.toList.take 8).flatMap fun w => LittleEndian.bytesOf 4 w.toNat

-- the three letters `abc`
example : hashBlock [0x61, 0x62, 0x63] =
    [0x64, 0x37, 0xb3, 0xac, 0x38, 0x46, 0x51, 0x33, 0xff, 0xb6, 0x3b, 0x75, 0x27, 0x3a, 0x8d, 0xb5,
      0x48, 0xc5, 0x58, 0x46, 0x5d, 0x79, 0xdb, 0x03, 0xfd, 0x35, 0x9c, 0x6c, 0xd5, 0xbd, 0x9d,
      0x85] := by
  decide +kernel

/-- One permutation of the message. -/
theorem permute_words (m0 m1 m2 m3 m4 m5 m6 m7 m8 m9 m10 m11 m12 m13 m14 m15 : UInt32) :
    permute #v[m0, m1, m2, m3, m4, m5, m6, m7, m8, m9, m10, m11, m12, m13, m14, m15] =
      #v[m2, m6, m3, m10, m7, m0, m4, m13, m1, m11, m12, m5, m9, m14, m15, m8] := by
  rw [← Vector.toList_inj, permute, Vector.toList_ofFn]
  rfl

/-- One round on a message written out. -/
theorem roundFunction_words (state : Block)
    (m0 m1 m2 m3 m4 m5 m6 m7 m8 m9 m10 m11 m12 m13 m14 m15 : UInt32) :
    roundFunction state
        #v[m0, m1, m2, m3, m4, m5, m6, m7, m8, m9, m10, m11, m12, m13, m14, m15] =
      g (g (g (g (g (g (g (g state 0 4 8 12 m0 m1) 1 5 9 13 m2 m3) 2 6 10 14 m4 m5) 3 7 11 15 m6 m7)
        0 5 10 15 m8 m9) 1 6 11 12 m10 m11) 2 7 8 13 m12 m13) 3 4 9 14 m14 m15 :=
  rfl

/-- The first eight words that come out. -/
theorem compress_words (cv : Vector UInt32 8) (block : Block) (counter : UInt64)
    (blockLen flags : UInt32) :
    (compress cv block counter blockLen flags).toList.take 8 =
      (List.finRange 8).map
        (outputWord (rounds (initialState cv counter blockLen flags) block)) := by
  unfold compress
  generalize rounds (initialState cv counter blockLen flags) block = state
  rw [Vector.toList_ofFn]
  rfl

theorem length_hashBlock (input : List UInt8) : (hashBlock input).length = 32 := by
  simp only [hashBlock, compress_words, List.length_flatMap, List.map_map, Function.comp_def,
    LittleEndian.length_bytesOf, List.map_const', List.length_finRange, List.sum_replicate]
  rfl

end PropMiner.Semantics.Blake3
