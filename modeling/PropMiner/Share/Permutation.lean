import PropMiner.Semantics.Checked
import PropMiner.Share.Noise
import Mathlib.Data.List.Forall2

/-!
# The permutation matrices, write by write

`generate_permutation_matrix` fills a vector of `k` pairs in chunks of eight, the last of which may
be shorter, and `apply_sparse_permutation_into` reads a row at the places of the pairs. What has no
meaning in the source has no result here: a product of the chunk number that is no `int`, and every
access behind the end of the vector, of a hash or of a row.

## Main definitions

* `Library.fillPermutationMatrix` — the vector as it is filled
* `applySparsePermutationInto` — the reads of one row

## Main results

* `Library.fillPermutationMatrix_eq` — the vector is `generatePermutationMatrix`
* `applySparsePermutationInto_eq` — all reads are in range if the pairs are in the row
* `Library.fillPermutationMatrix_exact` — the pairs are good for every row of the rank's length
-/

set_option autoImplicit false

namespace PropMiner.Share

open PropMiner.Semantics PropMiner.Semantics.Checked

/-! ### The pairs -/

/-- The word at `hash.data() + j * BYTES_PER_LINE`. -/
def hashLine (hash : Bytes32) (j : ℕ) : Option UInt32 :=
  if j * 4 + 4 ≤ 32 then
    some (UInt32.ofNat (LittleEndian.value ((hash.bytes.drop (j * 4)).take 4)))
  else none

/-- The pair that a random word stands for. -/
def pairOf (noiseRank : ℕ) (rand : UInt32) : PermutationPair :=
  let rankMask := UInt32.ofInt ((noiseRank : ℤ) - 1)
  let first := rand &&& rankMask
  ⟨first, first ^^^ (1 + mulHiU32 (UInt32.ofInt ((noiseRank : ℤ) - 1)) rand)⟩

/-- The inner loop: `len` pairs of a chunk. -/
def fillChunk (hash : Bytes32) (noiseRank base len : ℕ) (result : List PermutationPair) :
    Option (List PermutationPair) :=
  (List.range len).foldlM
    (fun result j =>
      (hashLine hash j).bind fun rand => store result (base + j) (pairOf noiseRank rand))
    result

namespace Library

variable (L : Library) (seed key : Bytes32)

/-- The outer loop, from a chunk on. -/
def fillChunks (k noiseRank chunk : ℕ) (result : List PermutationPair) :
    Option (List PermutationPair) :=
  -- the product is an `int`
  if chunk * 8 < 2 ^ 31 then
    if chunk * 8 < k then
      let hash := L.getRandomHash (UInt32.ofNat chunk) seed key 1
      let len := min 8 (k - chunk * 8)
      (fillChunk hash noiseRank (chunk * 8) len result).bind (fillChunks k noiseRank (chunk + 1))
    else some result
  else none
termination_by k - chunk * 8

/-- `generate_permutation_matrix`: the vector begins as zeros. -/
def fillPermutationMatrix (k noiseRank : ℕ) : Option (List PermutationPair) :=
  L.fillChunks seed key k noiseRank 0 (List.replicate k ⟨0, 0⟩)

end Library

/-- `apply_sparse_permutation_into`: the difference is one of `int`s and is cut to a byte. -/
def applySparsePermutationInto (perm : List PermutationPair) (row : List Int8) (len : ℕ) :
    Option (List Int8) :=
  (List.range len).mapM fun i =>
    perm[i]?.bind fun p => row[p.first.toNat]?.bind fun x => row[p.second.toNat]?.map fun y =>
      Int8.ofInt (x.toInt - y.toInt)

/-! ### The loops -/

section Loops

variable {L : Library} {seed key : Bytes32} {k noiseRank : ℕ}

theorem hashLine_eq (hash : Bytes32) {j : ℕ} (hj : j < 8) : hashLine hash j =
    some (UInt32.ofNat (LittleEndian.value ((hash.bytes.drop (j * 4)).take 4))) :=
  if_pos (by omega)

/-- A pair is the one of its column. -/
theorem pairOf_eq_permutationPair (hrank : 1 ≤ noiseRank) (chunk : ℕ) {j : ℕ} (hj : j < 8) :
    pairOf noiseRank (UInt32.ofNat (LittleEndian.value
      (((L.getRandomHash (UInt32.ofNat chunk) seed key 1).bytes.drop (j * 4)).take 4))) =
        L.permutationPair seed key noiseRank (chunk * 8 + j) := by
  have hmask : UInt32.ofInt ((noiseRank : ℤ) - 1) = UInt32.ofNat (noiseRank - 1) := by
    rw [← Words.ofInt_natCast, Nat.cast_sub hrank, Nat.cast_one]
  have hdiv : (chunk * 8 + j) / 8 = chunk := by omega
  have hmod : (chunk * 8 + j) % 8 = j := by omega
  rw [pairOf, Library.permutationPair, hmask, hdiv, hmod]

/-- One chunk of a vector that is filled up to it. -/
theorem filled_fillChunk (hrank : 1 ≤ noiseRank) {chunk len : ℕ} {result : List PermutationPair}
    (h : Filled (L.permutationPair seed key noiseRank) (chunk * 8) result) (hlen : len ≤ 8)
    (hfits : chunk * 8 + len ≤ result.length) :
    ∃ result', fillChunk (L.getRandomHash (UInt32.ofNat chunk) seed key 1) noiseRank (chunk * 8)
      len result = some result' ∧ result'.length = result.length ∧
        Filled (L.permutationPair seed key noiseRank) (chunk * 8 + len) result' := by
  refine h.foldlM_store hfits fun result j hj => ?_
  have hj' : j < 8 := lt_of_lt_of_le hj hlen
  rw [hashLine_eq _ hj', Option.bind_some, pairOf_eq_permutationPair hrank chunk hj']

/-- The outer loop fills the vector up. -/
theorem filled_fillChunks (hrank : 1 ≤ noiseRank) (hk : k ≤ 2 ^ 31 - 8) {chunk : ℕ}
    {result : List PermutationPair} (hlength : result.length = k)
    (h : Filled (L.permutationPair seed key noiseRank) (min (chunk * 8) k) result)
    (hchunk : chunk * 8 < k + 8) :
    ∃ result', L.fillChunks seed key k noiseRank chunk result = some result' ∧
      result'.length = k ∧ Filled (L.permutationPair seed key noiseRank) k result' := by
  -- by induction on what is left
  induction hleft : k - chunk * 8 using Nat.strong_induction_on generalizing chunk result with
  | _ left ih =>
    rw [Library.fillChunks, if_pos (by omega)]
    split_ifs with hmore
    · rw [min_eq_left hmore.le] at h
      obtain ⟨result', hrun, hlength', hfilled⟩ :=
        filled_fillChunk hrank h (min_le_left 8 (k - chunk * 8)) (by omega)
      -- a chunk that is shorter than eight is the last one
      have hnext : chunk * 8 + min 8 (k - chunk * 8) = min ((chunk + 1) * 8) k := by omega
      rw [hnext] at hfilled
      dsimp only
      rw [hrun, Option.bind_some]
      exact ih (k - (chunk + 1) * 8) (by omega) (hlength'.trans hlength) hfilled (by omega) rfl
    · rw [min_eq_right (not_lt.mp hmore)] at h
      exact ⟨result, rfl, hlength, h⟩

/-- The vector as it is filled is the matrix. -/
theorem Library.fillPermutationMatrix_eq (L : Library) (seed key : Bytes32) (hrank : 1 ≤ noiseRank)
    (hk : k ≤ 2 ^ 31 - 8) :
    L.fillPermutationMatrix seed key k noiseRank =
      some (L.generatePermutationMatrix seed key k noiseRank) := by
  have hzero : Filled (L.permutationPair seed key noiseRank) (min (0 * 8) k)
      (List.replicate k ⟨0, 0⟩) := by
    rw [Nat.zero_mul, Nat.zero_min]
    exact filled_zero _ _
  obtain ⟨result, hrun, hlength, hfilled⟩ :=
    filled_fillChunks hrank hk (List.length_replicate) hzero (by omega)
  subst hlength
  rw [fillPermutationMatrix, hrun, hfilled.eq_map_range, generatePermutationMatrix_eq,
    List.length_map, List.length_range]

theorem applySparsePermutationInto_eq {perm : List PermutationPair} {row : List Int8} {len : ℕ}
    (hlen : len ≤ perm.length)
    (hpairs : ∀ p ∈ perm, p.first.toNat < row.length ∧ p.second.toNat < row.length) :
    applySparsePermutationInto perm row len =
      some (applySparsePermutation (perm.take len) row) := by
  have hround : ∀ i ∈ List.range len, (perm[i]?.bind fun p => row[p.first.toNat]?.bind fun x =>
      row[p.second.toNat]?.map fun y => Int8.ofInt (x.toInt - y.toInt)) =
        some (row.getD (perm.getD i ⟨0, 0⟩).first.toNat 0 -
          row.getD (perm.getD i ⟨0, 0⟩).second.toNat 0) := by
    intro i hi
    have hi' : i < perm.length := lt_of_lt_of_le (List.mem_range.mp hi) hlen
    obtain ⟨hfirst, hsecond⟩ := hpairs _ (List.getElem_mem hi')
    rw [List.getD_eq_getElem _ _ hi', List.getD_eq_getElem _ _ hfirst,
      List.getD_eq_getElem _ _ hsecond, List.getElem?_eq_getElem hi', Option.bind_some,
      List.getElem?_eq_getElem hfirst, Option.bind_some, List.getElem?_eq_getElem hsecond,
      Option.map_some, Int8.ofInt_sub, Int8.ofInt_toInt, Int8.ofInt_toInt]
  have htake : perm.take len = (List.range len).map fun i => perm.getD i ⟨0, 0⟩ := by
    apply List.ext_getElem
    · rw [List.length_take, min_eq_left hlen, List.length_map, List.length_range]
    · intro i hi _
      rw [List.getElem_take, List.getElem_map, List.getElem_range, List.getD_eq_getElem]
  rw [applySparsePermutationInto, mapM_eq_some hround, applySparsePermutation, htake,
    List.map_map]
  rfl

end Loops

/-! ### Rows -/

/-- An entry that is stored for a pair: both reads are in the row, and the difference is exact. -/
def ExactDifference (row : List Int8) (p : PermutationPair) (z : Int8) : Prop :=
  ∃ x y, row[p.first.toNat]? = some x ∧ row[p.second.toNat]? = some y ∧
    z.toInt = x.toInt - y.toInt ∧ -63 ≤ z.toInt ∧ z.toInt ≤ 63

theorem exactDifference {row : List Int8} (hrow : ∀ x ∈ row, -32 ≤ x.toInt ∧ x.toInt ≤ 31)
    {p : PermutationPair} (hfirst : p.first.toNat < row.length)
    (hsecond : p.second.toNat < row.length) :
    ExactDifference row p (row.getD p.first.toNat 0 - row.getD p.second.toNat 0) := by
  rw [List.getD_eq_getElem _ _ hfirst, List.getD_eq_getElem _ _ hsecond]
  obtain ⟨hlo, hhi⟩ := hrow _ (List.getElem_mem hfirst)
  obtain ⟨hlo', hhi'⟩ := hrow _ (List.getElem_mem hsecond)
  have hexact := toInt_sub_of_bounds hlo hhi hlo' hhi'
  exact ⟨_, _, List.getElem?_eq_getElem hfirst, List.getElem?_eq_getElem hsecond, hexact,
    by omega, by omega⟩

/-- All pairs are filled in, and each is of two different positions below the rank. With them every
row of that length is read in range, and every difference of its entries is exact. -/
theorem Library.fillPermutationMatrix_exact (L : Library) (seed key : Bytes32) {k r : ℕ}
    (hk : k ≤ 2 ^ 30) (hpow : ∃ e, r = 2 ^ e) (hr : 2 ≤ r) (hr' : r ≤ 2 ^ 16) :
    ∃ perm, L.fillPermutationMatrix seed key k r = some perm ∧ perm.length = k ∧
      (∀ p ∈ perm, p.first.toNat < r ∧ p.second.toNat < r ∧ p.first ≠ p.second) ∧
      ∀ row : List Int8, row.length = r → (∀ x ∈ row, -32 ≤ x.toInt ∧ x.toInt ≤ 31) →
        ∀ len ≤ k, ∃ out, applySparsePermutationInto perm row len = some out ∧
          List.Forall₂ (ExactDifference row) (perm.take len) out := by
  obtain ⟨e, rfl⟩ := hpow
  have he : 0 < e := by
    rcases Nat.eq_zero_or_pos e with rfl | he
    · exact absurd hr (by norm_num)
    · exact he
  have he' : e ≤ 16 := (Nat.pow_le_pow_iff_right (by norm_num)).mp hr'
  have hpairs : ∀ p ∈ L.generatePermutationMatrix seed key k (2 ^ e),
      p.first.toNat < 2 ^ e ∧ p.second.toNat < 2 ^ e ∧ p.first ≠ p.second := by
    intro p hp
    rw [generatePermutationMatrix_eq] at hp
    obtain ⟨l, -, rfl⟩ := List.mem_map.mp hp
    exact permutationPair_lt L seed key he (by omega) l
  have hlength : (L.generatePermutationMatrix seed key k (2 ^ e)).length = k := by
    rw [generatePermutationMatrix_eq, List.length_map, List.length_range]
  refine ⟨_, L.fillPermutationMatrix_eq seed key (by omega) (by omega), hlength, hpairs, ?_⟩
  intro row hrow hentries len hlen
  refine ⟨_, applySparsePermutationInto_eq (by omega) fun p hp => ?_, ?_⟩
  · rw [hrow]
    exact ⟨(hpairs p hp).1, (hpairs p hp).2.1⟩
  · rw [applySparsePermutation, List.forall₂_map_right_iff, List.forall₂_same]
    intro p hp
    obtain ⟨hfirst, hsecond, -⟩ := hpairs p (List.mem_of_mem_take hp)
    exact exactDifference hentries (hrow ▸ hfirst) (hrow ▸ hsecond)

/-- Nine pairs, the last one in a chunk of its own. -/
theorem fillPermutationMatrix_exact_echo :
    ∃ perm, echoLibrary.fillPermutationMatrix (.fill 1) (.fill 0) 9 4 = some perm ∧
      perm.length = 9 ∧ ∃ out, applySparsePermutationInto perm [-32, 31, 0, 5] 9 = some out ∧
        List.Forall₂ (ExactDifference [-32, 31, 0, 5]) (perm.take 9) out := by
  obtain ⟨perm, hfill, hlength, -, happly⟩ := echoLibrary.fillPermutationMatrix_exact (.fill 1)
    (.fill 0) (by norm_num : 9 ≤ 2 ^ 30) ⟨2, rfl⟩ (by norm_num : 2 ≤ 4) (by norm_num)
  exact ⟨perm, hfill, hlength, happly [-32, 31, 0, 5] rfl (by simp) 9 le_rfl⟩

end PropMiner.Share
