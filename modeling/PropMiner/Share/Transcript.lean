import PropMiner.Semantics.Slots
import PropMiner.Share.Noise
import Mathlib.Algebra.BigOperators.Group.List.Lemmas
import Mathlib.Algebra.Order.Ring.Abs
import Mathlib.Algebra.Order.Ring.Int

/-!
# The transcript of the claimed hash

The jackpot loop keeps an accumulator for every pair of a row and a column, adds to all of them
in each round, and folds the xor of all accumulators into one of sixteen words. Here the words are
computed again without accumulators: word `t` folds rounds `t`, `t + 16`, …, and each round takes
its dot products from the first position on.

The second half is about the GPU. Its main loop, as the test of the schedule models it, looks at
an accumulator before the tile that crosses a boundary is multiplied, and once more after the last
tile.

## Main definitions

* `transcriptAfter`, `accumulators` — the loop after some rounds, and what its accumulators hold
* `hostFold` — the fold into sixteen words
* `dot`, `directWord` — the direct definition
* `simulateV2Schedule` — the schedule of the GPU

## Main results

* `transcriptAfter_eq` — accumulators are dot products of prefixes
* `Library.claimedHash_eq_direct` — the claimed hash is that of the direct definition, and nothing
  overflows on the way
* `simulateV2Schedule_eq_hostFold` — both schedules fold the same
-/

set_option autoImplicit false

namespace PropMiner.Share

open PropMiner.Semantics

/-! ### Rounds -/

/-- What the sixteen words become when each round contributes one word. -/
def hostFold (X : ℕ → UInt32) (steps : ℕ) : List UInt32 :=
  Slots.fold 16 (fun m x => rotateLeft13 m ^^^ x) 0 X steps

/-- `xored` of a round. -/
def xorAll (tile : List (List ℤ)) : UInt32 :=
  tile.flatten.foldl (fun x acc => x ^^^ UInt32.ofInt acc) 0

/-- The dot products of all rows and columns over the first `n` positions. -/
def products (rows cols : List (List Int8 × List Int8)) (n : ℕ) : List (List ℤ) :=
  rows.map fun row => cols.map fun col => stepSum row.1 row.2 col.1 col.2 0 n

/-- The jackpot loop after `s` rounds. -/
def transcriptAfter (rows cols : List (List Int8 × List Int8)) (r s : ℕ) : Transcript :=
  (List.range s).foldl (Transcript.step rows cols r)
    ⟨rows.map fun _ => cols.map fun _ => 0, List.replicate 16 0⟩

/-- All that the accumulators hold in the course of the loop: in round `s`, after each of its
positions. -/
def accumulators (rows cols : List (List Int8 × List Int8)) (k r : ℕ) : List ℤ :=
  (List.range (k / r)).flatMap fun s =>
    (rows.zip (transcriptAfter rows cols r s).tile).flatMap fun (row, accs) =>
      (cols.zip accs).flatMap fun (col, acc) =>
        (List.range (r + 1)).map fun i => acc + stepSum row.1 row.2 col.1 col.2 (s * r) i

section Rounds

variable {rows cols : List (List Int8 × List Int8)} {k r : ℕ}

/-- A sum that is continued where it was left. -/
theorem stepSum_add (a na b nb : List Int8) (start len : ℕ) :
    stepSum a na b nb 0 start + stepSum a na b nb start len =
      stepSum a na b nb 0 (start + len) := by
  unfold stepSum
  rw [List.range_add, List.map_append, List.sum_append, List.map_map]
  simp only [Nat.zero_add, Function.comp_def]

theorem zip_map_self {α β : Type*} (l : List α) (g : α → β) :
    l.zip (l.map g) = l.map fun x => (x, g x) := by
  simpa using List.zip_map' (f := id) (g := g) (l := l)

theorem zip_map_left_self {α β : Type*} (l : List α) (g : α → β) :
    (l.map g).zip l = l.map fun x => (g x, x) := by
  simpa using List.zip_map' (f := g) (g := id) (l := l)

/-- One round, on accumulators that are dot products. -/
theorem step_products (s : ℕ) (msg : List UInt32) :
    Transcript.step rows cols r ⟨products rows cols (s * r), msg⟩ s =
      ⟨products rows cols ((s + 1) * r), Slots.step 16 (fun m x => rotateLeft13 m ^^^ x) 0 msg s
        (xorAll (products rows cols ((s + 1) * r)))⟩ := by
  have htile : ((rows.zip (products rows cols (s * r))).map fun (row, accs) =>
      (cols.zip accs).map fun (col, acc) =>
        acc + stepSum row.1 row.2 col.1 col.2 (s * r) r) = products rows cols ((s + 1) * r) := by
    unfold products
    rw [zip_map_self, List.map_map]
    apply List.map_congr_left
    intro row _
    dsimp only [Function.comp_apply]
    rw [zip_map_self, List.map_map]
    apply List.map_congr_left
    intro col _
    dsimp only [Function.comp_apply]
    rw [stepSum_add, Nat.succ_mul]
  unfold Transcript.step
  simp only [htile]
  rfl

/-- The accumulators after `s` rounds are the dot products of `s * r` positions, and the words are
those that the rounds contribute. -/
theorem transcriptAfter_eq (rows cols : List (List Int8 × List Int8)) (r s : ℕ) :
    transcriptAfter rows cols r s = ⟨products rows cols (s * r),
      hostFold (fun s => xorAll (products rows cols ((s + 1) * r))) s⟩ := by
  induction s with
  | zero =>
    rw [Nat.zero_mul]
    rfl
  | succ s ih =>
    have hlast : transcriptAfter rows cols r (s + 1) =
        Transcript.step rows cols r (transcriptAfter rows cols r s) s := by
      rw [transcriptAfter, List.range_succ, List.foldl_append]
      rfl
    rw [hlast, ih, step_products, hostFold, hostFold, Slots.fold_succ]

theorem jackpotTranscript_msg (rows cols : List (List Int8 × List Int8)) (k r : ℕ) :
    (jackpotTranscript rows cols k r).msg =
      hostFold (fun s => xorAll (products rows cols ((s + 1) * r))) (k / r) :=
  congrArg Transcript.msg (transcriptAfter_eq rows cols r (k / r))

/-- Whatever an accumulator holds is a dot product of a prefix. -/
theorem mem_accumulators {x : ℤ} (hx : x ∈ accumulators rows cols k r) :
    ∃ row ∈ rows, ∃ col ∈ cols, ∃ n ≤ k, x = stepSum row.1 row.2 col.1 col.2 0 n := by
  obtain ⟨s, hs, hx⟩ := List.mem_flatMap.mp hx
  rw [transcriptAfter_eq, products, zip_map_self, List.flatMap_map] at hx
  obtain ⟨row, hrow, hx⟩ := List.mem_flatMap.mp hx
  dsimp only at hx
  rw [zip_map_self, List.flatMap_map] at hx
  obtain ⟨col, hcol, hx⟩ := List.mem_flatMap.mp hx
  obtain ⟨i, hi, rfl⟩ := List.mem_map.mp hx
  refine ⟨row, hrow, col, hcol, s * r + i, ?_, stepSum_add _ _ _ _ _ _⟩
  -- round `s` ends at position `(s + 1) * r`
  have hround : (s + 1) * r ≤ k :=
    (Nat.mul_le_mul_right r (List.mem_range.mp hs)).trans (Nat.div_mul_le_self k r)
  rw [Nat.succ_mul] at hround
  exact (Nat.add_le_add_left (Nat.lt_succ_iff.mp (List.mem_range.mp hi)) _).trans hround

end Rounds

/-! ### The direct definition -/

/-- The dot product over the first `n` positions. -/
def dot (a b : ℕ → ℤ) (n : ℕ) : ℤ := ((List.range n).map fun l => a l * b l).sum

/-- What a round contributes: the xor of all dot products. -/
def stepWord (A B : List (ℕ → ℤ)) (n : ℕ) : UInt32 :=
  (A.flatMap fun a => B.map fun b => dot a b n).foldl (fun x p => x ^^^ UInt32.ofInt p) 0

/-- Word `t` of the message: rounds `t`, `t + 16`, … -/
def directWord (A B : List (ℕ → ℤ)) (k r t : ℕ) : UInt32 :=
  ((List.range (k / r)).filter (· % 16 = t)).foldl
    (fun m s => rotateLeft13 m ^^^ stepWord A B ((s + 1) * r)) 0

section Direct

variable {a b : ℕ → ℤ} {n : ℕ}

theorem dot_succ (a b : ℕ → ℤ) (n : ℕ) : dot a b (n + 1) = dot a b n + a n * b n := by
  simp [dot, List.range_succ]

theorem abs_dot_le {c : ℤ} (ha : ∀ l < n, |a l| ≤ c) (hb : ∀ l < n, |b l| ≤ c) :
    |dot a b n| ≤ n * (c * c) := by
  induction n with
  | zero => simp [dot]
  | succ n ih =>
    have hlast : |a n * b n| ≤ c * c := by
      rw [abs_mul]
      exact mul_le_mul (ha n n.lt_succ_self) (hb n n.lt_succ_self) (abs_nonneg _)
        ((abs_nonneg _).trans (ha n n.lt_succ_self))
    have hfirst := ih (fun l hl => ha l (Nat.lt_succ_of_lt hl)) fun l hl =>
      hb l (Nat.lt_succ_of_lt hl)
    rw [dot_succ, Nat.cast_succ, add_mul, one_mul]
    exact (abs_add_le _ _).trans (add_le_add hfirst hlast)

/-- Entry by entry. -/
def Agree (k : ℕ) (row : List Int8 × List Int8) (a : ℕ → ℤ) : Prop :=
  ∀ l < k, (row.1.getD l 0).toInt + (row.2.getD l 0).toInt = a l

theorem stepSum_eq_dot {row col : List Int8 × List Int8} {k : ℕ} (hrow : Agree k row a)
    (hcol : Agree k col b) (hn : n ≤ k) : stepSum row.1 row.2 col.1 col.2 0 n = dot a b n := by
  unfold stepSum dot
  congr 1
  apply List.map_congr_left
  intro l hl
  have hlt : l < k := (List.mem_range.mp hl).trans_le hn
  rw [Nat.zero_add, hrow l hlt, hcol l hlt]

/-- The words of the loop, from rows and columns as functions. -/
theorem msg_eq_directWord {ι κ : Type*} {is : List ι} {js : List κ}
    {row : ι → List Int8 × List Int8} {col : κ → List Int8 × List Int8} {A : ι → ℕ → ℤ}
    {B : κ → ℕ → ℤ} {k r : ℕ} (hrow : ∀ i ∈ is, Agree k (row i) (A i))
    (hcol : ∀ j ∈ js, Agree k (col j) (B j)) :
    (jackpotTranscript (is.map row) (js.map col) k r).msg =
      (List.range 16).map (directWord (is.map A) (js.map B) k r) := by
  have hround : ∀ s < k / r, xorAll (products (is.map row) (js.map col) ((s + 1) * r)) =
      stepWord (is.map A) (js.map B) ((s + 1) * r) := by
    intro s hs
    have hle : (s + 1) * r ≤ k := (Nat.mul_le_mul_right r hs).trans (Nat.div_mul_le_self k r)
    unfold xorAll stepWord products
    congr 1
    rw [List.map_map, ← List.flatMap_def, List.flatMap_map]
    apply List.flatMap_congr
    intro i hi
    rw [Function.comp_apply, List.map_map, List.map_map]
    apply List.map_congr_left
    intro j hj
    exact stepSum_eq_dot (hrow i hi) (hcol j hj) hle
  rw [jackpotTranscript_msg, hostFold, Slots.fold_congr hround, Slots.fold_eq (by norm_num)]
  rfl

end Direct

/-! ### The claimed hash -/

/-- An opened byte, or the zero behind the end. -/
theorem abs_getD_le {bs : List UInt8} (h : ∀ b ∈ bs, |b.toInt8.toInt| ≤ 63) (i : ℕ) :
    |(bs.getD i 0).toInt8.toInt| ≤ 63 := by
  by_cases hi : i < bs.length
  · rw [List.getD_eq_getElem _ _ hi]
    exact h _ (List.getElem_mem hi)
  · rw [List.getD_eq_default _ _ (Nat.le_of_not_lt hi)]
    decide

namespace Library

variable (L : Library)

/-- The opened rows of `A` and their noise. -/
def noisyRows (cfg : MiningConfig) (share : ShareFound) (aNoiseSeed : Bytes32) :
    List (List Int8 × List Int8) :=
  ((List.range share.aRowIndices.length).map (secretARow share.aSlice cfg.k.val)).zip
    ((L.generateUniformRandomMatrix seedLabelA aNoiseSeed share.aRowIndices cfg.r.val).map
      (applySparsePermutation
        (L.generatePermutationMatrix seedLabelA aNoiseSeed cfg.k.val cfg.r.val)))

/-- The opened columns of `B` and their noise. -/
def noisyCols (cfg : MiningConfig) (columns : List (List UInt8)) (bColIndices : List UInt32)
    (bNoiseSeed : Bytes32) : List (List Int8 × List Int8) :=
  (columns.map (List.map UInt8.toInt8)).zip
    ((L.generateUniformRandomMatrix seedLabelB bNoiseSeed bColIndices cfg.r.val).map
      (applySparsePermutation
        (L.generatePermutationMatrix seedLabelB bNoiseSeed cfg.k.val cfg.r.val)))

theorem computeClaimedHash_eq (cfg : MiningConfig) (share : ShareFound)
    (jobKey hashA hashB : Bytes32) :
    L.computeClaimedHash cfg share jobKey hashA hashB =
      (L.secretB cfg share.job.bSeed share.bColIndices).map fun columns =>
        L.jackpotHash (jackpotTranscript
          (L.noisyRows cfg share (L.deriveNoiseSeeds jobKey hashA hashB).2)
          (L.noisyCols cfg columns share.bColIndices (L.deriveNoiseSeeds jobKey hashA hashB).1)
          cfg.k.val cfg.r.val).msg (L.deriveNoiseSeeds jobKey hashA hashB).2 := by
  unfold computeClaimedHash
  cases L.secretB cfg share.job.bSeed share.bColIndices with
  | error _ => rfl
  | ok columns => rfl

/-- Row `u` with its noise, as integers. -/
def noisedRow (cfg : MiningConfig) (share : ShareFound) (aNoiseSeed : Bytes32) (u : ℕ × UInt32)
    (l : ℕ) : ℤ :=
  (share.aSlice.getD (u.1 * cfg.k.val + l) 0).toInt8.toInt +
    L.noiseEntry seedLabelA aNoiseSeed cfg.r.val u.2 l

/-- A column with its noise, as integers. -/
def noisedCol (cfg : MiningConfig) (bNoiseSeed : Bytes32) (v : List UInt8 × UInt32) (l : ℕ) : ℤ :=
  (v.1.getD l 0).toInt8.toInt + L.noiseEntry seedLabelB bNoiseSeed cfg.r.val v.2 l

/-- The direct definition of the sixteen words. -/
def directWords (cfg : MiningConfig) (share : ShareFound) (columns : List (List UInt8))
    (bNoiseSeed aNoiseSeed : Bytes32) : List UInt32 :=
  (List.range 16).map (directWord
    (((List.range share.aRowIndices.length).zip share.aRowIndices).map
      (L.noisedRow cfg share aNoiseSeed))
    ((columns.zip share.bColIndices).map (L.noisedCol cfg bNoiseSeed)) cfg.k.val cfg.r.val)

section

variable {cfg : MiningConfig} {share : ShareFound} {columns : List (List UInt8)} {seed : Bytes32}
  {e : ℕ}

theorem agree_noisedRow (hr : cfg.r.val = 2 ^ e) (he : 0 < e) (he' : e < 32) {u : ℕ × UInt32}
    (hindex : (u.2.toNat + 1) * 2 ^ e ≤ 2 ^ 35) :
    Agree cfg.k.val (secretARow share.aSlice cfg.k.val u.1,
      applySparsePermutation (L.generatePermutationMatrix seedLabelA seed cfg.k.val cfg.r.val)
        (L.uniformRow seedLabelA seed u.2 cfg.r.val)) (L.noisedRow cfg share seed u) := by
  intro l hl
  rw [noisedRow, hr, L.noiseRow_getD he he' hindex hl, secretARow,
    List.getD_eq_getElem _ _ (by simpa using hl), List.getElem_map, List.getElem_range]

theorem agree_noisedCol (hr : cfg.r.val = 2 ^ e) (he : 0 < e) (he' : e < 32)
    {v : List UInt8 × UInt32} (hindex : (v.2.toNat + 1) * 2 ^ e ≤ 2 ^ 35) :
    Agree cfg.k.val (v.1.map UInt8.toInt8,
      applySparsePermutation (L.generatePermutationMatrix seedLabelB seed cfg.k.val cfg.r.val)
        (L.uniformRow seedLabelB seed v.2 cfg.r.val)) (L.noisedCol cfg seed v) := by
  intro l hl
  rw [noisedCol, hr, L.noiseRow_getD he he' hindex hl]
  congr 2
  exact List.getD_map ..

theorem noisyRows_eq (cfg : MiningConfig) (share : ShareFound) (seed : Bytes32) :
    L.noisyRows cfg share seed =
      ((List.range share.aRowIndices.length).zip share.aRowIndices).map fun u =>
        (secretARow share.aSlice cfg.k.val u.1,
          applySparsePermutation (L.generatePermutationMatrix seedLabelA seed cfg.k.val cfg.r.val)
            (L.uniformRow seedLabelA seed u.2 cfg.r.val)) := by
  rw [noisyRows, generateUniformRandomMatrix, List.map_map, List.zip_map]
  rfl

theorem noisyCols_eq (cfg : MiningConfig) (columns : List (List UInt8)) (indices : List UInt32)
    (seed : Bytes32) :
    L.noisyCols cfg columns indices seed = (columns.zip indices).map fun v =>
      (v.1.map UInt8.toInt8,
        applySparsePermutation (L.generatePermutationMatrix seedLabelB seed cfg.k.val cfg.r.val)
          (L.uniformRow seedLabelB seed v.2 cfg.r.val)) := by
  rw [noisyCols, generateUniformRandomMatrix, List.map_map, List.zip_map]
  rfl

theorem abs_noisedRow_le (hA : ∀ b ∈ share.aSlice, |b.toInt8.toInt| ≤ 63) (u : ℕ × UInt32)
    (l : ℕ) : |L.noisedRow cfg share seed u l| ≤ 126 :=
  (abs_add_le _ _).trans
    (add_le_add (abs_getD_le hA _) (L.abs_noiseEntry_le seedLabelA seed cfg.r.val u.2 l))

theorem abs_noisedCol_le {v : List UInt8 × UInt32} (hB : ∀ b ∈ v.1, |b.toInt8.toInt| ≤ 63)
    (l : ℕ) : |L.noisedCol cfg seed v l| ≤ 126 :=
  (abs_add_le _ _).trans
    (add_le_add (abs_getD_le hB l) (L.abs_noiseEntry_le seedLabelB seed cfg.r.val v.2 l))

end

/-- Noise entries do not wrap, accumulators stay in the range of an `int`, and the sixteen words
are those of the direct definition. -/
theorem claimedHash_eq_direct (cfg : MiningConfig) (share : ShareFound)
    (jobKey hashA hashB : Bytes32) (columns : List (List UInt8)) (e : ℕ)
    (hk : cfg.k.val ≤ 131072) (hr : cfg.r.val = 2 ^ e) (he : 1 ≤ e) (he' : e ≤ 10)
    (hrows : ∀ i ∈ share.aRowIndices, i.toNat < 2 ^ 24)
    (hcols : ∀ j ∈ share.bColIndices, j.toNat < 2 ^ 24)
    (hA : ∀ b ∈ share.aSlice, |b.toInt8.toInt| ≤ 63)
    (hexpand : L.secretB cfg share.job.bSeed share.bColIndices = .ok columns)
    (hB : ∀ col ∈ columns, ∀ b ∈ col, |b.toInt8.toInt| ≤ 63) :
    let bNoiseSeed := (L.deriveNoiseSeeds jobKey hashA hashB).1
    let aNoiseSeed := (L.deriveNoiseSeeds jobKey hashA hashB).2
    let rows := L.noisyRows cfg share aNoiseSeed
    let cols := L.noisyCols cfg columns share.bColIndices bNoiseSeed
    let words := L.directWords cfg share columns bNoiseSeed aNoiseSeed
    NoiseExact (L.generatePermutationMatrix seedLabelA aNoiseSeed cfg.k.val cfg.r.val)
      (L.generateUniformRandomMatrix seedLabelA aNoiseSeed share.aRowIndices cfg.r.val) ∧
    NoiseExact (L.generatePermutationMatrix seedLabelB bNoiseSeed cfg.k.val cfg.r.val)
      (L.generateUniformRandomMatrix seedLabelB bNoiseSeed share.bColIndices cfg.r.val) ∧
    (∀ x ∈ accumulators rows cols cfg.k.val cfg.r.val, -2 ^ 31 ≤ x ∧ x < 2 ^ 31) ∧
    (jackpotTranscript rows cols cfg.k.val cfg.r.val).msg = words ∧
    L.computeClaimedHash cfg share jobKey hashA hashB = .ok (L.jackpotHash words aNoiseSeed) := by
  intro bNoiseSeed aNoiseSeed rows cols words
  have hrank : 2 ^ e ≤ 2 ^ 10 := Nat.pow_le_pow_right (by norm_num) he'
  have hplace : ∀ i : UInt32, i.toNat < 2 ^ 24 → (i.toNat + 1) * 2 ^ e ≤ 2 ^ 35 := by
    intro i hi
    calc (i.toNat + 1) * 2 ^ e ≤ 2 ^ 24 * 2 ^ 10 := Nat.mul_le_mul hi hrank
      _ ≤ 2 ^ 35 := by norm_num
  have hrowAgree : ∀ u ∈ (List.range share.aRowIndices.length).zip share.aRowIndices,
      Agree cfg.k.val _ (L.noisedRow cfg share aNoiseSeed u) := fun u hu =>
    L.agree_noisedRow hr he (by omega) (hplace u.2 (hrows u.2 (List.of_mem_zip hu).2))
  have hcolAgree : ∀ v ∈ columns.zip share.bColIndices,
      Agree cfg.k.val _ (L.noisedCol cfg bNoiseSeed v) := fun v hv =>
    L.agree_noisedCol hr he (by omega) (hplace v.2 (hcols v.2 (List.of_mem_zip hv).2))
  have hwords : (jackpotTranscript rows cols cfg.k.val cfg.r.val).msg = words := by
    rw [show rows = _ from L.noisyRows_eq cfg share aNoiseSeed,
      show cols = _ from L.noisyCols_eq cfg columns share.bColIndices bNoiseSeed]
    exact msg_eq_directWord hrowAgree hcolAgree
  refine ⟨?_, ?_, ?_, hwords, ?_⟩
  · rw [hr]
    exact L.noiseExact he (by omega) fun i hi => hplace i (hrows i hi)
  · rw [hr]
    exact L.noiseExact he (by omega) fun j hj => hplace j (hcols j hj)
  · intro x hx
    obtain ⟨row, hrow, col, hcol, n, hn, rfl⟩ := mem_accumulators hx
    rw [show rows = _ from L.noisyRows_eq cfg share aNoiseSeed] at hrow
    rw [show cols = _ from L.noisyCols_eq cfg columns share.bColIndices bNoiseSeed] at hcol
    obtain ⟨u, hu, rfl⟩ := List.mem_map.mp hrow
    obtain ⟨v, hv, rfl⟩ := List.mem_map.mp hcol
    rw [stepSum_eq_dot (hrowAgree u hu) (hcolAgree v hv) hn]
    -- at most 131072 products of numbers up to 126
    have hdot : |dot (L.noisedRow cfg share aNoiseSeed u) (L.noisedCol cfg bNoiseSeed v) n| ≤
        n * (126 * 126) :=
      abs_dot_le (fun l _ => L.abs_noisedRow_le hA u l)
        fun l _ => L.abs_noisedCol_le (hB v.1 (List.of_mem_zip hv).1) l
    obtain ⟨hlo, hhi⟩ := abs_le.mp hdot
    omega
  · rw [computeClaimedHash_eq, hexpand]
    exact congrArg (fun w => Except.ok (L.jackpotHash w aNoiseSeed)) hwords

end Library

/-- Four positions, two in each round. -/
def echoConfig : MiningConfig where
  m := ⟨2, by decide⟩
  n := ⟨2, by decide⟩
  k := ⟨4, by decide⟩
  r := ⟨2, by decide⟩

def echoJob : Job where
  sigma := Vector.replicate 76 0
  jobKey := .fill 0
  bSeed := .fill 0
  targetNbits := 0x03000001
  auditK := 0
  config := echoConfig

/-- A share with one row and one column. -/
def echoShare : ShareFound where
  job := echoJob
  sigmaCtx := none
  installedTargetNbits := 0
  nonce := 0
  tileRow := 0
  tileCol := 0
  aRowIndices := [1]
  bColIndices := [0]
  hashA := .fill 0
  hashB := .fill 0
  aSlice := [1, 2, 0xFF, 0xC1]
  aOpenedLeafData := []
  aLeafCvs := []
  claimedHash := .fill 0

theorem claimedHash_eq_direct_echo :
    echoLibrary.secretB echoConfig echoJob.bSeed [0] = .ok [[0, 0, 0, 0]] ∧
    echoLibrary.computeClaimedHash echoConfig echoShare (.fill 0) (.fill 0) (.fill 0) =
      .ok (echoLibrary.jackpotHash (echoLibrary.directWords echoConfig echoShare [[0, 0, 0, 0]]
        (.fill 0) (.fill 0)) (.fill 0)) :=
  ⟨rfl, (echoLibrary.claimedHash_eq_direct echoConfig echoShare (.fill 0) (.fill 0) (.fill 0)
    [[0, 0, 0, 0]] 1 (by decide) rfl (by decide) (by decide)
    (List.forall_mem_singleton.mpr (by decide)) (List.forall_mem_singleton.mpr (by decide))
    (by decide +kernel) rfl (List.forall_mem_singleton.mpr (by decide +kernel))).2.2.2.2⟩

/-! ### The schedule of the GPU -/

/-- `rotl32` -/
def rotl32 (x shift : UInt32) : UInt32 := (x <<< shift) ||| (x >>> (32 - shift))

/-- `rotl_xor` -/
def rotlXor (x y : UInt32) : UInt32 := rotl32 x 13 ^^^ y

/-- One snapshot: boundary `idx` from zero goes to its slot. -/
def snapshot (transcript : List UInt32) (idx : ℕ) (hash : UInt32) : List UInt32 :=
  transcript.set (idx % 16) (rotlXor (transcript.getD (idx % 16) 0) hash)

/-- The loop of `simulate_v2_schedule`: a boundary is looked at before its tile. -/
def simulateLoop (reduceEveryK : ℕ) (hashByKIter : ℕ → UInt32) (kTiles : ℕ) : List UInt32 :=
  (List.range kTiles).foldl (fun transcript kIter =>
    if 0 < kIter ∧ kIter % reduceEveryK = 0 then
      snapshot transcript (kIter / reduceEveryK - 1) (hashByKIter kIter)
    else transcript) (List.replicate 16 0)

/-- `simulate_v2_schedule`; the last snapshot is behind the loop. -/
def simulateV2Schedule (kTiles reduceEveryK : ℕ) (hashByKIter : ℕ → UInt32) : List UInt32 :=
  let transcript := simulateLoop reduceEveryK hashByKIter kTiles
  if kTiles % reduceEveryK = 0 then
    snapshot transcript (kTiles / reduceEveryK - 1) (hashByKIter kTiles)
  else transcript

/-- A snapshot is what the host does in a round. -/
theorem snapshot_hostFold (X : ℕ → UInt32) (idx : ℕ) :
    snapshot (hostFold X idx) idx (X idx) = hostFold X (idx + 1) := by
  rw [hostFold, hostFold, Slots.fold_succ]
  rfl

theorem simulateLoop_last (e : ℕ) (H : ℕ → UInt32) (kTiles : ℕ) :
    simulateLoop e H (kTiles + 1) =
      if 0 < kTiles ∧ kTiles % e = 0 then
        snapshot (simulateLoop e H kTiles) (kTiles / e - 1) (H kTiles)
      else simulateLoop e H kTiles := by
  rw [simulateLoop, List.range_succ, List.foldl_append]
  rfl

/-- The loop has seen the boundaries before its last tile. -/
theorem simulateLoop_succ (e : ℕ) (H : ℕ → UInt32) (kTiles : ℕ) :
    simulateLoop e H (kTiles + 1) = hostFold (fun s => H (e * (s + 1))) (kTiles / e) := by
  induction kTiles with
  | zero =>
    rw [Nat.zero_div]
    rfl
  | succ kTiles ih =>
    rw [simulateLoop_last, ih]
    by_cases hboundary : (kTiles + 1) % e = 0
    · -- the boundary is the end of round `kTiles / e`
      have hdvd : e ∣ kTiles + 1 := Nat.dvd_of_mod_eq_zero hboundary
      have hdiv : (kTiles + 1) / e = kTiles / e + 1 := Nat.succ_div_of_dvd hdvd
      have hhash : H (kTiles + 1) = H (e * (kTiles / e + 1)) := by
        rw [← hdiv, Nat.mul_div_cancel' hdvd]
      rw [if_pos ⟨Nat.succ_pos _, hboundary⟩, hdiv, Nat.add_sub_cancel, hhash]
      exact snapshot_hostFold (fun s => H (e * (s + 1))) _
    · rw [if_neg fun h => hboundary h.2,
        Nat.succ_div_of_not_dvd fun hdvd => hboundary (Nat.mod_eq_zero_of_dvd hdvd)]

/-- The snapshot behind the loop is the one that the loop would make before another tile. -/
theorem simulateV2Schedule_eq_loop {e kTiles : ℕ} (H : ℕ → UInt32) (hk : 1 ≤ kTiles) :
    simulateV2Schedule kTiles e H = simulateLoop e H (kTiles + 1) := by
  rw [simulateLoop_last, simulateV2Schedule]
  exact if_congr (iff_and_self.mpr fun _ => hk) rfl rfl

/-- The GPU folds the same words as the host, whether or not the tiles end at a boundary; in
particular the words of the jackpot loop, when its rounds contribute what the GPU snapshots. -/
theorem simulateV2Schedule_eq_hostFold (kTiles e : ℕ) (H : ℕ → UInt32) (hk : 1 ≤ kTiles) :
    simulateV2Schedule kTiles e H = hostFold (fun s => H (e * (s + 1))) (kTiles / e) ∧
    ∀ (rows cols : List (List Int8 × List Int8)) (k r : ℕ), k / r = kTiles / e →
      (∀ s < kTiles / e, xorAll (products rows cols ((s + 1) * r)) = H (e * (s + 1))) →
      (jackpotTranscript rows cols k r).msg = simulateV2Schedule kTiles e H := by
  have hfold := (simulateV2Schedule_eq_loop H hk).trans (simulateLoop_succ e H kTiles)
  refine ⟨hfold, fun rows cols k r hrounds hhash => ?_⟩
  rw [jackpotTranscript_msg, hrounds, hfold]
  exact Slots.fold_congr hhash

/-- Seven tiles with a boundary after every other one: the last tile is in no snapshot. -/
theorem simulateV2Schedule_eq_hostFold_seven : 1 ≤ 7 ∧
    simulateV2Schedule 7 2 UInt32.ofNat = hostFold (fun s => UInt32.ofNat (2 * (s + 1))) 3 :=
  ⟨by norm_num, (simulateV2Schedule_eq_hostFold 7 2 UInt32.ofNat (by norm_num)).1⟩

end PropMiner.Share
