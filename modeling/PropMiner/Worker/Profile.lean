import Mathlib.Algebra.Order.Ring.Int
import Mathlib.Data.List.Basic
import Mathlib.Tactic.Linarith

/-!
# The profile of the device

`Rtx5090Profile` chooses how wide the matrices are: the widest of six candidates for which there is
room in the memory of the device, and under a cap if one is set. With no memory size known, 28 GiB
are assumed.

An `int` is an integer here. The sum that is compared with the memory is one of 64 bits;
`shapeBytes_lt` says that it does not overflow for the candidates.

## Main definitions

* `shapeFitsVram`, `pickNForVram` — the estimate, and the choice
* `Chooses` — what the choice is meant to satisfy
* `HasRoom` — some candidate under the cap fits

## Main results

* `chooses_iff` — with no candidate left, only a small cap of whole tiles is handled
-/

set_option autoImplicit false

namespace PropMiner.Worker

def kTileN : ℤ := 256

def kDefaultM : ℤ := 8192

def kDefaultN : ℤ := 262144

/-- `bytes` of `shape_fits_vram` -/
def shapeBytes (M N K : ℤ) : ℤ :=
  let aPingPong := 2 * M * K
  let bResident := K * N
  let cPingPong := 2 * M * N * 2
  let r := 128
  let residentB := bResident + 6 * N * r
  let bytes := aPingPong + bResident + cPingPong + residentB
  bytes + bytes.tdiv 4

/-- `shape_fits_vram` -/
def shapeFitsVram (M N K : ℤ) (freeBytes : UInt64) : Bool :=
  UInt64.ofInt (shapeBytes M N K) < if freeBytes = 0 then (28 : UInt64) <<< 30 else freeBytes

/-- `kCandidates` -/
def kCandidates : List ℤ := [262144, 131072, 65536, 65280, 43520, 32768]

/-- A candidate that the loop does not skip. -/
def eligible (freeBytes : UInt64) (capN K n : ℤ) : Bool :=
  !(0 < capN && capN < n) && n % kTileN = 0 && shapeFitsVram kDefaultM n K freeBytes

/-- `pick_n_for_vram` -/
def pickNForVram (freeBytes : UInt64) (capN K : ℤ) : ℤ :=
  match kCandidates.find? (eligible freeBytes capN K) with
  | some n => n
  | none => if 0 < capN ∧ capN < kDefaultN then capN else kDefaultN

/-- Some candidate within the cap fits. -/
def HasRoom (freeBytes : UInt64) (capN K : ℤ) : Prop :=
  ∃ n ∈ kCandidates, (0 < capN → n ≤ capN) ∧ shapeFitsVram kDefaultM n K freeBytes = true

/-- What the choice is meant to satisfy. -/
structure Chooses (freeBytes : UInt64) (capN K : ℤ) : Prop where
  tiles : kTileN ∣ pickNForVram freeBytes capN K
  le_cap : 0 < capN → pickNForVram freeBytes capN K ≤ capN
  fits : HasRoom freeBytes capN K →
    shapeFitsVram kDefaultM (pickNForVram freeBytes capN K) K freeBytes = true
  least : ¬ HasRoom freeBytes capN K → ∀ n ∈ kCandidates, pickNForVram freeBytes capN K ≤ n
  mono : freeBytes ≠ 0 → ∀ more, freeBytes ≤ more →
    pickNForVram freeBytes capN K ≤ pickNForVram more capN K

/-- The estimate for a candidate and any `int` as `K` is a number of 64 bits. -/
theorem shapeBytes_lt {n K : ℤ} (hn : n ∈ kCandidates) (hK : 0 < K) (hK' : K < 2 ^ 31) :
    0 ≤ shapeBytes kDefaultM n K ∧ shapeBytes kDefaultM n K < 2 ^ 63 := by
  have hn' : 0 < n ∧ n ≤ 262144 := by
    revert n
    decide
  have hpos : 0 < K * n := mul_pos hK hn'.1
  have hmul : K * n ≤ 2 ^ 31 * 262144 := mul_le_mul hK'.le hn'.2 hn'.1.le (by norm_num)
  unfold shapeBytes kDefaultM
  dsimp only
  rw [Int.tdiv_eq_ediv_of_nonneg (by omega)]
  omega

/-! ### The scan -/

section Scan

variable {freeBytes more : UInt64} {capN K n : ℤ}

theorem kTileN_dvd (hn : n ∈ kCandidates) : kTileN ∣ n := by
  revert n
  decide

theorem eligible_iff (hn : n ∈ kCandidates) : eligible freeBytes capN K n = true ↔
    (0 < capN → n ≤ capN) ∧ shapeFitsVram kDefaultM n K freeBytes = true := by
  have htile : n % kTileN = 0 := Int.emod_eq_zero_of_dvd (kTileN_dvd hn)
  simp only [eligible, htile, Bool.and_eq_true, Bool.not_eq_true', Bool.and_eq_false_imp,
    decide_eq_true_eq, decide_eq_false_iff_not, not_lt, and_true]

theorem hasRoom_iff : HasRoom freeBytes capN K ↔
    ∃ n ∈ kCandidates, eligible freeBytes capN K n = true := by
  apply exists_congr
  intro n
  exact and_congr_right fun hn => (eligible_iff hn).symm

/-- More memory has room for what fitted before. -/
theorem shapeFitsVram_mono {M N : ℤ} (hfree : freeBytes ≠ 0) (hmore : freeBytes ≤ more)
    (h : shapeFitsVram M N K freeBytes = true) : shapeFitsVram M N K more = true := by
  have hmore' : more ≠ 0 := by
    rintro rfl
    exact hfree (UInt64.le_antisymm hmore (UInt64.zero_le))
  rw [shapeFitsVram, if_neg hfree, decide_eq_true_eq] at h
  rw [shapeFitsVram, if_neg hmore', decide_eq_true_eq]
  exact UInt64.lt_of_lt_of_le h hmore

/-- The first element of a descending list is the largest. -/
theorem exists_find?_of_mem {l : List ℤ} (hl : l.Pairwise (· > ·)) {p : ℤ → Bool} (hn : n ∈ l)
    (hp : p n = true) : ∃ m, l.find? p = some m ∧ n ≤ m := by
  induction l with
  | nil => cases hn
  | cons a l ih =>
    obtain ⟨ha, hl⟩ := List.pairwise_cons.mp hl
    by_cases hpa : p a = true
    · refine ⟨a, List.find?_cons_of_pos hpa, ?_⟩
      rcases List.mem_cons.mp hn with rfl | hn
      · exact le_rfl
      · exact (ha n hn).le
    · rw [List.find?_cons_of_neg hpa]
      rcases List.mem_cons.mp hn with rfl | hn
      · exact absurd hp hpa
      · exact ih hl hn

theorem kCandidates_pairwise : kCandidates.Pairwise (· > ·) := by decide

/-- With room, the choice is a candidate under the cap that fits, and none is larger. -/
theorem pickNForVram_of_hasRoom (h : HasRoom freeBytes capN K) :
    pickNForVram freeBytes capN K ∈ kCandidates ∧
    (0 < capN → pickNForVram freeBytes capN K ≤ capN) ∧
    shapeFitsVram kDefaultM (pickNForVram freeBytes capN K) K freeBytes = true := by
  obtain ⟨n, hn, helig⟩ := hasRoom_iff.mp h
  obtain ⟨m, hfind, -⟩ := exists_find?_of_mem kCandidates_pairwise hn helig
  have hpick : pickNForVram freeBytes capN K = m := by rw [pickNForVram, hfind]
  have hm : m ∈ kCandidates := List.mem_of_find?_eq_some hfind
  rw [hpick]
  exact ⟨hm, (eligible_iff hm).mp (List.find?_some hfind)⟩

/-- Without room it is the cap or the default. -/
theorem pickNForVram_of_not_hasRoom (h : ¬ HasRoom freeBytes capN K) :
    pickNForVram freeBytes capN K = if 0 < capN ∧ capN < kDefaultN then capN else kDefaultN := by
  have hfind : kCandidates.find? (eligible freeBytes capN K) = none :=
    List.find?_eq_none.mpr fun n hn helig => h (hasRoom_iff.mpr ⟨n, hn, helig⟩)
  rw [pickNForVram, hfind]

/-- With more memory the choice does not get smaller, if there was room before. -/
theorem pickNForVram_mono (h : HasRoom freeBytes capN K) (hfree : freeBytes ≠ 0)
    (hmore : freeBytes ≤ more) : pickNForVram freeBytes capN K ≤ pickNForVram more capN K := by
  obtain ⟨hmem, hcap, hfits⟩ := pickNForVram_of_hasRoom h
  have helig : eligible more capN K (pickNForVram freeBytes capN K) = true :=
    (eligible_iff hmem).mpr ⟨hcap, shapeFitsVram_mono hfree hmore hfits⟩
  obtain ⟨m, hfind, hle⟩ := exists_find?_of_mem kCandidates_pairwise hmem helig
  have hpick : pickNForVram more capN K = m := by rw [pickNForVram, hfind]
  rwa [hpick]

/-- Under a cap that is not above the smallest candidate the choice is the cap, however much memory
there is. -/
theorem pickNForVram_of_small_cap (hpos : 0 < capN) (hsmall : capN ≤ 32768) (freeBytes : UInt64)
    (K : ℤ) : pickNForVram freeBytes capN K = capN := by
  by_cases hroom : HasRoom freeBytes capN K
  · obtain ⟨hmem, hcap, -⟩ := pickNForVram_of_hasRoom hroom
    have hleast : 32768 ≤ pickNForVram freeBytes capN K := by
      revert hmem
      generalize pickNForVram freeBytes capN K = n
      revert n
      decide
    exact le_antisymm (hcap hpos) (hsmall.trans hleast)
  · rw [pickNForVram_of_not_hasRoom hroom, if_pos ⟨hpos, hsmall.trans_lt (by decide)⟩]

end Scan

/-! ### The choice -/

/-- The choice is as it is meant to be if there is room, or under a cap of whole tiles that is not
above the smallest candidate. -/
theorem chooses_iff (freeBytes : UInt64) (capN K : ℤ) :
    Chooses freeBytes capN K ↔
      HasRoom freeBytes capN K ∨ 0 < capN ∧ capN ≤ 32768 ∧ kTileN ∣ capN := by
  constructor
  · intro h
    by_contra hnone
    obtain ⟨hroom, hcap⟩ := not_or.mp hnone
    have hpick := pickNForVram_of_not_hasRoom hroom
    have hsmall : pickNForVram freeBytes capN K ≤ 32768 := h.least hroom 32768 (by decide)
    -- only a small cap is not above the smallest candidate
    by_cases hfallback : 0 < capN ∧ capN < kDefaultN
    · rw [if_pos hfallback] at hpick
      exact hcap ⟨hfallback.1, hpick ▸ hsmall, hpick ▸ h.tiles⟩
    · rw [if_neg hfallback] at hpick
      rw [hpick] at hsmall
      exact absurd hsmall (by decide)
  · rintro (hroom | ⟨hpos, hsmall, htiles⟩)
    · obtain ⟨hmem, hcap, hfits⟩ := pickNForVram_of_hasRoom hroom
      exact ⟨kTileN_dvd hmem, hcap, fun _ => hfits, fun hnone => absurd hroom hnone,
        fun hfree _ hmore => pickNForVram_mono hroom hfree hmore⟩
    · have hpick := pickNForVram_of_small_cap hpos hsmall
      refine ⟨(hpick _ K).symm ▸ htiles, fun _ => (hpick _ K).le, ?_, ?_, ?_⟩
      · exact fun hroom => (pickNForVram_of_hasRoom hroom).2.2
      · intro _ n hn
        rw [hpick]
        have hleast : 32768 ≤ n := by
          revert n
          decide
        exact hsmall.trans hleast
      · intro _ more _
        rw [hpick, hpick]

/-- With one byte of memory nothing fits, and the widest candidate is chosen. -/
theorem pickNForVram_one_byte :
    pickNForVram 1 0 4096 = 262144 ∧ ¬ HasRoom 1 0 4096 ∧ ¬ Chooses 1 0 4096 := by
  have hroom : ¬ HasRoom 1 0 4096 := by
    rintro ⟨n, hn, -, hfits⟩
    revert n
    decide
  have hpick : pickNForVram 1 0 4096 = 262144 := pickNForVram_of_not_hasRoom hroom
  refine ⟨hpick, hroom, fun hchooses => ?_⟩
  have hsmall := hchooses.least hroom 32768 (by decide)
  rw [hpick] at hsmall
  exact absurd hsmall (by decide)

end PropMiner.Worker
