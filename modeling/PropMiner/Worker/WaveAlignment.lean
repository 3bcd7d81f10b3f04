import PropMiner.Semantics.Multiples
import PropMiner.Worker.Profile

/-!
# Whole waves

The grid of a launch has one CTA for each tile of the product. `wave_aligned_n_at_least` widens the
product until the CTAs are whole waves over the SMs of the device.

A result that is no `int` wraps around here; it has no meaning in the source. `ProductsFit` says
that the products of one call are numbers of 31 bits. The sum in front of the first division can
still leave the range by one, and the subtraction behind it comes back.

## Main definitions

* `tiles`, `waveAligned`, `waveAlignedNAtLeast` — the functions of the profile
* `ctas` — the number of CTAs, of any size
* `ProductsFit` — no product of a call overflows

## Main results

* `isLeast_waveAlignedNAtLeast` — the width is the least one
* `waveAligned_waveAlignedNAtLeast` — the profile's own test accepts it
-/

set_option autoImplicit false

namespace PropMiner.Worker

open PropMiner.Semantics.Multiples

def kSMCount : ℤ := 170

def kTileM : ℤ := 128

/-- A number in an `int`. -/
def inInt (x : ℤ) : ℤ := x.bmod (2 ^ 32)

/-- `tiles` -/
def tiles (M N : ℤ) : ℤ := inInt (M.tdiv kTileM * N.tdiv kTileN)

/-- `wave_aligned` -/
def waveAligned (M N : ℤ) : Bool := (tiles M N).tmod kSMCount = 0

/-- `step_t` -/
def stepT (gridX : ℤ) : ℤ := kSMCount.tdiv (gridX.gcd kSMCount)

/-- `wave_aligned_n_at_least` -/
def waveAlignedNAtLeast (M minN : ℤ) : ℤ :=
  let gridX := M.tdiv kTileM
  let t := (inInt (inInt (minN + kTileN) - 1)).tdiv kTileN
  let t :=
    if (inInt (gridX * t)).tmod kSMCount ≠ 0 then
      inInt ((inInt (inInt (t + stepT gridX) - 1)).tdiv (stepT gridX) * stepT gridX)
    else t
  inInt (t * kTileN)

/-! ### Exact arithmetic -/

/-- The CTAs of a launch. -/
def ctas (M N : ℤ) : ℤ := M / kTileM * (N / kTileN)

/-- The tiles that are needed for `minN`. -/
def neededTiles (minN : ℤ) : ℤ := (minN + kTileN - 1) / kTileN

/-- The tiles of whole waves. -/
def alignedTiles (M minN : ℤ) : ℤ := roundUp (stepT (M / kTileM)) (neededTiles minN)

/-- The products of a call are below `2 ^ 31`. -/
structure ProductsFit (M minN : ℤ) : Prop where
  grid : M / kTileM * neededTiles minN < 2 ^ 31
  width : alignedTiles M minN * kTileN < 2 ^ 31

section Exact

variable {M N minN x g : ℤ}

theorem inInt_eq (hx : 0 ≤ x) (hx' : x < 2 ^ 31) : inInt x = x := by
  unfold inInt
  exact Int.bmod_eq_of_le (by norm_num; omega) (by norm_num; omega)

theorem inInt_inInt_sub (x y : ℤ) : inInt (inInt x - y) = inInt (x - y) := Int.bmod_sub_bmod

theorem stepT_eq (g : ℤ) : stepT g = kSMCount / g.gcd kSMCount :=
  Int.tdiv_eq_ediv_of_nonneg (by decide)

/-- From one whole wave to the next. -/
theorem stepT_bounds (g : ℤ) : 0 < stepT g ∧ stepT g ≤ kSMCount := by
  have hgcd : (0 : ℤ) < g.gcd kSMCount :=
    Int.natCast_pos.mpr (Int.gcd_pos_of_ne_zero_right g (by decide))
  rw [stepT_eq]
  exact ⟨Int.ediv_pos_of_pos_of_dvd (by decide) hgcd.le (Int.gcd_dvd_right g kSMCount),
    Int.ediv_le_self _ (by decide)⟩

theorem dvd_mul_iff_stepT_dvd (g x : ℤ) : kSMCount ∣ g * x ↔ stepT g ∣ x := by
  rw [stepT_eq]
  exact dvd_mul_iff_div_gcd_dvd (by decide)

theorem neededTiles_nonneg (hmin : 0 ≤ minN) : 0 ≤ neededTiles minN :=
  Int.ediv_nonneg (by unfold kTileN; omega) (by decide)

theorem neededTiles_le_alignedTiles (M minN : ℤ) : neededTiles minN ≤ alignedTiles M minN :=
  (isLeast_roundUp (stepT_bounds _).1 _).1.2

/-- What the call computes if no product overflows. -/
theorem waveAlignedNAtLeast_eq (hM : 0 ≤ M) (hmin : 0 ≤ minN) (hfit : ProductsFit M minN) :
    waveAlignedNAtLeast M minN = alignedTiles M minN * kTileN := by
  obtain ⟨hgrid, hwidth⟩ := hfit
  have hle := neededTiles_le_alignedTiles M minN
  have hneeded := neededTiles_nonneg hmin
  have hM' : 0 ≤ M / kTileM := Int.ediv_nonneg hM (by decide)
  have henough : minN ≤ neededTiles minN * kTileN := (ceil_le_iff (by decide)).mp le_rfl
  obtain ⟨hpos, hstep⟩ := stepT_bounds (M / kTileM)
  unfold kTileN at hwidth henough
  unfold kSMCount at hstep
  -- the width fits, so the tiles are few
  have hrounded : alignedTiles M minN < 2 ^ 31 := by omega
  have hfirst : (inInt (inInt (minN + kTileN) - 1)).tdiv kTileN = neededTiles minN := by
    rw [inInt_inInt_sub, inInt_eq (by unfold kTileN; omega) (by unfold kTileN; omega)]
    exact Int.tdiv_eq_ediv_of_nonneg (by unfold kTileN; omega)
  have hround : inInt ((inInt (inInt (neededTiles minN + stepT (M / kTileM)) - 1)).tdiv
      (stepT (M / kTileM)) * stepT (M / kTileM)) = alignedTiles M minN := by
    have hsum : inInt (neededTiles minN + stepT (M / kTileM) - 1) =
        neededTiles minN + stepT (M / kTileM) - 1 := inInt_eq (by omega) (by omega)
    rw [inInt_inInt_sub, hsum, Int.tdiv_eq_ediv_of_nonneg (by omega)]
    exact inInt_eq (hneeded.trans hle) hrounded
  unfold waveAlignedNAtLeast
  dsimp only
  rw [Int.tdiv_eq_ediv_of_nonneg hM, hfirst, hround,
    inInt_eq (mul_nonneg hM' hneeded) hgrid,
    Int.tmod_eq_emod_of_nonneg (mul_nonneg hM' hneeded)]
  split_ifs with hwave
  · exact inInt_eq (mul_nonneg (hneeded.trans hle) (by decide)) hwidth
  · -- whole waves already
    have hdvd := (dvd_mul_iff_stepT_dvd _ _).mp (Int.dvd_of_emod_eq_zero (not_not.mp hwave))
    have haligned : alignedTiles M minN = neededTiles minN := roundUp_of_dvd hpos hdvd
    rw [haligned] at hwidth ⊢
    exact inInt_eq (mul_nonneg hneeded (by decide)) hwidth

theorem isLeast_alignedTiles (M minN : ℤ) :
    IsLeast {t | kSMCount ∣ M / kTileM * t ∧ neededTiles minN ≤ t} (alignedTiles M minN) := by
  simp only [dvd_mul_iff_stepT_dvd]
  exact isLeast_roundUp (stepT_bounds _).1 _

theorem waveAligned_iff (hM : 0 ≤ M) (hN : 0 ≤ N) (hfit : ctas M N < 2 ^ 31) :
    waveAligned M N = true ↔ kSMCount ∣ ctas M N := by
  have hctas : 0 ≤ ctas M N :=
    mul_nonneg (Int.ediv_nonneg hM (by decide)) (Int.ediv_nonneg hN (by decide))
  have htiles : tiles M N = ctas M N := by
    rw [tiles, Int.tdiv_eq_ediv_of_nonneg hM, Int.tdiv_eq_ediv_of_nonneg hN]
    exact inInt_eq hctas hfit
  rw [waveAligned, decide_eq_true_eq, htiles, Int.tmod_eq_emod_of_nonneg hctas,
    Int.dvd_iff_emod_eq_zero]

end Exact

/-! ### The least width -/

/-- The least width of whole tiles that is enough and gives whole waves. -/
theorem isLeast_waveAlignedNAtLeast {M minN : ℤ} (hM : 0 ≤ M) (hmin : 0 ≤ minN)
    (hfit : ProductsFit M minN) :
    IsLeast {N | kTileN ∣ N ∧ minN ≤ N ∧ kSMCount ∣ ctas M N} (waveAlignedNAtLeast M minN) := by
  rw [waveAlignedNAtLeast_eq hM hmin hfit]
  exact isLeast_mul (P := fun t => kSMCount ∣ M / kTileM * t) (by decide)
    (isLeast_alignedTiles M minN)

/-- With 64 rows of tiles there are 85 tiles from one whole wave to the next. -/
theorem isLeast_waveAlignedNAtLeast_default :
    ProductsFit 8192 32768 ∧
      IsLeast {N | kTileN ∣ N ∧ 32768 ≤ N ∧ kSMCount ∣ ctas 8192 N} 43520 := by
  have hfit : ProductsFit 8192 32768 := ⟨by decide, by decide⟩
  exact ⟨hfit, isLeast_waveAlignedNAtLeast (by decide) (by decide) hfit⟩

/-- The profile's own test accepts the width, as long as the CTAs can be counted in an `int`. -/
theorem waveAligned_waveAlignedNAtLeast {M minN : ℤ} (hM : 0 ≤ M) (hmin : 0 ≤ minN)
    (hfit : ProductsFit M minN) (hcount : ctas M (waveAlignedNAtLeast M minN) < 2 ^ 31) :
    waveAligned M (waveAlignedNAtLeast M minN) = true := by
  have hnonneg := (neededTiles_nonneg hmin).trans (neededTiles_le_alignedTiles M minN)
  rw [waveAlignedNAtLeast_eq hM hmin hfit] at hcount ⊢
  rw [waveAligned_iff hM (mul_nonneg hnonneg (by decide)) hcount, ctas,
    Int.mul_ediv_cancel _ (by decide)]
  exact (isLeast_alignedTiles M minN).1.1

end PropMiner.Worker
