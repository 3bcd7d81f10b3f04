import Mathlib.Algebra.BigOperators.Group.List.Lemmas
import Mathlib.Data.List.Basic
import Mathlib.Data.List.GetD
import Mathlib.Data.Nat.Basic
import Mathlib.Tactic.Ring

/-!
# Nested progressions

A list of numbers has a period if it consists of copies of its first elements, each shifted by
the same stride against the one before. Cutting a list down to its shortest period again and
again, until one element is left, finds the levels of a nested progression.

## Main definitions

* `spread`, `nested` — copies of a list, and the progression with given levels
* `HasPeriod`, `ShortestPeriod` — the periods of a list
* `Peels` — the levels that are found by cutting down

## Main results

* `HasPeriod.eq_spread` — a list is the copies of its period
* `Peels.nested_eq` — the levels that are found give the list back
* `Peels.unique` — there is one way to cut down
* `Peels.prod_eq`, `Peels.two_le` — their lengths multiply to its length, and none is trivial
* `Peels.extent_lt` — the extent of an inner level does not leave the range of the list
* `eq_of_factors_eq` — levels that divide evenly are determined by their factors
-/

set_option autoImplicit false

namespace PropMiner.Semantics.Progression

/-- A stride and the number of copies. -/
abbrev Level := ℕ × ℕ

variable {xs : List ℕ} {p : ℕ} {levels : List Level}

/-- Copies of a list, each shifted by the stride against the one before. -/
def spread (stride count : ℕ) (xs : List ℕ) : List ℕ :=
  (List.range count).flatMap fun i => xs.map (i * stride + ·)

/-- The progression with these levels, the outermost one first. -/
def nested : List Level → List ℕ
  | [] => [0]
  | level :: levels => spread level.1 level.2 (nested levels)

/-- The list consists of copies of its first `p` elements; the stride is the element behind
them. -/
def HasPeriod (xs : List ℕ) (p : ℕ) : Prop :=
  p ∣ xs.length ∧ ∀ i, i + p < xs.length → xs.getD i 0 + xs.getD p 0 = xs.getD (i + p) 0

/-- The shortest proper period. -/
structure ShortestPeriod (xs : List ℕ) (p : ℕ) : Prop where
  pos : 1 ≤ p
  lt : p < xs.length
  periodic : HasPeriod xs p
  least : ∀ q, 1 ≤ q → q < p → ¬ HasPeriod xs q

/-- Cutting down to the shortest period, until one element is left, finds these levels, the
outermost one first. -/
inductive Peels : List ℕ → List Level → Prop
  | done : Peels [0] []
  | peel {xs : List ℕ} {p : ℕ} {levels : List Level} : ShortestPeriod xs p →
      Peels (xs.take p) levels → Peels xs ((xs.getD p 0, xs.length / p) :: levels)

theorem length_spread (stride count : ℕ) (xs : List ℕ) :
    (spread stride count xs).length = count * xs.length := by
  simp [spread, List.length_flatMap]

theorem length_nested (levels : List Level) :
    (nested levels).length = (levels.map Prod.snd).prod := by
  induction levels with
  | nil => rfl
  | cons level levels ih => rw [nested, length_spread, ih, List.map_cons, List.prod_cons]

theorem spread_one (stride : ℕ) (xs : List ℕ) : spread stride 1 xs = xs := by
  simp [spread]

theorem spread_succ (stride count : ℕ) (xs : List ℕ) :
    spread stride (count + 1) xs = spread stride count xs ++ xs.map (count * stride + ·) := by
  rw [spread, List.range_succ, List.flatMap_append, List.flatMap_singleton]
  rfl

/-- After some copies the list goes on as it began. -/
theorem HasPeriod.getD_mul_add (h : HasPeriod xs p) {k i : ℕ} (hk : k * p + i < xs.length) :
    xs.getD (k * p + i) 0 = k * xs.getD p 0 + xs.getD i 0 := by
  induction k with
  | zero => simp
  | succ k ih =>
    have hstep : (k + 1) * p + i = k * p + i + p := by ring
    rw [hstep] at hk ⊢
    rw [← h.2 _ hk, ih (by omega), Nat.succ_mul]
    omega

/-- The copies up to a multiple of the period. -/
theorem HasPeriod.take_mul (h : HasPeriod xs p) {k : ℕ} (hk : k * p ≤ xs.length) :
    xs.take (k * p) = spread (xs.getD p 0) k (xs.take p) := by
  induction k with
  | zero => simp [spread]
  | succ k ih =>
    rw [Nat.succ_mul] at hk ⊢
    rw [spread_succ, ← ih (by omega), List.take_add]
    have hlength : ((xs.drop (k * p)).take p).length = p := by
      rw [List.length_take, List.length_drop]
      omega
    -- The next copy, element by element.
    refine congrArg _ (List.ext_getElem (by simp; omega) fun i hi _ => ?_)
    rw [hlength] at hi
    have hget := h.getD_mul_add (show k * p + i < xs.length by omega)
    rw [List.getD_eq_getElem _ _ (by omega), List.getD_eq_getElem _ _ (show i < _ by omega)]
      at hget
    simpa using hget

/-- A list is the copies of its period. -/
theorem HasPeriod.eq_spread (h : HasPeriod xs p) :
    spread (xs.getD p 0) (xs.length / p) (xs.take p) = xs := by
  have hlength : xs.length / p * p = xs.length := Nat.div_mul_cancel h.1
  rw [← h.take_mul hlength.le, hlength, List.take_length]

theorem ShortestPeriod.length_take (h : ShortestPeriod xs p) : (xs.take p).length = p :=
  List.length_take_of_le h.lt.le

/-- A proper period leaves two copies at least. -/
theorem ShortestPeriod.two_le_div (h : ShortestPeriod xs p) : 2 ≤ xs.length / p := by
  obtain ⟨k, hk⟩ := h.periodic.1
  have hlt := h.lt
  rw [hk] at hlt
  rw [hk, Nat.mul_div_cancel_left _ h.pos]
  exact Nat.lt_of_mul_lt_mul_left ((Nat.mul_one _).trans_lt hlt)

/-- A list is the single element or has an outermost level. -/
theorem Peels.eq_or_exists (h : Peels xs levels) : xs = [0] ∧ levels = [] ∨
    ∃ p lower, ShortestPeriod xs p ∧ Peels (xs.take p) lower ∧
      levels = (xs.getD p 0, xs.length / p) :: lower := by
  cases h with
  | done => exact .inl ⟨rfl, rfl⟩
  | peel hp hlower => exact .inr ⟨_, _, hp, hlower, rfl⟩

/-- The levels that are found give the list back. -/
theorem Peels.nested_eq (h : Peels xs levels) : nested levels = xs := by
  induction h with
  | done => rfl
  | peel hp _ ih => rw [nested, ih, hp.periodic.eq_spread]

/-- Each level has two copies at least. -/
theorem Peels.two_le (h : Peels xs levels) : ∀ level ∈ levels, 2 ≤ level.2 := by
  induction h with
  | done => exact nofun
  | peel hp _ ih => exact List.forall_mem_cons.mpr ⟨hp.two_le_div, ih⟩

/-- The lengths of the levels multiply to the length of the list. -/
theorem Peels.prod_eq (h : Peels xs levels) : (levels.map Prod.snd).prod = xs.length := by
  induction h with
  | done => rfl
  | peel hp _ ih =>
    rw [List.map_cons, List.prod_cons, ih, hp.length_take, Nat.div_mul_cancel hp.periodic.1]

/-- The strides are elements of the list. -/
theorem Peels.fst_mem (h : Peels xs levels) : ∀ level ∈ levels, level.1 ∈ xs := by
  induction h with
  | done => exact nofun
  | peel hp _ ih =>
    rw [List.forall_mem_cons, List.getD_eq_getElem _ _ hp.lt]
    exact ⟨List.getElem_mem _, fun level hlevel => List.mem_of_mem_take (ih level hlevel)⟩

theorem Peels.length_pos (h : Peels xs levels) : 0 < xs.length := by
  cases h with
  | done => exact Nat.one_pos
  | peel hp _ => exact Nat.zero_lt_of_lt hp.lt

/-- No level has more copies than the list has elements. -/
theorem Peels.snd_le (h : Peels xs levels) : ∀ level ∈ levels, level.2 ≤ xs.length := by
  intro level hlevel
  refine Nat.le_of_dvd h.length_pos ?_
  rw [← h.prod_eq]
  exact List.dvd_prod (List.mem_map_of_mem hlevel)

theorem ShortestPeriod.unique {q : ℕ} (hp : ShortestPeriod xs p) (hq : ShortestPeriod xs q) :
    p = q := by
  refine le_antisymm (Nat.le_of_not_lt fun hlt => ?_) (Nat.le_of_not_lt fun hlt => ?_)
  · exact hp.least q hq.pos hlt hq.periodic
  · exact hq.least p hp.pos hlt hp.periodic

/-- There is one way to cut down. -/
theorem Peels.unique {levels' : List Level} (h : Peels xs levels) (h' : Peels xs levels') :
    levels = levels' := by
  induction h generalizing levels' with
  | done =>
    cases h' with
    | done => rfl
    | peel hp _ => exact absurd hp.lt (Nat.not_lt.mpr hp.pos)
  | peel hp _ ih =>
    cases h' with
    | done => exact absurd hp.lt (Nat.not_lt.mpr hp.pos)
    | peel hq hlower =>
      obtain rfl := hp.unique hq
      rw [ih hlower]

theorem getD_take_of_lt {i : ℕ} (hi : i < p) : (xs.take p).getD i 0 = xs.getD i 0 := by
  rw [List.getD_eq_getElem?_getD, List.getElem?_take_of_lt hi, List.getD_eq_getElem?_getD]

theorem Peels.getD_zero (h : Peels xs levels) : xs.getD 0 0 = 0 := by
  induction h with
  | done => rfl
  | @peel xs p _ hp _ ih =>
    rwa [getD_take_of_lt hp.pos] at ih

/-- Two elements are two copies of the first one. -/
theorem peels_pair (stride : ℕ) : Peels [0, stride] [(stride, 2)] := by
  have hp : ShortestPeriod [0, stride] 1 := by
    refine ⟨le_rfl, Nat.one_lt_two, ⟨one_dvd _, fun i hi => ?_⟩, fun q hq hlt => ?_⟩
    · rw [List.length_cons, List.length_singleton] at hi
      obtain rfl : i = 0 := by omega
      exact Nat.zero_add stride
    · exact absurd hlt (Nat.not_lt.mpr hq)
  have hpeels := Peels.peel hp .done
  rwa [Nat.div_one] at hpeels

/-! ### Increasing lists -/

theorem getD_lt_getD_of_pairwise {α : Type} [LT α] {xs : List α} (hsorted : xs.Pairwise (· < ·))
    (a : α) {i j : ℕ} (hij : i < j) (hj : j < xs.length) : xs.getD i a < xs.getD j a := by
  rw [List.getD_eq_getElem _ _ hj, List.getD_eq_getElem _ _ (hij.trans hj)]
  exact List.pairwise_iff_getElem.mp hsorted _ _ _ _ hij

theorem Peels.fst_pos (h : Peels xs levels) (hsorted : xs.Pairwise (· < ·)) :
    ∀ level ∈ levels, 0 < level.1 := by
  induction h with
  | done => exact nofun
  | peel hp _ ih =>
    rw [List.forall_mem_cons]
    exact ⟨Nat.zero_lt_of_lt (getD_lt_getD_of_pairwise hsorted 0 hp.pos hp.lt), ih hsorted.take⟩

/-- The last copy begins at an element of the list. -/
theorem ShortestPeriod.getD_last (hp : ShortestPeriod xs p) (hzero : xs.getD 0 0 = 0) :
    (xs.length / p - 1) * p < xs.length ∧
      xs.getD ((xs.length / p - 1) * p) 0 = (xs.length / p - 1) * xs.getD p 0 := by
  have hlength : xs.length / p * p = xs.length := Nat.div_mul_cancel hp.periodic.1
  have hpos : 0 < xs.length / p := Nat.div_pos hp.lt.le hp.pos
  have hlt : (xs.length / p - 1) * p < xs.length := by
    rw [← hlength, Nat.mul_div_cancel _ hp.pos]
    exact Nat.mul_lt_mul_of_pos_right (Nat.sub_one_lt hpos.ne') hp.pos
  refine ⟨hlt, ?_⟩
  have hget := hp.periodic.getD_mul_add (show (xs.length / p - 1) * p + 0 < xs.length from hlt)
  rwa [hzero, Nat.add_zero, Nat.add_zero] at hget

/-- The extent of an inner level does not leave the range of the list: the level above repeats
it at least once. -/
theorem Peels.extent_lt {bound : ℕ} (h : Peels xs levels) (hsorted : xs.Pairwise (· < ·))
    (hbound : ∀ x ∈ xs, x < bound) : ∀ level ∈ levels.tail, level.1 * level.2 < bound := by
  induction h with
  | done => exact nofun
  | @peel xs p lower hp hlower ih =>
    replace ih := ih hsorted.take fun x hx => hbound x (List.mem_of_mem_take hx)
    rw [List.tail_cons]
    rcases hlower.eq_or_exists with ⟨-, rfl⟩ | ⟨q, levels, hq, -, rfl⟩
    · exact nofun
    · refine List.forall_mem_cons.mpr ⟨?_, ih⟩
      have hcount := hq.two_le_div
      obtain ⟨hlast, hvalue⟩ := hq.getD_last hlower.getD_zero
      dsimp only
      generalize (xs.take p).getD q 0 = stride at *
      generalize (xs.take p).length / q = count at *
      rw [hp.length_take] at hlast
      rw [getD_take_of_lt hlast] at hvalue
      -- The last copy below stands before the second one of `xs`, in which it is repeated.
      have hlt := getD_lt_getD_of_pairwise hsorted 0 hlast hp.lt
      have hdouble : 2 * p ≤ xs.length := Nat.mul_le_of_le_div _ _ _ hp.two_le_div
      have hsum := hp.periodic.2 ((count - 1) * q) (by omega)
      have hin : xs.getD ((count - 1) * q + p) 0 < bound := by
        rw [List.getD_eq_getElem _ _ (by omega)]
        exact hbound _ (List.getElem_mem _)
      rw [← hsum, hvalue] at hin
      rw [hvalue] at hlt
      calc stride * count ≤ stride * ((count - 1) + (count - 1)) :=
            Nat.mul_le_mul_left _ (by omega)
        _ = (count - 1) * stride + (count - 1) * stride := by ring
        _ < bound := by omega

/-! ### Factors -/

/-- The multiples that the strides are of the extents below them, with the lengths; the innermost
level comes first. -/
def factors : ℕ → List Level → List (ℕ × ℕ)
  | _, [] => []
  | extent, level :: levels => (level.1 / extent, level.2) :: factors (level.1 * level.2) levels

/-- Each stride is a multiple of the extent below it. -/
def DividesEvenly : ℕ → List Level → Prop
  | _, [] => True
  | extent, level :: levels => extent ∣ level.1 ∧ DividesEvenly (level.1 * level.2) levels

theorem length_factors (extent : ℕ) (levels : List Level) :
    (factors extent levels).length = levels.length := by
  induction levels generalizing extent with
  | nil => rfl
  | cons level levels ih => rw [factors, List.length_cons, ih, List.length_cons]

theorem snd_of_mem_factors {extent : ℕ} {dim : ℕ × ℕ} (h : dim ∈ factors extent levels) :
    ∃ level ∈ levels, dim.2 = level.2 := by
  induction levels generalizing extent with
  | nil => exact absurd h List.not_mem_nil
  | cons level levels ih =>
    rcases List.mem_cons.mp h with rfl | hrest
    · exact ⟨level, List.mem_cons_self, rfl⟩
    · obtain ⟨level', hmem, heq⟩ := ih hrest
      exact ⟨level', List.mem_cons_of_mem _ hmem, heq⟩

/-- Where the levels divide evenly, no factor is zero. -/
theorem DividesEvenly.fst_pos {extent : ℕ} (h : DividesEvenly extent levels)
    (hpos : ∀ level ∈ levels, 0 < level.1) : ∀ dim ∈ factors extent levels, 0 < dim.1 := by
  induction levels generalizing extent with
  | nil => exact nofun
  | cons level levels ih =>
    rw [List.forall_mem_cons] at hpos
    rw [factors, List.forall_mem_cons]
    refine ⟨Nat.div_pos (Nat.le_of_dvd hpos.1 h.1) ?_, ih h.2 hpos.2⟩
    exact Nat.pos_of_dvd_of_pos h.1 hpos.1

/-- Levels that divide evenly are determined by their factors. -/
theorem eq_of_factors_eq {extent : ℕ} {levels' : List Level} (h : DividesEvenly extent levels)
    (h' : DividesEvenly extent levels') (heq : factors extent levels = factors extent levels') :
    levels = levels' := by
  induction levels generalizing extent levels' with
  | nil =>
    cases levels' with
    | nil => rfl
    | cons _ _ => exact absurd heq nofun
  | cons level levels ih =>
    cases levels' with
    | nil => exact absurd heq nofun
    | cons level' levels' =>
      rw [factors, factors, List.cons.injEq, Prod.mk.injEq] at heq
      obtain ⟨⟨hquot, hcount⟩, hrest⟩ := heq
      have hstride : level.1 = level'.1 := by
        rw [← Nat.div_mul_cancel h.1, hquot, Nat.div_mul_cancel h'.1]
      obtain rfl : level = level' := Prod.ext hstride hcount
      rw [ih h.2 h'.2 hrest]

end PropMiner.Semantics.Progression
