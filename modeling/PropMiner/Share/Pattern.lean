import Mathlib.Algebra.Order.BigOperators.GroupWithZero.List
import PropMiner.Semantics.Fallible
import PropMiner.Semantics.Progression
import PropMiner.Share.Types

/-!
# Periodic patterns from index lists

`PeriodicPattern::from_indices` cuts an index list down to its shortest period until one
index is left, and keeps the strides and lengths of the three innermost levels. The sums it
compares are 32 bits wide.

## Main definitions

* `PeriodicPattern.fromIndices` — `from_indices`
* `PeriodicPattern.values`, `PeriodicPattern.Represents` — the indices a pattern stands for
* `PeriodicPattern.AtMostThreeLevels` — the lists no level of which is lost

## Main results

* `findPeriod_eq_some_iff` — the search finds the shortest period
* `factorShape_eq_ok_iff` — the loop finds the levels of the list
* `fromIndices_sound_iff` — the pattern stands for the list if no level is lost
-/

set_option autoImplicit false

namespace PropMiner.Share.PeriodicPattern

open Semantics Semantics.Progression

/-- A `Pair` of the shape. -/
structure Pair where
  stride : UInt32
  length : UInt32
  deriving DecidableEq, Repr

variable {p : List UInt32} {period : ℕ}

/-- The body of the search: the size is a multiple of the period, and each element is the
one a period before plus the stride. -/
def isPeriodic (p : List UInt32) (period : ℕ) : Bool :=
  p.length % period == 0 &&
    (List.range (p.length - period)).all fun i =>
      p.getD i 0 + p.getD period 0 == p.getD (i + period) 0

/-- The `for` loop over the periods. -/
def findPeriod (p : List UInt32) : Option ℕ :=
  (List.range' 1 (p.length - 1)).find? (isPeriodic p)

theorem findPeriod_eq_some (h : findPeriod p = some period) :
    isPeriodic p period ∧ (1 ≤ period ∧ period < p.length) ∧
      ∀ q, 1 ≤ q → q < period → isPeriodic p q = false := by
  rw [findPeriod, List.find?_range'_eq_some] at h
  obtain ⟨hperiodic, hmem, hleast⟩ := h
  rw [List.mem_range'_1] at hmem
  refine ⟨hperiodic, by omega, fun q hq hlt => ?_⟩
  simpa using hleast q hq hlt

/-- The `while` loop: what is pushed to the shape, in this order. -/
def factorShape (p : List UInt32) : Except Exception (List Pair) :=
  if p.length ≤ 1 then .ok []
  else
    match _h : findPeriod p with
    | none => .error (.invalidArgument "Pattern is not periodic")
    | some period =>
      (factorShape (p.take period)).map
        (⟨p.getD period 0, UInt32.ofNat (p.length / period)⟩ :: ·)
termination_by p.length
decreasing_by
  have hlt := (findPeriod_eq_some _h).2.1.2
  rw [List.length_take]
  omega

/-- The shape filled up to three pairs. -/
def fillUp (shape : List Pair) : List Pair :=
  let trailing := match shape.getLast? with
    | none => 1
    | some pair => pair.stride * pair.length
  shape ++ List.replicate (3 - shape.length) ⟨trailing, 1⟩

/-- The first three pairs of the filled shape. -/
def ofShape (shape : List Pair) : PeriodicPattern :=
  match fillUp shape with
  | first :: second :: third :: _ =>
    { stride0 := first.stride, length0 := first.length
      stride1 := second.stride, length1 := second.length
      stride2 := third.stride, length2 := third.length }
  | _ => {}

/-- `from_indices` -/
def fromIndices (pattern : List UInt32) : Except Exception PeriodicPattern :=
  if pattern = [] then .error (.invalidArgument "Pattern cannot be empty")
  else if (List.range' 1 (pattern.length - 1)).any
      fun i => pattern.getD i 0 ≤ pattern.getD (i - 1) 0 then
    .error (.invalidArgument "Pattern must be sorted and have no duplicates")
  else if pattern.getD 0 0 ≠ 0 then .error (.invalidArgument "Pattern must start at 0")
  else (factorShape pattern).map fun shape => ofShape shape.reverse

/-- The values `i * stride0 + j * stride1 + l * stride2`. -/
def values (q : PeriodicPattern) : List ℕ :=
  (List.range q.length2.toNat).flatMap fun l =>
    (List.range q.length1.toNat).flatMap fun j =>
      (List.range q.length0.toNat).map fun i =>
        i * q.stride0.toNat + j * q.stride1.toNat + l * q.stride2.toNat

/-- The sorted values are the list, and `size` is its length. -/
structure Represents (q : PeriodicPattern) (xs : List UInt32) : Prop where
  sorted : q.values.mergeSort = xs.map UInt32.toNat
  size_eq : q.size.toNat = xs.length

/-- What is returned stands for the list; a list without a three-level form is rejected. -/
structure Sound (xs : List UInt32) : Prop where
  represents : ∀ q, fromIndices xs = .ok q → q.Represents xs
  rejects : (∀ q : PeriodicPattern, q.values.mergeSort ≠ xs.map UInt32.toNat) →
    ∃ e, fromIndices xs = .error e

/-- An increasing list from zero on that is a nested progression has three levels at most,
and is not the list of all numbers of 32 bits. -/
def AtMostThreeLevels (xs : List UInt32) : Prop :=
  xs.Pairwise (· < ·) → xs.head? = some 0 → ∀ levels, Peels (xs.map UInt32.toNat) levels →
    levels.length ≤ 3 ∧ xs.length < 2 ^ 32

/-! ### The search for a period -/

theorem getD_map_toNat (xs : List UInt32) (i : ℕ) :
    (xs.map UInt32.toNat).getD i 0 = (xs.getD i 0).toNat :=
  List.getD_map xs 0 UInt32.toNat

theorem pairwise_map_toNat (hsorted : p.Pairwise (· < ·)) :
    (p.map UInt32.toNat).Pairwise (· < ·) :=
  List.pairwise_map.mpr (hsorted.imp UInt32.lt_iff_toNat_lt.mp)

theorem lt_of_mem_map_toNat : ∀ n ∈ p.map UInt32.toNat, n < 2 ^ 32 := by
  intro n hn
  obtain ⟨x, -, rfl⟩ := List.mem_map.mp hn
  exact x.toNat_lt

/-- Between increasing numbers the 32-bit sum does not wrap. -/
theorem add_eq_iff_toNat {a s b : UInt32} (h : a < b) :
    a + s = b ↔ a.toNat + s.toNat = b.toNat := by
  rw [← UInt32.toNat_inj, UInt32.toNat_add]
  rw [UInt32.lt_iff_toNat_lt] at h
  have := a.toNat_lt
  have := s.toNat_lt
  have := b.toNat_lt
  omega

theorem isPeriodic_iff (hsorted : p.Pairwise (· < ·)) (hpos : 1 ≤ period) :
    isPeriodic p period ↔ HasPeriod (p.map UInt32.toNat) period := by
  rw [isPeriodic, Bool.and_eq_true, beq_iff_eq, List.all_eq_true, HasPeriod, List.length_map,
    Nat.dvd_iff_mod_eq_zero]
  refine and_congr_right fun _ => forall_congr' fun i => ?_
  rw [List.mem_range, Nat.lt_sub_iff_add_lt, getD_map_toNat, getD_map_toNat, getD_map_toNat,
    beq_iff_eq]
  exact forall_congr' fun hi => add_eq_iff_toNat
    (getD_lt_getD_of_pairwise hsorted 0 (by omega) hi)

/-- The search finds the shortest period. -/
theorem findPeriod_eq_some_iff (hsorted : p.Pairwise (· < ·)) :
    findPeriod p = some period ↔ ShortestPeriod (p.map UInt32.toNat) period := by
  rw [findPeriod, List.find?_range'_eq_some]
  constructor
  · rintro ⟨hperiodic, hmem, hleast⟩
    rw [List.mem_range'_1] at hmem
    refine ⟨hmem.1, by rw [List.length_map]; omega, (isPeriodic_iff hsorted hmem.1).mp hperiodic,
      fun q hq hlt hperiod => ?_⟩
    have hnot := hleast q hq hlt
    rw [(isPeriodic_iff hsorted hq).mpr hperiod] at hnot
    exact Bool.noConfusion hnot
  · intro h
    have hlt := h.lt
    rw [List.length_map] at hlt
    refine ⟨(isPeriodic_iff hsorted h.pos).mpr h.periodic, ?_, fun q hq hqlt => ?_⟩
    · rw [List.mem_range'_1]
      exact ⟨h.pos, by omega⟩
    · rw [Bool.not_eq_true', ← Bool.not_eq_true, isPeriodic_iff hsorted hq]
      exact h.least q hq hqlt

/-! ### The loop -/

/-- The pair the loop pushes for a level. -/
def pairOf (level : Level) : Pair := ⟨UInt32.ofNat level.1, UInt32.ofNat level.2⟩

theorem factorShape_of_findPeriod (h : findPeriod p = some period) :
    factorShape p = (factorShape (p.take period)).map
      (⟨p.getD period 0, UInt32.ofNat (p.length / period)⟩ :: ·) := by
  have hlt := (findPeriod_eq_some h).2.1
  rw [factorShape, if_neg (by omega)]
  split
  · rename_i hnone
    rw [h] at hnone
    exact absurd hnone nofun
  · rename_i q hq
    rw [h, Option.some.injEq] at hq
    rw [hq]

theorem eq_singleton_of_length_le (hzero : p.head? = some 0) (h : p.length ≤ 1) : p = [0] := by
  match p, hzero, h with
  | [_], hzero, _ => rw [Option.some.inj hzero]

theorem head?_take (hzero : p.head? = some 0) (hpos : 1 ≤ period) :
    (p.take period).head? = some 0 := by
  rw [List.head?_take, if_neg (by omega), hzero]

theorem pairOf_peel (p : List UInt32) (period : ℕ) :
    pairOf ((p.map UInt32.toNat).getD period 0, (p.map UInt32.toNat).length / period) =
      ⟨p.getD period 0, UInt32.ofNat (p.length / period)⟩ := by
  rw [pairOf, getD_map_toNat, UInt32.ofNat_toNat, List.length_map]

/-- While the loop goes on, there is an outermost level to find. -/
theorem exists_peel {levels : List Level} (hle : ¬ p.length ≤ 1)
    (h : Peels (p.map UInt32.toNat) levels) :
    ∃ period lower, ShortestPeriod (p.map UInt32.toNat) period ∧
      Peels ((p.map UInt32.toNat).take period) lower ∧
      levels = ((p.map UInt32.toNat).getD period 0, (p.map UInt32.toNat).length / period) ::
        lower := by
  refine h.eq_or_exists.resolve_left fun ⟨hone, _⟩ => hle ?_
  rw [← List.length_map UInt32.toNat, hone, List.length_singleton]

/-- The loop finds the levels of the list. -/
theorem factorShape_eq_ok_iff (hsorted : p.Pairwise (· < ·)) (hzero : p.head? = some 0)
    (shape : List Pair) :
    factorShape p = .ok shape ↔
      ∃ levels, Peels (p.map UInt32.toNat) levels ∧ levels.map pairOf = shape := by
  induction p using factorShape.induct generalizing shape with
  | case1 p hle =>
    rw [factorShape, if_pos hle, eq_singleton_of_length_le hzero hle]
    constructor
    · rintro ⟨⟩
      exact ⟨[], .done, rfl⟩
    · rintro ⟨levels, hpeels, rfl⟩
      rw [hpeels.unique .done]
      rfl
  | case2 p hle hnone =>
    refine iff_of_false (fun h => ?_) fun ⟨levels, hpeels, _⟩ => ?_
    · rw [factorShape, if_neg hle] at h
      split at h
      · exact absurd h nofun
      · simp_all
    · obtain ⟨period, -, hp, -⟩ := exists_peel hle hpeels
      rw [← findPeriod_eq_some_iff hsorted, hnone] at hp
      exact absurd hp nofun
  | case3 p hle period hperiod ih =>
    -- Both sides cut the list at the same period: the search finds the shortest one.
    have hpos := (findPeriod_eq_some hperiod).2.1.1
    have ih := ih hsorted.take (head?_take hzero hpos)
    rw [factorShape_of_findPeriod hperiod, map_eq_ok]
    constructor
    · rintro ⟨lower, hlower, rfl⟩
      obtain ⟨levels, hpeels, rfl⟩ := (ih lower).mp hlower
      rw [List.map_take] at hpeels
      refine ⟨_, .peel ((findPeriod_eq_some_iff hsorted).mp hperiod) hpeels, ?_⟩
      rw [List.map_cons, pairOf_peel]
    · rintro ⟨levels, hpeels, rfl⟩
      obtain ⟨q, lower, hp, hlower, rfl⟩ := exists_peel hle hpeels
      rw [← findPeriod_eq_some_iff hsorted, hperiod, Option.some.injEq] at hp
      subst hp
      rw [← List.map_take] at hlower
      refine ⟨_, (ih _).mpr ⟨lower, hlower, rfl⟩, ?_⟩
      rw [List.map_cons, pairOf_peel]

/-! ### The checks before the loop -/

/-- The first loop throws unless the list increases. -/
theorem any_le_eq_false_iff :
    ((List.range' 1 (p.length - 1)).any fun i => p.getD i 0 ≤ p.getD (i - 1) 0) = false ↔
      p.Pairwise (· < ·) := by
  rw [← List.isChain_iff_pairwise, List.isChain_iff_getElem, List.any_eq_false]
  constructor
  · intro h i hi
    have hlt := h (i + 1) (by rw [List.mem_range'_1]; omega)
    rw [decide_eq_true_eq, UInt32.not_le, Nat.add_sub_cancel, List.getD_eq_getElem _ _ hi,
      List.getD_eq_getElem _ _ (by omega)] at hlt
    exact hlt
  · intro h i hi
    rw [List.mem_range'_1] at hi
    obtain ⟨i, rfl⟩ := Nat.exists_eq_add_of_le' hi.1
    have hlt : i + 1 < p.length := by omega
    rw [decide_eq_true_eq, UInt32.not_le, Nat.add_sub_cancel, List.getD_eq_getElem _ _ hlt,
      List.getD_eq_getElem _ _ (by omega)]
    exact h i hlt

/-- What is accepted: the increasing lists from zero on with all their levels. -/
theorem fromIndices_eq_ok_iff {xs : List UInt32} {q : PeriodicPattern} :
    fromIndices xs = .ok q ↔
      xs.Pairwise (· < ·) ∧ xs.head? = some 0 ∧
        ∃ levels, Peels (xs.map UInt32.toNat) levels ∧
          ofShape (levels.map pairOf).reverse = q := by
  cases xs with
  | nil => simp [fromIndices]
  | cons x xs =>
    rw [fromIndices, if_neg (List.cons_ne_nil _ _), List.getD_cons_zero, List.head?_cons,
      Option.some.injEq]
    split_ifs with hany hhead
    · refine iff_of_false nofun fun ⟨hsorted, _⟩ => ?_
      rw [any_le_eq_false_iff.mpr hsorted] at hany
      exact Bool.noConfusion hany
    · exact iff_of_false nofun fun ⟨_, hzero, _⟩ => hhead hzero
    · rw [Bool.not_eq_true, any_le_eq_false_iff] at hany
      rw [not_not] at hhead
      rw [map_eq_ok, and_iff_right hany, and_iff_right hhead]
      have hloop := factorShape_eq_ok_iff hany (hhead ▸ List.head?_cons)
      constructor
      · rintro ⟨shape, hshape, rfl⟩
        obtain ⟨levels, hpeels, rfl⟩ := (hloop shape).mp hshape
        exact ⟨levels, hpeels, rfl⟩
      · rintro ⟨levels, hpeels, rfl⟩
        exact ⟨_, (hloop _).mpr ⟨levels, hpeels, rfl⟩, rfl⟩

theorem fromIndices_pair {s : UInt32} (h : 0 < s) :
    fromIndices [0, s] = .ok ⟨s, 2, s * 2, 1, s * 2, 1⟩ := by
  refine fromIndices_eq_ok_iff.mpr ⟨by simpa using h, rfl, _, peels_pair s.toNat, ?_⟩
  rw [List.map_singleton, List.reverse_singleton, pairOf, UInt32.ofNat_toNat]
  rfl

-- `default_rows` is the pattern of its index list
example : fromIndices [0, 8] = .ok defaultRows := fromIndices_pair (by decide)

-- `default_cols` is the pattern of its index list
example :
    fromIndices ((List.range 32).flatMap fun r =>
        [UInt32.ofNat (8 * r), UInt32.ofNat (8 * r + 1)]) =
      .ok defaultCols := by
  have hshape : factorShape ((List.range 32).flatMap fun r =>
      [UInt32.ofNat (8 * r), UInt32.ofNat (8 * r + 1)]) = .ok [⟨8, 32⟩, ⟨1, 2⟩] := by
    rw [factorShape_of_findPeriod (show findPeriod _ = some 2 by decide +kernel),
      factorShape_of_findPeriod (show findPeriod (List.take 2 _) = some 1 by decide +kernel),
      factorShape, if_pos (by decide +kernel)]
    decide +kernel
  rw [fromIndices, hshape]
  decide +kernel

/-! ### What the pattern stands for -/

theorem values_eq_nested (q : PeriodicPattern) :
    q.values = nested [(q.stride2.toNat, q.length2.toNat), (q.stride1.toNat, q.length1.toNat),
      (q.stride0.toNat, q.length0.toNat)] := by
  simp only [values, nested, spread, List.map_eq_flatMap, List.flatMap_assoc,
    List.flatMap_singleton, Nat.zero_add, Nat.add_comm, Nat.add_assoc]

theorem length_values (q : PeriodicPattern) :
    q.values.length = q.length2.toNat * (q.length1.toNat * q.length0.toNat) := by
  rw [values_eq_nested, length_nested]
  simp

/-- `size` counts the values, up to 32 bits. -/
theorem toNat_size (q : PeriodicPattern) : q.size.toNat = q.values.length % 2 ^ 32 := by
  rw [size, UInt32.toNat_mul, UInt32.toNat_mul, Nat.mod_mul_mod, length_values, Nat.mul_comm,
    Nat.mul_comm q.length1.toNat]

/-- With three levels or fewer nothing is lost. -/
theorem values_ofShape {levels : List Level} (hlevels : levels.length ≤ 3)
    (hbound : ∀ level ∈ levels, level.1 < 2 ^ 32 ∧ level.2 < 2 ^ 32) :
    (ofShape (levels.map pairOf).reverse).values = nested levels := by
  have hpair : ∀ level ∈ levels, (pairOf level).stride.toNat = level.1 ∧
      (pairOf level).length.toNat = level.2 := fun level hlevel =>
    ⟨UInt32.toNat_ofNat_of_lt' (hbound level hlevel).1,
      UInt32.toNat_ofNat_of_lt' (hbound level hlevel).2⟩
  rw [values_eq_nested]
  match levels, hlevels with
  | [], _ => rfl
  | [a], _ => simp [ofShape, fillUp, nested, spread_one, hpair]
  | [a, b], _ => simp [ofShape, fillUp, nested, spread_one, hpair]
  | [a, b, c], _ => simp [ofShape, fillUp, nested, hpair]

theorem toNat_length_pairOf_le (level : Level) : (pairOf level).length.toNat ≤ level.2 := by
  rw [pairOf, UInt32.toNat_ofNat']
  exact Nat.mod_le _ _

/-- Beyond three levels, values are missing. -/
theorem length_values_ofShape_lt {levels : List Level} (hlevels : 3 < levels.length)
    (htwo : ∀ level ∈ levels, 2 ≤ level.2) :
    (ofShape (levels.map pairOf).reverse).values.length < (levels.map Prod.snd).prod := by
  rw [← List.map_reverse, ← List.prod_reverse, ← List.map_reverse]
  rw [← List.length_reverse] at hlevels
  have htwo : ∀ level ∈ levels.reverse, 2 ≤ level.2 := fun level hlevel =>
    htwo level (List.mem_reverse.mp hlevel)
  generalize levels.reverse = inner at hlevels htwo
  -- Only the three innermost lengths are kept, and the fourth one is two at least.
  match inner, hlevels with
  | a :: b :: c :: d :: rest, _ =>
    have hrest : 0 < (rest.map Prod.snd).prod := by
      refine List.prod_pos fun n hn => ?_
      obtain ⟨level, hlevel, rfl⟩ := List.mem_map.mp hn
      exact Nat.zero_lt_of_lt (htwo level (by simp [hlevel]))
    have hthree : 0 < c.2 * (b.2 * a.2) := by
      have := htwo a (by simp)
      have := htwo b (by simp)
      have := htwo c (by simp)
      positivity
    have hmore : 2 ≤ d.2 * (rest.map Prod.snd).prod :=
      (htwo d (by simp)).trans (Nat.le_mul_of_pos_right _ hrest)
    calc (ofShape ((a :: b :: c :: d :: rest).map pairOf)).values.length
        = (pairOf c).length.toNat * ((pairOf b).length.toNat * (pairOf a).length.toNat) := by
          rw [length_values]
          rfl
      _ ≤ c.2 * (b.2 * a.2) := by
          gcongr
          · exact toNat_length_pairOf_le c
          · exact toNat_length_pairOf_le b
          · exact toNat_length_pairOf_le a
      _ < c.2 * (b.2 * a.2) * (d.2 * (rest.map Prod.snd).prod) :=
          lt_mul_of_one_lt_right hthree hmore
      _ = ((a :: b :: c :: d :: rest).map Prod.snd).prod := by
          simp only [List.map_cons, List.prod_cons]
          ring

/-- A pattern with all levels of the list stands for it. -/
theorem represents_ofShape {xs : List UInt32} {levels : List Level}
    (hsorted : xs.Pairwise (· < ·)) (hpeels : Peels (xs.map UInt32.toNat) levels)
    (hlevels : levels.length ≤ 3) (hlength : xs.length < 2 ^ 32) :
    (ofShape (levels.map pairOf).reverse).Represents xs := by
  have hvalues : (ofShape (levels.map pairOf).reverse).values = xs.map UInt32.toNat := by
    rw [values_ofShape hlevels fun level hlevel => ⟨?_, ?_⟩, hpeels.nested_eq]
    · exact lt_of_mem_map_toNat _ (hpeels.fst_mem level hlevel)
    · refine lt_of_le_of_lt (hpeels.snd_le level hlevel) ?_
      rwa [List.length_map]
  refine ⟨?_, ?_⟩
  · rw [hvalues]
    exact List.mergeSort_of_pairwise ((pairwise_map_toNat hsorted).imp fun h =>
      decide_eq_true h.le)
  · rw [toNat_size, hvalues, List.length_map, Nat.mod_eq_of_lt hlength]

/-- **Index lists.** The loop ends for every list, and what it returns stands for the list, if
and only if cutting the list down finds at most three levels, and it is not the list of all
numbers of 32 bits. -/
theorem fromIndices_sound_iff (xs : List UInt32) : Sound xs ↔ AtMostThreeLevels xs := by
  constructor
  · intro hsound hsorted hzero levels hpeels
    have hok := fromIndices_eq_ok_iff.mpr ⟨hsorted, hzero, levels, hpeels, rfl⟩
    have hrep := hsound.represents _ hok
    constructor
    · -- A level too many leaves fewer values than the list has.
      by_contra hmore
      have hlt := length_values_ofShape_lt (Nat.lt_of_not_le hmore) hpeels.two_le
      rw [hpeels.prod_eq, ← hrep.sorted, List.length_mergeSort] at hlt
      exact lt_irrefl _ hlt
    · rw [← hrep.size_eq]
      exact UInt32.toNat_lt _
  · intro hthree
    have hrep : ∀ q, fromIndices xs = .ok q → q.Represents xs := by
      intro q hq
      obtain ⟨hsorted, hzero, levels, hpeels, rfl⟩ := fromIndices_eq_ok_iff.mp hq
      obtain ⟨hlevels, hlength⟩ := hthree hsorted hzero levels hpeels
      exact represents_ofShape hsorted hpeels hlevels hlength
    refine ⟨hrep, fun hform => ?_⟩
    cases hresult : fromIndices xs with
    | error e => exact ⟨e, rfl⟩
    | ok q => exact absurd (hrep q hresult).sorted (hform q)

/-- Two copies at each of four levels. -/
def fourLevels : List UInt32 :=
  [0, 1, 4, 5, 16, 17, 20, 21, 64, 65, 68, 69, 80, 81, 84, 85]

/-- The outermost of the four levels is lost: the pattern stands for eight of the sixteen
indices. -/
theorem fromIndices_fourLevels :
    fromIndices fourLevels = .ok ⟨1, 2, 4, 2, 16, 2⟩ ∧ ¬ Sound fourLevels := by
  have hshape : factorShape fourLevels = .ok [⟨64, 2⟩, ⟨16, 2⟩, ⟨4, 2⟩, ⟨1, 2⟩] := by
    rw [factorShape_of_findPeriod (show findPeriod fourLevels = some 8 by decide),
      factorShape_of_findPeriod (show findPeriod (fourLevels.take 8) = some 4 by decide),
      factorShape_of_findPeriod (show findPeriod (List.take 4 _) = some 2 by decide),
      factorShape_of_findPeriod (show findPeriod (List.take 2 _) = some 1 by decide)]
    rw [factorShape, if_pos (by decide)]
    decide
  have hok : fromIndices fourLevels = .ok ⟨1, 2, 4, 2, 16, 2⟩ := by
    rw [fromIndices, hshape]
    decide
  refine ⟨hok, fun h => ?_⟩
  exact absurd (h.represents _ hok).size_eq (by decide)

end PropMiner.Share.PeriodicPattern
