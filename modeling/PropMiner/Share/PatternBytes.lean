import PropMiner.Share.Pattern

/-!
# What the bytes of a pattern commit to

`PeriodicPattern::to_bytes` stores, for each of three dimensions, the quotient of the stride by
the extent below it and the length, both less one and cut down to a byte. The configuration bytes
that go into the job key hold the bytes of both patterns.

The division has no result where the extent below is zero. That happens for accepted lists whose
outermost level ends exactly at the 32-bit range.

## Main definitions

* `PeriodicPattern.encoding` — the bytes, where there are any
* `PeriodicPattern.Commits` — equal bytes come from equal lists
* `PeriodicPattern.dims` — the factors and lengths of the three innermost levels
* `PeriodicPattern.Distinguished` — levels that agree modulo 256 are the same
* `PeriodicPattern.FitsBytes` — nothing is cut off

## Main results

* `encoding_eq_some_iff` — the bytes hold the three innermost levels modulo 256
* `commits_iff` — the lists the bytes tell apart
-/

set_option autoImplicit false

namespace PropMiner.Share.PeriodicPattern

open Semantics Semantics.Progression

/-- The bytes of `to_bytes`, which divides by the two lower extents. -/
def encoding (q : PeriodicPattern) : Option (List UInt8) :=
  if q.stride0 * q.length0 = 0 ∨ q.stride1 * q.length1 = 0 then none else some q.toBytes

/-- Equal bytes come from equal lists. -/
def Commits (xs ys : List UInt32) : Prop :=
  ∀ q r bytes, fromIndices xs = .ok q → fromIndices ys = .ok r → q.encoding = some bytes →
    r.encoding = some bytes → xs = ys

/-- The factors and lengths of the three innermost levels, filled up with trivial ones. -/
def dims (levels : List Level) : List (ℕ × ℕ) :=
  (factors 1 levels.reverse ++ List.replicate 3 (1, 1)).take 3

/-- Fewer than three levels do not end exactly at the 32-bit range. -/
def Encodable (levels : List Level) : Prop :=
  3 ≤ levels.length ∨ ∀ level ∈ levels.head?, ¬ 2 ^ 32 ∣ level.1 * level.2

/-- A factor and a length as a byte each can hold them. -/
def modulo (dim : ℕ × ℕ) : ℕ × ℕ := (dim.1 % 256, dim.2 % 256)

/-- Two index lists whose three innermost levels agree modulo 256 have the same levels. -/
def Distinguished (xs ys : List UInt32) : Prop :=
  xs.Pairwise (· < ·) → ys.Pairwise (· < ·) → ∀ levels levels',
    Peels (xs.map UInt32.toNat) levels → Peels (ys.map UInt32.toNat) levels' →
    Encodable levels → Encodable levels' →
    (dims levels).map modulo = (dims levels').map modulo → levels = levels'

/-- At most three levels, each stride a multiple of the extent below it, the multiples and the
lengths up to 256. -/
def FitsBytes (xs : List UInt32) : Prop :=
  ∀ levels, Peels (xs.map UInt32.toNat) levels → levels.length ≤ 3 ∧
    DividesEvenly 1 levels.reverse ∧ ∀ dim ∈ factors 1 levels.reverse, dim.1 ≤ 256 ∧ dim.2 ≤ 256

/-! ### The bytes of the levels -/

/-- The two bytes of a dimension. -/
def dimBytes (dim : ℕ × ℕ) : List UInt8 :=
  [(UInt32.ofNat dim.1 - 1).toUInt8, (UInt32.ofNat dim.2 - 1).toUInt8]

theorem toUInt8_sub_one_eq_iff (m n : ℕ) :
    (UInt32.ofNat m - 1).toUInt8 = (UInt32.ofNat n - 1).toUInt8 ↔ m % 256 = n % 256 := by
  have htoNat : ∀ k : ℕ, (UInt32.ofNat k - 1).toUInt8.toNat = (k + 255) % 256 := by
    intro k
    rw [UInt32.toNat_toUInt8, UInt32.toNat_sub, UInt32.toNat_ofNat', show (1 : UInt32).toNat = 1
      from rfl]
    omega
  rw [← UInt8.toNat_inj, htoNat, htoNat]
  omega

/-- Equal bytes are equal dimensions modulo 256. -/
theorem flatMap_dimBytes_eq_iff {l l' : List (ℕ × ℕ)} (hlength : l.length = l'.length) :
    l.flatMap dimBytes = l'.flatMap dimBytes ↔ l.map modulo = l'.map modulo := by
  induction l generalizing l' with
  | nil =>
    rw [List.length_nil] at hlength
    rw [List.eq_nil_of_length_eq_zero hlength.symm]
    exact iff_of_true rfl rfl
  | cons dim l ih =>
    cases l' with
    | nil => exact absurd hlength nofun
    | cons dim' l' =>
      simp only [List.flatMap_cons, List.map_cons, dimBytes, modulo, List.cons_append,
        List.nil_append, List.cons.injEq, Prod.mk.injEq, toUInt8_sub_one_eq_iff, and_assoc]
      rw [ih (Nat.succ.inj hlength)]

theorem length_dims (levels : List Level) : (dims levels).length = 3 := by
  rw [dims, List.length_take, List.length_append, List.length_replicate]
  omega

theorem pairOf_extent (level : Level) :
    (pairOf level).stride * (pairOf level).length = UInt32.ofNat (level.1 * level.2) :=
  (UInt32.ofNat_mul _ _).symm

theorem ofNat_eq_zero_iff (n : ℕ) : UInt32.ofNat n = 0 ↔ 2 ^ 32 ∣ n := by
  rw [← UInt32.toNat_inj, UInt32.toNat_ofNat', Nat.dvd_iff_mod_eq_zero]
  rfl

theorem div_self_of_ne_zero {a : UInt32} (h : a ≠ 0) : a / a = 1 := by
  rw [← UInt32.toNat_inj, UInt32.toNat_div]
  exact Nat.div_self (Nat.pos_of_ne_zero fun hzero => h (UInt32.toNat_inj.mp hzero))

theorem encoding_eq_some {q : PeriodicPattern} {bytes : List UInt8} :
    q.encoding = some bytes ↔
      (q.stride0 * q.length0 ≠ 0 ∧ q.stride1 * q.length1 ≠ 0) ∧ q.toBytes = bytes := by
  rw [encoding, ← not_or]
  split_ifs with h
  · exact iff_of_false nofun fun hnot => hnot.1 h
  · rw [and_iff_right h, Option.some.injEq]

/-- The bytes of a pattern from the three quotients and lengths. -/
theorem toBytes_eq_flatMap {q : PeriodicPattern} {f₀ f₁ f₂ n₀ n₁ n₂ : ℕ}
    (hf₀ : q.stride0 / 1 = UInt32.ofNat f₀) (hn₀ : q.length0 = UInt32.ofNat n₀)
    (hf₁ : q.stride1 / (q.stride0 * q.length0) = UInt32.ofNat f₁)
    (hn₁ : q.length1 = UInt32.ofNat n₁)
    (hf₂ : q.stride2 / (q.stride1 * q.length1) = UInt32.ofNat f₂)
    (hn₂ : q.length2 = UInt32.ofNat n₂) :
    q.toBytes = [(f₀, n₀), (f₁, n₁), (f₂, n₂)].flatMap dimBytes := by
  dsimp only [toBytes]
  rw [hf₀, hf₁, hf₂, hn₀, hn₁, hn₂]
  rfl

section Inner

variable {a b c : Level} {rest : List Level} {bytes : List UInt8}

theorem ofNat_extent_ne_zero (hstride : 0 < a.1) (hcount : 2 ≤ a.2) (hlt : a.1 * a.2 < 2 ^ 32) :
    UInt32.ofNat (a.1 * a.2) ≠ 0 := by
  rw [Ne, ofNat_eq_zero_iff]
  exact Nat.not_dvd_of_pos_of_lt (Nat.mul_pos hstride (by omega)) hlt

theorem encoding_one :
    (ofShape [pairOf a]).encoding = some bytes ↔
      ¬ 2 ^ 32 ∣ a.1 * a.2 ∧ [(a.1, a.2), (1, 1), (1, 1)].flatMap dimBytes = bytes := by
  have hextent := pairOf_extent a
  rw [encoding_eq_some, ← ofNat_eq_zero_iff, ← hextent]
  change ((pairOf a).stride * (pairOf a).length ≠ 0 ∧
    (pairOf a).stride * (pairOf a).length * 1 ≠ 0) ∧ _ ↔ _
  rw [UInt32.mul_one, and_self]
  refine and_congr_right fun h => ?_
  rw [toBytes_eq_flatMap UInt32.div_one rfl (div_self_of_ne_zero h) rfl ?_ rfl]
  change _ / (_ * 1) = _
  rw [UInt32.mul_one]
  exact div_self_of_ne_zero h

theorem encoding_two (ha : UInt32.ofNat (a.1 * a.2) ≠ 0) (hlt : a.1 * a.2 < 2 ^ 32)
    (hb : b.1 < 2 ^ 32) :
    (ofShape [pairOf a, pairOf b]).encoding = some bytes ↔
      ¬ 2 ^ 32 ∣ b.1 * b.2 ∧
        [(a.1, a.2), (b.1 / (a.1 * a.2), b.2), (1, 1)].flatMap dimBytes = bytes := by
  have hbelow := pairOf_extent a
  have hextent := pairOf_extent b
  rw [encoding_eq_some, ← ofNat_eq_zero_iff, ← hextent]
  change ((pairOf a).stride * (pairOf a).length ≠ 0 ∧ _) ∧ _ ↔ _
  rw [hbelow, and_iff_right ha]
  refine and_congr_right fun h => ?_
  rw [toBytes_eq_flatMap UInt32.div_one rfl ?_ rfl (div_self_of_ne_zero h) rfl]
  change (pairOf b).stride / ((pairOf a).stride * (pairOf a).length) = _
  rw [hbelow, UInt32.ofNat_div hb hlt]
  rfl

theorem encoding_three (ha : UInt32.ofNat (a.1 * a.2) ≠ 0) (hlta : a.1 * a.2 < 2 ^ 32)
    (hb : UInt32.ofNat (b.1 * b.2) ≠ 0) (hltb : b.1 * b.2 < 2 ^ 32) (hstride : b.1 < 2 ^ 32)
    (hc : c.1 < 2 ^ 32) :
    (ofShape (pairOf a :: pairOf b :: pairOf c :: rest.map pairOf)).encoding = some bytes ↔
      [(a.1, a.2), (b.1 / (a.1 * a.2), b.2), (c.1 / (b.1 * b.2), c.2)].flatMap dimBytes =
        bytes := by
  have hbelow := pairOf_extent a
  have hmiddle := pairOf_extent b
  rw [encoding_eq_some]
  change ((pairOf a).stride * (pairOf a).length ≠ 0 ∧
    (pairOf b).stride * (pairOf b).length ≠ 0) ∧ _ ↔ _
  rw [hbelow, hmiddle, and_iff_right ⟨ha, hb⟩]
  rw [toBytes_eq_flatMap UInt32.div_one rfl ?_ rfl ?_ rfl]
  · change (pairOf b).stride / ((pairOf a).stride * (pairOf a).length) = _
    rw [hbelow, UInt32.ofNat_div hstride hlta]
    rfl
  · change (pairOf c).stride / ((pairOf b).stride * (pairOf b).length) = _
    rw [hmiddle, UInt32.ofNat_div hc hltb]
    rfl

end Inner

/-- The bytes hold the three innermost levels; there are none if the padding has extent zero. -/
theorem encoding_eq_some_iff {xs : List UInt32} {levels : List Level} {bytes : List UInt8}
    (hsorted : xs.Pairwise (· < ·)) (hpeels : Peels (xs.map UInt32.toNat) levels) :
    (ofShape (levels.map pairOf).reverse).encoding = some bytes ↔
      Encodable levels ∧ (dims levels).flatMap dimBytes = bytes := by
  replace hsorted := pairwise_map_toNat hsorted
  have hstride : ∀ level ∈ levels.reverse, level.1 < 2 ^ 32 := fun level hlevel =>
    lt_of_mem_map_toNat _ (hpeels.fst_mem level (List.mem_reverse.mp hlevel))
  -- Only the outermost level can end at the 32-bit range.
  have hextent : ∀ level ∈ levels.reverse.dropLast,
      level.1 * level.2 < 2 ^ 32 ∧ UInt32.ofNat (level.1 * level.2) ≠ 0 := by
    intro level hlevel
    rw [List.dropLast_reverse, List.mem_reverse] at hlevel
    have hlt := hpeels.extent_lt hsorted lt_of_mem_map_toNat level hlevel
    have hmem := List.mem_of_mem_tail hlevel
    exact ⟨hlt, ofNat_extent_ne_zero (hpeels.fst_pos hsorted level hmem)
      (hpeels.two_le level hmem) hlt⟩
  rw [Encodable, ← List.map_reverse, dims, ← List.getLast?_reverse, ← List.length_reverse]
  generalize levels.reverse = inner at hstride hextent ⊢
  -- One case for each number of pairs that `from_indices` fills up.
  match inner with
  | [] => simp [Option.mem_def, factors, ofShape, fillUp, encoding, toBytes, dimBytes]
  | [a] =>
    refine encoding_one.trans (and_congr ?_ (by simp [factors]))
    simp
  | [a, b] =>
    have ha := hextent a (by simp)
    refine (encoding_two ha.2 ha.1 (hstride b (by simp))).trans
      (and_congr ?_ (by simp [factors]))
    simp
  | a :: b :: c :: rest =>
    have ha := hextent a (by simp)
    have hb := hextent b (by simp)
    refine (encoding_three ha.2 ha.1 hb.2 hb.1 (hstride b (by simp)) (hstride c (by simp))).trans ?_
    rw [and_iff_right (.inl (by simp))]
    simp [factors]

/-! ### Lists the bytes tell apart -/

/-- Lists with the same levels are the same. -/
theorem eq_iff_levels_eq {xs ys : List UInt32} {levels levels' : List Level}
    (hx : Peels (xs.map UInt32.toNat) levels) (hy : Peels (ys.map UInt32.toNat) levels') :
    xs = ys ↔ levels = levels' := by
  constructor
  · rintro rfl
    exact hx.unique hy
  · rintro rfl
    exact Words.map_toNat_injective (hx.nested_eq.symm.trans hy.nested_eq)

theorem head?_of_peels {xs : List UInt32} {levels : List Level}
    (h : Peels (xs.map UInt32.toNat) levels) : xs.head? = some 0 := by
  cases xs with
  | nil => exact absurd h.length_pos (Nat.lt_irrefl 0)
  | cons x xs => exact congrArg some (UInt32.toNat_inj.mp h.getD_zero)

/-- The bytes tell two lists apart iff their levels modulo 256 do. -/
theorem commits_iff_distinguished (xs ys : List UInt32) :
    Commits xs ys ↔ Distinguished xs ys := by
  constructor
  · intro hcommits hx hy levels levels' hpx hpy hex hey hdims
    have hbytes := (flatMap_dimBytes_eq_iff
      ((length_dims levels).trans (length_dims levels').symm)).mpr hdims
    rw [← eq_iff_levels_eq hpx hpy]
    exact hcommits _ _ _ (fromIndices_eq_ok_iff.mpr ⟨hx, head?_of_peels hpx, levels, hpx, rfl⟩)
      (fromIndices_eq_ok_iff.mpr ⟨hy, head?_of_peels hpy, levels', hpy, rfl⟩)
      ((encoding_eq_some_iff hx hpx).mpr ⟨hex, rfl⟩)
      ((encoding_eq_some_iff hy hpy).mpr ⟨hey, hbytes.symm⟩)
  · intro hdist q r bytes hq hr hbq hbr
    obtain ⟨hx, -, levels, hpx, rfl⟩ := fromIndices_eq_ok_iff.mp hq
    obtain ⟨hy, -, levels', hpy, rfl⟩ := fromIndices_eq_ok_iff.mp hr
    obtain ⟨hex, hdx⟩ := (encoding_eq_some_iff hx hpx).mp hbq
    obtain ⟨hey, hdy⟩ := (encoding_eq_some_iff hy hpy).mp hbr
    rw [eq_iff_levels_eq hpx hpy]
    refine hdist hx hy levels levels' hpx hpy hex hey ?_
    rw [← flatMap_dimBytes_eq_iff ((length_dims levels).trans (length_dims levels').symm)]
    exact hdx.trans hdy.symm

/-- The number from 1 to 256 that leaves this remainder. -/
def unmodulo (n : ℕ) : ℕ := if n = 0 then 256 else n

theorem unmodulo_mod {n : ℕ} (hpos : 1 ≤ n) (hle : n ≤ 256) : unmodulo (n % 256) = n := by
  unfold unmodulo
  split_ifs <;> omega

theorem eq_of_map_modulo_eq {l l' : List (ℕ × ℕ)}
    (h : ∀ dim ∈ l, (1 ≤ dim.1 ∧ dim.1 ≤ 256) ∧ 1 ≤ dim.2 ∧ dim.2 ≤ 256)
    (h' : ∀ dim ∈ l', (1 ≤ dim.1 ∧ dim.1 ≤ 256) ∧ 1 ≤ dim.2 ∧ dim.2 ≤ 256)
    (heq : l.map modulo = l'.map modulo) : l = l' := by
  have hback : ∀ l : List (ℕ × ℕ),
      (∀ dim ∈ l, (1 ≤ dim.1 ∧ dim.1 ≤ 256) ∧ 1 ≤ dim.2 ∧ dim.2 ≤ 256) →
        (l.map modulo).map (Prod.map unmodulo unmodulo) = l := by
    intro l hl
    rw [List.map_map]
    refine (List.map_congr_left fun dim hdim => ?_).trans (List.map_id l)
    obtain ⟨⟨hpos, hle⟩, hpos', hle'⟩ := hl dim hdim
    exact Prod.ext (unmodulo_mod hpos hle) (unmodulo_mod hpos' hle')
  rw [← hback l h, heq, hback l' h']

/-- At most three levels fill the first places, and only these have a length above one. -/
theorem filter_dims {levels : List Level} (hlevels : levels.length ≤ 3)
    (htwo : ∀ level ∈ levels, 2 ≤ level.2) :
    (dims levels).filter (2 ≤ ·.2) = factors 1 levels.reverse := by
  have hlength : (factors 1 levels.reverse).length ≤ 3 := by
    rwa [length_factors, List.length_reverse]
  rw [dims, List.take_append, List.take_of_length_le hlength, List.filter_append,
    List.take_replicate, List.filter_replicate_of_neg (by decide), List.append_nil,
    List.filter_eq_self]
  intro dim hdim
  obtain ⟨level, hmem, heq⟩ := snd_of_mem_factors hdim
  rw [decide_eq_true_eq, heq]
  exact htwo level (List.mem_reverse.mp hmem)

/-- Where nothing is cut off, the dimensions are numbers from 1 to 256. -/
theorem FitsBytes.bounds {xs : List UInt32} {levels : List Level} (h : FitsBytes xs)
    (hsorted : xs.Pairwise (· < ·)) (hpeels : Peels (xs.map UInt32.toNat) levels) :
    ∀ dim ∈ dims levels, (1 ≤ dim.1 ∧ dim.1 ≤ 256) ∧ 1 ≤ dim.2 ∧ dim.2 ≤ 256 := by
  intro dim hdim
  obtain ⟨-, heven, hle⟩ := h levels hpeels
  have hstride : ∀ level ∈ levels.reverse, 0 < level.1 := fun level hlevel =>
    hpeels.fst_pos (pairwise_map_toNat hsorted) level (List.mem_reverse.mp hlevel)
  rcases List.mem_append.mp (List.mem_of_mem_take hdim) with hfactor | hpad
  · obtain ⟨level, hmem, heq⟩ := snd_of_mem_factors hfactor
    have htwo := hpeels.two_le level (List.mem_reverse.mp hmem)
    have hpos := heven.fst_pos hstride dim hfactor
    exact ⟨⟨hpos, (hle dim hfactor).1⟩, by omega, (hle dim hfactor).2⟩
  · rw [List.eq_of_mem_replicate hpad]
    decide

/-- Where nothing is cut off, the bytes tell any two lists apart. -/
theorem distinguished_of_fitsBytes {xs ys : List UInt32} (hx : FitsBytes xs) (hy : FitsBytes ys) :
    Distinguished xs ys := by
  intro hsx hsy levels levels' hpx hpy _ _ hdims
  -- Remainders of numbers from 1 to 256 give the numbers back; padding is told from levels by its
  -- length.
  have heq := eq_of_map_modulo_eq (hx.bounds hsx hpx) (hy.bounds hsy hpy) hdims
  have hfactors : factors 1 levels.reverse = factors 1 levels'.reverse := by
    rw [← filter_dims (hx levels hpx).1 hpx.two_le, heq,
      filter_dims (hy levels' hpy).1 hpy.two_le]
  exact List.reverse_injective
    (eq_of_factors_eq (hx levels hpx).2.1 (hy levels' hpy).2.1 hfactors)

/-- **Committed patterns.** Equal bytes of two accepted lists come from equal lists if and only if
their levels are the same whenever the three innermost ones agree modulo 256. That is so for lists
of at most three levels, whose strides are multiples of the extents below them, with multiples and
lengths up to 256. -/
theorem commits_iff (xs ys : List UInt32) :
    (Commits xs ys ↔ Distinguished xs ys) ∧ (FitsBytes xs ∧ FitsBytes ys → Commits xs ys) :=
  ⟨commits_iff_distinguished xs ys, fun h =>
    (commits_iff_distinguished xs ys).mpr (distinguished_of_fitsBytes h.1 h.2)⟩

theorem fitsBytes_pair {s : UInt32} (h : s.toNat ≤ 256) : FitsBytes [0, s] := by
  intro levels hpeels
  obtain rfl := (peels_pair s.toNat).unique hpeels
  refine ⟨Nat.le_of_ble_eq_true rfl, ⟨one_dvd _, trivial⟩, ?_⟩
  rintro dim (_ | ⟨_, ⟨⟩⟩)
  exact ⟨(Nat.div_one _).le.trans h, Nat.le_of_ble_eq_true rfl⟩

/-- The default rows and the rows at twice the distance. -/
theorem commits_defaultRows :
    FitsBytes [0, 8] ∧ FitsBytes [0, 16] ∧ Commits [0, 8] [0, 16] := by
  have hrows : FitsBytes [0, 8] := fitsBytes_pair (by decide)
  have htwice : FitsBytes [0, 16] := fitsBytes_pair (by decide)
  exact ⟨hrows, htwice, (commits_iff [0, 8] [0, 16]).2 ⟨hrows, htwice⟩⟩

/-- A stride of 257 is stored like a stride of one. -/
theorem not_commits_257 :
    fromIndices [0, 1] = .ok ⟨1, 2, 2, 1, 2, 1⟩ ∧
      fromIndices [0, 257] = .ok ⟨257, 2, 514, 1, 514, 1⟩ ∧
      encoding ⟨1, 2, 2, 1, 2, 1⟩ = some [0, 1, 0, 0, 0, 0] ∧
      encoding ⟨257, 2, 514, 1, 514, 1⟩ = some [0, 1, 0, 0, 0, 0] ∧ ¬ Commits [0, 1] [0, 257] := by
  have hone : fromIndices [0, 1] = .ok ⟨1, 2, 2, 1, 2, 1⟩ := fromIndices_pair (by decide)
  have hmore : fromIndices [0, 257] = .ok ⟨257, 2, 514, 1, 514, 1⟩ := fromIndices_pair (by decide)
  refine ⟨hone, hmore, by decide, by decide, fun h => ?_⟩
  exact absurd (h _ _ [0, 1, 0, 0, 0, 0] hone hmore (by decide) (by decide)) (by decide)

end PropMiner.Share.PeriodicPattern
