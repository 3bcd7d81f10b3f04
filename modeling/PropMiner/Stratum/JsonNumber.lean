import Mathlib.Data.List.TakeWhile
import Mathlib.Data.Nat.Digits.Defs
import Mathlib.Tactic.Ring
import PropMiner.Semantics.Binary64
import PropMiner.Stratum.Json

/-!
# Numbers in JSON texts

How `simple_json` writes a number and how it reads one. A whole number below 10^15 is
written as an integer, every other one as `std::to_string` writes a double: with six
decimals. A number is read by cutting its text out and handing it to `std::stod`, which
throws on a text without digits and on a value that is out of range.

## Main definitions

* `formatNumber` — the text `serialize` writes
* `afterNumber`, `numberText` — the text `parse_number` cuts out
* `stod` — the value of such a text

## Main results

* `numberText_formatNumber` — a written number is cut out whole
* `stod_formatNumber_intCast` — an integer below 10^15 is read back
* `exists_stod_formatNumber` — every written double can be read
-/

set_option autoImplicit false

namespace PropMiner.Stratum

open PropMiner.Semantics

/-! ### Digits -/

/-- The value of a text of digits. -/
def digitsValue (s : Bytes) : ℕ := s.foldl (fun n c => 10 * n + (c.toNat - 48)) 0

def digit (d : ℕ) : UInt8 := UInt8.ofNat (48 + d)

/-- The digits of a number, without leading zeros. -/
def decimal (n : ℕ) : Bytes := if n = 0 then [48] else (Nat.digits 10 n).reverse.map digit

/-- The last `k` digits of a number. -/
def lastDigits : ℕ → ℕ → Bytes
  | 0, _ => []
  | k + 1, n => lastDigits k (n / 10) ++ [digit (n % 10)]

theorem toNat_digit {d : ℕ} (hd : d < 10) : (digit d).toNat = 48 + d := by
  rw [digit, UInt8.toNat_ofNat', Nat.mod_eq_of_lt (by omega)]

theorem isDigit_iff {c : UInt8} : isDigit c = true ↔ 48 ≤ c.toNat ∧ c.toNat ≤ 57 := by
  rw [isDigit, Bool.and_eq_true, decide_eq_true_iff, decide_eq_true_iff, UInt8.le_iff_toNat_le,
    UInt8.le_iff_toNat_le]
  rfl

theorem isDigit_digit {d : ℕ} (hd : d < 10) : isDigit (digit d) = true := by
  rw [isDigit_iff, toNat_digit hd]
  omega

theorem foldl_digits (s : Bytes) (n : ℕ) :
    s.foldl (fun n c => 10 * n + (c.toNat - 48)) n = n * 10 ^ s.length + digitsValue s := by
  induction s generalizing n with
  | nil => simp [digitsValue]
  | cons c s ih =>
    rw [digitsValue, List.foldl_cons, List.foldl_cons, ih, ih (10 * 0 + _), List.length_cons,
      Nat.pow_succ]
    ring

theorem digitsValue_append (s t : Bytes) :
    digitsValue (s ++ t) = digitsValue s * 10 ^ t.length + digitsValue t := by
  rw [digitsValue, List.foldl_append, foldl_digits]
  rfl

theorem digitsValue_digit {d : ℕ} (hd : d < 10) : digitsValue [digit d] = d := by
  rw [digitsValue, List.foldl_cons, List.foldl_nil, toNat_digit hd]
  omega

theorem digitsValue_map_digit {ds : List ℕ} (hds : ∀ d ∈ ds, d < 10) :
    digitsValue (ds.reverse.map digit) = Nat.ofDigits 10 ds := by
  induction ds with
  | nil => rfl
  | cons d ds ih =>
    have hd : d < 10 := hds d List.mem_cons_self
    rw [List.reverse_cons, List.map_append, List.map_singleton, digitsValue_append,
      digitsValue_digit hd, ih fun x hx => hds x (List.mem_cons_of_mem _ hx), Nat.ofDigits_cons,
      List.length_singleton]
    push_cast
    ring

theorem digitsValue_decimal (n : ℕ) : digitsValue (decimal n) = n := by
  unfold decimal
  split_ifs with hn
  · rw [hn]
    rfl
  · rw [digitsValue_map_digit fun d hd => Nat.digits_lt_base (by norm_num) hd,
      Nat.ofDigits_digits]

theorem decimal_ne_nil (n : ℕ) : decimal n ≠ [] := by
  unfold decimal
  split_ifs with hn
  · exact List.cons_ne_nil _ _
  · rw [Ne, List.map_eq_nil_iff, List.reverse_eq_nil_iff]
    exact Nat.digits_ne_nil_iff_ne_zero.mpr hn

theorem isDigit_decimal {n : ℕ} : ∀ c ∈ decimal n, isDigit c = true := by
  intro c hc
  unfold decimal at hc
  split_ifs at hc with hn
  · rw [List.mem_singleton.mp hc]
    rfl
  · obtain ⟨d, hd, rfl⟩ := List.mem_map.mp hc
    exact isDigit_digit (Nat.digits_lt_base (by norm_num) (List.mem_reverse.mp hd))

@[simp]
theorem length_lastDigits (k n : ℕ) : (lastDigits k n).length = k := by
  induction k generalizing n with
  | zero => rfl
  | succ k ih => rw [lastDigits, List.length_append, ih, List.length_singleton]

theorem isDigit_lastDigits {k n : ℕ} : ∀ c ∈ lastDigits k n, isDigit c = true := by
  induction k generalizing n with
  | zero => exact fun c hc => absurd hc List.not_mem_nil
  | succ k ih =>
    intro c hc
    rcases List.mem_append.mp hc with hc | hc
    · exact ih c hc
    · rw [List.mem_singleton.mp hc]
      exact isDigit_digit (Nat.mod_lt _ (by norm_num))

theorem digitsValue_lastDigits (k n : ℕ) : digitsValue (lastDigits k n) = n % 10 ^ k := by
  induction k generalizing n with
  | zero => rw [Nat.pow_zero, Nat.mod_one]; rfl
  | succ k ih =>
    rw [lastDigits, digitsValue_append, ih, digitsValue_digit (Nat.mod_lt _ (by norm_num)),
      List.length_singleton, Nat.pow_one, Nat.pow_succ, Nat.mul_comm (10 ^ k) 10, Nat.mod_mul]
    ring

/-! ### Writing -/

/-- `std::to_string` of an integer. -/
def intText (n : ℤ) : Bytes := (if n < 0 then [45] else []) ++ decimal n.natAbs

/-- The millionths that `%f` prints of a number: the nearest, of two the even one. -/
def millionths (q : ℚ) : ℕ := (Binary64.roundEven (|q| * 10 ^ 6)).toNat

/-- `std::to_string` of a double. -/
def fixedText (q : ℚ) : Bytes :=
  (if q < 0 then [45] else []) ++ decimal (millionths q / 10 ^ 6) ++
    46 :: lastDigits 6 (millionths q)

/-- The text of a number in `serialize`. -/
def formatNumber (q : ℚ) : Bytes :=
  if q.den = 1 ∧ |q| < 10 ^ 15 then intText q.num else fixedText q

/-! ### Reading -/

/-- How reading a text goes wrong. The first two are what `std::stod` throws; the others do
not occur and are there to say so: a byte outside the text is read, a loop has no end. -/
inductive ParseError
  | invalidArgument
  | outOfRange
  | badRead
  | stalled
  deriving DecidableEq, Repr

/-- What is left after an optional byte. -/
def dropIf (p : UInt8 → Bool) (t : Bytes) : Bytes := if t.head?.any p then t.tail else t

/-- What is left after an optional point with its digits. -/
def afterFrac (t : Bytes) : Bytes := if t.head? = some 46 then t.tail.dropWhile isDigit else t

/-- What is left after an optional exponent. -/
def afterExponent (t : Bytes) : Bytes :=
  if t.head? = some 101 ∨ t.head? = some 69 then
    (dropIf (fun c => c == 43 || c == 45) t.tail).dropWhile isDigit
  else t

/-- What `parse_number` leaves of the text it is at. -/
def afterNumber (t : Bytes) : Bytes :=
  afterExponent (afterFrac ((dropIf (· == 45) t).dropWhile isDigit))

/-- What `parse_number` cuts out. -/
def numberText (t : Bytes) : Bytes := t.take (t.length - (afterNumber t).length)

/-- The exponent at the start of a text; without digits there is none. -/
def exponentOf (t : Bytes) : ℤ :=
  if t.head? = some 101 ∨ t.head? = some 69 then
    let digits := (dropIf (fun c => c == 43 || c == 45) t.tail).takeWhile isDigit
    if t.tail.head? = some 45 then -digitsValue digits else digitsValue digits
  else 0

/-- The conversion at the end of `stod`. -/
def toDouble (q : ℚ) : Except ParseError ℚ :=
  match Binary64.convert q with
  | some x => .ok x
  | none => .error .outOfRange

/-- The parts of a number: its sign, the digits before and after the point, and its exponent. -/
structure Numeral where
  negative : Bool
  int : Bytes
  frac : Bytes
  exponent : ℤ

/-- The number `strtod` finds in what `parse_number` cuts out. -/
def numeral (num : Bytes) : Numeral :=
  let t := dropIf (· == 45) num
  let u := t.dropWhile isDigit
  { negative := num.head? = some 45
    int := t.takeWhile isDigit
    frac := if u.head? = some 46 then u.tail.takeWhile isDigit else []
    exponent := exponentOf (afterFrac u) }

/-- The exact value. -/
def Numeral.value (n : Numeral) : ℚ :=
  (if n.negative then -1 else 1) * digitsValue (n.int ++ n.frac) * 10 ^ (n.exponent - n.frac.length)

/-- `std::stod` on what `parse_number` cuts out. -/
def stod (num : Bytes) : Except ParseError ℚ :=
  if (numeral num).int = [] ∧ (numeral num).frac = [] then .error .invalidArgument
  else toDouble (numeral num).value

theorem toDouble_eq_ok {q x : ℚ} (h : toDouble q = .ok x) : Binary64.convert q = some x := by
  unfold toDouble at h
  split at h
  · next y hy => rw [hy, Except.ok.inj h]
  · cases h

/-- `stod` gives a double. -/
theorem abs_le_of_stod {num : Bytes} {x : ℚ} (h : stod num = .ok x) :
    |x| ≤ Binary64.maxValue := by
  unfold stod at h
  split_ifs at h
  exact Binary64.abs_le_of_convert (toDouble_eq_ok h)

/-- Reading goes wrong only by throwing. -/
theorem stod_eq_error {num : Bytes} {e : ParseError} (h : stod num = .error e) :
    e = .invalidArgument ∨ e = .outOfRange := by
  unfold stod toDouble at h
  split_ifs at h
  · exact .inl (Except.error.inj h).symm
  · split at h
    · cases h
    · exact .inr (Except.error.inj h).symm

/-! ### Reading what was written -/

/-- Not the continuation of a number. -/
def endsNumber (t : Bytes) : Prop :=
  ∀ c ∈ t.head?, isDigit c = false ∧ c ≠ 46 ∧ c ≠ 101 ∧ c ≠ 69

theorem dropWhile_of_endsNumber {t : Bytes} (h : endsNumber t) : t.dropWhile isDigit = t := by
  cases t with
  | nil => rfl
  | cons c t => rw [List.dropWhile_cons_of_neg (by rw [(h c rfl).1]; exact Bool.false_ne_true)]

/-- A sign, digits, and what follows them. -/
def signed (negative : Bool) (t : Bytes) : Bytes := (if negative then [45] else []) ++ t

section Written

variable {negative : Bool} {int frac rest t : Bytes}

theorem head?_signed (hne : int ≠ []) (hint : ∀ c ∈ int, isDigit c = true) :
    (signed negative (int ++ t)).head? = some 45 ↔ negative = true := by
  cases negative with
  | true => exact iff_of_true rfl rfl
  | false =>
    obtain ⟨c, int, rfl⟩ := List.exists_cons_of_ne_nil hne
    refine iff_of_false (fun h => ?_) Bool.false_ne_true
    have hc : c = 45 := Option.some.inj h
    have hdigit := hint c List.mem_cons_self
    rw [hc] at hdigit
    exact absurd hdigit (by decide)

theorem dropIf_signed (hne : int ≠ []) (hint : ∀ c ∈ int, isDigit c = true) :
    dropIf (· == 45) (signed negative (int ++ t)) = int ++ t := by
  cases negative with
  | true => rfl
  | false =>
    obtain ⟨c, int, rfl⟩ := List.exists_cons_of_ne_nil hne
    have hhead := @head?_signed false (c :: int) t hne hint
    unfold dropIf
    rw [if_neg]
    · rfl
    · intro hany
      exact absurd (hhead.mp (congrArg some (beq_iff_eq.mp hany))) Bool.false_ne_true

/-- Nothing that goes on a number follows. -/
theorem afterFrac_of_endsNumber (h : endsNumber rest) : afterFrac rest = rest :=
  if_neg fun hpoint => (h 46 hpoint).2.1 rfl

theorem afterExponent_of_endsNumber (h : endsNumber rest) : afterExponent rest = rest := by
  refine if_neg ?_
  rintro (hexp | hexp)
  · exact (h _ hexp).2.2.1 rfl
  · exact (h _ hexp).2.2.2 rfl

/-- The number ends where its text does. -/
theorem afterNumber_signed (hne : int ≠ []) (hint : ∀ c ∈ int, isDigit c = true)
    (hrest : endsNumber rest) : afterNumber (signed negative (int ++ rest)) = rest := by
  rw [afterNumber, dropIf_signed hne hint, List.dropWhile_append_of_pos hint,
    dropWhile_of_endsNumber hrest, afterFrac_of_endsNumber hrest,
    afterExponent_of_endsNumber hrest]

theorem afterFrac_frac (hfrac : ∀ c ∈ frac, isDigit c = true) (hrest : endsNumber rest) :
    afterFrac (46 :: (frac ++ rest)) = rest := by
  rw [afterFrac, List.head?_cons, if_pos rfl, List.tail_cons, List.dropWhile_append_of_pos hfrac,
    dropWhile_of_endsNumber hrest]

theorem afterNumber_signed_frac (hne : int ≠ []) (hint : ∀ c ∈ int, isDigit c = true)
    (hfrac : ∀ c ∈ frac, isDigit c = true) (hrest : endsNumber rest) :
    afterNumber (signed negative (int ++ 46 :: (frac ++ rest))) = rest := by
  rw [afterNumber, dropIf_signed hne hint, List.dropWhile_append_of_pos hint,
    List.dropWhile_cons_of_neg (by decide), afterFrac_frac hfrac hrest,
    afterExponent_of_endsNumber hrest]

theorem numeral_signed (hne : int ≠ []) (hint : ∀ c ∈ int, isDigit c = true) :
    numeral (signed negative int) = ⟨negative, int, [], 0⟩ := by
  have hdrop := @dropIf_signed negative int [] hne hint
  have hhead := @head?_signed negative int [] hne hint
  rw [List.append_nil] at hdrop hhead
  unfold numeral
  dsimp only
  rw [hdrop, List.dropWhile_eq_nil_iff.mpr hint, List.takeWhile_eq_self_iff.mpr hint]
  simp [hhead, exponentOf, afterFrac]

theorem numeral_signed_frac (hne : int ≠ []) (hint : ∀ c ∈ int, isDigit c = true)
    (hfrac : ∀ c ∈ frac, isDigit c = true) :
    numeral (signed negative (int ++ 46 :: frac)) = ⟨negative, int, frac, 0⟩ := by
  have hhead := @head?_signed negative int (46 :: frac) hne hint
  have hafter := @afterFrac_frac frac [] hfrac nofun
  rw [List.append_nil] at hafter
  unfold numeral
  dsimp only
  rw [dropIf_signed hne hint, List.dropWhile_append_of_pos hint,
    List.dropWhile_cons_of_neg (by decide), hafter, List.head?_cons, if_pos rfl, List.tail_cons,
    List.takeWhile_append_of_pos hint, List.takeWhile_cons_of_neg (by decide), List.append_nil,
    List.takeWhile_eq_self_iff.mpr hfrac]
  simp [hhead, exponentOf]

end Written

theorem intText_eq (n : ℤ) : intText n = signed (decide (n < 0)) (decimal n.natAbs) := by
  simp [intText, signed]

theorem fixedText_eq (q : ℚ) :
    fixedText q = signed (decide (q < 0)) (decimal (millionths q / 10 ^ 6) ++
      46 :: lastDigits 6 (millionths q)) := by
  simp [fixedText, signed]

/-- A written number ends where its text does. -/
theorem afterNumber_formatNumber (q : ℚ) {rest : Bytes} (hrest : endsNumber rest) :
    afterNumber (formatNumber q ++ rest) = rest := by
  unfold formatNumber
  split_ifs
  · rw [intText_eq, signed, List.append_assoc]
    exact afterNumber_signed (decimal_ne_nil _) isDigit_decimal hrest
  · rw [fixedText_eq, signed, List.append_assoc, List.append_assoc, List.cons_append]
    exact afterNumber_signed_frac (decimal_ne_nil _) isDigit_decimal isDigit_lastDigits hrest

/-- It is cut out whole. -/
theorem numberText_formatNumber (q : ℚ) {rest : Bytes} (hrest : endsNumber rest) :
    numberText (formatNumber q ++ rest) = formatNumber q := by
  rw [numberText, afterNumber_formatNumber q hrest, List.length_append, Nat.add_sub_cancel,
    List.take_left]

theorem stod_intText {n : ℤ} (hn : |n| < 2 ^ 53) : stod (intText n) = .ok n := by
  have hvalue : (if decide (n < 0) = true then (-1 : ℚ) else 1) * (n.natAbs : ℚ) = n := by
    rcases lt_or_ge n 0 with hneg | hpos
    · rw [if_pos (decide_eq_true hneg), Nat.cast_natAbs, abs_of_neg hneg]
      push_cast
      ring
    · rw [if_neg (by simpa using hpos), Nat.cast_natAbs, abs_of_nonneg hpos, one_mul]
  rw [stod, intText_eq, numeral_signed (decimal_ne_nil _) isDigit_decimal,
    if_neg (fun h => decimal_ne_nil _ h.1), Numeral.value]
  dsimp only
  rw [List.append_nil, digitsValue_decimal, List.length_nil, Nat.cast_zero, sub_zero, zpow_zero,
    mul_one, hvalue, toDouble, Binary64.convert_intCast hn]

/-- An integer below 10^15 is read back. -/
theorem stod_formatNumber_intCast {n : ℤ} (hn : |n| < 10 ^ 15) :
    stod (formatNumber n) = .ok (n : ℚ) := by
  have hcast : |(n : ℚ)| < 10 ^ 15 := by exact_mod_cast hn
  rw [formatNumber, if_pos ⟨Rat.den_intCast n, hcast⟩, Rat.num_intCast]
  exact stod_intText (by omega)

theorem digitsValue_fixed (m : ℕ) : digitsValue (decimal (m / 10 ^ 6) ++ lastDigits 6 m) = m := by
  rw [digitsValue_append, digitsValue_decimal, length_lastDigits, digitsValue_lastDigits]
  exact Nat.div_add_mod' m (10 ^ 6)

theorem millionths_le {q : ℚ} (hq : |q| ≤ Binary64.maxValue) :
    (millionths q : ℚ) / 10 ^ 6 ≤ Binary64.maxValue := by
  obtain ⟨n, hn⟩ := Binary64.exists_intCast_eq_maxValue
  rw [hn] at hq ⊢
  have hscaled : |q| * 10 ^ 6 ≤ ((n * 10 ^ 6 : ℤ) : ℚ) := by
    push_cast
    linarith
  have hround := Binary64.roundEven_le hscaled
  have hnonneg : 0 ≤ Binary64.roundEven (|q| * 10 ^ 6) :=
    Binary64.le_roundEven (by push_cast; positivity)
  have hcast : (millionths q : ℤ) ≤ n * 10 ^ 6 := by
    rw [millionths, Int.toNat_of_nonneg hnonneg]
    exact hround
  rw [div_le_iff₀ (by norm_num)]
  exact_mod_cast hcast

/-- The six decimals of a double are within range. -/
theorem exists_toDouble_millionths {q : ℚ} (hq : |q| ≤ Binary64.maxValue) (sign : ℚ)
    (hsign : |sign| = 1) : ∃ x, toDouble (sign * millionths q * 10 ^ (-6 : ℤ)) = .ok x := by
  have habs : |sign * millionths q * 10 ^ (-6 : ℤ)| = (millionths q : ℚ) / 10 ^ 6 := by
    rw [abs_mul, abs_mul, hsign, one_mul, Nat.abs_cast, abs_of_pos (by positivity), zpow_neg,
      div_eq_mul_inv]
    rfl
  have hsome : (Binary64.convert (sign * millionths q * 10 ^ (-6 : ℤ))).isSome := by
    refine Binary64.convert_isSome (habs ▸ millionths_le hq) ?_
    rcases Nat.eq_zero_or_pos (millionths q) with hzero | hpos
    · left
      rw [hzero, Nat.cast_zero, mul_zero, zero_mul]
    · -- one millionth is far above the subnormal numbers
      right
      have hone : (1 : ℚ) ≤ millionths q := by exact_mod_cast hpos
      have htiny : (2 : ℚ) ^ (-1022 : ℤ) ≤ 2 ^ (-20 : ℤ) :=
        zpow_le_zpow_right₀ one_le_two (by norm_num)
      have hmillionth : (2 : ℚ) ^ (-20 : ℤ) ≤ 1 / 10 ^ 6 := by norm_num
      rw [habs]
      refine (htiny.trans hmillionth).trans ?_
      exact div_le_div_of_nonneg_right hone (by norm_num)
  obtain ⟨x, hx⟩ := Option.isSome_iff_exists.mp hsome
  exact ⟨x, by rw [toDouble, hx]⟩

/-- Every double that is written can be read. -/
theorem exists_stod_formatNumber {q : ℚ} (hq : |q| ≤ Binary64.maxValue) :
    ∃ x, stod (formatNumber q) = .ok x := by
  unfold formatNumber
  split_ifs with hint
  · obtain ⟨hden, hlt⟩ := hint
    have hnum : (q.num : ℚ) = q := Rat.coe_int_num_of_den_eq_one hden
    have hsmall : |q.num| < 10 ^ 15 := by
      rw [← hnum] at hlt
      exact_mod_cast hlt
    exact ⟨_, stod_intText (by omega)⟩
  · have hsign : |if decide (q < 0) = true then (-1 : ℚ) else 1| = 1 := by
      split_ifs <;> norm_num
    rw [stod, fixedText_eq,
      numeral_signed_frac (decimal_ne_nil _) isDigit_decimal isDigit_lastDigits,
      if_neg (fun h => decimal_ne_nil _ h.1), Numeral.value]
    dsimp only
    rw [digitsValue_fixed, length_lastDigits, zero_sub]
    exact exists_toDouble_millionths hq _ hsign

end PropMiner.Stratum
