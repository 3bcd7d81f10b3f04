import PropMiner.Worker.TuneCache

/-!
# A double through a text

A stream writes six significant digits of a double, and `%lf` reads the nearest double of what is
written. What `sscanf` does with other texts is up to the C library; here a reader is any function
that reads such numerals whole, and knows `inf` and `nan`.

The double that is read need not be the one that was written, nor need it be written with the same
digits: the doubles around `1e-318` are further apart than the numbers of six digits.

## Main definitions

* `numeralText` — the numerals that a stream writes
* `nearest` — the nearest double
* `ReadsDoubles` — what is assumed of `%lf`
* `reread` — six digits, and the nearest double of them
* `scanDouble` — a reader

## Main results

* `ReadsDoubles.scan_text` — the text of a double is read as `reread`
* `readsDoubles_scanDouble`
-/

set_option autoImplicit false

namespace PropMiner.TuneCache

open Semantics
open Stratum (Bytes bytes decimal lastDigits signed isDigit isSpace digitsValue endsNumber)

/-! ### Numerals -/

/-- A point with digits after it, if there are any. -/
def pointed (frac : Bytes) : Bytes := if frac = [] then [] else 46 :: frac

/-- An exponent, if there is one. -/
def exponentPart : Option ℤ → Bytes
  | none => []
  | some e => 101 :: exponentText e

/-- A numeral without its sign. -/
def numeralText (int frac : Bytes) (exponent : Option ℤ) : Bytes :=
  int ++ (pointed frac ++ exponentPart exponent)

/-- The number it stands for. -/
def numeralValue (int frac : Bytes) (exponent : Option ℤ) : ℚ :=
  digitsValue (int ++ frac) * 10 ^ (exponent.getD 0 - frac.length)

/-- The nearest double of a number that is not negative. -/
def nearest (negative : Bool) (q : ℚ) : Double :=
  let x := Binary64.roundAt (max (Binary64.lastBit q) (-1074)) q
  if Binary64.maxValue < x then .inf negative else .finite negative x.toNNRat

/-- What is assumed of `%lf`. -/
structure ReadsDoubles (scan : Bytes → Option (Double × Bytes)) : Prop where
  numeral : ∀ (negative : Bool) (int frac : Bytes) (exponent : Option ℤ) (rest : Bytes),
    int ≠ [] → (∀ c ∈ int, isDigit c = true) → (∀ c ∈ frac, isDigit c = true) →
    scan (signed negative (numeralText int frac exponent) ++ 44 :: rest) =
      some (nearest negative (numeralValue int frac exponent), 44 :: rest)
  inf : ∀ (negative : Bool) (rest : Bytes),
    scan (signed negative (bytes "inf") ++ 44 :: rest) = some (.inf negative, 44 :: rest)
  nan : ∀ (negative : Bool) (rest : Bytes),
    scan (signed negative (bytes "nan") ++ 44 :: rest) = some (.nan negative, 44 :: rest)

/-! ### What is read of a double -/

/-- A number to six significant digits. -/
def sixDigits (q : ℚ) : ℚ :=
  if q = 0 then 0 else (significant q).1 * 10 ^ ((significant q).2 - 5)

/-- A double after it was written and read. -/
def reread : Double → Double
  | .finite negative q => nearest negative (sixDigits q)
  | .inf negative => .inf negative
  | .nan negative => .nan negative

section Digits

theorem fraction_eq (digits : Bytes) : fraction digits = pointed (digits.rdropWhile (· = 48)) := by
  unfold fraction pointed
  cases digits.rdropWhile (· = 48) with
  | nil => rfl
  | cons c t => rfl

/-- Trailing zeros after the point do not count. -/
theorem numeralValue_rdropWhile (int digits : Bytes) (exponent : Option ℤ) :
    numeralValue int (digits.rdropWhile (· = 48)) exponent = numeralValue int digits exponent := by
  induction digits using List.reverseRecOn with
  | nil => rfl
  | append_singleton digits c ih =>
    by_cases hc : c = 48
    · subst hc
      have hvalue : digitsValue (int ++ (digits ++ [48])) = digitsValue (int ++ digits) * 10 := by
        rw [← List.append_assoc, Stratum.digitsValue_append]
        rfl
      have hexp : exponent.getD 0 - ((digits ++ [48]).length : ℤ) =
          exponent.getD 0 - (digits.length : ℤ) - 1 := by
        rw [List.length_append, List.length_singleton]
        omega
      rw [List.rdropWhile_concat_pos _ _ _ (by decide), ih, numeralValue, numeralValue, hvalue,
        hexp, zpow_sub_one₀ (by norm_num), Nat.cast_mul, Nat.cast_ofNat]
      field_simp
    · rw [List.rdropWhile_concat_neg _ _ _ (by simpa using hc)]

/-- A number that is cut at the point. -/
theorem numeralValue_cut (d places : ℕ) (exponent : Option ℤ) :
    numeralValue (decimal (d / 10 ^ places)) (lastDigits places d) exponent =
      d * 10 ^ (exponent.getD 0 - places) := by
  have hvalue : digitsValue (decimal (d / 10 ^ places) ++ lastDigits places d) = d := by
    rw [Stratum.digitsValue_append, Stratum.digitsValue_decimal, Stratum.length_lastDigits,
      Stratum.digitsValue_lastDigits, Nat.div_add_mod']
  rw [numeralValue, hvalue, Stratum.length_lastDigits]

end Digits

/-- The text of a double is read as its six digits say. -/
theorem ReadsDoubles.scan_text {scan : Bytes → Option (Double × Bytes)} (h : ReadsDoubles scan)
    (x : Double) (rest : Bytes) :
    scan (x.text ++ 44 :: rest) = some (reread x, 44 :: rest) := by
  cases x with
  | inf negative => exact h.inf negative rest
  | nan negative => exact h.nan negative rest
  | finite negative q =>
    have hread : ∀ (int digits : Bytes) (exponent : Option ℤ), int ≠ [] →
        (∀ c ∈ int, isDigit c = true) → (∀ c ∈ digits, isDigit c = true) →
        scan (signed negative (int ++ (fraction digits ++ exponentPart exponent)) ++ 44 :: rest) =
          some (nearest negative (numeralValue int digits exponent), 44 :: rest) := by
      intro int digits exponent hne hint hdigits
      have hkept : ∀ c ∈ digits.rdropWhile (· = 48), isDigit c = true := fun c hc =>
        hdigits c ((List.rdropWhile_prefix _ _).subset hc)
      rw [fraction_eq, ← numeralValue_rdropWhile]
      exact h.numeral negative int _ exponent rest hne hint hkept
    rw [show (Double.finite negative q).text = signed negative (generalText q) from rfl,
      show reread (.finite negative q) = nearest negative (sixDigits q) from rfl]
    by_cases hzero : (q : ℚ) = 0
    · have hscan := hread (decimal 0) [] none (Stratum.decimal_ne_nil 0) Stratum.isDigit_decimal
        nofun
      have hvalue : numeralValue (decimal 0) [] none = 0 := by
        rw [numeralValue, List.append_nil, Stratum.digitsValue_decimal, Nat.cast_zero, zero_mul]
      rw [hvalue] at hscan
      rw [generalText, if_pos hzero, sixDigits, if_pos hzero]
      exact hscan
    · rw [generalText, if_neg hzero, sixDigits, if_neg hzero]
      obtain ⟨d, e⟩ := significant q
      dsimp only
      by_cases hfixed : -4 ≤ e ∧ e < 6
      · have hscan := hread (decimal (d / 10 ^ (5 - e).toNat)) (lastDigits (5 - e).toNat d) none
          (Stratum.decimal_ne_nil _) Stratum.isDigit_decimal Stratum.isDigit_lastDigits
        have hexp : (none : Option ℤ).getD 0 - ((5 - e).toNat : ℤ) = e - 5 := by
          rw [Option.getD_none]
          omega
        rw [numeralValue_cut, hexp, exponentPart, List.append_nil] at hscan
        rw [if_pos hfixed]
        exact hscan
      · have hscan := hread (decimal (d / 10 ^ 5)) (lastDigits 5 d) (some e)
          (Stratum.decimal_ne_nil _) Stratum.isDigit_decimal Stratum.isDigit_lastDigits
        rw [numeralValue_cut] at hscan
        rw [if_neg hfixed]
        exact hscan

/-! ### A reader -/

/-- A reader of numerals, `inf` and `nan`, with whitespace and a sign before them. -/
def scanDouble (t : Bytes) : Option (Double × Bytes) :=
  let t := t.dropWhile isSpace
  let unsigned := Stratum.dropIf (fun c => c == 45 || c == 43) t
  let negative : Bool := t.head? = some 45
  let num := Stratum.numeral unsigned
  if bytes "inf" <+: unsigned then some (.inf negative, unsigned.drop 3)
  else if bytes "nan" <+: unsigned then some (.nan negative, unsigned.drop 3)
  else if num.int = [] ∧ num.frac = [] then none
  else some (nearest negative num.value, Stratum.afterNumber unsigned)

section Reader

variable {negative : Bool} {int frac rest : Bytes}

theorem endsNumber_comma (rest : Bytes) : endsNumber (44 :: rest) :=
  forall_head?_cons.mpr (by decide)

theorem isDigit_of_endsNumber (h : endsNumber rest) : ∀ c ∈ rest.head?, isDigit c = false :=
  fun c hc => (h c hc).1

/-- An exponent as it is written, and nothing that goes on with it. -/
theorem exponent_parts (exponent : Option ℤ) (hrest : endsNumber rest) :
    Stratum.exponentOf (exponentPart exponent ++ rest) = exponent.getD 0 ∧
      Stratum.afterExponent (exponentPart exponent ++ rest) = rest := by
  cases exponent with
  | none =>
    refine ⟨if_neg ?_, Stratum.afterExponent_of_endsNumber hrest⟩
    rintro (h | h)
    · exact (hrest _ h).2.2.1 rfl
    · exact (hrest _ h).2.2.2 rfl
  | some e =>
    obtain ⟨sign, digits, htext, hdigits, hvalue, hsign⟩ : ∃ (sign : UInt8) (digits : Bytes),
        exponentText e = sign :: digits ∧ (∀ c ∈ digits, isDigit c = true) ∧
        digitsValue digits = e.natAbs ∧ (sign = 45 ∧ e < 0 ∨ sign = 43 ∧ 0 ≤ e) := by
      refine ⟨_, _, rfl, fun c hc => ?_, ?_, ?_⟩
      · rcases List.mem_append.mp hc with hpad | hc
        · split_ifs at hpad
          · rw [List.mem_singleton.mp hpad]
            rfl
          · cases hpad
        · exact Stratum.isDigit_decimal c hc
      · rw [Stratum.digitsValue_append, Stratum.digitsValue_decimal]
        split_ifs <;> simp [digitsValue]
      · by_cases he : e < 0
        · exact .inl ⟨if_pos he, he⟩
        · exact .inr ⟨if_neg he, not_lt.mp he⟩
    obtain ⟨htake, hdrop⟩ := span_digits hdigits (isDigit_of_endsNumber hrest)
    have hunsigned : Stratum.dropIf (fun c => c == 43 || c == 45) (sign :: (digits ++ rest)) =
        digits ++ rest := by
      rcases hsign with ⟨rfl, -⟩ | ⟨rfl, -⟩ <;> rfl
    rw [exponentPart, htext, List.cons_append, List.cons_append, Stratum.exponentOf,
      List.head?_cons, if_pos (Or.inl rfl), Stratum.afterExponent, List.head?_cons,
      if_pos (Or.inl rfl), List.tail_cons]
    dsimp only
    rw [hunsigned, htake, hdrop, hvalue, Option.getD_some]
    refine ⟨?_, rfl⟩
    rcases hsign with ⟨rfl, he⟩ | ⟨rfl, he⟩
    · rw [List.head?_cons, if_pos rfl]
      omega
    · rw [List.head?_cons, if_neg (by decide)]
      omega

theorem numeral_parts (hne : int ≠ []) (hint : ∀ c ∈ int, isDigit c = true)
    (hfrac : ∀ c ∈ frac, isDigit c = true) (exponent : Option ℤ) (hrest : endsNumber rest) :
    Stratum.numeral (numeralText int frac exponent ++ rest) =
      ⟨false, int, frac, exponent.getD 0⟩ ∧
    Stratum.afterNumber (numeralText int frac exponent ++ rest) = rest := by
  obtain ⟨hexp, hafter⟩ := exponent_parts exponent hrest
  -- what follows the digits after the point is no digit and no point
  have htail : ∀ c ∈ (exponentPart exponent ++ rest).head?, isDigit c = false ∧ c ≠ 46 := by
    cases exponent with
    | none => exact fun c hc => ⟨(hrest c hc).1, (hrest c hc).2.1⟩
    | some e => exact forall_head?_cons.mpr (by decide)
  have hfraction : (∀ c ∈ (pointed frac ++ (exponentPart exponent ++ rest)).head?,
        isDigit c = false) ∧
      (if (pointed frac ++ (exponentPart exponent ++ rest)).head? = some 46 then
        (pointed frac ++ (exponentPart exponent ++ rest)).tail.takeWhile isDigit else []) = frac ∧
      Stratum.afterFrac (pointed frac ++ (exponentPart exponent ++ rest)) =
        exponentPart exponent ++ rest := by
    generalize exponentPart exponent ++ rest = v at htail
    have hdigit : ∀ c ∈ v.head?, isDigit c = false := fun c hc => (htail c hc).1
    by_cases hempty : frac = []
    · have hpoint : ¬ v.head? = some 46 := fun h => (htail 46 h).2 rfl
      rw [pointed, if_pos hempty, List.nil_append, Stratum.afterFrac, if_neg hpoint, if_neg hpoint]
      exact ⟨hdigit, hempty.symm, rfl⟩
    · obtain ⟨htake, hdrop⟩ := span_digits hfrac hdigit
      rw [pointed, if_neg hempty, List.cons_append, Stratum.afterFrac, List.head?_cons, if_pos rfl,
        if_pos rfl, List.tail_cons, htake, hdrop]
      refine ⟨?_, rfl, rfl⟩
      rintro c ⟨rfl⟩
      rfl
  obtain ⟨hdigit, hfraction, hafterFrac⟩ := hfraction
  obtain ⟨htake, hdrop⟩ := span_digits hint hdigit
  have hunsigned := @Stratum.dropIf_signed false int
    (pointed frac ++ (exponentPart exponent ++ rest)) hne hint
  have hhead := @Stratum.head?_signed false int
    (pointed frac ++ (exponentPart exponent ++ rest)) hne hint
  rw [signed, if_neg Bool.false_ne_true, List.nil_append] at hunsigned hhead
  rw [numeralText, List.append_assoc, List.append_assoc, Stratum.numeral, Stratum.afterNumber,
    hunsigned, htake, hdrop, hfraction, hafterFrac, hexp, hafter]
  refine ⟨?_, rfl⟩
  simp only [hhead, Bool.false_eq_true, decide_false]

/-- Before a comma the reader reads what a stream writes. -/
theorem readsDoubles_scanDouble : ReadsDoubles scanDouble where
  numeral negative int frac exponent rest hne hint hfrac := by
    obtain ⟨hnum, hafter⟩ := numeral_parts hne hint hfrac exponent (endsNumber_comma rest)
    have hnot : ∀ word : Bytes, (∃ c ∈ word.head?, isDigit c = false) →
        ¬ word <+: numeralText int frac exponent ++ 44 :: rest := by
      rintro word ⟨c, hc, hdigit⟩ ⟨t, ht⟩
      obtain ⟨d, int, rfl⟩ := List.exists_cons_of_ne_nil hne
      obtain ⟨word, rfl⟩ := List.head?_eq_some_iff.mp hc
      rw [(List.cons.inj ht).1, hint d List.mem_cons_self] at hdigit
      cases hdigit
    have hvalue : Stratum.Numeral.value ⟨false, int, frac, exponent.getD 0⟩ =
        numeralValue int frac exponent := by
      rw [Stratum.Numeral.value, if_neg Bool.false_ne_true, one_mul, numeralValue]
    have hassoc : signed negative (numeralText int frac exponent) ++ 44 :: rest =
        signed negative (int ++ (pointed frac ++ exponentPart exponent ++ 44 :: rest)) := by
      rw [signed, signed, numeralText, List.append_assoc, List.append_assoc]
    have hunsigned : Stratum.dropIf (fun c => c == 45 || c == 43)
        (signed negative (int ++ (pointed frac ++ exponentPart exponent ++ 44 :: rest))) =
        numeralText int frac exponent ++ 44 :: rest := by
      rw [dropIf_sign hne hint, numeralText, List.append_assoc int]
    rw [hassoc, scanDouble, dropWhile_signed hne hint, hunsigned, hnum, hafter,
      if_neg (hnot _ ⟨105, rfl, rfl⟩), if_neg (hnot _ ⟨110, rfl, rfl⟩), if_neg fun h => hne h.1,
      hvalue]
    simp only [Stratum.head?_signed hne hint, Bool.decide_eq_true]
  inf negative rest := by cases negative <;> rfl
  nan negative rest := by cases negative <;> rfl

end Reader

end PropMiner.TuneCache
