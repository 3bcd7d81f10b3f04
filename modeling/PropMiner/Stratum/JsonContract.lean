import PropMiner.Stratum.Hex
import PropMiner.Stratum.JsonRoundTrip

/-!
# The contract of `JsonValue::parse`

`simple_json.h` promises that a text without a value is read as null. What JSON is, is said
here by its grammar, over bytes: those from 0x80 on are characters of a string and are not
looked into. The parser is more lenient than the grammar, and it throws where it takes a text
for a number and `std::stod` does not. So the promise is kept for the texts that start with a
JSON value whose numbers are in the range of doubles, for blank texts, and for those that
start with an `n` and go on for three more bytes.

## Main definitions

* `JsonText` — the texts of JSON values
* `ParsesSafely` — what is promised
* `Clean` — the texts for which it is kept

## Main results

* `JsonText.reads` — JSON is read, if its numbers are in range
* `parsesSafely_iff` — the promise is kept for clean texts only
-/

set_option autoImplicit false

namespace PropMiner.Stratum

open PropMiner.Semantics

/-! ### The grammar -/

def AllDigits (s : Bytes) : Prop := s ≠ [] ∧ ∀ c ∈ s, isDigit c = true

/-- The digits before the point: no leading zero. -/
def IntPart (s : Bytes) : Prop := AllDigits s ∧ (s = [48] ∨ s.head? ≠ some 48)

def FracPart (s : Bytes) : Prop := s = [] ∨ ∃ ds, s = 46 :: ds ∧ AllDigits ds

def ExpPart (s : Bytes) : Prop :=
  s = [] ∨ ∃ e sign ds, s = e :: (sign ++ ds) ∧ (e = 101 ∨ e = 69) ∧
    (sign = [] ∨ sign = [43] ∨ sign = [45]) ∧ AllDigits ds

/-- A JSON number. -/
def IsNumber (s : Bytes) : Prop :=
  ∃ negative int frac exp, s = signed negative (int ++ (frac ++ exp)) ∧ IntPart int ∧
    FracPart frac ∧ ExpPart exp

/-- The characters of a JSON string, with their escapes. -/
inductive StringChars : Bytes → Prop
  | nil : StringChars []
  | plain {c : UInt8} {s : Bytes} : 32 ≤ c → c ≠ quote → c ≠ backslash → StringChars s →
      StringChars (c :: s)
  | escape {e : UInt8} {s : Bytes} : e ∈ [quote, backslash, 47, 98, 102, 110, 114, 116] →
      StringChars s → StringChars (backslash :: e :: s)
  | unicode {a b c d : UInt8} {s : Bytes} : (∀ x ∈ [a, b, c, d], hexDigitValue x ≠ none) →
      StringChars s → StringChars (backslash :: 117 :: a :: b :: c :: d :: s)

mutual

/-- The text of a JSON value whose numbers are of the kind `N`. -/
inductive JsonText (N : Bytes → Prop) : Bytes → Prop
  | null : JsonText N (bytes "null")
  | true : JsonText N (bytes "true")
  | false : JsonText N (bytes "false")
  | number {s : Bytes} : N s → JsonText N s
  | string {s : Bytes} : StringChars s → JsonText N (quote :: (s ++ [quote]))
  | emptyArray {w : Bytes} : Blank w → JsonText N (openBracket :: (w ++ [closeBracket]))
  | array {s : Bytes} : ElementsText N s → JsonText N (openBracket :: (s ++ [closeBracket]))
  | emptyObject {w : Bytes} : Blank w → JsonText N (openBrace :: (w ++ [closeBrace]))
  | object {s : Bytes} : MembersText N s → JsonText N (openBrace :: (s ++ [closeBrace]))

/-- Elements with commas between them. -/
inductive ElementsText (N : Bytes → Prop) : Bytes → Prop
  | last {w v w' : Bytes} : Blank w → JsonText N v → Blank w' → ElementsText N (w ++ (v ++ w'))
  | more {w v w' s : Bytes} : Blank w → JsonText N v → Blank w' → ElementsText N s →
      ElementsText N (w ++ (v ++ (w' ++ comma :: s)))

/-- Members with commas between them. -/
inductive MembersText (N : Bytes → Prop) : Bytes → Prop
  | last {w k w₁ w₂ v w' : Bytes} : Blank w → StringChars k → Blank w₁ → Blank w₂ →
      JsonText N v → Blank w' →
      MembersText N (w ++ quote :: (k ++ quote :: (w₁ ++ colon :: (w₂ ++ (v ++ w')))))
  | more {w k w₁ w₂ v w' s : Bytes} : Blank w → StringChars k → Blank w₁ → Blank w₂ →
      JsonText N v → Blank w' → MembersText N s →
      MembersText N
        (w ++ quote :: (k ++ quote :: (w₁ ++ colon :: (w₂ ++ (v ++ (w' ++ comma :: s))))))

end

/-- There is a double for the number. -/
def HasDouble (num : Bytes) : Prop := (Binary64.convert (numeral num).value).isSome = true

def InRange (s : Bytes) : Prop := IsNumber s ∧ HasDouble s

mutual

theorem JsonText.mono {N N' : Bytes → Prop} (hN : ∀ s, N s → N' s) {s : Bytes} :
    JsonText N s → JsonText N' s
  | .null => .null
  | .true => .true
  | .false => .false
  | .number h => .number (hN _ h)
  | .string h => .string h
  | .emptyArray h => .emptyArray h
  | .array h => .array (h.mono hN)
  | .emptyObject h => .emptyObject h
  | .object h => .object (h.mono hN)

theorem ElementsText.mono {N N' : Bytes → Prop} (hN : ∀ s, N s → N' s) {s : Bytes} :
    ElementsText N s → ElementsText N' s
  | .last hw hv hw' => .last hw (hv.mono hN) hw'
  | .more hw hv hw' hs => .more hw (hv.mono hN) hw' (hs.mono hN)

theorem MembersText.mono {N N' : Bytes → Prop} (hN : ∀ s, N s → N' s) {s : Bytes} :
    MembersText N s → MembersText N' s
  | .last hw hk h₁ h₂ hv hw' => .last hw hk h₁ h₂ (hv.mono hN) hw'
  | .more hw hk h₁ h₂ hv hw' hs => .more hw hk h₁ h₂ (hv.mono hN) hw' (hs.mono hN)

end

/-! ### Numbers and strings -/

theorem dropWhile_isDigit {t : Bytes} (h : ∀ c ∈ t.head?, isDigit c = false) :
    t.dropWhile isDigit = t := by
  cases t with
  | nil => rfl
  | cons c t => rw [List.dropWhile_cons_of_neg (by rw [h c rfl]; exact Bool.false_ne_true)]

theorem FracPart.head {frac t : Bytes} (h : FracPart frac) (ht : ∀ c ∈ t.head?, isDigit c = false) :
    ∀ c ∈ (frac ++ t).head?, isDigit c = false := by
  rcases h with rfl | ⟨ds, rfl, -⟩
  · exact ht
  · rintro c ⟨⟩
    rfl

theorem ExpPart.head {exp t : Bytes} (h : ExpPart exp) (ht : endsNumber t) :
    ∀ c ∈ (exp ++ t).head?, isDigit c = false ∧ c ≠ 46 := by
  rcases h with rfl | ⟨e, sign, ds, rfl, he, -⟩
  · exact fun c hc => ⟨(ht c hc).1, (ht c hc).2.1⟩
  · rintro c ⟨⟩
    rcases he with rfl | rfl <;> decide

theorem afterFrac_fracPart {frac t : Bytes} (h : FracPart frac)
    (ht : ∀ c ∈ t.head?, isDigit c = false ∧ c ≠ 46) : afterFrac (frac ++ t) = t := by
  rcases h with rfl | ⟨ds, rfl, hds⟩
  · exact if_neg fun hpoint => (ht 46 hpoint).2 rfl
  · rw [afterFrac, List.cons_append, List.head?_cons, if_pos rfl, List.tail_cons,
      List.dropWhile_append_of_pos hds.2, dropWhile_isDigit fun c hc => (ht c hc).1]

theorem afterExponent_expPart {exp t : Bytes} (h : ExpPart exp) (ht : endsNumber t) :
    afterExponent (exp ++ t) = t := by
  rcases h with rfl | ⟨e, sign, ds, rfl, he, hsign, hds⟩
  · exact afterExponent_of_endsNumber ht
  · have hdrop : dropIf (fun c => c == 43 || c == 45) (sign ++ ds ++ t) = ds ++ t := by
      rcases hsign with rfl | rfl | rfl
      · obtain ⟨c, ds, rfl⟩ := List.exists_cons_of_ne_nil hds.1
        have hdigit := isDigit_iff.mp (hds.2 c List.mem_cons_self)
        refine if_neg fun hany => ?_
        rcases Bool.or_eq_true_iff.mp hany with h | h
        · rw [beq_iff_eq.mp h] at hdigit
          exact absurd hdigit (by decide)
        · rw [beq_iff_eq.mp h] at hdigit
          exact absurd hdigit (by decide)
      · rfl
      · rfl
    have hhead : (e :: (sign ++ ds) ++ t).head? = some 101 ∨
        (e :: (sign ++ ds) ++ t).head? = some 69 := by
      rcases he with rfl | rfl
      · exact .inl rfl
      · exact .inr rfl
    rw [afterExponent, if_pos hhead, List.cons_append, List.tail_cons, hdrop,
      List.dropWhile_append_of_pos hds.2, dropWhile_isDigit fun c hc => (ht c hc).1]

/-- A JSON number is cut out whole. -/
theorem IsNumber.afterNumber {s rest : Bytes} (h : IsNumber s) (hrest : endsNumber rest) :
    afterNumber (s ++ rest) = rest := by
  obtain ⟨negative, int, frac, exp, rfl, hint, hfrac, hexp⟩ := h
  have hhead := hexp.head hrest
  have hfrac' := hfrac.head fun c hc => (hhead c hc).1
  rw [signed, List.append_assoc, List.append_assoc, List.append_assoc]
  change Stratum.afterNumber (signed negative (int ++ (frac ++ (exp ++ rest)))) = rest
  rw [Stratum.afterNumber, dropIf_signed hint.1.1 hint.1.2, List.dropWhile_append_of_pos hint.1.2,
    dropWhile_isDigit hfrac', afterFrac_fracPart hfrac hhead, afterExponent_expPart hexp hrest]

theorem IsNumber.numberText {s rest : Bytes} (h : IsNumber s) (hrest : endsNumber rest) :
    numberText (s ++ rest) = s := by
  rw [Stratum.numberText, h.afterNumber hrest, List.length_append, Nat.add_sub_cancel,
    List.take_left]

/-- A sign or a digit that a number starts with. -/
def StartsNumber (t : Bytes) : Prop := ∃ c ∈ (dropIf (· == 45) t).head?, isDigit c = true

theorem StartsNumber.exists_signed {t : Bytes} (h : StartsNumber t) :
    ∃ negative d u, t = signed negative (d :: u) ∧ isDigit d = true := by
  obtain ⟨d, hd, hdigit⟩ := h
  cases t with
  | nil => cases hd
  | cons c t =>
    by_cases hc : c = 45
    · subst hc
      obtain ⟨u, rfl⟩ := List.head?_eq_some_iff.mp hd
      exact ⟨true, d, u, rfl, hdigit⟩
    · rw [dropIf, if_neg (by simpa using hc)] at hd
      obtain ⟨u, hu⟩ := List.head?_eq_some_iff.mp hd
      exact ⟨false, d, u, hu, hdigit⟩

theorem dropIf_signed_cons {negative : Bool} {d : UInt8} (hd : isDigit d = true) (u : Bytes) :
    dropIf (· == 45) (signed negative (d :: u)) = d :: u :=
  dropIf_signed (List.cons_ne_nil d []) fun _ hc => List.mem_singleton.mp hc ▸ hd

theorem startsNumber_signed (negative : Bool) {d : UInt8} (hd : isDigit d = true) (u : Bytes) :
    StartsNumber (signed negative (d :: u)) :=
  ⟨d, by rw [dropIf_signed_cons hd]; rfl, hd⟩

theorem StartsNumber.append {s : Bytes} (h : StartsNumber s) (rest : Bytes) :
    StartsNumber (s ++ rest) := by
  obtain ⟨negative, d, u, rfl, hd⟩ := h.exists_signed
  cases negative with
  | true => exact startsNumber_signed true hd (u ++ rest)
  | false => exact startsNumber_signed false hd (u ++ rest)

/-- What is cut out starts as the text does. -/
theorem StartsNumber.numberText {t : Bytes} (h : StartsNumber t) : StartsNumber (numberText t) := by
  obtain ⟨negative, d, u, rfl, hd⟩ := h.exists_signed
  have hle : (afterNumber (signed negative (d :: u))).length ≤ u.length := by
    rw [afterNumber, dropIf_signed_cons hd, List.dropWhile_cons_of_pos hd]
    exact ((afterExponent_suffix _).trans
      ((afterFrac_suffix _).trans (List.dropWhile_suffix _))).length_le
  obtain ⟨n, hn⟩ := Nat.exists_eq_add_of_le hle
  rw [Stratum.numberText]
  cases negative with
  | true =>
    have hlen : (signed true (d :: u)).length -
        (afterNumber (signed true (d :: u))).length = n + 1 + 1 := by
      change u.length + 1 + 1 - _ = _
      omega
    rw [hlen]
    exact startsNumber_signed true hd (u.take n)
  | false =>
    have hlen : (signed false (d :: u)).length -
        (afterNumber (signed false (d :: u))).length = n + 1 := by
      change u.length + 1 - _ = _
      omega
    rw [hlen]
    exact startsNumber_signed false hd (u.take n)

/-- `std::stod` converts a number that has a double. -/
theorem StartsNumber.stod_iff {num : Bytes} (h : StartsNumber num) :
    (∃ q, stod num = .ok q) ↔ HasDouble num := by
  obtain ⟨d, hd, hdigit⟩ := h
  have hint : (numeral num).int ≠ [] := by
    obtain ⟨u, hu⟩ := List.head?_eq_some_iff.mp hd
    change (dropIf (· == 45) num).takeWhile isDigit ≠ []
    rw [hu, List.takeWhile_cons_of_pos hdigit]
    exact List.cons_ne_nil _ _
  rw [stod, if_neg fun hempty => hint hempty.1, HasDouble, toDouble]
  cases Binary64.convert (numeral num).value with
  | none => exact ⟨by rintro ⟨_, ⟨⟩⟩, by rintro ⟨⟩⟩
  | some x => exact ⟨fun _ => rfl, fun _ => ⟨x, rfl⟩⟩

theorem IsNumber.startsNumber {s : Bytes} (h : IsNumber s) : StartsNumber s := by
  obtain ⟨negative, int, frac, exp, rfl, hint, -⟩ := h
  obtain ⟨d, int, rfl⟩ := List.exists_cons_of_ne_nil hint.1.1
  exact startsNumber_signed negative (hint.1.2 d List.mem_cons_self) _

/-- It starts like nothing else. -/
theorem StartsNumber.other {c : UInt8} {t : Bytes} (h : StartsNumber (c :: t)) :
    StartsOther c ∧ isWs c = false ∧ c ≠ closeBracket := by
  obtain ⟨d, hd, hdigit⟩ := h
  by_cases hc : c = 45
  · exact hc ▸ ⟨startsOther_minus, rfl, by decide⟩
  · rw [dropIf, if_neg (by simpa using hc), List.head?_cons, Option.mem_some_iff] at hd
    exact startsOther_of_isDigit (hd ▸ hdigit)

theorem StringChars.stringBody {s : Bytes} (h : StringChars s) (rest : Bytes) :
    (stringBody (s ++ quote :: rest)).2 = quote :: rest := by
  induction h with
  | nil => rw [List.nil_append, stringBody_quote]
  | plain _ hquote hbackslash _ ih => rw [List.cons_append, stringBody_plain hquote hbackslash, ih]
  | escape he _ ih =>
    rw [List.cons_append, List.cons_append, stringBody_escape _, ih]
    rintro rfl
    exact absurd he (by decide)
  | unicode _ _ ih => exact ih

/-! ### What is read -/

theorem reads_blank_append {w t r : Bytes} {v : JsonValue} {o : ℕ} (hw : Blank w) :
    Reads (w ++ t) v r o ↔ Reads t v r o := by
  rw [← reads_dropWs, dropWs_blank hw, reads_dropWs]

theorem endsNumber_blank_append {w t : Bytes} {c : UInt8} (hw : Blank w)
    (hc : c = comma ∨ c = closeBracket ∨ c = closeBrace) : endsNumber (w ++ c :: t) := by
  cases w with
  | nil =>
    rintro d ⟨⟩
    rcases hc with rfl | rfl | rfl <;> decide
  | cons d w =>
    rintro d ⟨⟩
    rcases isWs_iff.mp (hw d List.mem_cons_self) with rfl | rfl | rfl | rfl <;> decide

/-- What follows a number ends it; after another value it does not matter. -/
def Ends (s rest : Bytes) : Prop := StartsNumber s → endsNumber rest

theorem ends_blank_append {s w t : Bytes} {c : UInt8} (hw : Blank w)
    (hc : c = comma ∨ c = closeBracket ∨ c = closeBrace) : Ends s (w ++ c :: t) :=
  fun _ => endsNumber_blank_append hw hc

/-- The key of a member, and where its value starts. -/
theorem StringChars.key {w k w₁ w₂ : Bytes} (hw : Blank w) (hk : StringChars k) (h₁ : Blank w₁)
    (h₂ : Blank w₂) (t : Bytes) {v : JsonValue} {r : Bytes} {o : ℕ} :
    Reads (afterKey (w ++ quote :: (k ++ quote :: (w₁ ++ colon :: (w₂ ++ t))))) v r o ↔
      Reads t v r o := by
  rw [afterKey, dropWs_blank hw, dropWs_cons rfl, List.tail_cons, hk.stringBody, List.tail_cons,
    dropWs_blank h₁, dropWs_cons rfl]
  exact reads_blank_append h₂

/-- No text of a value starts with a blank or with what closes an array. -/
theorem exists_cons_of_jsonText {N : Bytes → Prop} (hN : ∀ s, N s → IsNumber s) {s : Bytes}
    (h : JsonText N s) : ∃ c t, s = c :: t ∧ isWs c = false ∧ c ≠ closeBracket := by
  cases h with
  | null => exact ⟨_, _, rfl, rfl, by decide⟩
  | true => exact ⟨_, _, rfl, rfl, by decide⟩
  | false => exact ⟨_, _, rfl, rfl, by decide⟩
  | number h =>
    have hstarts := (hN _ h).startsNumber
    cases s with
    | nil => exact absurd hstarts nofun
    | cons c t => exact ⟨c, t, rfl, hstarts.other.2⟩
  | string _ => exact ⟨_, _, rfl, rfl, by decide⟩
  | emptyArray _ => exact ⟨_, _, rfl, rfl, by decide⟩
  | array _ => exact ⟨_, _, rfl, rfl, by decide⟩
  | emptyObject _ => exact ⟨_, _, rfl, rfl, by decide⟩
  | object _ => exact ⟨_, _, rfl, rfl, by decide⟩

theorem ElementsText.head {N : Bytes → Prop} (hN : ∀ s, N s → IsNumber s) {s : Bytes}
    (h : ElementsText N s) (t : Bytes) : (dropWs (s ++ t)).head? ≠ some closeBracket := by
  cases h with
  | last hw hv _ =>
    obtain ⟨c, u, rfl, hc, hne⟩ := exists_cons_of_jsonText hN hv
    rw [List.append_assoc, dropWs_blank hw, List.append_assoc, List.cons_append, dropWs_cons hc]
    exact fun h => hne (Option.some.inj h)
  | more hw hv _ _ =>
    obtain ⟨c, u, rfl, hc, hne⟩ := exists_cons_of_jsonText hN hv
    rw [List.append_assoc, dropWs_blank hw, List.append_assoc, List.cons_append, dropWs_cons hc]
    exact fun h => hne (Option.some.inj h)

theorem MembersText.head {N : Bytes → Prop} {s : Bytes} (h : MembersText N s) (t : Bytes) :
    (dropWs (s ++ t)).head? ≠ some closeBrace := by
  cases h with
  | last hw _ _ _ _ _ =>
    rw [List.append_assoc, dropWs_blank hw, List.cons_append, dropWs_cons rfl]
    exact nofun
  | more hw _ _ _ _ _ _ =>
    rw [List.append_assoc, dropWs_blank hw, List.cons_append, dropWs_cons rfl]
    exact nofun

theorem IsNumber.reads {s rest : Bytes} {q : ℚ} (h : IsNumber s) (hq : stod s = .ok q)
    (hrest : endsNumber rest) : Reads (s ++ rest) (.number q) rest 0 := by
  have hstarts := h.startsNumber.append rest
  have hafter := h.afterNumber hrest
  have htext := h.numberText hrest
  generalize s ++ rest = t at hstarts hafter htext ⊢
  cases t with
  | nil => exact absurd hstarts nofun
  | cons c t =>
    obtain ⟨hother, hws, -⟩ := hstarts.other
    rw [← hafter]
    exact .number (dropWs_cons hws t) hother (by rw [htext, hq])

mutual

/-- JSON is read to its end, if its numbers are in range. -/
theorem JsonText.reads {s rest : Bytes} :
    JsonText InRange s → Ends s rest → ∃ v, Reads (s ++ rest) v rest 0
  | .null, _ => ⟨_, reads_null (dropWs_cons rfl _)⟩
  | .true, _ => ⟨_, reads_true (dropWs_cons rfl _)⟩
  | .false, _ => ⟨_, reads_false (dropWs_cons rfl _)⟩
  | .number ⟨hnumber, hdouble⟩, hends => by
    obtain ⟨q, hq⟩ := hnumber.startsNumber.stod_iff.mpr hdouble
    exact ⟨_, hnumber.reads hq (hends hnumber.startsNumber)⟩
  | .string (s := s) hs, _ => by
    have hreads := Reads.string (dropWs_cons (c := quote) rfl (s ++ quote :: rest))
    rw [hs.stringBody] at hreads
    rw [List.cons_append, List.append_assoc]
    exact ⟨_, hreads⟩
  | .emptyArray hw, _ => by
    rw [List.cons_append, List.append_assoc]
    exact ⟨_, .emptyArray (dropWs_cons rfl _) (by rw [dropWs_blank hw]; rfl)⟩
  | .array hs, _ => by
    obtain ⟨vs, hvs⟩ := hs.reads rest
    rw [List.cons_append, List.append_assoc]
    exact ⟨_, .array (dropWs_cons rfl _) (hs.head (fun _ h => h.1) _)
      (readsElements_dropWs.mpr hvs)⟩
  | .emptyObject hw, _ => by
    rw [List.cons_append, List.append_assoc]
    exact ⟨_, .emptyObject (dropWs_cons rfl _) (by rw [dropWs_blank hw]; rfl)⟩
  | .object hs, _ => by
    obtain ⟨fs, hfs⟩ := hs.reads rest
    rw [List.cons_append, List.append_assoc]
    exact ⟨_, .object (dropWs_cons rfl _) (hs.head _) (readsMembers_dropWs.mpr hfs)⟩

theorem ElementsText.reads {s : Bytes} :
    ElementsText InRange s → ∀ rest, ∃ vs,
      ReadsElements (s ++ closeBracket :: rest) vs (closeBracket :: rest) 0
  | .last hw hv hw', rest => by
    obtain ⟨v, hreads⟩ := hv.reads (ends_blank_append (t := rest) hw' (.inr (.inl rfl)))
    simp only [List.append_assoc]
    exact ⟨_, readsElements_last ((reads_blank_append hw).mpr hreads)
      (by rw [dropWs_blank hw']; rfl)⟩
  | .more (s := s) hw hv hw' hs, rest => by
    obtain ⟨v, hreads⟩ := hv.reads
      (ends_blank_append (t := s ++ closeBracket :: rest) hw' (.inl rfl))
    obtain ⟨vs, hvs⟩ := hs.reads rest
    simp only [List.append_assoc, List.cons_append]
    exact ⟨_, .more ((reads_blank_append hw).mpr hreads) (by rw [dropWs_blank hw']; rfl)
      (readsElements_dropWs.mpr hvs)⟩

theorem MembersText.reads {s : Bytes} :
    MembersText InRange s → ∀ rest, ∃ fs,
      ReadsMembers (s ++ closeBrace :: rest) fs (closeBrace :: rest) 0
  | .last hw hk h₁ h₂ hv hw', rest => by
    obtain ⟨v, hreads⟩ := hv.reads (ends_blank_append (t := rest) hw' (.inr (.inr rfl)))
    simp only [List.append_assoc, List.cons_append]
    exact ⟨_, readsMembers_last rfl ((hk.key hw h₁ h₂ _).mpr hreads)
      (by rw [dropWs_blank hw']; rfl)⟩
  | .more (s := s) hw hk h₁ h₂ hv hw' hs, rest => by
    obtain ⟨v, hreads⟩ := hv.reads
      (ends_blank_append (t := s ++ closeBrace :: rest) hw' (.inl rfl))
    obtain ⟨fs, hfs⟩ := hs.reads rest
    simp only [List.append_assoc, List.cons_append]
    exact ⟨_, .more ((hk.key hw h₁ h₂ _).mpr hreads) (by rw [dropWs_blank hw']; rfl)
      (readsMembers_dropWs.mpr hfs)⟩

end

/-! ### What was there to read -/

/-- What starts like a number is converted. -/
theorem Reads.stod {t u r : Bytes} {c : UInt8} {v : JsonValue} {o : ℕ} (h : Reads t v r o)
    (hdrop : dropWs t = c :: u) (hc : StartsOther c) :
    ∃ q, stod (numberText (c :: u)) = .ok q := by
  obtain ⟨hquote, hbrace, hbracket, ht, hf, hn⟩ := hc
  cases h with
  | blank h => exact absurd (h.symm.trans hdrop) nofun
  | string h => exact absurd (List.cons.inj (hdrop.symm.trans h)).1 hquote
  | emptyArray h _ => exact absurd (List.cons.inj (hdrop.symm.trans h)).1 hbracket
  | array h _ _ => exact absurd (List.cons.inj (hdrop.symm.trans h)).1 hbracket
  | emptyObject h _ => exact absurd (List.cons.inj (hdrop.symm.trans h)).1 hbrace
  | object h _ _ => exact absurd (List.cons.inj (hdrop.symm.trans h)).1 hbrace
  | true h => exact absurd (List.cons.inj (hdrop.symm.trans h)).1 ht
  | false h => exact absurd (List.cons.inj (hdrop.symm.trans h)).1 hf
  | null h => exact absurd (List.cons.inj (hdrop.symm.trans h)).1 hn
  | number h _ hq => exact ⟨_, hdrop.symm.trans h ▸ hq⟩

theorem Reads.elements {t u r : Bytes} {v : JsonValue} {o : ℕ} (h : Reads t v r o)
    (hdrop : dropWs t = openBracket :: u) (hne : (dropWs u).head? ≠ some closeBracket) :
    ∃ vs r', ReadsElements u vs r' o := by
  cases h with
  | blank h => exact absurd (h.symm.trans hdrop) nofun
  | emptyArray h h' =>
    rw [(List.cons.inj (hdrop.symm.trans h)).2, h'] at hne
    exact absurd rfl hne
  | array h _ hvs =>
    rw [← (List.cons.inj (hdrop.symm.trans h)).2] at hvs
    exact ⟨_, _, readsElements_dropWs.mp hvs⟩
  | number h hother _ => exact absurd (List.cons.inj (hdrop.symm.trans h)).1.symm hother.2.2.1
  | string h | emptyObject h _ | object h _ _ | true h | false h | null h =>
    exact absurd (List.cons.inj (hdrop.symm.trans h)).1 (by decide)

theorem Reads.members {t u r : Bytes} {v : JsonValue} {o : ℕ} (h : Reads t v r o)
    (hdrop : dropWs t = openBrace :: u) (hne : (dropWs u).head? ≠ some closeBrace) :
    ∃ fs r', ReadsMembers u fs r' o := by
  cases h with
  | blank h => exact absurd (h.symm.trans hdrop) nofun
  | emptyObject h h' =>
    rw [(List.cons.inj (hdrop.symm.trans h)).2, h'] at hne
    exact absurd rfl hne
  | object h _ hfs =>
    rw [← (List.cons.inj (hdrop.symm.trans h)).2] at hfs
    exact ⟨_, _, readsMembers_dropWs.mp hfs⟩
  | number h hother _ => exact absurd (List.cons.inj (hdrop.symm.trans h)).1.symm hother.2.1
  | string h | emptyArray h _ | array h _ _ | true h | false h | null h =>
    exact absurd (List.cons.inj (hdrop.symm.trans h)).1 (by decide)

theorem Reads.hasDouble {t r : Bytes} {v : JsonValue} {o : ℕ} (hreads : Reads t v r o)
    (h : StartsNumber (dropWs t)) : HasDouble (numberText (dropWs t)) := by
  rw [← h.numberText.stod_iff]
  cases hdrop : dropWs t with
  | nil => exact absurd (hdrop ▸ h) nofun
  | cons c u => exact hreads.stod hdrop (hdrop ▸ h).other.1

/-- A value that was read is all there is before the text goes on. -/
theorem JsonText.eq_of_reads {s rest r : Bytes} {v : JsonValue} {o : ℕ} (h : JsonText InRange s)
    (hends : Ends s rest) (hreads : Reads (s ++ rest) v r o) : r = rest := by
  obtain ⟨w, hw⟩ := h.reads hends
  exact (hreads.unique hw).2.1

mutual

/-- The numbers of JSON that was read are in range. -/
theorem JsonText.inRange {s rest r : Bytes} {v : JsonValue} {o : ℕ} :
    JsonText IsNumber s → Ends s rest → Reads (s ++ rest) v r o → JsonText InRange s
  | .null, _, _ => .null
  | .true, _, _ => .true
  | .false, _, _ => .false
  | .number hnumber, hends, hreads => by
    -- the scanner takes the whole number and no more, so what was converted is the number
    have hstarts := hnumber.startsNumber.append rest
    have htext := hnumber.numberText (hends hnumber.startsNumber)
    have hdrop : dropWs (s ++ rest) = s ++ rest := by
      generalize s ++ rest = t at hstarts ⊢
      cases t with
      | nil => rfl
      | cons c t => exact dropWs_cons hstarts.other.2.1 t
    have hdouble := hreads.hasDouble (hdrop.symm ▸ hstarts)
    rw [hdrop, htext] at hdouble
    exact .number ⟨hnumber, hdouble⟩
  | .string hs, _, _ => .string hs
  | .emptyArray hw, _, _ => .emptyArray hw
  | .array hs, _, hreads => by
    rw [List.cons_append, List.append_assoc] at hreads
    -- the first element is no closing bracket, so elements were read
    obtain ⟨vs, r', hvs⟩ := hreads.elements (dropWs_cons rfl _) (hs.head (fun _ h => h) _)
    exact .array (hs.inRange hvs)
  | .emptyObject hw, _, _ => .emptyObject hw
  | .object hs, _, hreads => by
    rw [List.cons_append, List.append_assoc] at hreads
    obtain ⟨fs, r', hfs⟩ := hreads.members (dropWs_cons rfl _) (hs.head _)
    exact .object (hs.inRange hfs)

theorem ElementsText.inRange {s rest r : Bytes} {vs : List JsonValue} {o : ℕ} :
    ElementsText IsNumber s → ReadsElements (s ++ closeBracket :: rest) vs r o →
      ElementsText InRange s
  | .last (v := v) hw hv hw', hreads => by
    simp only [List.append_assoc] at hreads
    have hends : Ends v (_ ++ closeBracket :: rest) := ends_blank_append hw' (.inr (.inl rfl))
    cases hreads with
    | last hfirst _ => exact .last hw (hv.inRange hends ((reads_blank_append hw).mp hfirst)) hw'
    | more hfirst _ _ => exact .last hw (hv.inRange hends ((reads_blank_append hw).mp hfirst)) hw'
  | .more (v := v) (s := s) hw hv hw' hs, hreads => by
    simp only [List.append_assoc, List.cons_append] at hreads
    have hends : Ends v (_ ++ comma :: (s ++ closeBracket :: rest)) :=
      ends_blank_append hw' (.inl rfl)
    cases hreads with
    | last hfirst hlast =>
      -- the comma would have been seen
      have hfirst := (reads_blank_append hw).mp hfirst
      rw [(hv.inRange hends hfirst).eq_of_reads hends hfirst, dropWs_blank hw'] at hlast
      exact absurd rfl hlast
    | more hfirst hmore hvs =>
      have hfirst := (reads_blank_append hw).mp hfirst
      have hv' := hv.inRange hends hfirst
      rw [hv'.eq_of_reads hends hfirst, dropWs_blank hw', dropWs_cons rfl] at hmore
      rw [← (List.cons.inj hmore).2, readsElements_dropWs] at hvs
      exact .more hw hv' hw' (hs.inRange hvs)

theorem MembersText.inRange {s rest r : Bytes} {fs : List (Bytes × JsonValue)} {o : ℕ} :
    MembersText IsNumber s → ReadsMembers (s ++ closeBrace :: rest) fs r o →
      MembersText InRange s
  | .last (v := v) hw hk h₁ h₂ hv hw', hreads => by
    simp only [List.append_assoc, List.cons_append] at hreads
    have hends : Ends v (_ ++ closeBrace :: rest) := ends_blank_append hw' (.inr (.inr rfl))
    cases hreads with
    | last hfirst _ =>
      exact .last hw hk h₁ h₂ (hv.inRange hends ((hk.key hw h₁ h₂ _).mp hfirst)) hw'
    | more hfirst _ _ =>
      exact .last hw hk h₁ h₂ (hv.inRange hends ((hk.key hw h₁ h₂ _).mp hfirst)) hw'
  | .more (v := v) (s := s) hw hk h₁ h₂ hv hw' hs, hreads => by
    simp only [List.append_assoc, List.cons_append] at hreads
    have hends : Ends v (_ ++ comma :: (s ++ closeBrace :: rest)) :=
      ends_blank_append hw' (.inl rfl)
    cases hreads with
    | last hfirst hlast =>
      have hfirst := (hk.key hw h₁ h₂ _).mp hfirst
      rw [(hv.inRange hends hfirst).eq_of_reads hends hfirst, dropWs_blank hw'] at hlast
      exact absurd rfl hlast
    | more hfirst hmore hfs =>
      have hfirst := (hk.key hw h₁ h₂ _).mp hfirst
      have hv' := hv.inRange hends hfirst
      rw [hv'.eq_of_reads hends hfirst, dropWs_blank hw', dropWs_cons rfl] at hmore
      rw [← (List.cons.inj hmore).2, readsMembers_dropWs] at hfs
      exact .more hw hk h₁ h₂ hv' hw' (hs.inRange hfs)

end

/-! ### The promise -/

/-- The text starts with a JSON value. -/
def HasValue (s : Bytes) : Prop := ∃ tok rest, dropWs s = tok ++ rest ∧ JsonText IsNumber tok

/-- The text is read, within its bounds, and as null where there is no value. A read out of
bounds would be an error of the model, as a missing end of the recursion would be. -/
def ParsesSafely (s : Bytes) : Prop :=
  ∃ v consumed, JsonValue.parse s = .ok (v, consumed) ∧ consumed ≤ s.length ∧
    (¬ HasValue s → v = .null)

/-- Nothing, an `n` with three more bytes, a number or another JSON value, with numbers in
range. -/
def Clean (s : Bytes) : Prop :=
  dropWs s = [] ∨ (∃ u, dropWs s = 110 :: u ∧ 3 ≤ u.length) ∨
    (StartsNumber (dropWs s) ∧ HasDouble (numberText (dropWs s))) ∨
    (¬ StartsNumber (dropWs s) ∧ ∃ tok rest, dropWs s = tok ++ rest ∧ JsonText InRange tok)

/-- One digit is a number. -/
theorem StartsNumber.hasValue {s : Bytes} (h : StartsNumber (dropWs s)) : HasValue s := by
  obtain ⟨negative, d, u, hs, hd⟩ := h.exists_signed
  have hdigits : AllDigits [d] := ⟨List.cons_ne_nil d [], fun c hc => List.mem_singleton.mp hc ▸ hd⟩
  -- a digit alone has no leading zero, whether it is zero or not
  have hint : IntPart [d] := by
    refine ⟨hdigits, ?_⟩
    by_cases hzero : d = 48
    · exact .inl (hzero ▸ rfl)
    · exact .inr fun hhead => hzero (Option.some.inj hhead)
  refine ⟨signed negative [d], u, ?_,
    .number ⟨negative, [d], [], [], rfl, hint, .inl rfl, .inl rfl⟩⟩
  rw [hs, signed, signed, List.append_assoc]
  rfl

theorem parsesSafely_of_reads {s r : Bytes} {v : JsonValue} (h : Reads s v r 0)
    (hv : HasValue s ∨ v = .null) : ParsesSafely s :=
  ⟨v, s.length - r.length, parse_of_reads h, Nat.sub_le _ _, fun hno => hv.resolve_left hno⟩

theorem Clean.parsesSafely {s : Bytes} (h : Clean s) : ParsesSafely s := by
  obtain hblank | ⟨u, hnull, hlen⟩ | ⟨hstarts, hdouble⟩ | ⟨hstarts, tok, rest, hs, htok⟩ := h
  · exact parsesSafely_of_reads (.blank hblank) (.inr rfl)
  · have hreads := Reads.null hnull
    rw [Nat.sub_eq_zero_of_le hlen] at hreads
    exact parsesSafely_of_reads hreads (.inr rfl)
  · obtain ⟨q, hq⟩ := hstarts.numberText.stod_iff.mpr hdouble
    cases hdrop : dropWs s with
    | nil => exact absurd (hdrop ▸ hstarts) nofun
    | cons c u =>
      exact parsesSafely_of_reads (.number hdrop (hdrop ▸ hstarts).other.1 (hdrop ▸ hq))
        (.inl hstarts.hasValue)
  · rw [hs] at hstarts
    -- a value that is no number ends by itself, whatever follows
    have hends : Ends tok rest := fun h => absurd (h.append rest) hstarts
    obtain ⟨v, hreads⟩ := htok.reads hends
    rw [← hs, reads_dropWs] at hreads
    exact parsesSafely_of_reads hreads (.inl ⟨tok, rest, hs, htok.mono fun _ h => h.1⟩)

theorem ParsesSafely.clean {s : Bytes} (h : ParsesSafely s) : Clean s := by
  obtain ⟨v, consumed, hparse, hle, hnull⟩ := h
  obtain ⟨r, o, hreads, rfl⟩ := parse_eq_ok_iff.mp hparse
  -- what was consumed beyond the end was counted
  have ho : o = 0 := by
    rcases hreads.suffix.2 with ho | rfl
    · exact ho
    · rw [List.length_nil] at hle
      omega
  by_cases hstarts : StartsNumber (dropWs s)
  · exact .inr (.inr (.inl ⟨hstarts, hreads.hasDouble hstarts⟩))
  by_cases hvalue : HasValue s
  · obtain ⟨tok, rest, hs, htok⟩ := hvalue
    refine .inr (.inr (.inr ⟨hstarts, tok, rest, hs, ?_⟩))
    rw [hs] at hstarts
    rw [← reads_dropWs, hs] at hreads
    exact htok.inRange (fun h => absurd (h.append rest) hstarts) hreads
  · -- only what starts with an `n`, and nothing at all, is read as null
    rw [hnull hvalue] at hreads
    cases hreads with
    | blank h => exact .inl h
    | null h => exact .inr (.inl ⟨_, h, by omega⟩)

/-- The promise is kept for clean texts, and for no others. -/
theorem parsesSafely_iff (s : Bytes) : ParsesSafely s ↔ Clean s :=
  ⟨ParsesSafely.clean, Clean.parsesSafely⟩

/-- A letter that starts no literal is taken for a number, and `std::stod` throws; of a lone `t`
four bytes are consumed. -/
theorem not_parsesSafely :
    ((JsonValue.parse (bytes "x")).toOption.isNone = true ∧ ¬ ParsesSafely (bytes "x")) ∧
      (JsonValue.parse (bytes "t")).toOption.map Prod.snd = some 4 ∧
        ¬ ParsesSafely (bytes "t") := by
  have hx : (JsonValue.parse (bytes "x")).toOption.isNone = true := by decide +kernel
  have ht : (JsonValue.parse (bytes "t")).toOption.map Prod.snd = some 4 := by decide +kernel
  refine ⟨⟨hx, ?_⟩, ht, ?_⟩
  · rintro ⟨v, consumed, hparse, -⟩
    rw [hparse] at hx
    exact absurd hx Bool.false_ne_true
  · rintro ⟨v, consumed, hparse, hle, -⟩
    rw [hparse] at ht
    obtain rfl : consumed = 4 := Option.some.inj ht
    exact absurd hle (by decide)

end PropMiner.Stratum
