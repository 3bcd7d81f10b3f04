import Mathlib.Data.List.DropRight
import PropMiner.Stratum.JsonParser

/-!
# What the JSON parser accepts

The parser walks a text by position. Here its language is given over the rest of the text:
`Reads t v r o` says that at a place where `t` is left the parser finds the value `v` and
leaves `r`. The language is wider than JSON. A string ends at the end of the text, the
letters `t`, `f` and `n` stand for the literals whatever follows them, commas alone decide
whether an array or an object goes on, and the end of the text is a null value. The number
`o` is how far beyond the end of the text the position comes to lie, which only a cut off
literal leads to.

Parser and language agree: a text is read as the language says, and where the language says
nothing `std::stod` throws. In particular no byte outside the text is read and every loop
ends.

## Main definitions

* `stringBody` — the contents of a string
* `Reads`, `ReadsElements`, `ReadsMembers` — the language

## Main results

* `parse_eq_ok_iff` — the parser reads a value iff the language has it
* `parse_eq_error` — what is not read is an exception of `std::stod`
-/

set_option autoImplicit false

namespace PropMiner.Stratum

open PropMiner.Semantics (ok_bind)

/-! ### The rest of a text -/

def dropWs (t : Bytes) : Bytes := t.dropWhile isWs

/-- The contents of a string whose opening quote has been read, and what is left from its
closing quote on. -/
def stringBody : Bytes → Bytes × Bytes
  | [] => ([], [])
  | c :: t =>
    if c = quote then ([], c :: t)
    else if c = backslash then
      match t with
      -- there is nothing to escape, and `next` gives a null byte
      | [] => ([0], [])
      | e :: t =>
        if e = 117 then
          match t with
          | _ :: _ :: _ :: _ :: t => (63 :: (stringBody t).1, (stringBody t).2)
          | _ => ([63], [])
        else (unescape e :: (stringBody t).1, (stringBody t).2)
    else (c :: (stringBody t).1, (stringBody t).2)

theorem stringBody_quote (t : Bytes) : stringBody (quote :: t) = ([], quote :: t) := by
  rw [stringBody.eq_def]
  rfl

/-- Nothing is left to escape. -/
theorem stringBody_backslash : stringBody [backslash] = ([0], []) := rfl

theorem stringBody_unicode (t : Bytes) :
    stringBody (backslash :: 117 :: t) =
      (63 :: (stringBody (t.drop 4)).1, (stringBody (t.drop 4)).2) := by
  rcases t with _ | ⟨a, _ | ⟨b, _ | ⟨c, _ | ⟨d, t⟩⟩⟩⟩ <;> rfl

theorem stringBody_escape {e : UInt8} (he : e ≠ 117) (t : Bytes) :
    stringBody (backslash :: e :: t) = (unescape e :: (stringBody t).1, (stringBody t).2) := by
  rw [stringBody.eq_def]
  dsimp only
  rw [if_neg (by decide), if_pos rfl, if_neg he]

theorem stringBody_plain {c : UInt8} (hquote : c ≠ quote) (hescape : c ≠ backslash) (t : Bytes) :
    stringBody (c :: t) = (c :: (stringBody t).1, (stringBody t).2) := by
  rw [stringBody.eq_def]
  dsimp only
  rw [if_neg hquote, if_neg hescape]

theorem dropWs_suffix (t : Bytes) : dropWs t <:+ t := List.dropWhile_suffix _

theorem dropWs_dropWs (t : Bytes) : dropWs (dropWs t) = dropWs t := List.dropWhile_idempotent _ _

theorem dropIf_suffix (p : UInt8 → Bool) (t : Bytes) : dropIf p t <:+ t := by
  unfold dropIf
  split_ifs
  · exact List.tail_suffix t
  · exact List.suffix_rfl

theorem stringBody_suffix (t : Bytes) : (stringBody t).2 <:+ t := by
  fun_induction stringBody t with
  | case1 => exact List.suffix_rfl
  | case2 => exact List.suffix_rfl
  | case3 => exact List.nil_suffix
  | case4 a b c d t _ ih =>
    exact ih.trans ⟨[_, _, a, b, c, d], rfl⟩
  | case5 => exact List.nil_suffix
  | case6 e t _ _ ih => exact ih.trans ⟨[_, e], rfl⟩
  | case7 c t _ _ ih => exact ih.trans (List.suffix_cons c t)

theorem afterFrac_suffix (t : Bytes) : afterFrac t <:+ t := by
  unfold afterFrac
  split_ifs
  · exact (List.dropWhile_suffix _).trans (List.tail_suffix t)
  · exact List.suffix_rfl

theorem afterExponent_suffix (t : Bytes) : afterExponent t <:+ t := by
  unfold afterExponent
  split_ifs
  · exact ((List.dropWhile_suffix _).trans (dropIf_suffix _ _)).trans (List.tail_suffix t)
  · exact List.suffix_rfl

theorem afterNumber_suffix (t : Bytes) : afterNumber t <:+ t :=
  (afterExponent_suffix _).trans <| (afterFrac_suffix _).trans <|
    (List.dropWhile_suffix _).trans (dropIf_suffix _ t)

/-! ### Positions -/

/-- Where the parser is when `t` is left. -/
def posOf (input t : Bytes) : ℕ := input.length - t.length

namespace JsonParser

variable {input t u : Bytes} {c : UInt8} {o : ℕ}

theorem posOf_append (s t : Bytes) : posOf (s ++ t) t = s.length := by
  rw [posOf, List.length_append, Nat.add_sub_cancel]

theorem posOf_cons (h : c :: u <:+ input) : posOf input (c :: u) + 1 = posOf input u := by
  have hlen := h.length_le
  rw [List.length_cons] at hlen
  unfold posOf
  rw [List.length_cons]
  omega

theorem posOf_lt_iff (h : t <:+ input) : posOf input t < input.length ↔ t ≠ [] := by
  have hlen := h.length_le
  rw [← List.length_pos_iff, posOf]
  omega

theorem drop_posOf (h : t <:+ input) : input.drop (posOf input t) = t := by
  obtain ⟨s, rfl⟩ := h
  rw [posOf_append, List.drop_left]

theorem load_cons (h : c :: u <:+ input) : load input (posOf input (c :: u)) = .ok c := by
  obtain ⟨s, rfl⟩ := h
  unfold load
  rw [posOf_append, List.getElem?_append_right le_rfl, Nat.sub_self, List.getElem?_cons_zero]

theorem peek_posOf (h : t <:+ input) : peek input (posOf input t) = .ok (t.headD 0) := by
  cases t with
  | nil => rw [peek, if_neg (fun hlt => (posOf_lt_iff h).mp hlt rfl)]; rfl
  | cons c u => rw [peek, if_pos ((posOf_lt_iff h).mpr (List.cons_ne_nil c u)), load_cons h]; rfl

theorem next_cons (h : c :: u <:+ input) :
    next input (posOf input (c :: u)) = .ok (c, posOf input u) := by
  rw [next, if_pos ((posOf_lt_iff h).mpr (List.cons_ne_nil c u)), load_cons h, ← posOf_cons h]
  rfl

theorem next_posOf (h : t <:+ input) :
    next input (posOf input t) = .ok (t.headD 0, posOf input t.tail) := by
  cases t with
  | nil => rw [next, if_neg (fun hlt => (posOf_lt_iff h).mp hlt rfl)]; rfl
  | cons c u => rw [next_cons h]; rfl

theorem skipIf_posOf (p : UInt8 → Bool) (h : t <:+ input) :
    skipIf input p (posOf input t) = .ok (posOf input (dropIf p t)) := by
  cases t with
  | nil => rw [skipIf, if_neg (fun hlt => (posOf_lt_iff h).mp hlt rfl)]; rfl
  | cons c u =>
    rw [skipIf, if_pos ((posOf_lt_iff h).mpr (List.cons_ne_nil c u)), peek_posOf h, ok_bind,
      List.headD_cons, next_cons h, dropIf, List.head?_cons, Option.any_some]
    split_ifs <;> rfl

theorem skipAtMost_posOf (n : ℕ) (h : t <:+ input) :
    skipAtMost input n (posOf input t) = .ok (posOf input (t.drop n)) := by
  induction n generalizing t with
  | zero => rfl
  | succ n ih =>
    cases t with
    | nil => rw [skipAtMost, if_neg (fun hlt => (posOf_lt_iff h).mp hlt rfl)]; rfl
    | cons c u =>
      rw [skipAtMost, if_pos ((posOf_lt_iff h).mpr (List.cons_ne_nil c u)), next_cons h, ok_bind,
        ih ((List.suffix_cons c u).trans h), List.drop_succ_cons]

theorem skipWhile_posOf (p : UInt8 → Bool) {fuel : ℕ} (h : t <:+ input)
    (hfuel : t.length < fuel) :
    skipWhile input p fuel (posOf input t) = .ok (posOf input (t.dropWhile p)) := by
  induction fuel generalizing t with
  | zero => exact absurd hfuel (Nat.not_lt_zero _)
  | succ fuel ih =>
    cases t with
    | nil => rw [skipWhile, if_neg (fun hlt => (posOf_lt_iff h).mp hlt rfl)]; rfl
    | cons c u =>
      rw [skipWhile, if_pos ((posOf_lt_iff h).mpr (List.cons_ne_nil c u)), load_cons h, ok_bind,
        posOf_cons h, ih ((List.suffix_cons c u).trans h) (Nat.lt_of_succ_lt_succ hfuel),
        List.dropWhile_cons]
      split_ifs <;> rfl

theorem skipWs_posOf (h : t <:+ input) :
    skipWs input (posOf input t) = .ok (posOf input (dropWs t)) :=
  skipWhile_posOf isWs h (Nat.lt_succ_of_le h.length_le)

theorem skipDigits_posOf (h : t <:+ input) :
    skipDigits input (posOf input t) = .ok (posOf input (t.dropWhile isDigit)) :=
  skipWhile_posOf isDigit h (Nat.lt_succ_of_le h.length_le)

/-! A cut off literal leaves the position beyond the end, where nothing moves it. -/

theorem skipWs_over (h : t <:+ input) (ho : o = 0 ∨ t = []) :
    skipWs input (posOf input t + o) = .ok (posOf input (dropWs t) + o) := by
  rcases ho with rfl | rfl
  · exact skipWs_posOf h
  · rw [skipWs, skipWhile, if_neg (by unfold posOf; simp)]
    rfl

theorem peek_over (h : t <:+ input) (ho : o = 0 ∨ t = []) :
    peek input (posOf input t + o) = .ok (t.headD 0) := by
  rcases ho with rfl | rfl
  · exact peek_posOf h
  · rw [peek, if_neg (by unfold posOf; simp)]
    rfl

theorem skipIf_over (h : t <:+ input) (ho : o = 0 ∨ t = []) :
    skipIf input (fun _ => true) (posOf input t + o) = .ok (posOf input t.tail + o) := by
  rcases ho with rfl | rfl
  · rw [Nat.add_zero, skipIf_posOf _ h, dropIf]
    cases t <;> rfl
  · rw [skipIf, if_neg (by unfold posOf; simp)]
    rfl

/-! ### Strings and numbers -/

theorem stringLoop_posOf {fuel : ℕ} (s : Bytes) (h : t <:+ input) (hfuel : t.length < fuel) :
    stringLoop input fuel (posOf input t) s =
      .ok (s ++ (stringBody t).1, posOf input (stringBody t).2) := by
  induction fuel generalizing t s with
  | zero => exact absurd hfuel (Nat.not_lt_zero _)
  | succ fuel ih =>
    cases t with
    | nil =>
      rw [stringLoop, if_neg (fun hlt => (posOf_lt_iff h).mp hlt rfl)]
      simp [stringBody]
    | cons c u =>
      have hu : u <:+ input := (List.suffix_cons c u).trans h
      have hlen : u.length < fuel := Nat.lt_of_succ_lt_succ hfuel
      rw [stringLoop, if_pos ((posOf_lt_iff h).mpr (List.cons_ne_nil c u)), peek_posOf h, ok_bind,
        List.headD_cons, next_cons h]
      by_cases hquote : c = quote
      · rw [if_pos hquote, hquote, stringBody_quote, List.append_nil]
        rfl
      rw [if_neg hquote]
      by_cases hescape : c = backslash
      · rw [if_pos hescape, hescape, ok_bind, next_posOf hu, ok_bind]
        cases u with
        | nil =>
          have hend := ih (s ++ [unescape 0]) hu hlen
          rw [stringBody_backslash]
          simpa [stringBody, unescape] using hend
        | cons e w =>
          have hw : w <:+ input := (List.suffix_cons e w).trans hu
          rw [List.length_cons] at hlen
          rw [List.headD_cons, List.tail_cons]
          by_cases hunicode : e = 117
          · rw [if_pos hunicode, hunicode, stringBody_unicode, skipAtMost_posOf 4 hw, ok_bind,
              ih _ ((List.drop_suffix 4 w).trans hw) (by rw [List.length_drop]; omega),
              List.append_assoc]
            rfl
          · rw [if_neg hunicode, stringBody_escape hunicode, ih _ hw (by omega),
              List.append_assoc]
            rfl
      · rw [if_neg hescape, ok_bind, stringBody_plain hquote hescape, ih _ hu hlen,
          List.append_assoc]
        rfl

theorem parseString_posOf (h : t <:+ input) :
    parseString input (posOf input t) =
      .ok ((stringBody t.tail).1, posOf input (stringBody t.tail).2.tail) := by
  have htail : t.tail <:+ input := (List.tail_suffix t).trans h
  have hbody : (stringBody t.tail).2 <:+ input := (stringBody_suffix _).trans htail
  have hskip := skipIf_posOf (fun _ => true) hbody
  have hdrop : dropIf (fun _ => true) (stringBody t.tail).2 = (stringBody t.tail).2.tail := by
    unfold dropIf
    cases (stringBody t.tail).2 <;> rfl
  rw [parseString, next_posOf h, ok_bind,
    stringLoop_posOf [] htail (Nat.lt_succ_of_le htail.length_le), ok_bind, List.nil_append, hskip,
    ok_bind, hdrop]
  rfl

theorem at_iff (h : t <:+ input) :
    (posOf input t < input.length ∧ t.headD 0 = c) ↔ t.head? = some c := by
  rw [posOf_lt_iff h]
  cases t with
  | nil => simp
  | cons d u => simp

theorem skipFrac_posOf (h : t <:+ input) :
    skipFrac input (posOf input t) =
      .ok (posOf input (afterFrac t)) := by
  rw [skipFrac, peek_posOf h, ok_bind, afterFrac]
  by_cases hpoint : t.head? = some 46
  · rw [if_pos ((at_iff h).mpr hpoint), if_pos hpoint]
    obtain ⟨u, rfl⟩ := List.head?_eq_some_iff.mp hpoint
    rw [posOf_cons h, skipDigits_posOf ((List.suffix_cons _ u).trans h), List.tail_cons]
  · rw [if_neg (fun hat => hpoint ((at_iff h).mp hat)), if_neg hpoint]

theorem skipExponent_posOf (h : t <:+ input) :
    skipExponent input (posOf input t) =
      .ok (posOf input (afterExponent t)) := by
  have hiff : (posOf input t < input.length ∧ (t.headD 0 = 101 ∨ t.headD 0 = 69)) ↔
      (t.head? = some 101 ∨ t.head? = some 69) := by
    rw [and_or_left, at_iff h, at_iff h]
  rw [skipExponent, peek_posOf h, ok_bind, afterExponent]
  by_cases hexp : t.head? = some 101 ∨ t.head? = some 69
  · rw [if_pos (hiff.mpr hexp), if_pos hexp]
    cases t with
    | nil => simp at hexp
    | cons c u =>
      have hu : u <:+ input := (List.suffix_cons c u).trans h
      rw [posOf_cons h, skipIf_posOf _ hu, ok_bind,
        skipDigits_posOf ((dropIf_suffix _ u).trans hu), List.tail_cons]
  · rw [if_neg (fun hat => hexp (hiff.mp hat)), if_neg hexp]

theorem parseNumber_posOf (h : t <:+ input) :
    parseNumber input (posOf input t) =
      (stod (numberText t)).map fun q => (.number q, posOf input (afterNumber t)) := by
  have hsign : dropIf (· == 45) t <:+ input := (dropIf_suffix _ t).trans h
  have hint : (dropIf (· == 45) t).dropWhile isDigit <:+ input :=
    (List.dropWhile_suffix _).trans hsign
  have hfrac := (afterFrac_suffix _).trans hint
  have hle := (afterNumber_suffix t).length_le
  have hle' := h.length_le
  have hlen : posOf input (afterNumber t) - posOf input t = t.length - (afterNumber t).length := by
    unfold posOf
    omega
  rw [parseNumber, skipIf_posOf _ h, ok_bind, skipDigits_posOf hsign, ok_bind,
    skipFrac_posOf hint, ok_bind, skipExponent_posOf hfrac, ok_bind, drop_posOf h]
  change (stod (t.take (posOf input (afterNumber t) - posOf input t)) >>= _) = _
  rw [hlen, numberText]
  cases stod (t.take (t.length - (afterNumber t).length)) <;> rfl

end JsonParser

/-! ### The language -/

/-- A byte with which no string, container or literal starts. -/
def StartsOther (c : UInt8) : Prop :=
  c ≠ quote ∧ c ≠ openBrace ∧ c ≠ openBracket ∧ c ≠ 116 ∧ c ≠ 102 ∧ c ≠ 110

/-- The key of a member: whatever it starts with is taken for its opening quote. -/
def keyOf (t : Bytes) : Bytes := (stringBody (dropWs t).tail).1

/-- What is left after a key and an optional colon. -/
def afterKey (t : Bytes) : Bytes :=
  dropIf (· == colon) (dropWs (stringBody (dropWs t).tail).2.tail)

mutual

/-- `parse_value`. -/
inductive Reads : Bytes → JsonValue → Bytes → ℕ → Prop
  | blank {t : Bytes} : dropWs t = [] → Reads t .null [] 0
  | string {t u : Bytes} : dropWs t = quote :: u →
      Reads t (.string (stringBody u).1) (stringBody u).2.tail 0
  | emptyArray {t u r : Bytes} : dropWs t = openBracket :: u → dropWs u = closeBracket :: r →
      Reads t (.array []) r 0
  | array {t u r : Bytes} {vs : List JsonValue} {o : ℕ} : dropWs t = openBracket :: u →
      (dropWs u).head? ≠ some closeBracket → ReadsElements (dropWs u) vs r o →
      Reads t (.array vs) r.tail o
  | emptyObject {t u r : Bytes} : dropWs t = openBrace :: u → dropWs u = closeBrace :: r →
      Reads t (.object []) r 0
  | object {t u r : Bytes} {fs : List (Bytes × JsonValue)} {o : ℕ} : dropWs t = openBrace :: u →
      (dropWs u).head? ≠ some closeBrace → ReadsMembers (dropWs u) fs r o →
      Reads t (.object fs) r.tail o
  | true {t u : Bytes} : dropWs t = 116 :: u →
      Reads t (.bool true) (u.drop 3) (3 - u.length)
  | false {t u : Bytes} : dropWs t = 102 :: u →
      Reads t (.bool false) (u.drop 4) (4 - u.length)
  | null {t u : Bytes} : dropWs t = 110 :: u → Reads t .null (u.drop 3) (3 - u.length)
  | number {t u : Bytes} {c : UInt8} {q : ℚ} : dropWs t = c :: u → StartsOther c →
      stod (numberText (c :: u)) = .ok q → Reads t (.number q) (afterNumber (c :: u)) 0

/-- The elements of an array. -/
inductive ReadsElements : Bytes → List JsonValue → Bytes → ℕ → Prop
  | last {t r : Bytes} {v : JsonValue} {o : ℕ} : Reads t v r o →
      (dropWs r).head? ≠ some comma → ReadsElements t [v] (dropWs r) o
  | more {t r u r' : Bytes} {v : JsonValue} {vs : List JsonValue} {o o' : ℕ} : Reads t v r o →
      dropWs r = comma :: u → ReadsElements (dropWs u) vs r' o' →
      ReadsElements t (v :: vs) r' o'

/-- The members of an object. -/
inductive ReadsMembers : Bytes → List (Bytes × JsonValue) → Bytes → ℕ → Prop
  | last {t r : Bytes} {v : JsonValue} {o : ℕ} : Reads (afterKey t) v r o →
      (dropWs r).head? ≠ some comma → ReadsMembers t [(keyOf t, v)] (dropWs r) o
  | more {t r u r' : Bytes} {v : JsonValue} {fs : List (Bytes × JsonValue)} {o o' : ℕ} :
      Reads (afterKey t) v r o → dropWs r = comma :: u → ReadsMembers (dropWs u) fs r' o' →
      ReadsMembers t ((keyOf t, v) :: fs) r' o'

end

theorem afterKey_suffix (t : Bytes) : afterKey t <:+ t :=
  (dropIf_suffix _ _).trans <| (dropWs_suffix _).trans <| (List.tail_suffix _).trans <|
    (stringBody_suffix _).trans <| (List.tail_suffix _).trans (dropWs_suffix t)

theorem suffix_of_dropWs {t u : Bytes} {c : UInt8} (h : dropWs t = c :: u) : u <:+ t :=
  (List.suffix_cons c u).trans (h ▸ dropWs_suffix t)

mutual

/-- What is left is at the end of the text, and beyond the end there is nothing left. -/
theorem Reads.suffix {t r : Bytes} {v : JsonValue} {o : ℕ} :
    Reads t v r o → r <:+ t ∧ (o = 0 ∨ r = [])
  | .blank _ => ⟨List.nil_suffix, .inl rfl⟩
  | .string h => ⟨(List.tail_suffix _).trans ((stringBody_suffix _).trans (suffix_of_dropWs h)),
      .inl rfl⟩
  | .emptyArray h h' => ⟨(suffix_of_dropWs h').trans (suffix_of_dropWs h), .inl rfl⟩
  | .array h _ hvs => by
    obtain ⟨hsuffix, ho⟩ := hvs.suffix
    refine ⟨(List.tail_suffix _).trans
        (hsuffix.trans ((dropWs_suffix _).trans (suffix_of_dropWs h))),
      ho.imp_right fun hr => by rw [hr, List.tail_nil]⟩
  | .emptyObject h h' => ⟨(suffix_of_dropWs h').trans (suffix_of_dropWs h), .inl rfl⟩
  | .object h _ hfs => by
    obtain ⟨hsuffix, ho⟩ := hfs.suffix
    refine ⟨(List.tail_suffix _).trans
        (hsuffix.trans ((dropWs_suffix _).trans (suffix_of_dropWs h))),
      ho.imp_right fun hr => by rw [hr, List.tail_nil]⟩
  | .true (u := u) h => ⟨(List.drop_suffix _ _).trans (suffix_of_dropWs h), by
      rw [List.drop_eq_nil_iff]; omega⟩
  | .false (u := u) h => ⟨(List.drop_suffix _ _).trans (suffix_of_dropWs h), by
      rw [List.drop_eq_nil_iff]; omega⟩
  | .null (u := u) h => ⟨(List.drop_suffix _ _).trans (suffix_of_dropWs h), by
      rw [List.drop_eq_nil_iff]; omega⟩
  | .number h _ _ => ⟨(afterNumber_suffix _).trans (h ▸ dropWs_suffix _), .inl rfl⟩

theorem ReadsElements.suffix {t r : Bytes} {vs : List JsonValue} {o : ℕ} :
    ReadsElements t vs r o → r <:+ t ∧ (o = 0 ∨ r = [])
  | .last hv _ => by
    obtain ⟨hsuffix, ho⟩ := hv.suffix
    exact ⟨(dropWs_suffix _).trans hsuffix, ho.imp_right fun hr => by rw [hr]; rfl⟩
  | .more hv h hvs => by
    obtain ⟨hsuffix, ho⟩ := hvs.suffix
    exact ⟨hsuffix.trans ((dropWs_suffix _).trans ((suffix_of_dropWs h).trans hv.suffix.1)), ho⟩

theorem ReadsMembers.suffix {t r : Bytes} {fs : List (Bytes × JsonValue)} {o : ℕ} :
    ReadsMembers t fs r o → r <:+ t ∧ (o = 0 ∨ r = [])
  | .last hv _ => by
    obtain ⟨hsuffix, ho⟩ := hv.suffix
    exact ⟨(dropWs_suffix _).trans (hsuffix.trans (afterKey_suffix t)),
      ho.imp_right fun hr => by rw [hr]; rfl⟩
  | .more hv h hfs => by
    obtain ⟨hsuffix, ho⟩ := hfs.suffix
    exact ⟨hsuffix.trans ((dropWs_suffix _).trans
      ((suffix_of_dropWs h).trans (hv.suffix.1.trans (afterKey_suffix t)))), ho⟩

end

/-! ### The parser, one call at a time -/

namespace JsonParser

variable {input t u r : Bytes} {c : UInt8} {v : JsonValue} {o fuel : ℕ}

theorem headD_eq_iff (hc : c ≠ 0) : t.headD 0 = c ↔ t.head? = some c := by
  cases t with
  | nil => exact iff_of_false (fun h => hc h.symm) nofun
  | cons d u => exact Option.some_inj.symm

theorem parseValue_blank (ht : t <:+ input) (h : dropWs t = []) :
    parseValue input (fuel + 1) (posOf input t) = .ok (.null, posOf input []) := by
  have hend : input.length ≤ posOf input [] := by unfold posOf; simp
  rw [parseValue, skipWs_posOf ht, ok_bind, h, if_pos hend]
  rfl

theorem parseValue_cons (ht : t <:+ input) (h : dropWs t = c :: u) :
    parseValue input (fuel + 1) (posOf input t) =
      if c = quote then
        .ok (.string (stringBody u).1, posOf input (stringBody u).2.tail)
      else if c = openBrace then parseObject input fuel (posOf input (c :: u))
      else if c = openBracket then parseArray input fuel (posOf input (c :: u))
      else if c = 116 ∨ c = 102 then parseBool input (posOf input (c :: u))
      else if c = 110 then parseNull (posOf input (c :: u))
      else parseNumber input (posOf input (c :: u)) := by
  have hcu : c :: u <:+ input := (h ▸ dropWs_suffix t).trans ht
  have hlt := (posOf_lt_iff hcu).mpr (List.cons_ne_nil c u)
  rw [parseValue, skipWs_posOf ht, ok_bind, h, if_neg (Nat.not_le.mpr hlt), peek_posOf hcu,
    ok_bind, List.headD_cons, parseString_posOf hcu]
  rfl

theorem parseArray_cons (h : c :: u <:+ input) :
    parseArray input (fuel + 1) (posOf input (c :: u)) =
      if (dropWs u).head? = some closeBracket then
        .ok (.array [], posOf input (dropWs u).tail)
      else do
        let r ← parseElements input fuel (posOf input (dropWs u))
        let stop ← skipIf input (fun _ => true) r.2
        return (.array r.1, stop) := by
  have hu : u <:+ input := (List.suffix_cons c u).trans h
  have hws : dropWs u <:+ input := (dropWs_suffix u).trans hu
  rw [parseArray, next_cons h, ok_bind, skipWs_posOf hu, ok_bind, peek_posOf hws, ok_bind,
    next_posOf hws]
  simp only [headD_eq_iff (show closeBracket ≠ 0 by decide)]
  rfl

theorem parseObject_cons (h : c :: u <:+ input) :
    parseObject input (fuel + 1) (posOf input (c :: u)) =
      if (dropWs u).head? = some closeBrace then
        .ok (.object [], posOf input (dropWs u).tail)
      else do
        let r ← parseMembers input fuel (posOf input (dropWs u))
        let stop ← skipIf input (fun _ => true) r.2
        return (.object r.1, stop) := by
  have hu : u <:+ input := (List.suffix_cons c u).trans h
  have hws : dropWs u <:+ input := (dropWs_suffix u).trans hu
  rw [parseObject, next_cons h, ok_bind, skipWs_posOf hu, ok_bind, peek_posOf hws, ok_bind,
    next_posOf hws]
  simp only [headD_eq_iff (show closeBrace ≠ 0 by decide)]
  rfl

/-- After an element: the last, or a comma and more. -/
theorem parseElements_last (hr : r <:+ input) (ho : o = 0 ∨ r = [])
    (hvalue : parseValue input fuel (posOf input t) = .ok (v, posOf input r + o))
    (hlast : (dropWs r).head? ≠ some comma) :
    parseElements input (fuel + 1) (posOf input t) = .ok ([v], posOf input (dropWs r) + o) := by
  have ho' : o = 0 ∨ dropWs r = [] := ho.imp_right fun h => by rw [h]; rfl
  rw [parseElements, hvalue, ok_bind, skipWs_over hr ho, ok_bind,
    peek_over ((dropWs_suffix r).trans hr) ho', ok_bind,
    if_neg (fun h => hlast ((headD_eq_iff (by decide)).mp h))]
  rfl

theorem parseElements_more (hr : r <:+ input) (ho : o = 0 ∨ r = [])
    (hvalue : parseValue input fuel (posOf input t) = .ok (v, posOf input r + o))
    (hmore : dropWs r = comma :: u) :
    parseElements input (fuel + 1) (posOf input t) = do
      let vs ← parseElements input fuel (posOf input (dropWs u))
      return (v :: vs.1, vs.2) := by
  have hzero : o = 0 := ho.resolve_right fun h => by rw [h] at hmore; cases hmore
  have hcu : comma :: u <:+ input := (hmore ▸ dropWs_suffix r).trans hr
  rw [hzero] at hvalue
  rw [parseElements, hvalue, ok_bind, skipWs_over hr (.inl rfl), ok_bind, hmore,
    peek_over hcu (.inl rfl), ok_bind, List.headD_cons, if_pos rfl, Nat.add_zero, next_cons hcu,
    ok_bind, skipWs_posOf ((List.suffix_cons _ u).trans hcu), ok_bind]

/-- Up to the value of a member. -/
theorem parseMembers_key (ht : t <:+ input) :
    parseMembers input (fuel + 1) (posOf input t) = do
      let v ← parseValue input fuel (posOf input (afterKey t))
      let pos ← skipWs input v.2
      let c ← peek input pos
      if c = comma then do
        let r ← next input pos
        let pos ← skipWs input r.2
        let fs ← parseMembers input fuel pos
        return ((keyOf t, v.1) :: fs.1, fs.2)
      else return ([(keyOf t, v.1)], pos) := by
  have hws : dropWs t <:+ input := (dropWs_suffix t).trans ht
  have hkey : (stringBody (dropWs t).tail).2.tail <:+ input :=
    (List.tail_suffix _).trans ((stringBody_suffix _).trans ((List.tail_suffix _).trans hws))
  rw [parseMembers, skipWs_posOf ht, ok_bind, parseString_posOf hws, ok_bind, skipWs_posOf hkey,
    ok_bind, skipIf_posOf _ ((dropWs_suffix _).trans hkey), ok_bind]
  rfl

theorem parseMembers_last (ht : t <:+ input) (hr : r <:+ input) (ho : o = 0 ∨ r = [])
    (hvalue : parseValue input fuel (posOf input (afterKey t)) = .ok (v, posOf input r + o))
    (hlast : (dropWs r).head? ≠ some comma) :
    parseMembers input (fuel + 1) (posOf input t) =
      .ok ([(keyOf t, v)], posOf input (dropWs r) + o) := by
  have ho' : o = 0 ∨ dropWs r = [] := ho.imp_right fun h => by rw [h]; rfl
  rw [parseMembers_key ht, hvalue, ok_bind, skipWs_over hr ho, ok_bind,
    peek_over ((dropWs_suffix r).trans hr) ho', ok_bind,
    if_neg (fun h => hlast ((headD_eq_iff (by decide)).mp h))]
  rfl

theorem parseMembers_more (ht : t <:+ input) (hr : r <:+ input) (ho : o = 0 ∨ r = [])
    (hvalue : parseValue input fuel (posOf input (afterKey t)) = .ok (v, posOf input r + o))
    (hmore : dropWs r = comma :: u) :
    parseMembers input (fuel + 1) (posOf input t) = do
      let fs ← parseMembers input fuel (posOf input (dropWs u))
      return ((keyOf t, v) :: fs.1, fs.2) := by
  have hzero : o = 0 := ho.resolve_right fun h => by rw [h] at hmore; cases hmore
  have hcu : comma :: u <:+ input := (hmore ▸ dropWs_suffix r).trans hr
  rw [hzero] at hvalue
  rw [parseMembers_key ht, hvalue, ok_bind, skipWs_over hr (.inl rfl), ok_bind, hmore,
    peek_over hcu (.inl rfl), ok_bind, List.headD_cons, if_pos rfl, Nat.add_zero, next_cons hcu,
    ok_bind, skipWs_posOf ((List.suffix_cons _ u).trans hcu), ok_bind]

/-- A literal of which `n` bytes follow the first. -/
theorem posOf_literal (h : c :: u <:+ input) (n : ℕ) :
    posOf input (c :: u) + (n + 1) = posOf input (u.drop n) + (n - u.length) := by
  have hlen := h.length_le
  rw [List.length_cons] at hlen
  unfold posOf
  rw [List.length_cons, List.length_drop]
  omega

end JsonParser

/-! ### The parser reads the language -/

section Complete

open JsonParser

variable {input : Bytes}

theorem length_lt_of_dropWs {t u : Bytes} {c : UInt8} (h : dropWs t = c :: u) :
    u.length < t.length := by
  have hle := (dropWs_suffix t).length_le
  rw [h, List.length_cons] at hle
  exact hle

mutual

theorem Reads.parseValue {t r : Bytes} {v : JsonValue} {o fuel : ℕ} :
    Reads t v r o → t <:+ input → 3 * t.length + 1 ≤ fuel →
      parseValue input fuel (posOf input t) = .ok (v, posOf input r + o)
  | .blank h, ht, hfuel => by
    obtain ⟨fuel, rfl⟩ : ∃ k, fuel = k + 1 := ⟨fuel - 1, by omega⟩
    exact parseValue_blank ht h
  | .string h, ht, hfuel => by
    obtain ⟨fuel, rfl⟩ : ∃ k, fuel = k + 1 := ⟨fuel - 1, by omega⟩
    rw [parseValue_cons ht h, if_pos rfl]
    rfl
  | .emptyArray h h', ht, hfuel => by
    have hlt := length_lt_of_dropWs h
    obtain ⟨fuel, rfl⟩ : ∃ k, fuel = k + 2 := ⟨fuel - 2, by omega⟩
    rw [parseValue_cons ht h, if_neg (by decide), if_neg (by decide), if_pos rfl,
      parseArray_cons ((h ▸ dropWs_suffix t).trans ht), h', List.head?_cons, if_pos rfl]
    rfl
  | .array (u := u) h hne hvs, ht, hfuel => by
    have hlt := length_lt_of_dropWs h
    have hle := (dropWs_suffix u).length_le
    obtain ⟨fuel, rfl⟩ : ∃ k, fuel = k + 2 := ⟨fuel - 2, by omega⟩
    have hu := (dropWs_suffix u).trans ((suffix_of_dropWs h).trans ht)
    rw [parseValue_cons ht h, if_neg (by decide), if_neg (by decide), if_pos rfl,
      parseArray_cons ((h ▸ dropWs_suffix t).trans ht), if_neg hne,
      hvs.parseElements hu (by omega), ok_bind,
      skipIf_over (hvs.suffix.1.trans hu) hvs.suffix.2, ok_bind]
    rfl
  | .emptyObject h h', ht, hfuel => by
    have hlt := length_lt_of_dropWs h
    obtain ⟨fuel, rfl⟩ : ∃ k, fuel = k + 2 := ⟨fuel - 2, by omega⟩
    rw [parseValue_cons ht h, if_neg (by decide), if_pos rfl,
      parseObject_cons ((h ▸ dropWs_suffix t).trans ht), h', List.head?_cons, if_pos rfl]
    rfl
  | .object (u := u) h hne hfs, ht, hfuel => by
    have hlt := length_lt_of_dropWs h
    have hle := (dropWs_suffix u).length_le
    obtain ⟨fuel, rfl⟩ : ∃ k, fuel = k + 2 := ⟨fuel - 2, by omega⟩
    have hu := (dropWs_suffix u).trans ((suffix_of_dropWs h).trans ht)
    rw [parseValue_cons ht h, if_neg (by decide), if_pos rfl,
      parseObject_cons ((h ▸ dropWs_suffix t).trans ht), if_neg hne,
      hfs.parseMembers hu (by omega), ok_bind,
      skipIf_over (hfs.suffix.1.trans hu) hfs.suffix.2, ok_bind]
    rfl
  | .true h, ht, hfuel => by
    obtain ⟨fuel, rfl⟩ : ∃ k, fuel = k + 1 := ⟨fuel - 1, by omega⟩
    have hcu := (h ▸ dropWs_suffix t).trans ht
    rw [parseValue_cons ht h, if_neg (by decide), if_neg (by decide), if_neg (by decide),
      if_pos (.inl rfl), parseBool, load_cons hcu, ok_bind, if_pos rfl, posOf_literal hcu 3]
    rfl
  | .false h, ht, hfuel => by
    obtain ⟨fuel, rfl⟩ : ∃ k, fuel = k + 1 := ⟨fuel - 1, by omega⟩
    have hcu := (h ▸ dropWs_suffix t).trans ht
    rw [parseValue_cons ht h, if_neg (by decide), if_neg (by decide), if_neg (by decide),
      if_pos (.inr rfl), parseBool, load_cons hcu, ok_bind, if_neg (by decide),
      posOf_literal hcu 4]
    rfl
  | .null h, ht, hfuel => by
    obtain ⟨fuel, rfl⟩ : ∃ k, fuel = k + 1 := ⟨fuel - 1, by omega⟩
    have hcu := (h ▸ dropWs_suffix t).trans ht
    rw [parseValue_cons ht h, if_neg (by decide), if_neg (by decide), if_neg (by decide),
      if_neg (by decide), if_pos rfl, parseNull, posOf_literal hcu 3]
  | .number h hc hq, ht, hfuel => by
    obtain ⟨fuel, rfl⟩ : ∃ k, fuel = k + 1 := ⟨fuel - 1, by omega⟩
    have hcu := (h ▸ dropWs_suffix t).trans ht
    obtain ⟨hquote, hbrace, hbracket, ht', hf', hn'⟩ := hc
    rw [parseValue_cons ht h, if_neg hquote, if_neg hbrace, if_neg hbracket,
      if_neg (not_or.mpr ⟨ht', hf'⟩), if_neg hn', parseNumber_posOf hcu, hq]
    rfl

theorem ReadsElements.parseElements {t r : Bytes} {vs : List JsonValue} {o fuel : ℕ} :
    ReadsElements t vs r o → t <:+ input → 3 * t.length + 2 ≤ fuel →
      parseElements input fuel (posOf input t) = .ok (vs, posOf input r + o)
  | .last hv hlast, ht, hfuel => by
    obtain ⟨fuel, rfl⟩ : ∃ k, fuel = k + 1 := ⟨fuel - 1, by omega⟩
    exact parseElements_last (hv.suffix.1.trans ht) hv.suffix.2
      (hv.parseValue ht (by omega)) hlast
  | .more (u := u) hv hmore hvs, ht, hfuel => by
    obtain ⟨fuel, rfl⟩ : ∃ k, fuel = k + 1 := ⟨fuel - 1, by omega⟩
    have hr := hv.suffix.1
    have hlt := length_lt_of_dropWs hmore
    have hle := (dropWs_suffix u).length_le
    have hle' := hr.length_le
    have hu := (dropWs_suffix u).trans ((suffix_of_dropWs hmore).trans (hr.trans ht))
    rw [parseElements_more (hr.trans ht) hv.suffix.2 (hv.parseValue ht (by omega)) hmore,
      hvs.parseElements hu (by omega), ok_bind]
    rfl

theorem ReadsMembers.parseMembers {t r : Bytes} {fs : List (Bytes × JsonValue)} {o fuel : ℕ} :
    ReadsMembers t fs r o → t <:+ input → 3 * t.length + 2 ≤ fuel →
      parseMembers input fuel (posOf input t) = .ok (fs, posOf input r + o)
  | .last hv hlast, ht, hfuel => by
    obtain ⟨fuel, rfl⟩ : ∃ k, fuel = k + 1 := ⟨fuel - 1, by omega⟩
    have hkey := (afterKey_suffix t).trans ht
    have hle := (afterKey_suffix t).length_le
    exact parseMembers_last ht (hv.suffix.1.trans hkey) hv.suffix.2
      (hv.parseValue hkey (by omega)) hlast
  | .more (u := u) hv hmore hfs, ht, hfuel => by
    obtain ⟨fuel, rfl⟩ : ∃ k, fuel = k + 1 := ⟨fuel - 1, by omega⟩
    have hkey := (afterKey_suffix t).trans ht
    have hr := hv.suffix.1
    have hlt := length_lt_of_dropWs hmore
    have hle := (dropWs_suffix u).length_le
    have hle' := hr.length_le
    have hle'' := (afterKey_suffix t).length_le
    have hu := (dropWs_suffix u).trans ((suffix_of_dropWs hmore).trans (hr.trans hkey))
    rw [parseMembers_more ht (hr.trans hkey) hv.suffix.2 (hv.parseValue hkey (by omega)) hmore,
      hfs.parseMembers hu (by omega), ok_bind]
    rfl

end

end Complete

/-! ### What is not in the language is thrown -/

section Sound

open JsonParser

variable {input t : Bytes} {α β : Type}

/-- An exception of `std::stod`. -/
def Throws (x : Except ParseError α) : Prop :=
  x = .error .invalidArgument ∨ x = .error .outOfRange

theorem Throws.bind {x : Except ParseError α} (h : Throws x) (f : α → Except ParseError β) :
    Throws (x >>= f) := by
  rcases h with rfl | rfl
  · exact .inl rfl
  · exact .inr rfl

/-- The language has a value here, or the parser throws. -/
def ValueSettled (input t : Bytes) : Prop :=
  (∃ v r o, Reads t v r o) ∨
    ∀ fuel, 3 * t.length + 1 ≤ fuel → Throws (parseValue input fuel (posOf input t))

def ElementsSettled (input t : Bytes) : Prop :=
  (∃ vs r o, ReadsElements t vs r o) ∨
    ∀ fuel, 3 * t.length + 2 ≤ fuel → Throws (parseElements input fuel (posOf input t))

def MembersSettled (input t : Bytes) : Prop :=
  (∃ fs r o, ReadsMembers t fs r o) ∨
    ∀ fuel, 3 * t.length + 2 ≤ fuel → Throws (parseMembers input fuel (posOf input t))

theorem valueSettled (ht : t <:+ input)
    (helements : ∀ u, u.length < t.length → u <:+ input → ElementsSettled input u)
    (hmembers : ∀ u, u.length < t.length → u <:+ input → MembersSettled input u) :
    ValueSettled input t := by
  rcases hws : dropWs t with _ | ⟨c, u⟩
  · exact .inl ⟨_, _, _, .blank hws⟩
  have hlt := length_lt_of_dropWs hws
  have hle := (dropWs_suffix u).length_le
  have hcu : c :: u <:+ input := (hws ▸ dropWs_suffix t).trans ht
  have hu : dropWs u <:+ input := (dropWs_suffix u).trans ((suffix_of_dropWs hws).trans ht)
  by_cases hquote : c = quote
  · exact .inl ⟨_, _, _, .string (hquote ▸ hws)⟩
  by_cases hbrace : c = openBrace
  · by_cases hclose : (dropWs u).head? = some closeBrace
    · obtain ⟨w, hw⟩ := List.head?_eq_some_iff.mp hclose
      exact .inl ⟨_, _, _, .emptyObject (hbrace ▸ hws) hw⟩
    rcases hmembers (dropWs u) (by omega) hu with ⟨fs, r, o, hfs⟩ | hthrows
    · exact .inl ⟨_, _, _, .object (hbrace ▸ hws) hclose hfs⟩
    · refine .inr fun fuel hfuel => ?_
      obtain ⟨fuel, rfl⟩ : ∃ k, fuel = k + 2 := ⟨fuel - 2, by omega⟩
      rw [parseValue_cons ht hws, if_neg hquote, if_pos hbrace, parseObject_cons hcu,
        if_neg hclose]
      exact (hthrows fuel (by omega)).bind _
  by_cases hbracket : c = openBracket
  · by_cases hclose : (dropWs u).head? = some closeBracket
    · obtain ⟨w, hw⟩ := List.head?_eq_some_iff.mp hclose
      exact .inl ⟨_, _, _, .emptyArray (hbracket ▸ hws) hw⟩
    rcases helements (dropWs u) (by omega) hu with ⟨vs, r, o, hvs⟩ | hthrows
    · exact .inl ⟨_, _, _, .array (hbracket ▸ hws) hclose hvs⟩
    · refine .inr fun fuel hfuel => ?_
      obtain ⟨fuel, rfl⟩ : ∃ k, fuel = k + 2 := ⟨fuel - 2, by omega⟩
      rw [parseValue_cons ht hws, if_neg hquote, if_neg hbrace, if_pos hbracket,
        parseArray_cons hcu, if_neg hclose]
      exact (hthrows fuel (by omega)).bind _
  by_cases htrue : c = 116
  · exact .inl ⟨_, _, _, .true (htrue ▸ hws)⟩
  by_cases hfalse : c = 102
  · exact .inl ⟨_, _, _, .false (hfalse ▸ hws)⟩
  by_cases hnull : c = 110
  · exact .inl ⟨_, _, _, .null (hnull ▸ hws)⟩
  -- what is left must be a number
  cases hstod : stod (numberText (c :: u)) with
  | ok q => exact .inl ⟨_, _, _, .number hws ⟨hquote, hbrace, hbracket, htrue, hfalse, hnull⟩ hstod⟩
  | error e =>
    refine .inr fun fuel hfuel => ?_
    obtain ⟨fuel, rfl⟩ : ∃ k, fuel = k + 1 := ⟨fuel - 1, by omega⟩
    rw [parseValue_cons ht hws, if_neg hquote, if_neg hbrace, if_neg hbracket,
      if_neg (not_or.mpr ⟨htrue, hfalse⟩), if_neg hnull, parseNumber_posOf hcu, hstod]
    rcases stod_eq_error hstod with rfl | rfl
    · exact .inl rfl
    · exact .inr rfl

theorem elementsSettled (ht : t <:+ input) (hvalue : ValueSettled input t)
    (helements : ∀ u, u.length < t.length → u <:+ input → ElementsSettled input u) :
    ElementsSettled input t := by
  rcases hvalue with ⟨v, r, o, hv⟩ | hthrows
  · have hr := hv.suffix.1
    by_cases hmore : (dropWs r).head? = some comma
    · obtain ⟨u, hu⟩ := List.head?_eq_some_iff.mp hmore
      have hlt := length_lt_of_dropWs hu
      have hle := (dropWs_suffix u).length_le
      have hle' := hr.length_le
      have hsuffix := (dropWs_suffix u).trans ((suffix_of_dropWs hu).trans (hr.trans ht))
      rcases helements (dropWs u) (by omega) hsuffix with ⟨vs, r', o', hvs⟩ | hthrows
      · exact .inl ⟨_, _, _, .more hv hu hvs⟩
      · refine .inr fun fuel hfuel => ?_
        obtain ⟨fuel, rfl⟩ : ∃ k, fuel = k + 1 := ⟨fuel - 1, by omega⟩
        rw [parseElements_more (hr.trans ht) hv.suffix.2 (hv.parseValue ht (by omega)) hu]
        exact (hthrows fuel (by omega)).bind _
    · exact .inl ⟨_, _, _, .last hv hmore⟩
  · refine .inr fun fuel hfuel => ?_
    obtain ⟨fuel, rfl⟩ : ∃ k, fuel = k + 1 := ⟨fuel - 1, by omega⟩
    rw [JsonParser.parseElements]
    exact (hthrows fuel (by omega)).bind _

theorem membersSettled (ht : t <:+ input) (hvalue : ValueSettled input (afterKey t))
    (hmembers : ∀ u, u.length < t.length → u <:+ input → MembersSettled input u) :
    MembersSettled input t := by
  have hkey := (afterKey_suffix t).trans ht
  have hlekey := (afterKey_suffix t).length_le
  rcases hvalue with ⟨v, r, o, hv⟩ | hthrows
  · have hr := hv.suffix.1
    by_cases hmore : (dropWs r).head? = some comma
    · obtain ⟨u, hu⟩ := List.head?_eq_some_iff.mp hmore
      have hlt := length_lt_of_dropWs hu
      have hle := (dropWs_suffix u).length_le
      have hle' := hr.length_le
      have hsuffix := (dropWs_suffix u).trans ((suffix_of_dropWs hu).trans (hr.trans hkey))
      rcases hmembers (dropWs u) (by omega) hsuffix with ⟨fs, r', o', hfs⟩ | hthrows
      · exact .inl ⟨_, _, _, .more hv hu hfs⟩
      · refine .inr fun fuel hfuel => ?_
        obtain ⟨fuel, rfl⟩ : ∃ k, fuel = k + 1 := ⟨fuel - 1, by omega⟩
        rw [parseMembers_more ht (hr.trans hkey) hv.suffix.2 (hv.parseValue hkey (by omega)) hu]
        exact (hthrows fuel (by omega)).bind _
    · exact .inl ⟨_, _, _, .last hv hmore⟩
  · refine .inr fun fuel hfuel => ?_
    obtain ⟨fuel, rfl⟩ : ∃ k, fuel = k + 1 := ⟨fuel - 1, by omega⟩
    rw [parseMembers_key ht]
    exact (hthrows fuel (by omega)).bind _

/-- Every call ends, by induction on what is left of the text. -/
theorem settled (n : ℕ) : ∀ t : Bytes, t.length ≤ n → t <:+ input →
    ValueSettled input t ∧ ElementsSettled input t ∧ MembersSettled input t := by
  induction n using Nat.strong_induction_on with
  | _ n ih =>
    have hvalue : ∀ t : Bytes, t.length ≤ n → t <:+ input → ValueSettled input t := by
      intro t hn ht
      exact valueSettled ht (fun u hlt hu => (ih _ (by omega) u le_rfl hu).2.1)
        fun u hlt hu => (ih _ (by omega) u le_rfl hu).2.2
    intro t hn ht
    have hkey := (afterKey_suffix t).length_le
    refine ⟨hvalue t hn ht, elementsSettled ht (hvalue t hn ht) ?_,
      membersSettled ht (hvalue _ (by omega) ((afterKey_suffix t).trans ht)) ?_⟩
    · exact fun u hlt hu => (ih _ (by omega) u le_rfl hu).2.1
    · exact fun u hlt hu => (ih _ (by omega) u le_rfl hu).2.2

end Sound

/-! ### Texts -/

section Parse

open JsonParser

variable {input r : Bytes} {v : JsonValue} {o n : ℕ}

/-- Space before a value is skipped twice. -/
theorem reads_dropWs {t : Bytes} : Reads (dropWs t) v r o ↔ Reads t v r o := by
  have hws := dropWs_dropWs t
  constructor
  · intro h
    cases h with
    | blank h => exact .blank (hws ▸ h)
    | string h => exact .string (hws ▸ h)
    | emptyArray h h' => exact .emptyArray (hws ▸ h) h'
    | array h hne hvs => exact .array (hws ▸ h) hne hvs
    | emptyObject h h' => exact .emptyObject (hws ▸ h) h'
    | object h hne hfs => exact .object (hws ▸ h) hne hfs
    | true h => exact .true (hws ▸ h)
    | false h => exact .false (hws ▸ h)
    | null h => exact .null (hws ▸ h)
    | number h hc hq => exact .number (hws ▸ h) hc hq
  · intro h
    cases h with
    | blank h => exact .blank (hws.trans h)
    | string h => exact .string (hws.trans h)
    | emptyArray h h' => exact .emptyArray (hws.trans h) h'
    | array h hne hvs => exact .array (hws.trans h) hne hvs
    | emptyObject h h' => exact .emptyObject (hws.trans h) h'
    | object h hne hfs => exact .object (hws.trans h) hne hfs
    | true h => exact .true (hws.trans h)
    | false h => exact .false (hws.trans h)
    | null h => exact .null (hws.trans h)
    | number h hc hq => exact .number (hws.trans h) hc hq

theorem parse_eq_parseValue (input : Bytes) :
    JsonValue.parse input = parseValue input (3 * input.length + 1) (posOf input input) := by
  have hskip := @skipWs_posOf input input List.suffix_rfl
  have hstart : posOf input input = 0 := by unfold posOf; omega
  rw [hstart] at hskip
  rw [JsonValue.parse, hskip, ok_bind]
  rcases hws : dropWs input with _ | ⟨c, u⟩
  · have hend : input.length ≤ posOf input [] := by unfold posOf; simp
    rw [if_pos hend, parseValue_blank List.suffix_rfl hws]
    rfl
  · have hcu : c :: u <:+ input := hws ▸ dropWs_suffix input
    have hlt := (posOf_lt_iff hcu).mpr (List.cons_ne_nil c u)
    have hws' : dropWs (c :: u) = c :: u := by rw [← hws, dropWs_dropWs]
    rw [if_neg (Nat.not_le.mpr hlt), parseValue_cons hcu hws',
      parseValue_cons List.suffix_rfl hws]

/-- A text is read as the language says. -/
theorem parse_of_reads (h : Reads input v r o) :
    JsonValue.parse input = .ok (v, input.length - r.length + o) := by
  rw [parse_eq_parseValue]
  exact h.parseValue List.suffix_rfl le_rfl

theorem parse_settled (input : Bytes) :
    (∃ v r o, Reads input v r o) ∨ Throws (JsonValue.parse input) := by
  rw [parse_eq_parseValue]
  exact (settled input.length input le_rfl List.suffix_rfl).1.imp_right fun h => h _ le_rfl

theorem parse_eq_ok_iff :
    JsonValue.parse input = .ok (v, n) ↔
      ∃ r o, Reads input v r o ∧ n = input.length - r.length + o := by
  constructor
  · intro h
    rcases parse_settled input with ⟨w, r, o, hreads⟩ | hthrows
    · have hparse := parse_of_reads hreads
      rw [h] at hparse
      cases hparse
      exact ⟨r, o, hreads, rfl⟩
    · rw [h] at hthrows
      rcases hthrows with h | h <;> cases h
  · rintro ⟨r, o, hreads, rfl⟩
    exact parse_of_reads hreads

/-- What goes wrong is an exception of `std::stod`. -/
theorem parse_eq_error {e : ParseError} (h : JsonValue.parse input = .error e) :
    e = .invalidArgument ∨ e = .outOfRange := by
  rcases parse_settled input with ⟨w, r, o, hreads⟩ | hthrows
  · rw [parse_of_reads hreads] at h
    cases h
  · rw [h] at hthrows
    exact hthrows.imp Except.error.inj Except.error.inj

/-- A text is read in one way. -/
theorem Reads.unique {w : JsonValue} {r' : Bytes} {o' : ℕ} (h : Reads input v r o)
    (h' : Reads input w r' o') : v = w ∧ r = r' ∧ o = o' := by
  have hparse := parse_of_reads h
  rw [parse_of_reads h'] at hparse
  obtain ⟨hvalue, hpos⟩ := Prod.mk.inj (Except.ok.inj hparse)
  obtain ⟨hr, ho⟩ := h.suffix
  obtain ⟨hr', ho'⟩ := h'.suffix
  have hle := hr.length_le
  have hle' := hr'.length_le
  rw [← List.length_eq_zero_iff] at ho ho'
  have hlen : r.length = r'.length := by omega
  exact ⟨hvalue.symm, (List.suffix_of_suffix_length_le hr hr' hlen.le).eq_of_length hlen, by omega⟩

end Parse

end PropMiner.Stratum
