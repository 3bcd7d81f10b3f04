import PropMiner.Stratum.JsonGrammar

/-!
# Reading what was written

The text of a value is a sequence of tokens, and space between tokens does not matter to the
parser: whatever is inserted, the value is read back. Numbers are read back up to what
writing does to them. A whole number below 10^15 is the same afterwards; every other double
is written with six decimals, and comes back as the double next to that.

## Main definitions

* `JsonValue.tokens`, `Spaced` — the tokens of a value, and tokens with space between them
* `JsonValue.reread` — a value with its numbers written and read

## Main results

* `reads_spaced` — a spaced text is read as the reread value
* `parse_serialize` — `parse` after `serialize`
* `parse_of_spaced` — with whole numbers below 10^15 the value itself is read
-/

set_option autoImplicit false

namespace PropMiner.Stratum

open PropMiner.Semantics

/-! ### Values and their numbers -/

namespace JsonValue

mutual

/-- Induction over values, with one hypothesis for all parts of a container. -/
theorem induction {P : JsonValue → Prop} (null : P null) (bool : ∀ v, P (bool v))
    (number : ∀ q, P (number q)) (string : ∀ v, P (string v))
    (array : ∀ vs, (∀ v ∈ vs, P v) → P (array vs))
    (object : ∀ fields, (∀ f ∈ fields, P f.2) → P (object fields)) : ∀ v, P v
  | .null => null
  | .bool v => bool v
  | .number q => number q
  | .string v => string v
  | .array vs => array vs (inductionElements null bool number string array object vs)
  | .object fields =>
      object fields (inductionMembers null bool number string array object fields)

theorem inductionElements {P : JsonValue → Prop} (null : P null) (bool : ∀ v, P (bool v))
    (number : ∀ q, P (number q)) (string : ∀ v, P (string v))
    (array : ∀ vs, (∀ v ∈ vs, P v) → P (array vs))
    (object : ∀ fields, (∀ f ∈ fields, P f.2) → P (object fields)) :
    ∀ vs : List JsonValue, ∀ v ∈ vs, P v
  | [] => nofun
  | v :: vs => List.forall_mem_cons.mpr ⟨induction null bool number string array object v,
      inductionElements null bool number string array object vs⟩

theorem inductionMembers {P : JsonValue → Prop} (null : P null) (bool : ∀ v, P (bool v))
    (number : ∀ q, P (number q)) (string : ∀ v, P (string v))
    (array : ∀ vs, (∀ v ∈ vs, P v) → P (array vs))
    (object : ∀ fields, (∀ f ∈ fields, P f.2) → P (object fields)) :
    ∀ fields : List (Bytes × JsonValue), ∀ f ∈ fields, P f.2
  | [] => nofun
  | (_, v) :: fields => List.forall_mem_cons.mpr
      ⟨induction null bool number string array object v,
        inductionMembers null bool number string array object fields⟩

end

mutual

/-- All numbers in a value have this property. -/
def AllNumbers (p : ℚ → Prop) : JsonValue → Prop
  | number q => p q
  | array vs => AllNumbersElements p vs
  | object fields => AllNumbersMembers p fields
  | null | bool _ | string _ => True

def AllNumbersElements (p : ℚ → Prop) : List JsonValue → Prop
  | [] => True
  | v :: vs => v.AllNumbers p ∧ AllNumbersElements p vs

def AllNumbersMembers (p : ℚ → Prop) : List (Bytes × JsonValue) → Prop
  | [] => True
  | (_, v) :: fs => v.AllNumbers p ∧ AllNumbersMembers p fs

end

theorem allNumbers_array {p : ℚ → Prop} {vs : List JsonValue} :
    (array vs).AllNumbers p ↔ ∀ v ∈ vs, v.AllNumbers p := by
  change AllNumbersElements p vs ↔ _
  induction vs with
  | nil => exact iff_of_true trivial nofun
  | cons v vs ih => rw [AllNumbersElements, ih, List.forall_mem_cons]

theorem allNumbers_object {p : ℚ → Prop} {fields : List (Bytes × JsonValue)} :
    (object fields).AllNumbers p ↔ ∀ f ∈ fields, f.2.AllNumbers p := by
  change AllNumbersMembers p fields ↔ _
  induction fields with
  | nil => exact iff_of_true trivial nofun
  | cons f fields ih => rw [AllNumbersMembers, ih, List.forall_mem_cons]

theorem AllNumbers.mono {p p' : ℚ → Prop} (hp : ∀ q, p q → p' q) {v : JsonValue}
    (h : v.AllNumbers p) : v.AllNumbers p' := by
  induction v using JsonValue.induction with
  | null | bool _ | string _ => trivial
  | number q => exact hp q h
  | array vs ih =>
    rw [allNumbers_array] at h ⊢
    exact fun v hv => ih v hv (h v hv)
  | object fields ih =>
    rw [allNumbers_object] at h ⊢
    exact fun f hf => ih f hf (h f hf)

/-- All numbers are in the range of doubles. -/
def Finite (v : JsonValue) : Prop := v.AllNumbers fun q => |q| ≤ Binary64.maxValue

/-- All numbers are integers of absolute value below 10^15. -/
def Integral (v : JsonValue) : Prop := v.AllNumbers fun q => ∃ n : ℤ, |n| < 10 ^ 15 ∧ q = n

theorem Integral.finite {v : JsonValue} (h : v.Integral) : v.Finite := by
  refine AllNumbers.mono ?_ h
  rintro q ⟨n, hn, rfl⟩
  exact Binary64.abs_le_of_convert (Binary64.convert_intCast (by omega))

/-- A number after it was written and read. -/
def rereadNumber (q : ℚ) : ℚ :=
  match stod (formatNumber q) with
  | .ok x => x
  | .error _ => q

mutual

/-- A value after it was written and read. -/
def reread : JsonValue → JsonValue
  | null => null
  | bool v => bool v
  | number q => number (rereadNumber q)
  | string v => string v
  | array vs => array (rereadElements vs)
  | object fields => object (rereadMembers fields)

def rereadElements : List JsonValue → List JsonValue
  | [] => []
  | v :: vs => v.reread :: rereadElements vs

def rereadMembers : List (Bytes × JsonValue) → List (Bytes × JsonValue)
  | [] => []
  | (k, v) :: fs => (k, v.reread) :: rereadMembers fs

end

theorem reread_array (vs : List JsonValue) : (array vs).reread = array (vs.map reread) := by
  rw [reread]
  congr 1
  induction vs with
  | nil => rfl
  | cons v vs ih => rw [rereadElements, ih, List.map_cons]

theorem reread_object (fields : List (Bytes × JsonValue)) :
    (object fields).reread = object (fields.map fun f => (f.1, f.2.reread)) := by
  rw [reread]
  congr 1
  induction fields with
  | nil => rfl
  | cons f fields ih => rw [rereadMembers, ih, List.map_cons]

theorem stod_formatNumber {q : ℚ} (hq : |q| ≤ Binary64.maxValue) :
    stod (formatNumber q) = .ok (rereadNumber q) := by
  obtain ⟨x, hx⟩ := exists_stod_formatNumber hq
  rw [rereadNumber, hx]

/-- Whole numbers below 10^15 survive. -/
theorem reread_of_integral {v : JsonValue} (h : v.Integral) : v.reread = v := by
  unfold Integral at h
  induction v using JsonValue.induction with
  | null | bool _ | string _ => rfl
  | number q =>
    obtain ⟨n, hn, rfl⟩ := h
    rw [reread, rereadNumber, stod_formatNumber_intCast hn]
  | array vs ih =>
    rw [allNumbers_array] at h
    rw [reread_array, List.map_congr_left fun v hv => ih v hv (h v hv), List.map_id']
  | object fields ih =>
    rw [allNumbers_object] at h
    have hmap : ∀ f ∈ fields, (f.1, f.2.reread) = f := fun f hf => by rw [ih f hf (h f hf)]
    rw [reread_object, List.map_congr_left hmap, List.map_id']

end JsonValue

/-! ### Tokens -/

/-- Nothing but space. -/
def Blank (w : Bytes) : Prop := ∀ c ∈ w, isWs c = true

instance (w : Bytes) : Decidable (Blank w) := inferInstanceAs (Decidable (∀ c ∈ w, isWs c = true))

namespace JsonValue

mutual

/-- The tokens that `serialize` writes. -/
def tokens : JsonValue → List Bytes
  | array vs => [openBracket] :: elementTokens vs ++ [[closeBracket]]
  | object fields => [openBrace] :: memberTokens fields ++ [[closeBrace]]
  | null => [null.serialize]
  | bool v => [(bool v).serialize]
  | number q => [(number q).serialize]
  | string v => [(string v).serialize]

def elementTokens : List JsonValue → List Bytes
  | [] => []
  | [v] => v.tokens
  | v :: w :: vs => v.tokens ++ [comma] :: elementTokens (w :: vs)

def memberTokens : List (Bytes × JsonValue) → List Bytes
  | [] => []
  | [(k, v)] => escapeJsonString k :: [colon] :: v.tokens
  | (k, v) :: f :: fs =>
      escapeJsonString k :: [colon] :: v.tokens ++ [comma] :: memberTokens (f :: fs)

end

theorem flatten_elementTokens {vs : List JsonValue}
    (ih : ∀ v ∈ vs, v.tokens.flatten = v.serialize) :
    (elementTokens vs).flatten = serializeElements vs := by
  induction vs with
  | nil => rfl
  | cons v vs hvs =>
    cases vs with
    | nil => exact ih v List.mem_cons_self
    | cons w vs =>
      rw [elementTokens, serializeElements, List.flatten_append, List.flatten_cons,
        ih v List.mem_cons_self, hvs fun v hv => ih v (List.mem_cons_of_mem _ hv)]
      rfl

theorem flatten_memberTokens {fields : List (Bytes × JsonValue)}
    (ih : ∀ f ∈ fields, f.2.tokens.flatten = f.2.serialize) :
    (memberTokens fields).flatten = serializeMembers fields := by
  induction fields with
  | nil => rfl
  | cons f fields hfields =>
    obtain ⟨k, v⟩ := f
    have hv : v.tokens.flatten = v.serialize := ih (k, v) List.mem_cons_self
    cases fields with
    | nil => rw [memberTokens, serializeMembers, List.flatten_cons, List.flatten_cons, hv]; rfl
    | cons g fields =>
      rw [memberTokens, serializeMembers, List.cons_append, List.cons_append, List.flatten_cons,
        List.flatten_cons, List.flatten_append, List.flatten_cons, hv,
        hfields fun f hf => ih f (List.mem_cons_of_mem _ hf), List.append_assoc]
      rfl

/-- The tokens are the text. -/
theorem flatten_tokens (v : JsonValue) : v.tokens.flatten = v.serialize := by
  induction v using JsonValue.induction with
  | null | bool _ | number _ | string _ => exact List.flatten_singleton
  | array vs ih =>
    rw [tokens, serialize, List.cons_append, List.flatten_cons, List.flatten_append,
      flatten_elementTokens ih]
    rfl
  | object fields ih =>
    rw [tokens, serialize, List.cons_append, List.flatten_cons, List.flatten_append,
      flatten_memberTokens ih]
    rfl

end JsonValue

/-- Tokens with space before, between and after them. -/
inductive Spaced : List Bytes → Bytes → Prop
  | nil {w : Bytes} : Blank w → Spaced [] w
  | cons {w t s : Bytes} {ts : List Bytes} : Blank w → Spaced ts s → Spaced (t :: ts) (w ++ t ++ s)

/-- No space at all. -/
theorem spaced_flatten (ts : List Bytes) : Spaced ts ts.flatten := by
  induction ts with
  | nil => exact .nil nofun
  | cons t ts ih => exact .cons (w := []) nofun ih

theorem isWs_iff {c : UInt8} : isWs c = true ↔ c = 32 ∨ c = 9 ∨ c = 10 ∨ c = 13 := by
  simp [isWs, or_assoc]

theorem dropWs_blank {w : Bytes} (hw : Blank w) (t : Bytes) : dropWs (w ++ t) = dropWs t :=
  List.dropWhile_append_of_pos hw

theorem dropWs_cons {c : UInt8} (hc : isWs c = false) (t : Bytes) : dropWs (c :: t) = c :: t :=
  List.dropWhile_cons_of_neg (by rw [hc]; exact Bool.false_ne_true)

/-- A token and what follows it. -/
theorem Spaced.dropWs_eq {c : UInt8} {t text : Bytes} {ts : List Bytes} (hc : isWs c = false)
    (h : Spaced ((c :: t) :: ts) text) : ∃ s, dropWs text = c :: (t ++ s) ∧ Spaced ts s := by
  cases h with
  | cons hw hs =>
    refine ⟨_, ?_, hs⟩
    rw [List.append_assoc, dropWs_blank hw, List.cons_append, dropWs_cons hc]

/-! ### Strings -/

/-- An escaper after which every byte is read back. -/
def Unescapes (f : UInt8 → Bytes) : Prop :=
  ∀ c t, stringBody (f c ++ t) = (c :: (stringBody t).1, (stringBody t).2)

theorem stringBody_flatMap {f : UInt8 → Bytes} (hf : Unescapes f) (s rest : Bytes) :
    stringBody (s.flatMap f ++ quote :: rest) = (s, quote :: rest) := by
  induction s with
  | nil => exact stringBody_quote rest
  | cons c s ih => rw [List.flatMap_cons, List.append_assoc, hf, ih]

theorem unescapes_escapeByte : Unescapes escapeByte := by
  intro c t
  unfold escapeByte
  split_ifs with hquote hbackslash hnewline hreturn htab
  · rw [hquote]
    exact stringBody_escape (by decide) t
  · rw [hbackslash]
    exact stringBody_escape (by decide) t
  · rw [hnewline]
    exact stringBody_escape (by decide) t
  · rw [hreturn]
    exact stringBody_escape (by decide) t
  · rw [htab]
    exact stringBody_escape (by decide) t
  · exact stringBody_plain hquote hbackslash t

/-- A string, once it is quoted. -/
theorem stringBody_escapeJsonString (s rest : Bytes) :
    stringBody ((escapeJsonString s ++ rest).tail) = (s, quote :: rest) := by
  rw [escapeJsonString, List.cons_append, List.cons_append, List.tail_cons, List.append_assoc]
  exact stringBody_flatMap unescapes_escapeByte s rest

/-! ### Reading tokens -/

/-- The tokens that can follow a value. -/
def Follows (ts : List Bytes) : Prop :=
  ∀ t ∈ ts.head?, t = [comma] ∨ t = [closeBracket] ∨ t = [closeBrace]

theorem follows_comma (ts : List Bytes) : Follows ([comma] :: ts) := by
  rintro t ⟨⟩
  exact .inl rfl

theorem follows_closeBracket (ts : List Bytes) : Follows ([closeBracket] :: ts) := by
  rintro t ⟨⟩
  exact .inr (.inl rfl)

theorem follows_closeBrace (ts : List Bytes) : Follows ([closeBrace] :: ts) := by
  rintro t ⟨⟩
  exact .inr (.inr rfl)

/-- No such token goes on a number, and neither does space. -/
theorem endsNumber_of_spaced {ts : List Bytes} {s : Bytes} (hfollows : Follows ts)
    (h : Spaced ts s) : endsNumber s := by
  have hspace : ∀ c, isWs c = true → isDigit c = false ∧ c ≠ 46 ∧ c ≠ 101 ∧ c ≠ 69 := by
    intro c hc
    rcases isWs_iff.mp hc with rfl | rfl | rfl | rfl <;> decide
  intro c hc
  cases h with
  | nil hw => exact hspace c (hw c (List.mem_of_mem_head? hc))
  | cons hw hs =>
    rename_i w t s ts
    cases w with
    | cons d w =>
      obtain rfl : d = c := Option.some.inj hc
      exact hspace d (hw d List.mem_cons_self)
    | nil =>
      rcases hfollows t rfl with rfl | rfl | rfl <;>
      · obtain rfl := Option.some.inj hc
        decide

/-- However it is spaced, the value is read. -/
def ReadsBack (v : JsonValue) : Prop :=
  ∀ ts text, Follows ts → Spaced (v.tokens ++ ts) text →
    ∃ rest, Reads text v.reread rest 0 ∧ Spaced ts rest

theorem readsElements_dropWs {t r : Bytes} {vs : List JsonValue} {o : ℕ} :
    ReadsElements (dropWs t) vs r o ↔ ReadsElements t vs r o := by
  constructor
  · intro h
    cases h with
    | last hv hlast => exact .last (reads_dropWs.mp hv) hlast
    | more hv hmore hvs => exact .more (reads_dropWs.mp hv) hmore hvs
  · intro h
    cases h with
    | last hv hlast => exact .last (reads_dropWs.mpr hv) hlast
    | more hv hmore hvs => exact .more (reads_dropWs.mpr hv) hmore hvs

theorem readsMembers_dropWs {t r : Bytes} {fs : List (Bytes × JsonValue)} {o : ℕ} :
    ReadsMembers (dropWs t) fs r o ↔ ReadsMembers t fs r o := by
  have hkey : keyOf (dropWs t) = keyOf t := by rw [keyOf, dropWs_dropWs, keyOf]
  have hafter : afterKey (dropWs t) = afterKey t := by rw [afterKey, dropWs_dropWs, afterKey]
  constructor
  · intro h
    cases h with
    | last hv hlast => exact hkey ▸ .last (hafter ▸ hv) hlast
    | more hv hmore hfs => exact hkey ▸ .more (hafter ▸ hv) hmore hfs
  · intro h
    cases h with
    | last hv hlast => exact hkey ▸ .last (hafter.symm ▸ hv) hlast
    | more hv hmore hfs => exact hkey ▸ .more (hafter.symm ▸ hv) hmore hfs

/-- The last element of an array. -/
theorem readsElements_last {t r rest : Bytes} {v : JsonValue} (hv : Reads t v r 0)
    (hdrop : dropWs r = closeBracket :: rest) :
    ReadsElements t [v] (closeBracket :: rest) 0 := by
  have hlast : (dropWs r).head? ≠ some comma := by rw [hdrop]; exact nofun
  rw [← hdrop]
  exact .last hv hlast

/-- The elements of an array, up to what closes it. -/
theorem readsElements_tokens {vs : List JsonValue} (hne : vs ≠ []) (ih : ∀ v ∈ vs, ReadsBack v)
    {ts : List Bytes} {text : Bytes}
    (h : Spaced (JsonValue.elementTokens vs ++ [closeBracket] :: ts) text) :
    ∃ rest, ReadsElements text (vs.map JsonValue.reread) (closeBracket :: rest) 0 ∧
      Spaced ts rest := by
  induction vs generalizing text with
  | nil => exact absurd rfl hne
  | cons v vs hvs =>
    have hv : ReadsBack v := ih v List.mem_cons_self
    cases vs with
    | nil =>
      obtain ⟨r, hreads, hr⟩ := hv _ text (follows_closeBracket ts) h
      obtain ⟨rest, hdrop, hrest⟩ := hr.dropWs_eq rfl
      exact ⟨rest, readsElements_last hreads hdrop, hrest⟩
    | cons w vs =>
      rw [JsonValue.elementTokens, List.append_assoc, List.cons_append] at h
      obtain ⟨r, hreads, hr⟩ := hv _ text (follows_comma _) h
      obtain ⟨u, hdrop, hu⟩ := hr.dropWs_eq rfl
      obtain ⟨rest, hmore, hrest⟩ := hvs (List.cons_ne_nil w vs)
        (fun v hv => ih v (List.mem_cons_of_mem _ hv)) hu
      exact ⟨rest, .more hreads hdrop (readsElements_dropWs.mpr hmore), hrest⟩

/-- A key, its colon, and what follows. -/
theorem key_tokens {k text : Bytes} {ts : List Bytes}
    (h : Spaced (escapeJsonString k :: [colon] :: ts) text) :
    keyOf text = k ∧ Spaced ts (afterKey text) := by
  obtain ⟨s, hdrop, hs⟩ := h.dropWs_eq rfl
  obtain ⟨s', hdrop', hs'⟩ := hs.dropWs_eq rfl
  have hbody : stringBody (dropWs text).tail = (k, quote :: s) := by
    rw [hdrop]
    exact stringBody_escapeJsonString k s
  refine ⟨by rw [keyOf, hbody], ?_⟩
  rw [afterKey, hbody, List.tail_cons, hdrop']
  exact hs'

theorem readsMembers_last {t r rest k : Bytes} {v : JsonValue} (hkey : keyOf t = k)
    (hv : Reads (afterKey t) v r 0) (hdrop : dropWs r = closeBrace :: rest) :
    ReadsMembers t [(k, v)] (closeBrace :: rest) 0 := by
  have hlast : (dropWs r).head? ≠ some comma := by rw [hdrop]; exact nofun
  rw [← hdrop, ← hkey]
  exact .last hv hlast

/-- The members of an object, up to what closes it. -/
theorem readsMembers_tokens {fields : List (Bytes × JsonValue)} (hne : fields ≠ [])
    (ih : ∀ f ∈ fields, ReadsBack f.2) {ts : List Bytes} {text : Bytes}
    (h : Spaced (JsonValue.memberTokens fields ++ [closeBrace] :: ts) text) :
    ∃ rest, ReadsMembers text (fields.map fun f => (f.1, f.2.reread)) (closeBrace :: rest) 0 ∧
      Spaced ts rest := by
  induction fields generalizing text with
  | nil => exact absurd rfl hne
  | cons f fields hfields =>
    obtain ⟨k, v⟩ := f
    have hv : ReadsBack v := ih (k, v) List.mem_cons_self
    cases fields with
    | nil =>
      obtain ⟨hkey, hafter⟩ := key_tokens h
      obtain ⟨r, hreads, hr⟩ := hv _ _ (follows_closeBrace ts) hafter
      obtain ⟨rest, hdrop, hrest⟩ := hr.dropWs_eq rfl
      exact ⟨rest, readsMembers_last hkey hreads hdrop, hrest⟩
    | cons g fields =>
      rw [JsonValue.memberTokens, List.append_assoc, List.cons_append, List.cons_append] at h
      obtain ⟨hkey, hafter⟩ := key_tokens h
      obtain ⟨r, hreads, hr⟩ := hv _ _ (follows_comma _) hafter
      obtain ⟨u, hdrop, hu⟩ := hr.dropWs_eq rfl
      obtain ⟨rest, hmore, hrest⟩ := hfields (List.cons_ne_nil g fields)
        (fun f hf => ih f (List.mem_cons_of_mem _ hf)) hu
      refine ⟨rest, ?_, hrest⟩
      rw [List.map_cons, ← hkey]
      exact .more hreads hdrop (readsMembers_dropWs.mpr hmore)

/-- Nothing but a number starts with a digit. -/
theorem startsOther_of_isDigit {c : UInt8} (hc : isDigit c = true) :
    StartsOther c ∧ isWs c = false ∧ c ≠ closeBracket := by
  have hrange := isDigit_iff.mp hc
  have hne : ∀ d : UInt8, d.toNat < 48 ∨ 57 < d.toNat → c ≠ d := by
    rintro d hd rfl
    omega
  refine ⟨⟨hne _ (by decide), hne _ (by decide), hne _ (by decide), hne _ (by decide),
    hne _ (by decide), hne _ (by decide)⟩, ?_, hne _ (by decide)⟩
  rw [← Bool.not_eq_true, isWs_iff]
  rintro (h | h | h | h)
  · exact hne _ (by decide) h
  · exact hne _ (by decide) h
  · exact hne _ (by decide) h
  · exact hne _ (by decide) h

/-- Nothing but a number starts with a minus. -/
theorem startsOther_minus : StartsOther 45 := by
  unfold StartsOther
  decide

theorem startsOther_formatNumber (q : ℚ) :
    ∃ c t, formatNumber q = c :: t ∧ StartsOther c ∧ isWs c = false ∧ c ≠ closeBracket := by
  have hsigned : ∀ (negative : Bool) (n : ℕ) (t : Bytes),
      ∃ c u, signed negative (decimal n ++ t) = c :: u ∧ StartsOther c ∧ isWs c = false ∧
        c ≠ closeBracket := by
    intro negative n t
    cases negative with
    | true => exact ⟨45, decimal n ++ t, rfl, startsOther_minus, rfl, by decide⟩
    | false =>
      obtain ⟨c, u, hu⟩ := List.exists_cons_of_ne_nil (decimal_ne_nil n)
      have hmem : c ∈ decimal n := hu ▸ List.mem_cons_self
      refine ⟨c, u ++ t, ?_, startsOther_of_isDigit (isDigit_decimal c hmem)⟩
      rw [hu]
      rfl
  unfold formatNumber
  split_ifs
  · rw [intText_eq, ← List.append_nil (decimal _)]
    exact hsigned _ _ _
  · rw [fixedText_eq]
    exact hsigned _ _ _

theorem reads_true {t s : Bytes} {a b c : UInt8} (h : dropWs t = 116 :: a :: b :: c :: s) :
    Reads t (.bool true) s 0 := by
  have hreads := Reads.true h
  rwa [Nat.sub_eq_zero_of_le (by simp)] at hreads

theorem reads_false {t s : Bytes} {a b c d : UInt8}
    (h : dropWs t = 102 :: a :: b :: c :: d :: s) : Reads t (.bool false) s 0 := by
  have hreads := Reads.false h
  rwa [Nat.sub_eq_zero_of_le (by simp)] at hreads

theorem reads_null {t s : Bytes} {a b c : UInt8} (h : dropWs t = 110 :: a :: b :: c :: s) :
    Reads t .null s 0 := by
  have hreads := Reads.null h
  rwa [Nat.sub_eq_zero_of_le (by simp)] at hreads

theorem reads_formatNumber {q : ℚ} (hq : |q| ≤ Binary64.maxValue) {rest : Bytes}
    (hrest : endsNumber rest) :
    Reads (formatNumber q ++ rest) (.number (JsonValue.rereadNumber q)) rest 0 := by
  have htext := numberText_formatNumber q hrest
  have hafter := afterNumber_formatNumber q hrest
  obtain ⟨c, t, hformat, hother, hws, -⟩ := startsOther_formatNumber q
  rw [hformat, List.cons_append] at htext hafter ⊢
  have hreads := Reads.number (dropWs_cons hws (t ++ rest)) hother
    (by rw [htext, ← hformat, JsonValue.stod_formatNumber hq])
  rwa [hafter] at hreads

theorem readsBack_number {q : ℚ} (hq : |q| ≤ Binary64.maxValue) :
    ReadsBack (.number q) := by
  intro ts text hfollows hspaced
  obtain ⟨c, t, hformat, -, hws, -⟩ := startsOther_formatNumber q
  have hspaced' : Spaced ((c :: t) :: ts) text := hformat ▸ hspaced
  obtain ⟨s, hdrop, hs⟩ := hspaced'.dropWs_eq hws
  refine ⟨s, ?_, hs⟩
  rw [← reads_dropWs, hdrop, ← List.cons_append, ← hformat]
  exact reads_formatNumber hq (endsNumber_of_spaced hfollows hs)

/-- A string, however it is escaped. -/
theorem reads_literal {f : UInt8 → Bytes} (hf : Unescapes f) (s rest : Bytes) :
    Reads (quote :: (s.flatMap f ++ quote :: rest)) (.string s) rest 0 := by
  have hreads := Reads.string (dropWs_cons (c := quote) rfl (s.flatMap f ++ quote :: rest))
  rwa [stringBody_flatMap hf, List.tail_cons] at hreads

theorem readsBack_string (v : Bytes) : ReadsBack (.string v) := by
  intro ts text _ hspaced
  obtain ⟨s, hdrop, hs⟩ := Spaced.dropWs_eq (c := quote) rfl hspaced
  have htext : quote :: (List.append _ [quote] ++ s) =
      quote :: (v.flatMap escapeByte ++ quote :: s) :=
    congrArg (quote :: ·) (List.append_assoc _ _ _)
  refine ⟨s, ?_, hs⟩
  rw [← reads_dropWs, hdrop, htext]
  exact reads_literal unescapes_escapeByte v s

/-- No value starts with what closes an array. -/
theorem exists_tokens_eq_cons (v : JsonValue) :
    ∃ c t ts, v.tokens = (c :: t) :: ts ∧ isWs c = false ∧ c ≠ closeBracket := by
  cases v with
  | null => exact ⟨110, _, _, rfl, rfl, by decide⟩
  | bool b =>
    cases b with
    | true => exact ⟨116, _, _, rfl, rfl, by decide⟩
    | false => exact ⟨102, _, _, rfl, rfl, by decide⟩
  | number q =>
    obtain ⟨c, t, hformat, -, hc⟩ := startsOther_formatNumber q
    exact ⟨c, t, [], congrArg (fun t => [t]) hformat, hc⟩
  | string s => exact ⟨quote, _, _, rfl, rfl, by decide⟩
  | array vs => exact ⟨openBracket, _, _, rfl, rfl, by decide⟩
  | object fields => exact ⟨openBrace, _, _, rfl, rfl, by decide⟩

theorem exists_elementTokens_eq_cons (v : JsonValue) (vs : List JsonValue) :
    ∃ c t ts, JsonValue.elementTokens (v :: vs) = (c :: t) :: ts ∧ isWs c = false ∧
      c ≠ closeBracket := by
  obtain ⟨c, t, ts, htokens, hc⟩ := exists_tokens_eq_cons v
  cases vs with
  | nil => exact ⟨c, t, ts, htokens, hc⟩
  | cons w vs =>
    refine ⟨c, t, ts ++ [comma] :: JsonValue.elementTokens (w :: vs), ?_, hc⟩
    rw [JsonValue.elementTokens, htokens, List.cons_append]

theorem exists_memberTokens_eq_cons (f : Bytes × JsonValue) (fs : List (Bytes × JsonValue)) :
    ∃ t ts, JsonValue.memberTokens (f :: fs) = (quote :: t) :: ts := by
  cases fs with
  | nil => exact ⟨_, _, rfl⟩
  | cons g fs => exact ⟨_, _, rfl⟩

theorem readsBack_array {vs : List JsonValue} (ih : ∀ v ∈ vs, ReadsBack v) :
    ReadsBack (.array vs) := by
  intro ts text _ hspaced
  rw [JsonValue.tokens, List.cons_append, List.cons_append, List.append_assoc] at hspaced
  obtain ⟨u, hdrop, hu⟩ := hspaced.dropWs_eq rfl
  rw [JsonValue.reread_array]
  cases vs with
  | nil =>
    obtain ⟨rest, hclose, hrest⟩ := Spaced.dropWs_eq (c := closeBracket) rfl hu
    exact ⟨rest, .emptyArray hdrop hclose, hrest⟩
  | cons v vs =>
    obtain ⟨rest, helements, hrest⟩ := readsElements_tokens (List.cons_ne_nil v vs) ih hu
    obtain ⟨c, t, ts', htokens, hws, hc⟩ := exists_elementTokens_eq_cons v vs
    rw [htokens] at hu
    obtain ⟨s, hstart, -⟩ := hu.dropWs_eq hws
    have hopen : (dropWs u).head? ≠ some closeBracket := by
      rw [hstart]
      exact fun h => hc (Option.some.inj h)
    exact ⟨rest, .array hdrop hopen (readsElements_dropWs.mpr helements), hrest⟩

theorem readsBack_object {fields : List (Bytes × JsonValue)} (ih : ∀ f ∈ fields, ReadsBack f.2) :
    ReadsBack (.object fields) := by
  intro ts text _ hspaced
  rw [JsonValue.tokens, List.cons_append, List.cons_append, List.append_assoc] at hspaced
  obtain ⟨u, hdrop, hu⟩ := hspaced.dropWs_eq rfl
  rw [JsonValue.reread_object]
  cases fields with
  | nil =>
    obtain ⟨rest, hclose, hrest⟩ := Spaced.dropWs_eq (c := closeBrace) rfl hu
    exact ⟨rest, .emptyObject hdrop hclose, hrest⟩
  | cons f fields =>
    obtain ⟨rest, hmembers, hrest⟩ := readsMembers_tokens (List.cons_ne_nil f fields) ih hu
    obtain ⟨t, ts', htokens⟩ := exists_memberTokens_eq_cons f fields
    rw [htokens] at hu
    obtain ⟨s, hstart, -⟩ := hu.dropWs_eq rfl
    have hopen : (dropWs u).head? ≠ some closeBrace := by
      rw [hstart]
      exact nofun
    exact ⟨rest, .object hdrop hopen (readsMembers_dropWs.mpr hmembers), hrest⟩

/-- Every value is read back, by induction over its parts. -/
theorem readsBack_of_finite {v : JsonValue} (h : v.Finite) : ReadsBack v := by
  have hnull : bytes "null" = [110, 117, 108, 108] := by decide
  have htrue : bytes "true" = [116, 114, 117, 101] := by decide
  have hfalse : bytes "false" = [102, 97, 108, 115, 101] := by decide
  unfold JsonValue.Finite at h
  induction v using JsonValue.induction with
  | null =>
    intro ts text _ hspaced
    rw [JsonValue.tokens, JsonValue.serialize, hnull] at hspaced
    obtain ⟨s, hdrop, hs⟩ := hspaced.dropWs_eq rfl
    exact ⟨s, reads_null hdrop, hs⟩
  | bool b =>
    intro ts text _ hspaced
    cases b with
    | true =>
      rw [JsonValue.tokens, JsonValue.serialize, htrue] at hspaced
      obtain ⟨s, hdrop, hs⟩ := hspaced.dropWs_eq rfl
      exact ⟨s, reads_true hdrop, hs⟩
    | false =>
      rw [JsonValue.tokens, JsonValue.serialize, hfalse] at hspaced
      obtain ⟨s, hdrop, hs⟩ := hspaced.dropWs_eq rfl
      exact ⟨s, reads_false hdrop, hs⟩
  | number q => exact readsBack_number h
  | string s => exact readsBack_string s
  | array vs ih =>
    rw [JsonValue.allNumbers_array] at h
    exact readsBack_array fun v hv => ih v hv (h v hv)
  | object fields ih =>
    rw [JsonValue.allNumbers_object] at h
    exact readsBack_object fun f hf => ih f hf (h f hf)

/-! ### Texts -/

/-- However the text of a value is spaced, the value is read, with its numbers as they are
after writing. -/
theorem reads_spaced {v : JsonValue} {text : Bytes} (h : v.Finite) (hs : Spaced v.tokens text) :
    ∃ rest, Reads text v.reread rest 0 := by
  rw [← List.append_nil v.tokens] at hs
  obtain ⟨rest, hreads, -⟩ := readsBack_of_finite h [] text nofun hs
  exact ⟨rest, hreads⟩

theorem reads_serialize {v : JsonValue} (h : v.Finite) :
    ∃ rest, Reads v.serialize v.reread rest 0 :=
  reads_spaced h (v.flatten_tokens ▸ spaced_flatten v.tokens)

/-- `parse` after `serialize`. -/
theorem parse_serialize {v : JsonValue} (h : v.Finite) :
    ∃ consumed, JsonValue.parse v.serialize = .ok (v.reread, consumed) := by
  obtain ⟨rest, hreads⟩ := reads_serialize h
  exact ⟨_, parse_of_reads hreads⟩

theorem parse_serialize_of_integral {v : JsonValue} (h : v.Integral) :
    ∃ consumed, JsonValue.parse v.serialize = .ok (v, consumed) := by
  have hparse := parse_serialize h.finite
  rwa [JsonValue.reread_of_integral h] at hparse

/-- However the tokens of its text are spaced, a value with whole numbers below 10^15 is what
`parse` returns. -/
theorem parse_spaced {v : JsonValue} {text : Bytes} (h : v.Integral) (hs : Spaced v.tokens text) :
    v.tokens.flatten = v.serialize ∧ ∃ consumed, JsonValue.parse text = .ok (v, consumed) := by
  obtain ⟨rest, hreads⟩ := reads_spaced h.finite hs
  rw [JsonValue.reread_of_integral h] at hreads
  exact ⟨v.flatten_tokens, _, parse_of_reads hreads⟩

theorem parse_spaced_object :
    ∃ consumed, JsonValue.parse (bytes "\x7b \"a\" : [ -7,\nnull] \x7d") =
      .ok (.object [(bytes "a", .array [.number (-7), .null])], consumed) := by
  have htokens : (JsonValue.object [(bytes "a", .array [.number (-7), .null])]).tokens =
      [bytes "\x7b", bytes "\"a\"", bytes ":", bytes "[", bytes "-7", bytes ",", bytes "null",
        bytes "]", bytes "\x7d"] := by decide +kernel
  have htext : bytes "\x7b \"a\" : [ -7,\nnull] \x7d" =
      [] ++ bytes "\x7b" ++ ([32] ++ bytes "\"a\"" ++ ([32] ++ bytes ":" ++ ([32] ++ bytes "[" ++
        ([32] ++ bytes "-7" ++ ([] ++ bytes "," ++ ([10] ++ bytes "null" ++ ([] ++ bytes "]" ++
          ([32] ++ bytes "\x7d" ++ [])))))))) := by decide +kernel
  refine (parse_spaced (v := .object [(bytes "a", .array [.number (-7), .null])])
    ⟨⟨⟨-7, by norm_num, by norm_num⟩, trivial, trivial⟩, trivial⟩ ?_).2
  rw [htokens, htext]
  have hnone : Blank [] := nofun
  have hblank : Blank [32] := by decide +kernel
  have hnewline : Blank [10] := by decide +kernel
  exact .cons hnone <| .cons hblank <| .cons hblank <| .cons hblank <| .cons hblank <|
    .cons hnone <| .cons hnewline <| .cons hnone <| .cons hblank <| .nil hnone

/-! ### What is read is finite -/

mutual

/-- `parse` returns doubles. -/
theorem Reads.finite {t r : Bytes} {v : JsonValue} {o : ℕ} : Reads t v r o → v.Finite
  | .blank _ | .string _ | .emptyArray _ _ | .emptyObject _ _ | .true _ | .false _ | .null _ =>
      trivial
  | .array _ _ hvs => JsonValue.allNumbers_array.mpr hvs.finite
  | .object _ _ hfs => JsonValue.allNumbers_object.mpr hfs.finite
  | .number _ _ hq => abs_le_of_stod hq

theorem ReadsElements.finite {t r : Bytes} {vs : List JsonValue} {o : ℕ} :
    ReadsElements t vs r o → ∀ v ∈ vs, v.Finite
  | .last hv _ => List.forall_mem_singleton.mpr hv.finite
  | .more hv _ hvs => List.forall_mem_cons.mpr ⟨hv.finite, hvs.finite⟩

theorem ReadsMembers.finite {t r : Bytes} {fs : List (Bytes × JsonValue)} {o : ℕ} :
    ReadsMembers t fs r o → ∀ f ∈ fs, f.2.Finite
  | .last hv _ => List.forall_mem_singleton.mpr hv.finite
  | .more hv _ hfs => List.forall_mem_cons.mpr ⟨hv.finite, hfs.finite⟩

end

theorem finite_of_parse {text : Bytes} {v : JsonValue} {n : ℕ}
    (h : JsonValue.parse text = .ok (v, n)) : v.Finite := by
  obtain ⟨r, o, hreads, -⟩ := parse_eq_ok_iff.mp h
  exact hreads.finite

end PropMiner.Stratum
