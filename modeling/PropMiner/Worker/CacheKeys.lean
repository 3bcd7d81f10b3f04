import PropMiner.Semantics.Blocks
import PropMiner.Worker.TuneCache

/-!
# The key of a device as text

`Key::to_string` writes each byte of the uuid in hexadecimal and without padding, and the stream is
still in that mode when the versions are written. `Key::from_string` expects two digits for each
byte, and decimal versions.

Both caches of the worker write their keys in this way. A text ends for `sscanf` at its first null
byte. `%2x` of `0x` alone fails here; it is never met in the text of a key.

## Main definitions

* `scanHex2` — `%2x`
* `Key.fromString`
* `Key.Identifies` — no other key has the text, and it is read back

## Main results

* `Key.identifies_iff` — bytes of two digits, and versions of one decimal digit
-/

set_option autoImplicit false

namespace PropMiner.TuneCache

open Semantics
open Stratum (Bytes bytes isDigit isSpace digitsValue hexDigit hexDigitValue leadingHex)

deriving instance DecidableEq for Key

/-! ### Reading a key -/

/-- What `c_str()` shows of a text. -/
def cText (s : Bytes) : Bytes := s.takeWhile (· ≠ 0)

/-- `%2x`: at most two characters after whitespace, a sign among them. -/
def scanHex2 (t : Bytes) : Option UInt8 :=
  let t := (t.dropWhile isSpace).take 2
  let unsigned := Stratum.dropIf (fun c => c == 45 || c == 43) t
  if unsigned.head?.bind hexDigitValue = none ∨ unsigned = bytes "0x" ∨ unsigned = bytes "0X" then
    none
  else some (Stratum.strtoul16 t)

/-- `%d.%d` -/
def scanVersion (t : Bytes) : Option (ℤ × ℤ) :=
  match scanInt t with
  | some (major, 46 :: t) => (scanInt t).map fun minor => (major, minor.1)
  | _ => none

/-- `find` of a `std::string` -/
def find (p : Bytes) : Bytes → Option ℕ
  | [] => if p = [] then some 0 else none
  | c :: s => if p <+: c :: s then some 0 else (find p s).map (· + 1)

/-- `Key::from_string` after the uuid -/
def Key.fromFields (s : Bytes) : Option Key := do
  let (major, minor) ← scanVersion (cText (s.drop 33))
  let drv ← find (bytes "-drv") s
  let (driverVersion, _) ← scanInt (cText (s.drop (drv + 4)))
  let (_, archProfile) ← Lines.next 45 (s.drop (drv + 4))
  guard (archProfile ≠ [])
  return {
    uuid := Vector.ofFn fun i => (scanHex2 (cText (s.drop (i * 2)))).getD 0
    major := store major
    minor := store minor
    driverVersion := store driverVersion
    archProfile }

/-- `Key::from_string` -/
def Key.fromString (s : Bytes) : Option Key :=
  if s.length < 38 ∨ s[32]? ≠ some 45 then none
  else if (List.range 16).all fun i => (scanHex2 (cText (s.drop (i * 2)))).isSome then
    Key.fromFields s
  else none

/-- The keys that devices have. -/
structure Key.Proper (k : Key) : Prop where
  major : 0 ≤ k.major
  minor : 0 ≤ k.minor
  driverVersion : 0 ≤ k.driverVersion
  archProfile : k.archProfile ≠ []

/-- The text of a key stands for that key alone, and is read back. -/
def Key.Identifies (k : Key) : Prop :=
  (∀ other : Key, other.Proper → other.text = k.text → other = k) ∧
    Key.fromString k.text = some k

/-! ### Hexadecimal numbers -/

section Hex

theorem hexText_of_lt {n : ℕ} (hn : n < 16) : hexText n = [hexDigit n] := by
  have hall : ∀ n < 16, hexText n = [hexDigit n] := by decide +kernel
  exact hall n hn

/-- All digits but the last one are those of the quotient. -/
theorem hexText_of_le {n : ℕ} (hn : 16 ≤ n) :
    hexText n = hexText (n / 16) ++ [hexDigit (n % 16)] := by
  have hpos : n / 16 ≠ 0 := by omega
  rw [hexText, if_neg (by omega), hexText, if_neg hpos,
    Nat.digits_def' (by norm_num) (by omega : 0 < n), List.reverse_cons, List.map_append]
  rfl

theorem exists_of_mem_hexText {n : ℕ} {c : UInt8} (hc : c ∈ hexText n) :
    ∃ d < 16, c = hexDigit d := by
  induction n using Nat.strong_induction_on with
  | _ n ih =>
    by_cases hn : n < 16
    · rw [hexText_of_lt hn, List.mem_singleton] at hc
      exact ⟨n, hn, hc⟩
    · rw [hexText_of_le (by omega), List.mem_append, List.mem_singleton] at hc
      rcases hc with hc | hc
      · exact ih (n / 16) (by omega) hc
      · exact ⟨n % 16, Nat.mod_lt n (by norm_num), hc⟩

/-- The digits are none of the other characters of a key. -/
theorem hexDigit_special {d : ℕ} (hd : d < 16) : isSpace (hexDigit d) = false ∧
    hexDigit d ≠ 0 ∧ hexDigit d ≠ 43 ∧ hexDigit d ≠ 45 ∧ hexDigit d ≠ 46 := by
  have hall : ∀ d < 16, isSpace (hexDigit d) = false ∧ hexDigit d ≠ 0 ∧ hexDigit d ≠ 43 ∧
      hexDigit d ≠ 45 ∧ hexDigit d ≠ 46 := by decide +kernel
  exact hall d hd

theorem notMem_hexText {c : UInt8} (hc : c = 0 ∨ c = 45 ∨ c = 46) (n : ℕ) : c ∉ hexText n := by
  intro hmem
  obtain ⟨d, hd, rfl⟩ := exists_of_mem_hexText hmem
  obtain ⟨-, hzero, -, hdash, hpoint⟩ := hexDigit_special hd
  rcases hc with hc | hc | hc
  · exact hzero hc
  · exact hdash hc
  · exact hpoint hc

theorem leadingHex_append {s t : Bytes} (hs : ∀ c ∈ s, ∃ d < 16, c = hexDigit d) (n : ℕ) :
    leadingHex n (s ++ t) = leadingHex (leadingHex n s) t := by
  induction s generalizing n with
  | nil => rfl
  | cons c s ih =>
    obtain ⟨⟨d, hd, rfl⟩, htail⟩ := List.forall_mem_cons.mp hs
    have hdigit := Stratum.hexDigitValue_hexDigit hd
    rw [List.cons_append, Stratum.leadingHex_cons hdigit, Stratum.leadingHex_cons hdigit,
      ih htail]

/-- The number that is written. -/
theorem leadingHex_hexText (n : ℕ) : leadingHex 0 (hexText n) = n := by
  induction n using Nat.strong_induction_on with
  | _ n ih =>
    by_cases hn : n < 16
    · rw [hexText_of_lt hn, Stratum.leadingHex_cons (Stratum.hexDigitValue_hexDigit hn)]
      exact Nat.zero_add n
    · have hlast := Stratum.hexDigitValue_hexDigit (Nat.mod_lt n (by norm_num : 0 < 16))
      rw [hexText_of_le (by omega), leadingHex_append (fun _ => exists_of_mem_hexText),
        ih (n / 16) (by omega), Stratum.leadingHex_cons hlast]
      exact Nat.div_add_mod n 16

theorem hexText_injective : Function.Injective hexText := fun m n h => by
  rw [← leadingHex_hexText m, h, leadingHex_hexText]

/-- A byte has one digit or two. -/
theorem length_hexText_byte (b : UInt8) :
    (hexText b.toNat).length = if 16 ≤ b.toNat then 2 else 1 := by
  by_cases hb : 16 ≤ b.toNat
  · have hlt := b.toNat_lt
    rw [if_pos hb, hexText_of_le hb, hexText_of_lt (by omega)]
    rfl
  · rw [if_neg hb, hexText_of_lt (by omega)]
    rfl

end Hex

/-! ### Hexadecimal read as decimal -/

section Decimal

/-- What `%d` makes of a hexadecimal number. -/
def misread (n : ℕ) : ℕ := digitsValue ((hexText n).takeWhile isDigit)

theorem digitsValue_concat (s : Bytes) (c : UInt8) :
    digitsValue (s ++ [c]) = 10 * digitsValue s + (c.toNat - 48) := by
  rw [digitsValue, List.foldl_append]
  rfl

/-- Only the digits below ten are the same: a second digit counts ten instead of sixteen, and at a
letter the reading stops. -/
theorem misread_le (n : ℕ) : misread n ≤ n ∧ (10 ≤ n → misread n < n) := by
  induction n using Nat.strong_induction_on with
  | _ n ih =>
    by_cases hn : n < 16
    · have hall : ∀ n < 16, misread n ≤ n ∧ (10 ≤ n → misread n < n) := by decide +kernel
      exact hall n hn
    · have hquot := (ih (n / 16) (by omega)).1
      have hless : misread n < n := by
        unfold misread at hquot ⊢
        rw [hexText_of_le (by omega), List.takeWhile_append]
        split_ifs with hdigits
        · -- all digits of the quotient are decimal, and the last one may be
          rw [(List.takeWhile_prefix _).eq_of_length hdigits] at hquot
          by_cases hlast : isDigit (hexDigit (n % 16)) = true
          · have hvalue : ∀ d < 16, isDigit (hexDigit d) = true →
                (hexDigit d).toNat - 48 = d := by decide +kernel
            rw [List.takeWhile_cons_of_pos hlast, List.takeWhile_nil, digitsValue_concat,
              hvalue _ (Nat.mod_lt n (by norm_num)) hlast]
            omega
          · rw [List.takeWhile_cons_of_neg hlast, List.append_nil]
            omega
        · omega
      exact ⟨hless.le, fun _ => hless⟩

/-- `%d` on a hexadecimal number: its digits up to the first letter. -/
theorem scanInt_hexText (n : ℕ) {rest : Bytes} (hrest : ∀ c ∈ rest.head?, isDigit c = false) :
    scanInt (hexText n ++ rest) =
      if (hexText n).takeWhile isDigit = [] then none
      else some ((misread n : ℤ), (hexText n).dropWhile isDigit ++ rest) := by
  obtain ⟨c, s, htext⟩ := List.exists_cons_of_ne_nil (hexText_ne_nil n)
  obtain ⟨d, hd, hcd⟩ := exists_of_mem_hexText (htext ▸ List.mem_cons_self : c ∈ hexText n)
  obtain ⟨hspace, -, hplus, hminus, -⟩ := hexDigit_special hd
  rw [← hcd] at hspace hplus hminus
  have hdrop : (hexText n ++ rest).dropWhile isSpace = hexText n ++ rest := by
    rw [htext]
    exact List.dropWhile_cons_of_neg (Bool.eq_false_iff.mp hspace)
  have hsign : Stratum.dropIf (fun c => c == 45 || c == 43) (hexText n ++ rest) =
      hexText n ++ rest := by
    rw [htext]
    exact dropSign_cons hminus hplus _
  have hhead : (hexText n ++ rest).head? ≠ some 45 := by
    rw [htext]
    exact fun h => hminus (Option.some.inj h)
  obtain ⟨htake, hrest⟩ := @span_append isDigit (hexText n) rest hrest
  unfold scanInt
  dsimp only
  rw [hdrop, hsign, htake, hrest, if_neg hhead]
  rfl

/-- A number is read back if and only if it has one decimal digit. -/
theorem misread_eq_iff {n : ℕ} : misread n = n ↔ n < 10 := by
  constructor
  · intro h
    by_contra hn
    exact absurd h ((misread_le n).2 (by omega)).ne
  · intro hn
    have hall : ∀ n < 10, misread n = n := by decide +kernel
    exact hall n hn

end Decimal

/-! ### The parts of a key -/

section Parts

variable (k : Key)

/-- The text of the uuid. -/
def Key.uuidText : Bytes := k.uuid.toList.flatMap fun c => hexText c.toNat

/-- The texts of the versions and what is between them. -/
def Key.versionText : Bytes :=
  hexText k.major.toUInt32.toNat ++ 46 :: hexText k.minor.toUInt32.toNat

/-- What follows `-drv`. -/
def Key.driverText : Bytes := hexText k.driverVersion.toUInt32.toNat ++ 45 :: k.archProfile

theorem Key.text_eq : k.text =
    k.uuidText ++ 45 :: (k.versionText ++ 45 :: 100 :: 114 :: 118 :: k.driverText) := by
  have hdrv : bytes "-drv" = [45, 100, 114, 118] := by decide
  rw [Key.text, hdrv, Key.uuidText, Key.versionText, Key.driverText]
  simp only [List.append_assoc, List.cons_append, List.nil_append]

/-- What is found at the second dash. -/
theorem Key.drop_text : k.text.drop (k.uuidText.length + (1 + k.versionText.length)) =
    45 :: 100 :: 114 :: 118 :: k.driverText := by
  rw [k.text_eq, ← List.drop_drop, List.drop_left, Nat.add_comm, List.drop_succ_cons,
    List.drop_left]

theorem Key.dash_notMem : 45 ∉ k.uuidText ∧ 45 ∉ k.versionText := by
  refine ⟨fun hmem => ?_, fun hmem => ?_⟩
  · obtain ⟨b, -, hb⟩ := List.mem_flatMap.mp hmem
    exact notMem_hexText (.inr (.inl rfl)) _ hb
  · rcases List.mem_append.mp hmem with h | h
    · exact notMem_hexText (.inr (.inl rfl)) _ h
    · rcases List.mem_cons.mp h with h | h
      · exact absurd h (by decide)
      · exact notMem_hexText (.inr (.inl rfl)) _ h

/-- The bytes of the uuid all have two digits. -/
def Key.Padded : Prop := ∀ b ∈ k.uuid.toList, 16 ≤ b.toNat

theorem length_flatMap_hexText (us : List UInt8) :
    (us.flatMap fun c => hexText c.toNat).length ≤ us.length * 2 ∧
      ((us.flatMap fun c => hexText c.toNat).length = us.length * 2 ↔
        ∀ b ∈ us, 16 ≤ b.toNat) := by
  induction us with
  | nil => simp
  | cons b us ih =>
    rw [List.flatMap_cons, List.length_append, length_hexText_byte, List.length_cons,
      List.forall_mem_cons, ← ih.2]
    have hle := ih.1
    split_ifs with hb
    · exact ⟨by omega, by omega⟩
    · exact ⟨by omega, by omega⟩

theorem Key.length_uuidText :
    k.uuidText.length ≤ 32 ∧ (k.uuidText.length = 32 ↔ k.Padded) := by
  have h := length_flatMap_hexText k.uuid.toList
  rwa [Vector.length_toList] at h

end Parts

/-! ### The uuid -/

section Uuid

variable {k : Key}

theorem cText_cons {c : UInt8} (hc : c ≠ 0) (t : Bytes) : cText (c :: t) = c :: cText t :=
  List.takeWhile_cons_of_pos (decide_eq_true hc)

theorem cText_append {s : Bytes} (hs : 0 ∉ s) (t : Bytes) : cText (s ++ t) = s ++ cText t := by
  apply List.takeWhile_append_of_pos
  intro c hc
  apply decide_eq_true
  rintro rfl
  exact hs hc

/-- `%2x` on something that is no digit. -/
theorem scanHex2_eq_none {c : UInt8} (hc : isSpace c = false) (hplus : c ≠ 43) (hminus : c ≠ 45)
    (hdigit : hexDigitValue c = none) (t : Bytes) : scanHex2 (c :: t) = none := by
  have hdrop : (c :: t).dropWhile isSpace = c :: t :=
    List.dropWhile_cons_of_neg (Bool.eq_false_iff.mp hc)
  have hsign : Stratum.dropIf (fun c => c == 45 || c == 43) ((c :: t).take 2) = c :: t.take 1 :=
    dropSign_cons hminus hplus _
  unfold scanHex2
  dsimp only
  rw [hdrop, hsign, if_pos (.inl hdigit)]

/-- `%2x` on two digits. -/
theorem scanHex2_pair {a b : UInt8} {x y : ℕ} (ha : hexDigitValue a = some x)
    (hb : hexDigitValue b = some y) (t : Bytes) :
    scanHex2 (a :: b :: t) = some (UInt8.ofNat (16 * x + y)) := by
  obtain ⟨-, hspace, hminus, hplus, -⟩ := Stratum.hexDigitValue_special ha
  have hdrop : (a :: b :: t).dropWhile isSpace = a :: b :: t :=
    List.dropWhile_cons_of_neg (Bool.eq_false_iff.mp hspace)
  have hsign : Stratum.dropIf (fun c => c == 45 || c == 43) ((a :: b :: t).take 2) = [a, b] :=
    dropSign_cons hminus hplus _
  have hmarker : ¬ ([a, b].head?.bind hexDigitValue = none ∨ [a, b] = bytes "0x" ∨
      [a, b] = bytes "0X") := by
    rintro (h | h | h)
    · exact Option.some_ne_none x (ha.symm.trans h)
    · have hx : b = 120 := (List.cons.inj (List.cons.inj h).2).1
      rw [hx] at hb
      exact absurd hb nofun
    · have hx : b = 88 := (List.cons.inj (List.cons.inj h).2).1
      rw [hx] at hb
      exact absurd hb nofun
  unfold scanHex2
  dsimp only
  rw [hdrop, hsign, if_neg hmarker]
  exact congrArg some (Stratum.strtoul16_pair ha hb)

/-- With two digits for each byte the uuid is read back. -/
theorem scanHex2_uuid (h : k.Padded) (i : ℕ) (hi : i < 16) :
    scanHex2 (cText (k.text.drop (i * 2))) = some k.uuid[i] := by
  have hlen : k.uuidText.length = 32 := k.length_uuidText.2.mpr h
  have hi' : i < k.uuid.toList.length := by rwa [Vector.length_toList]
  have hbyte : 16 ≤ (k.uuid.toList[i]).toNat := h _ (List.getElem_mem hi')
  have hcut : (k.uuidText.drop (i * 2)).take 2 = hexText (k.uuid.toList[i]).toNat := by
    apply take_drop_flatMap (fun b hb => ?_) hi'
    rw [length_hexText_byte, if_pos (h b hb)]
  have hget : k.uuid.toList[i] = k.uuid[i] := Vector.getElem_toList _
  rw [hget] at hbyte hcut
  generalize k.uuid[i] = b at hbyte hcut
  have hlt := b.toNat_lt
  have hhigh := Stratum.hexDigitValue_hexDigit (by omega : b.toNat / 16 < 16)
  have hlow := Stratum.hexDigitValue_hexDigit (by omega : b.toNat % 16 < 16)
  have htext : hexText b.toNat = [hexDigit (b.toNat / 16), hexDigit (b.toNat % 16)] := by
    rw [hexText_of_le hbyte, hexText_of_lt (by omega)]
    rfl
  rw [k.text_eq, List.drop_append_of_le_length (by omega), ← List.take_append_drop 2
    (k.uuidText.drop (i * 2)), hcut, htext, List.append_assoc, List.cons_append, List.cons_append,
    List.nil_append, cText_cons (Stratum.hexDigitValue_special hhigh).1,
    cText_cons (Stratum.hexDigitValue_special hlow).1, scanHex2_pair hhigh hlow, Nat.div_add_mod,
    UInt8.ofNat_toNat]

theorem Key.fromString_of_padded (h : k.Padded) :
    Key.fromString k.text = Key.fromFields k.text := by
  have hlen : k.uuidText.length = 32 := k.length_uuidText.2.mpr h
  have hdash : k.text[32]? = some 45 := by
    rw [k.text_eq, List.getElem?_append_right (by omega), hlen]
    rfl
  have hlong : ¬ k.text.length < 38 := by
    rw [k.text_eq]
    simp only [List.length_append, List.length_cons, Key.versionText]
    omega
  have huuid : (List.range 16).all (fun i => (scanHex2 (cText (k.text.drop (i * 2)))).isSome) := by
    rw [List.all_eq_true]
    intro i hi
    rw [scanHex2_uuid h i (List.mem_range.mp hi)]
    rfl
  rw [Key.fromString, if_neg (not_or.mpr ⟨hlong, not_not.mpr hdash⟩), if_pos huuid]

/-- A byte of one digit moves all that follows, and nothing is found at its place any more. -/
theorem Key.fromString_of_not_padded (h : ¬ k.Padded) : Key.fromString k.text = none := by
  have hlen : k.uuidText.length < 32 :=
    lt_of_le_of_ne k.length_uuidText.1 (mt k.length_uuidText.2.mp h)
  obtain ⟨-, hversion⟩ := k.dash_notMem
  have htail := k.drop_text
  generalize hsecond : k.uuidText.length + (1 + k.versionText.length) = second at htail
  unfold Key.fromString
  split_ifs with hstart huuid
  · rfl
  · have hdash : k.text[32]? = some 45 := not_not.mp (not_or.mp hstart).2
    rcases Nat.lt_trichotomy 32 second with hlt | heq | hgt
    · -- between the two dashes there is none
      rw [k.text_eq, List.getElem?_append_right hlen.le] at hdash
      obtain ⟨j, hj⟩ := Nat.exists_eq_succ_of_ne_zero (by omega : 32 - k.uuidText.length ≠ 0)
      rw [hj, List.getElem?_cons_succ, List.getElem?_append_left (by omega)] at hdash
      exact absurd (List.mem_of_getElem? hdash) hversion
    · -- the version would be at `drv`
      have hd : k.text.drop 33 = 100 :: 114 :: 118 :: k.driverText := by
        rw [← heq] at htail
        have hnext := congrArg (List.drop 1) htail
        rwa [List.drop_drop] at hnext
      have hscan : scanVersion (cText (k.text.drop 33)) = none := by
        rw [hd, cText_cons (by decide), cText_cons (by decide)]
        rfl
      rw [Key.fromFields, hscan]
      rfl
    · -- one of `r` and `v` begins a pair
      exfalso
      have hfar : second + 4 ≤ 32 := by
        by_contra hnear
        have hget : k.text[32]? = (k.text.drop second)[32 - second]? := by
          rw [List.getElem?_drop, Nat.add_sub_cancel' hgt.le]
        rw [hget, htail] at hdash
        have hcases : 32 - second = 1 ∨ 32 - second = 2 ∨ 32 - second = 3 := by omega
        rcases hcases with hj | hj | hj
        · rw [hj] at hdash
          exact absurd hdash (by simp)
        · rw [hj] at hdash
          exact absurd hdash (by simp)
        · rw [hj] at hdash
          exact absurd hdash (by simp)
      rcases Nat.even_or_odd second with ⟨j, hj⟩ | ⟨j, hj⟩
      · have hpair := List.all_eq_true.mp huuid (j + 1) (List.mem_range.mpr (by omega))
        have hr : k.text.drop ((j + 1) * 2) = 114 :: 118 :: k.driverText := by
          have hnext := congrArg (List.drop 2) htail
          rw [List.drop_drop, hj] at hnext
          rwa [show (j + 1) * 2 = j + j + 2 by omega]
        rw [hr, cText_cons (by decide),
          scanHex2_eq_none (by decide) (by decide) (by decide) (by decide)] at hpair
        cases hpair
      · have hpair := List.all_eq_true.mp huuid (j + 2) (List.mem_range.mpr (by omega))
        have hv : k.text.drop ((j + 2) * 2) = 118 :: k.driverText := by
          have hnext := congrArg (List.drop 3) htail
          rw [List.drop_drop, hj] at hnext
          rwa [show (j + 2) * 2 = 2 * j + 1 + 3 by omega]
        rw [hv, cText_cons (by decide),
          scanHex2_eq_none (by decide) (by decide) (by decide) (by decide)] at hpair
        cases hpair
  · rfl

end Uuid

/-! ### Versions and profile -/

section Fields

variable {k : Key}

theorem find_append {c : UInt8} {p a : Bytes} (ha : c ∉ a) (b : Bytes) :
    find (c :: p) (a ++ b) = (find (c :: p) b).map (· + a.length) := by
  induction a with
  | nil => exact Option.map_id'.symm
  | cons x a ih =>
    rw [List.mem_cons, not_or] at ha
    have hprefix : ¬ c :: p <+: x :: (a ++ b) := fun h => ha.1 (List.cons_prefix_cons.mp h).1
    rw [List.cons_append, find, if_neg hprefix, ih ha.2, Option.map_map]
    rfl

/-- With a major version of one decimal digit the first dash is not taken for that of `-drv`. -/
theorem Key.find_drv (hmajor : k.major.toUInt32.toNat < 10) :
    find (bytes "-drv") k.text = some (k.uuidText.length + (1 + k.versionText.length)) := by
  have hdrv : bytes "-drv" = 45 :: [100, 114, 118] := by decide
  obtain ⟨huuid, hversion⟩ := k.dash_notMem
  have hfirst : ¬ 45 :: [100, 114, 118] <+:
      45 :: (k.versionText ++ 45 :: 100 :: 114 :: 118 :: k.driverText) := by
    rw [Key.versionText, hexText_of_lt (by omega)]
    intro h
    have hd : 100 = hexDigit k.major.toUInt32.toNat :=
      (List.cons_prefix_cons.mp (List.cons_prefix_cons.mp h).2).1
    have hall : ∀ d < 10, 100 ≠ hexDigit d := by decide +kernel
    exact hall _ hmajor hd
  have hsecond : 45 :: [100, 114, 118] <+: 45 :: 100 :: 114 :: 118 :: k.driverText :=
    ⟨k.driverText, rfl⟩
  rw [k.text_eq, hdrv, find_append huuid, find, if_neg hfirst, find_append hversion, find,
    if_pos hsecond]
  simp only [Option.map_some, Option.some.injEq]
  omega

theorem zero_notMem_versionText : 0 ∉ k.versionText := by
  rw [Key.versionText, List.mem_append, List.mem_cons]
  rintro (h | h | h)
  · exact notMem_hexText (.inl rfl) _ h
  · exact absurd h (by decide)
  · exact notMem_hexText (.inl rfl) _ h

/-- If two versions are read at all, they are the misread ones. -/
theorem scanVersion_eq_some {t : Bytes} {major minor : ℤ}
    (h : scanVersion (k.versionText ++ 45 :: t) = some (major, minor)) :
    major = misread k.major.toUInt32.toNat ∧ minor = misread k.minor.toUInt32.toNat := by
  have hpoint : ∀ c ∈ (46 :: (hexText k.minor.toUInt32.toNat ++ 45 :: t)).head?,
      isDigit c = false := forall_head?_cons.mpr rfl
  have hdash : ∀ c ∈ (45 :: t).head?, isDigit c = false := forall_head?_cons.mpr rfl
  rw [Key.versionText, List.append_assoc, List.cons_append, scanVersion,
    scanInt_hexText _ hpoint] at h
  by_cases hnone : (hexText k.major.toUInt32.toNat).takeWhile isDigit = []
  · rw [if_pos hnone] at h
    cases h
  rw [if_neg hnone] at h
  cases hletters : (hexText k.major.toUInt32.toNat).dropWhile isDigit with
  | nil =>
    rw [hletters] at h
    replace h : (scanInt (hexText k.minor.toUInt32.toNat ++ 45 :: t)).map
        (fun minor => ((misread k.major.toUInt32.toNat : ℤ), minor.1)) = some (major, minor) := h
    rw [scanInt_hexText _ hdash] at h
    by_cases hnone' : (hexText k.minor.toUInt32.toNat).takeWhile isDigit = []
    · rw [if_pos hnone'] at h
      cases h
    · rw [if_neg hnone'] at h
      obtain ⟨rfl, rfl⟩ := Prod.mk.inj (Option.some.inj h)
      exact ⟨rfl, rfl⟩
  | cons c s =>
    -- a letter is no point
    have hc : c ∈ hexText k.major.toUInt32.toNat :=
      (List.dropWhile_suffix isDigit).subset (hletters ▸ List.mem_cons_self)
    have hne : c ≠ 46 := fun h46 => notMem_hexText (.inr (.inr rfl)) _ (h46 ▸ hc)
    rw [hletters, List.cons_append] at h
    split at h
    · next heq =>
      exact absurd (List.cons.inj (Prod.mk.inj (Option.some.inj heq)).2).1 hne
    · cases h

/-- Decimal digits are read back. -/
theorem scanInt_hexText_of_lt {n : ℕ} (hn : n < 10) {rest : Bytes}
    (hrest : ∀ c ∈ rest.head?, isDigit c = false) :
    scanInt (hexText n ++ rest) = some ((n : ℤ), rest) := by
  have hall : ∀ n < 10, (hexText n).takeWhile isDigit ≠ [] ∧ (hexText n).dropWhile isDigit = [] :=
    by decide +kernel
  obtain ⟨hne, hdrop⟩ := hall n hn
  rw [scanInt_hexText n hrest, if_neg hne, hdrop, misread_eq_iff.mpr hn, List.nil_append]

theorem scanVersion_of_lt (hmajor : k.major.toUInt32.toNat < 10)
    (hminor : k.minor.toUInt32.toNat < 10) (t : Bytes) :
    scanVersion (k.versionText ++ 45 :: t) =
      some ((k.major.toUInt32.toNat : ℤ), (k.minor.toUInt32.toNat : ℤ)) := by
  have hsecond := @scanInt_hexText_of_lt _ hminor (45 :: t) (forall_head?_cons.mpr rfl)
  have hfirst := @scanInt_hexText_of_lt _ hmajor
    (46 :: (hexText k.minor.toUInt32.toNat ++ 45 :: t)) (forall_head?_cons.mpr rfl)
  rw [Key.versionText, List.append_assoc, List.cons_append, scanVersion, hfirst]
  exact congrArg (Option.map _) hsecond

/-- A version that is not negative is written as the number that it is. -/
theorem toNat_toUInt32 {x : Int32} (hx : 0 ≤ x) : (x.toUInt32.toNat : ℤ) = x.toInt := by
  have hnonneg : (0 : ℤ) ≤ x.toInt := Int32.le_iff_toInt_le.mp hx
  have hcond : x.toInt = if 2 * x.toUInt32.toNat < 2 ^ 32 then (x.toUInt32.toNat : ℤ)
      else x.toUInt32.toNat - (2 ^ 32 : ℕ) := BitVec.toInt_eq_toNat_cond _
  have hlt := x.toUInt32.toNat_lt
  split_ifs at hcond
  · exact hcond.symm
  · omega

theorem lt_ten_iff {x : Int32} (hx : 0 ≤ x) : x < 10 ↔ x.toUInt32.toNat < 10 := by
  have h10 : (10 : Int32).toInt = 10 := by decide
  rw [Int32.lt_iff_toInt_lt, h10, ← toNat_toUInt32 hx]
  omega

/-- A version is read back if it has one decimal digit. -/
theorem store_misread_iff {x : Int32} (hx : 0 ≤ x) :
    store (misread x.toUInt32.toNat) = x ↔ x < 10 := by
  have hnat := toNat_toUInt32 hx
  have hle := (misread_le x.toUInt32.toNat).1
  have hhi := x.toInt_lt
  have hstore : (store (misread x.toUInt32.toNat)).toInt = misread x.toUInt32.toNat := by
    rw [store, min_eq_right (by omega), max_eq_right (by omega)]
    exact Int32.toInt_ofInt_of_le (by omega) (by omega)
  rw [lt_ten_iff hx, ← misread_eq_iff, ← Int32.toInt_inj, hstore, ← hnat]
  exact Nat.cast_inj

theorem Key.drop_version (h : k.Padded) :
    k.text.drop 33 = k.versionText ++ 45 :: 100 :: 114 :: 118 :: k.driverText := by
  have hlen : k.uuidText.length = 32 := k.length_uuidText.2.mpr h
  have hplace : 33 = k.uuidText.length + 1 := by omega
  rw [k.text_eq, hplace, ← List.drop_drop, List.drop_left]
  rfl

/-- What `sscanf` sees of the versions. -/
theorem Key.cText_version (h : k.Padded) :
    ∃ t, cText (k.text.drop 33) = k.versionText ++ 45 :: t := by
  rw [k.drop_version h, cText_append zero_notMem_versionText, cText_cons (by decide)]
  exact ⟨_, rfl⟩

/-- What it sees of the driver's version. -/
theorem Key.cText_driver : ∃ t,
    cText (k.text.drop (k.uuidText.length + (1 + k.versionText.length) + 4)) =
      hexText k.driverVersion.toUInt32.toNat ++ 45 :: t := by
  rw [← List.drop_drop, k.drop_text]
  refine ⟨cText k.archProfile, ?_⟩
  have hdriver : cText k.driverText = _ := cText_append (notMem_hexText (.inl rfl) _) _
  rw [← cText_cons (by decide : (45 : UInt8) ≠ 0), ← hdriver]
  rfl

theorem Key.ofFn_uuid (h : k.Padded) :
    (Vector.ofFn fun i : Fin 16 => (scanHex2 (cText (k.text.drop (i * 2)))).getD 0) = k.uuid := by
  apply Vector.ext
  intro i hi
  rw [Vector.getElem_ofFn, scanHex2_uuid h i hi]
  rfl

/-- The versions that are read back have one decimal digit. -/
theorem Key.lt_of_fromFields (h : k.Padded) (hk : k.Proper)
    (hread : Key.fromFields k.text = some k) :
    k.major < 10 ∧ k.minor < 10 ∧ k.driverVersion < 10 := by
  simp only [Key.fromFields, Option.bind_eq_bind, Option.bind_eq_some_iff] at hread
  obtain ⟨⟨major, minor⟩, hversion, drv, hdrv, ⟨driver, rest⟩, hdriver, ⟨front, arch⟩, -, -, -,
    hkey⟩ := hread
  have hfields : k = ⟨_, store major, store minor, store driver, arch⟩ :=
    (Option.some.inj hkey).symm
  obtain ⟨t, htext⟩ := k.cText_version h
  rw [htext] at hversion
  obtain ⟨rfl, rfl⟩ := scanVersion_eq_some hversion
  have hmajor : k.major < 10 := (store_misread_iff hk.major).mp (congrArg Key.major hfields).symm
  have hminor : k.minor < 10 := (store_misread_iff hk.minor).mp (congrArg Key.minor hfields).symm
  refine ⟨hmajor, hminor, ?_⟩
  -- with that the right `-drv` is found
  rw [Key.find_drv ((lt_ten_iff hk.major).mp hmajor)] at hdrv
  rw [← Option.some.inj hdrv] at hdriver
  obtain ⟨t, htext⟩ := k.cText_driver
  rw [htext, scanInt_hexText _ (forall_head?_cons.mpr rfl)] at hdriver
  split_ifs at hdriver
  obtain ⟨rfl, -⟩ := Prod.mk.inj (Option.some.inj hdriver)
  exact (store_misread_iff hk.driverVersion).mp (congrArg Key.driverVersion hfields).symm

/-- With versions of one decimal digit all fields are read back. -/
theorem Key.fromFields_of_lt (h : k.Padded) (hk : k.Proper) (hmajor : k.major < 10)
    (hminor : k.minor < 10) (hdriver : k.driverVersion < 10) :
    Key.fromFields k.text = some k := by
  have hmajor' := (lt_ten_iff hk.major).mp hmajor
  have hminor' := (lt_ten_iff hk.minor).mp hminor
  have hdriver' := (lt_ten_iff hk.driverVersion).mp hdriver
  obtain ⟨t, hversion⟩ := k.cText_version h
  obtain ⟨t', hdrv⟩ := k.cText_driver
  have hnext : Lines.next 45 (k.text.drop (k.uuidText.length + (1 + k.versionText.length) + 4)) =
      some (hexText k.driverVersion.toUInt32.toNat, k.archProfile) := by
    rw [← List.drop_drop, k.drop_text]
    exact Lines.next_eq_some_iff.mpr ⟨rfl, notMem_hexText (.inr (.inl rfl)) _⟩
  have hstore : ∀ {x : Int32}, 0 ≤ x → store (x.toUInt32.toNat : ℤ) = x := fun hx => by
    rw [toNat_toUInt32 hx, store_toInt]
  rw [Key.fromFields, hversion, scanVersion_of_lt hmajor' hminor', Key.find_drv hmajor']
  simp only [Option.bind_eq_bind, Option.bind_some]
  rw [hdrv, scanInt_hexText_of_lt hdriver' (forall_head?_cons.mpr rfl), hnext, k.ofFn_uuid h]
  simp only [Option.bind_some, hstore hk.major, hstore hk.minor, hstore hk.driverVersion,
    guard, if_pos hk.archProfile]
  rfl

/-- Two texts that are cut at the same character have the same parts. -/
theorem append_cons_inj {a b a' b' : Bytes} {c : UInt8} (h : a ++ c :: b = a' ++ c :: b')
    (ha : c ∉ a) (ha' : c ∉ a') : a = a' ∧ b = b' := by
  have hnext := (Lines.next_eq_some_iff.mpr ⟨h, ha'⟩).symm.trans
    (Lines.next_eq_some_iff.mpr ⟨rfl, ha⟩)
  obtain ⟨rfl, rfl⟩ := Prod.mk.inj (Option.some.inj hnext)
  exact ⟨rfl, rfl⟩

theorem toUInt32_injective {x y : Int32} (h : hexText x.toUInt32.toNat = hexText y.toUInt32.toNat) :
    x = y := by
  have hword : x.toUInt32 = y.toUInt32 := UInt32.toNat_inj.mp (hexText_injective h)
  exact congrArg UInt32.toInt32 hword

/-- No other key has the text of a key whose bytes have two digits each. -/
theorem Key.eq_of_text (h : k.Padded) {other : Key} (htext : other.text = k.text) : other = k := by
  have hparts := htext
  rw [other.text_eq, k.text_eq] at hparts
  obtain ⟨huuid, hrest⟩ := append_cons_inj hparts other.dash_notMem.1 k.dash_notMem.1
  obtain ⟨hversion, hrest⟩ := append_cons_inj hrest other.dash_notMem.2 k.dash_notMem.2
  have hdriver : other.driverText = k.driverText := by simpa using hrest
  obtain ⟨hmajor, hminor⟩ := append_cons_inj hversion (notMem_hexText (.inr (.inr rfl)) _)
    (notMem_hexText (.inr (.inr rfl)) _)
  obtain ⟨hdriver, harch⟩ := append_cons_inj hdriver (notMem_hexText (.inr (.inl rfl)) _)
    (notMem_hexText (.inr (.inl rfl)) _)
  have hother : other.Padded := by
    rw [← other.length_uuidText.2, huuid, k.length_uuidText.2]
    exact h
  have huuid : other.uuid = k.uuid := by
    rw [← other.ofFn_uuid hother, htext, k.ofFn_uuid h]
  cases k
  cases other
  obtain rfl := toUInt32_injective hmajor
  obtain rfl := toUInt32_injective hminor
  obtain rfl := toUInt32_injective hdriver
  cases huuid
  cases harch
  rfl

end Fields

/-- A key stands for itself if every byte of the uuid has two hexadecimal digits and every version
one decimal digit. -/
theorem Key.identifies_iff (k : Key) (hk : k.Proper) :
    k.Identifies ↔
      (∀ b ∈ k.uuid.toList, 16 ≤ b.toNat) ∧ k.major < 10 ∧ k.minor < 10 ∧
        k.driverVersion < 10 := by
  constructor
  · rintro ⟨-, hread⟩
    have hpadded : k.Padded := by
      by_contra h
      rw [Key.fromString_of_not_padded h] at hread
      cases hread
    rw [Key.fromString_of_padded hpadded] at hread
    exact ⟨hpadded, Key.lt_of_fromFields hpadded hk hread⟩
  · rintro ⟨hpadded, hmajor, hminor, hdriver⟩
    refine ⟨fun other _ htext => Key.eq_of_text hpadded htext, ?_⟩
    rw [Key.fromString_of_padded hpadded]
    exact Key.fromFields_of_lt hpadded hk hmajor hminor hdriver

/-- The uuid is all `10`. -/
def plainKey : Key := ⟨Vector.replicate 16 0x10, 9, 0, 5, bytes "auto"⟩

theorem identifies_iff_plain : plainKey.Proper ∧ plainKey.Identifies := by
  have hproper : plainKey.Proper := ⟨by decide, by decide, by decide, by decide⟩
  refine ⟨hproper, (Key.identifies_iff plainKey hproper).mpr ⟨?_, by decide, by decide, by decide⟩⟩
  intro b hb
  have hb' : b = 0x10 := List.eq_of_mem_replicate hb
  rw [hb']
  decide

/-- Two devices whose uuids begin with `01 23` and `12 03`. -/
def oneDevice : Key :=
  ⟨#v[0x01, 0x23, 0, 0, 0, 0, 0, 0, 0, 0, 0, 0, 0, 0, 0, 0], 12, 0, 12080, bytes "auto"⟩

def otherDevice : Key :=
  ⟨#v[0x12, 0x03, 0, 0, 0, 0, 0, 0, 0, 0, 0, 0, 0, 0, 0, 0], 12, 0, 12080, bytes "auto"⟩

/-- Both are written `12300000000000000-c.0-drv2f30-auto`. -/
theorem text_oneDevice : oneDevice.Proper ∧ otherDevice.Proper ∧
    oneDevice.text = otherDevice.text ∧ oneDevice ≠ otherDevice ∧
    Key.fromString oneDevice.text = none ∧ ¬ oneDevice.Identifies := by
  have hother : otherDevice.Proper := ⟨by decide, by decide, by decide, by decide⟩
  have htext : oneDevice.text = otherDevice.text := by decide +kernel
  have hne : oneDevice ≠ otherDevice := by decide
  refine ⟨⟨by decide, by decide, by decide, by decide⟩, hother, htext, hne, by decide +kernel, ?_⟩
  exact fun h => hne (h.1 otherDevice hother htext.symm).symm

end PropMiner.TuneCache
