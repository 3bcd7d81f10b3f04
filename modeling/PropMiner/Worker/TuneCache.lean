import PropMiner.Semantics.Lines
import PropMiner.Stratum.Hex
import PropMiner.Stratum.JsonNumber

/-!
# The autotune cache

`TuneCache` keeps one line per device in a text file: the key of the device, a blank, and the
values of a `TuningResult` with commas between them. `save` rewrites the file without the old
lines of the device and appends a new one. `load` takes the first line of the device and reads its
values with one `sscanf`.

The format of that `sscanf` has thirteen `%d` and a `%lf`, for which thirteen pointers are passed;
a saved line has twelve integers and the hashrate. So the thirteenth `%d` meets the hashrate; no
branch of `load` uses what it stores. A text that gets past it reaches a conversion without an
argument, of which nothing can be said.

The hashrate is written as a stream writes a double: six significant digits, in exponential
notation if the exponent is below -4 or above 5, without trailing zeros. The file can be written.

## Main definitions

* `Double.text` — a double on a stream
* `scanInt`, `scanInts` — `%d`, and a sequence of them with commas
* `Key.text`, `load`, `save` — the cache
* `LoadsBack`, `OthersUnchanged` — what a cache is for

## Main results

* `fileLines_save` — the lines of the file after `save`
* `never_loadsBack` — no result is loaded back; the entries of other devices are
-/

set_option autoImplicit false

namespace PropMiner.TuneCache

open Semantics
open Stratum (Bytes bytes decimal lastDigits signed intText isDigit isSpace digitsValue)

/-! ### Numbers as text -/

inductive Double
  | finite (negative : Bool) (magnitude : ℚ≥0)
  | inf (negative : Bool)
  | nan (negative : Bool)
  deriving DecidableEq

/-- Six significant digits of a positive number, and the exponent of the first one. -/
def significant (q : ℚ) : ℕ × ℤ :=
  let e := Int.log 10 q
  let d := (Binary64.roundEven (q * 10 ^ (5 - e))).toNat
  if d = 10 ^ 6 then (10 ^ 5, e + 1) else (d, e)

/-- A decimal point and digits, without trailing zeros. -/
def fraction (digits : Bytes) : Bytes :=
  match digits.rdropWhile (· = 48) with
  | [] => []
  | digits => 46 :: digits

/-- The sign and at least two digits of an exponent. -/
def exponentText (e : ℤ) : Bytes :=
  (if e < 0 then 45 else 43) :: ((if e.natAbs < 10 then [48] else []) ++ decimal e.natAbs)

/-- `%g` on a number that is not negative. -/
def generalText (q : ℚ) : Bytes :=
  if q = 0 then decimal 0
  else
    let (d, e) := significant q
    if -4 ≤ e ∧ e < 6 then
      let places := (5 - e).toNat
      decimal (d / 10 ^ places) ++ fraction (lastDigits places d)
    else decimal (d / 10 ^ 5) ++ (fraction (lastDigits 5 d) ++ 101 :: exponentText e)

/-- `<<` on a stream. -/
def Double.text : Double → Bytes
  | .finite negative q => signed negative (generalText q)
  | .inf negative => signed negative (bytes "inf")
  | .nan negative => signed negative (bytes "nan")

/-- `std::hex` -/
def hexText (n : ℕ) : Bytes :=
  if n = 0 then [48] else (Nat.digits 16 n).reverse.map Stratum.hexDigit

/-- `%d`: the value, and what follows its digits. -/
def scanInt (t : Bytes) : Option (ℤ × Bytes) :=
  let t := t.dropWhile isSpace
  let unsigned := Stratum.dropIf (fun c => c == 45 || c == 43) t
  if unsigned.takeWhile isDigit = [] then none
  else
    let n : ℤ := digitsValue (unsigned.takeWhile isDigit)
    some (if t.head? = some 45 then -n else n, unsigned.dropWhile isDigit)

/-- Where `%d` stores a value: `strtol` clamps it to a `long`, which is cut down to an `int`. -/
def store (n : ℤ) : Int32 := Int32.ofInt (max (-2 ^ 63) (min (2 ^ 63 - 1) n))

/-- A number of `%d,`: the values that are stored, and what follows if all of them match. -/
def scanInts : ℕ → Bytes → List Int32 × Option Bytes
  | 0, t => ([], some t)
  | count + 1, t =>
    match scanInt t with
    | none => ([], none)
    | some (n, 44 :: t) => (store n :: (scanInts count t).1, (scanInts count t).2)
    | some (n, _) => ([store n], none)

/-! ### The cache -/

/-- `TuneCache::Key` -/
structure Key where
  uuid : Vector UInt8 16
  major : Int32
  minor : Int32
  driverVersion : Int32
  archProfile : Bytes

/-- `Key::to_string`; the stream stays in hexadecimal. -/
def Key.text (k : Key) : Bytes :=
  k.uuid.toList.flatMap (fun c => hexText c.toNat) ++ 45 :: hexText k.major.toUInt32.toNat ++
    46 :: hexText k.minor.toUInt32.toNat ++ bytes "-drv" ++
    hexText k.driverVersion.toUInt32.toNat ++ 45 :: k.archProfile

/-- The fields of a `TuningResult` that are kept, with those of its `config`. -/
structure TuningResult where
  m : Int32 := 8192
  n : Int32 := 32768
  k : Int32 := 128
  r : Int32 := 128
  bM : Int32 := 128
  bN : Int32 := 256
  bK : Int32 := 128
  batchSize : Int32 := 32
  graphBatchSize : Int32 := 8
  useGraph : Bool := true
  clusterM : Int32 := 1
  carveoutPercent : Int32 := -1
  hashrate : Double := .finite false 0
  deriving DecidableEq

/-- What `load` ends with: `undefined` if a conversion has no argument. -/
inductive Loaded
  | result (r : TuningResult)
  | missing
  | undefined
  deriving DecidableEq

/-- The lines that `std::getline` finds. A file that cannot be opened has none. -/
def fileLines : Option Bytes → List Bytes
  | none => []
  | some contents =>
    Lines.complete 10 contents ++
      match Lines.unfinished 10 contents with
      | [] => []
      | rest => [rest]

/-- The values of a line with this key; comments and lines without a blank have none. -/
def entry (want line : Bytes) : Option Bytes :=
  if line = [] ∨ line.head? = some 35 then none
  else
    match Lines.next 32 line with
    | none => none
    | some (key, value) => if key = want then some value else none

/-- `load` on the values of its line. The branch for fourteen values is behind the conversion
without an argument. -/
def readValues (value : Bytes) : Loaded :=
  match scanInts 13 (value.takeWhile (· ≠ 0)) with
  | (_, some _) => .undefined
  | ([m, n, k, r, bM, bN, bK, batchSize, _, useGraph, clusterM, carveoutPercent], none) =>
    .result
      { m, n, k, r, bM, bN, bK, batchSize, clusterM, carveoutPercent
        useGraph := useGraph ≠ 0
        graphBatchSize := if useGraph ≠ 0 then batchSize else 1 }
  | _ => .missing

/-- `load` -/
def load (file : Option Bytes) (key : Key) : Loaded :=
  match (fileLines file).findSome? (entry key.text) with
  | none => .missing
  | some value => readValues value

/-- The twelve integers of a line. -/
def savedInts (result : TuningResult) : List Int32 :=
  [result.m, result.n, result.k, result.r, result.bM, result.bN, result.bK, result.batchSize,
    if 0 < result.graphBatchSize then result.graphBatchSize else result.batchSize,
    if result.useGraph then 1 else 0, result.clusterM, result.carveoutPercent]

/-- The values as `save` writes them. -/
def valuesText (result : TuningResult) : Bytes :=
  (savedInts result).flatMap (fun n => intText n.toInt ++ [44]) ++ result.hashrate.text

/-- The lines that `save` writes: those without the key of the device, and a new one. -/
def savedLines (file : Option Bytes) (key : Key) (result : TuningResult) : List Bytes :=
  ((fileLines file).filter fun line => entry key.text line = none) ++
    [key.text ++ 32 :: valuesText result]

/-- `save` -/
def save (file : Option Bytes) (key : Key) (result : TuningResult) : Option Bytes :=
  some ((savedLines file key result).flatMap fun line => line ++ [10])

/-- The saved result is loaded, the hashrate up to its text. -/
def LoadsBack (file : Option Bytes) (key : Key) (result : TuningResult) : Prop :=
  ∃ loaded, load (save file key result) key = .result loaded ∧
    { loaded with hashrate := result.hashrate } = result ∧
    loaded.hashrate.text = result.hashrate.text

/-- What is loaded for other keys stays as it was. -/
def OthersUnchanged (file : Option Bytes) (key : Key) (result : TuningResult) : Prop :=
  ∀ other : Key, other.text ≠ key.text → load (save file key result) other = load file other

/-! ### What is written -/

/-- No blanks, line ends or null bytes. -/
def Visible (t : Bytes) : Prop := ∀ c ∈ t, 32 < c.toNat

instance (t : Bytes) : Decidable (Visible t) :=
  List.decidableBAll (fun c : UInt8 => 32 < c.toNat) t

section Visible

variable {s t : Bytes}

theorem Visible.append (hs : Visible s) (ht : Visible t) : Visible (s ++ t) := fun c hc =>
  (List.mem_append.mp hc).elim (hs c) (ht c)

theorem Visible.cons {c : UInt8} (hc : 32 < c.toNat) (ht : Visible t) : Visible (c :: t) :=
  List.forall_mem_cons.mpr ⟨hc, ht⟩

theorem visible_of_isDigit (h : ∀ c ∈ t, isDigit c = true) : Visible t := fun c hc => by
  have hdigit := Stratum.isDigit_iff.mp (h c hc)
  omega

theorem Visible.signed (ht : Visible t) (negative : Bool) : Visible (signed negative t) := by
  cases negative with
  | false => exact ht
  | true => exact ht.cons (by decide)

theorem visible_decimal (n : ℕ) : Visible (decimal n) := visible_of_isDigit Stratum.isDigit_decimal

theorem visible_fraction {k n : ℕ} : Visible (fraction (lastDigits k n)) := by
  unfold fraction
  split
  · exact nofun
  · refine Visible.cons (by decide) (visible_of_isDigit fun c hc => ?_)
    exact Stratum.isDigit_lastDigits c ((List.rdropWhile_prefix _ _).subset hc)

theorem visible_exponentText (e : ℤ) : Visible (exponentText e) := by
  refine Visible.cons (by split_ifs <;> decide) (Visible.append ?_ (visible_decimal _))
  split_ifs
  · exact visible_of_isDigit (List.forall_mem_singleton.mpr rfl)
  · exact nofun

theorem visible_generalText (q : ℚ) : Visible (generalText q) := by
  unfold generalText
  split_ifs
  · exact visible_decimal 0
  · dsimp only
    split_ifs
    · exact (visible_decimal _).append visible_fraction
    · exact (visible_decimal _).append
        (visible_fraction.append (Visible.cons (by decide) (visible_exponentText _)))

theorem visible_text (x : Double) : Visible x.text := by
  cases x with
  | finite negative q => exact (visible_generalText q).signed negative
  | inf negative => exact Visible.signed (by decide) negative
  | nan negative => exact Visible.signed (by decide) negative

theorem visible_intText (n : ℤ) : Visible (intText n) := by
  rw [Stratum.intText_eq]
  exact (visible_decimal _).signed _

theorem visible_ints (xs : List Int32) :
    Visible (xs.flatMap fun n => intText n.toInt ++ [44]) := fun c hc => by
  obtain ⟨n, -, hn⟩ := List.mem_flatMap.mp hc
  exact (visible_intText _).append (by decide) c hn

theorem visible_valuesText (result : TuningResult) : Visible (valuesText result) :=
  (visible_ints _).append (visible_text _)

theorem le_of_mem_hexText {n : ℕ} {c : UInt8} (hc : c ∈ hexText n) : 48 ≤ c.toNat := by
  unfold hexText at hc
  split_ifs at hc
  · rw [List.mem_singleton.mp hc]
    decide
  · obtain ⟨d, hd, rfl⟩ := List.mem_map.mp hc
    have hlt : d < 16 := Nat.digits_lt_base (by norm_num) (List.mem_reverse.mp hd)
    have hall : ∀ d < 16, 48 ≤ (Stratum.hexDigit d).toNat := by decide
    exact hall d hlt

theorem visible_hexText (n : ℕ) : Visible (hexText n) := fun _ hc =>
  Nat.lt_of_lt_of_le (by decide) (le_of_mem_hexText hc)

theorem Visible.notMem (ht : Visible t) {c : UInt8} (hc : c.toNat ≤ 32) : c ∉ t := fun hmem =>
  absurd (ht c hmem) (Nat.not_lt.mpr hc)

/-- `sscanf` sees the whole of it. -/
theorem Visible.takeWhile_eq (ht : Visible t) : t.takeWhile (· ≠ 0) = t := by
  apply List.takeWhile_eq_self_iff.mpr
  intro c hc
  refine decide_eq_true ?_
  rintro rfl
  exact ht.notMem (by decide) hc

end Visible

/-! ### The file -/

variable {file : Option Bytes} {key other : Key} {result : TuningResult}

theorem hexText_ne_nil (n : ℕ) : hexText n ≠ [] := by
  unfold hexText
  split_ifs with hn
  · exact List.cons_ne_nil _ _
  · rw [Ne, List.map_eq_nil_iff, List.reverse_eq_nil_iff, Nat.digits_eq_nil_iff_eq_zero]
    exact hn

/-- A key begins with a hexadecimal digit, and only its profile may hold other bytes than visible
ones. -/
theorem exists_text_eq (key : Key) : ∃ c front, 48 ≤ c.toNat ∧ Visible (c :: front) ∧
    key.text = c :: front ++ key.archProfile := by
  have hlength : key.uuid.toList.length = 16 := Vector.length_toList
  obtain ⟨u, us, huuid⟩ := List.exists_cons_of_length_pos (by omega : 0 < key.uuid.toList.length)
  obtain ⟨c, cs, hhex⟩ := List.exists_cons_of_ne_nil (hexText_ne_nil u.toNat)
  have hfirst := visible_hexText u.toNat
  have hc : 48 ≤ c.toNat := le_of_mem_hexText (hhex ▸ List.mem_cons_self)
  have hbytes : Visible (us.flatMap fun c => hexText c.toNat) := fun x hx => by
    obtain ⟨y, -, hy⟩ := List.mem_flatMap.mp hx
    exact visible_hexText _ x hy
  rw [hhex] at hfirst
  refine ⟨c, cs ++ (us.flatMap fun c => hexText c.toNat) ++
    45 :: hexText key.major.toUInt32.toNat ++ 46 :: hexText key.minor.toUInt32.toNat ++
    bytes "-drv" ++ hexText key.driverVersion.toUInt32.toNat ++ [45], hc, ?_, ?_⟩
  · -- The parts of `Key::to_string` before the profile, one after the other.
    simp only [← List.cons_append]
    exact (((((hfirst.append hbytes).append ((visible_hexText _).cons (by decide))).append
      ((visible_hexText _).cons (by decide))).append (by decide)).append
      (visible_hexText _)).append (by decide)
  · rw [Key.text, huuid, List.flatMap_cons, hhex]
    simp only [List.cons_append, List.append_assoc, List.nil_append]

theorem toNat_le_of_isSpace {c : UInt8} (hc : isSpace c = true) : c.toNat ≤ 32 := by
  have hall : ∀ n < 256, isSpace (UInt8.ofNat n) = true → n ≤ 32 := by decide +kernel
  have hle := hall c.toNat c.toNat_lt
  rw [UInt8.ofNat_toNat] at hle
  exact hle hc

/-- The profile of the key has no whitespace. -/
def Key.NoSpace (key : Key) : Prop := ∀ c ∈ key.archProfile, isSpace c = false

instance (key : Key) : Decidable key.NoSpace :=
  List.decidableBAll (fun c : UInt8 => isSpace c = false) key.archProfile

theorem notMem_text (h : key.NoSpace) {c : UInt8} (hc : isSpace c = true) : c ∉ key.text := by
  obtain ⟨d, front, -, hvisible, htext⟩ := exists_text_eq key
  rw [htext, List.mem_append, not_or]
  refine ⟨hvisible.notMem (toNat_le_of_isSpace hc), fun hmem => ?_⟩
  rw [h c hmem] at hc
  exact Bool.noConfusion hc

/-- The line that `save` writes is an entry of its key and of no other. -/
theorem entry_savedLine (h : key.NoSpace) (want value : Bytes) :
    entry want (key.text ++ 32 :: value) = if key.text = want then some value else none := by
  obtain ⟨c, front, hc, -, htext⟩ := exists_text_eq key
  have hnext : Lines.next 32 (key.text ++ 32 :: value) = some (key.text, value) :=
    Lines.next_eq_some_iff.mpr ⟨rfl, notMem_text h rfl⟩
  have hstart : ¬ (key.text ++ 32 :: value = [] ∨
      (key.text ++ 32 :: value).head? = some 35) := by
    rw [htext]
    rintro (hnil | hcomment)
    · exact absurd hnil nofun
    · obtain rfl : c = 35 := Option.some.inj hcomment
      exact absurd hc (by decide)
  rw [entry, if_neg hstart, hnext]

/-- A line has only one key. -/
theorem entry_of_ne {line s t : Bytes} (hline : entry s line ≠ none) (hne : t ≠ s) :
    entry t line = none := by
  unfold entry at hline ⊢
  split_ifs at hline ⊢
  · rfl
  · cases hnext : Lines.next 32 line with
    | none => rfl
    | some p =>
      obtain ⟨key, value⟩ := p
      rw [hnext] at hline
      dsimp only at hline ⊢
      rw [if_neg]
      rintro rfl
      exact hline (if_neg hne)

theorem newline_notMem_fileLines (file : Option Bytes) : ∀ line ∈ fileLines file, 10 ∉ line := by
  cases file with
  | none => exact nofun
  | some contents =>
    obtain ⟨hcomplete, hrest⟩ := Lines.notMem_cut 10 contents
    intro line hline
    rcases List.mem_append.mp hline with hline | hline
    · exact hcomplete line hline
    · split at hline
      · exact absurd hline List.not_mem_nil
      · rw [List.mem_singleton.mp hline]
        exact hrest

/-- A file that is written line by line is read line by line. -/
theorem fileLines_flatMap {lines : List Bytes} (h : ∀ line ∈ lines, 10 ∉ line) :
    fileLines (some (lines.flatMap fun line => line ++ [10])) = lines := by
  rw [fileLines, Lines.complete, Lines.unfinished, Lines.cut_flatMap h]
  exact List.append_nil _

theorem newline_notMem_savedLine (h : key.NoSpace) {value : Bytes} (hvalue : Visible value) :
    10 ∉ key.text ++ 32 :: value := by
  rw [List.mem_append, List.mem_cons, not_or, not_or]
  exact ⟨notMem_text h rfl, by decide, hvalue.notMem (by decide)⟩

/-- The lines of the file after `save`. -/
theorem fileLines_save (h : key.NoSpace) (file : Option Bytes) (result : TuningResult) :
    fileLines (save file key result) = savedLines file key result := by
  apply fileLines_flatMap
  intro line hline
  rcases List.mem_append.mp hline with hold | hnew
  · exact newline_notMem_fileLines file line (List.mem_of_mem_filter hold)
  · rw [List.mem_singleton.mp hnew]
    exact newline_notMem_savedLine h (visible_valuesText result)

/-- No entry of a key is left among the lines without it. -/
theorem findSome?_filter_self (want : Bytes) (lines : List Bytes) :
    (lines.filter fun line => entry want line = none).findSome? (entry want) = none := by
  rw [List.findSome?_eq_none_iff]
  intro line hline
  exact of_decide_eq_true (List.mem_filter.mp hline).2

/-- Lines without an entry may be dropped. -/
theorem findSome?_filter {want : Bytes} {keep : Bytes → Bool}
    (h : ∀ line, keep line = false → entry want line = none) (lines : List Bytes) :
    (lines.filter keep).findSome? (entry want) = lines.findSome? (entry want) := by
  induction lines with
  | nil => rfl
  | cons line lines ih =>
    rw [List.filter_cons]
    split_ifs with hline
    · rw [List.findSome?_cons, List.findSome?_cons, ih]
    · rw [List.findSome?_cons, h line (Bool.eq_false_of_not_eq_true hline), ih]

/-- A line that is dropped has the key of the device, so it is no entry of another one. -/
theorem findSome?_filter_of_ne {want other : Bytes} (hne : other ≠ want) (lines : List Bytes) :
    (lines.filter fun line => entry want line = none).findSome? (entry other) =
      lines.findSome? (entry other) :=
  findSome?_filter (fun _ hline => entry_of_ne (of_decide_eq_false hline) hne) lines

/-- The entry that `load` finds after `save`. -/
theorem findSome_savedLines (h : key.NoSpace) (file : Option Bytes) (result : TuningResult) :
    (fileLines (save file key result)).findSome? (entry key.text) = some (valuesText result) := by
  rw [fileLines_save h, savedLines, List.findSome?_append, findSome?_filter_self, Option.none_or,
    List.findSome?_singleton, entry_savedLine h, if_pos rfl]

/-- Entries of other keys are kept in order, and none is added. -/
theorem othersUnchanged (h : key.NoSpace) : OthersUnchanged file key result := by
  intro other hother
  rw [load, load, fileLines_save h, savedLines, List.findSome?_append,
    findSome?_filter_of_ne hother, List.findSome?_singleton, entry_savedLine h,
    if_neg (Ne.symm hother), Option.or_none]

/-! ### What is read -/

section Scan

variable {negative : Bool} {ds rest t : Bytes}

/-- What is said of the first character. -/
theorem forall_head?_cons {P : UInt8 → Prop} {c : UInt8} {t : Bytes} :
    (∀ x ∈ (c :: t).head?, P x) ↔ P c :=
  ⟨fun h => h c rfl, fun hc _ hx => Option.some.inj hx ▸ hc⟩

/-- A character that is no sign is not skipped. -/
theorem dropSign_cons {c : UInt8} (hminus : c ≠ 45) (hplus : c ≠ 43) (t : Bytes) :
    Stratum.dropIf (fun c => c == 45 || c == 43) (c :: t) = c :: t := by
  refine if_neg fun h => ?_
  rcases Bool.or_eq_true_iff.mp h with h | h
  · exact hminus (beq_iff_eq.mp h)
  · exact hplus (beq_iff_eq.mp h)

theorem dropWhile_signed (hne : ds ≠ []) (hds : ∀ c ∈ ds, isDigit c = true) :
    (signed negative (ds ++ rest)).dropWhile isSpace = signed negative (ds ++ rest) := by
  cases negative with
  | true => rfl
  | false =>
    obtain ⟨c, ds, rfl⟩ := List.exists_cons_of_ne_nil hne
    have hdigit := Stratum.isDigit_iff.mp (hds c List.mem_cons_self)
    refine List.dropWhile_cons_of_neg fun hspace => ?_
    have hle := toNat_le_of_isSpace hspace
    omega

theorem dropIf_sign (hne : ds ≠ []) (hds : ∀ c ∈ ds, isDigit c = true) :
    Stratum.dropIf (fun c => c == 45 || c == 43) (signed negative (ds ++ rest)) = ds ++ rest := by
  cases negative with
  | true => rfl
  | false =>
    obtain ⟨c, ds, rfl⟩ := List.exists_cons_of_ne_nil hne
    have hdigit := hds c List.mem_cons_self
    apply dropSign_cons
    · rintro rfl
      exact absurd hdigit (by decide)
    · rintro rfl
      exact absurd hdigit (by decide)

/-- Where a reader of a text stops, if what follows is not for it. -/
theorem span_append {p : UInt8 → Bool} {s rest : Bytes} (hrest : ∀ c ∈ rest.head?, p c = false) :
    (s ++ rest).takeWhile p = s.takeWhile p ∧
      (s ++ rest).dropWhile p = s.dropWhile p ++ rest := by
  induction s with
  | nil =>
    cases rest with
    | nil => exact ⟨rfl, rfl⟩
    | cons c rest =>
      have hc : ¬ p c = true := Bool.eq_false_iff.mp (hrest c rfl)
      exact ⟨List.takeWhile_cons_of_neg hc, List.dropWhile_cons_of_neg hc⟩
  | cons c s ih =>
    by_cases hc : p c = true
    · rw [List.cons_append, List.takeWhile_cons_of_pos hc, List.takeWhile_cons_of_pos hc,
        List.dropWhile_cons_of_pos hc, List.dropWhile_cons_of_pos hc, ih.1, ih.2]
      exact ⟨rfl, rfl⟩
    · rw [List.cons_append, List.takeWhile_cons_of_neg hc, List.takeWhile_cons_of_neg hc,
        List.dropWhile_cons_of_neg hc, List.dropWhile_cons_of_neg hc]
      exact ⟨rfl, rfl⟩

theorem span_digits (hds : ∀ c ∈ ds, isDigit c = true)
    (hrest : ∀ c ∈ rest.head?, isDigit c = false) :
    (ds ++ rest).takeWhile isDigit = ds ∧ (ds ++ rest).dropWhile isDigit = rest := by
  obtain ⟨htake, hdrop⟩ := @span_append isDigit ds rest hrest
  rw [htake, hdrop, List.takeWhile_eq_self_iff.mpr hds, List.dropWhile_eq_nil_iff.mpr hds]
  exact ⟨rfl, rfl⟩

/-- `%d` reads a sign and digits, up to what follows them. -/
theorem scanInt_signed (hne : ds ≠ []) (hds : ∀ c ∈ ds, isDigit c = true)
    (hrest : ∀ c ∈ rest.head?, isDigit c = false) :
    scanInt (signed negative (ds ++ rest)) =
      some (if negative then -(digitsValue ds : ℤ) else digitsValue ds, rest) := by
  obtain ⟨htake, hdrop⟩ := span_digits hds hrest
  unfold scanInt
  dsimp only
  rw [dropWhile_signed hne hds, dropIf_sign hne hds, htake, hdrop, if_neg hne]
  simp only [Stratum.head?_signed hne hds]

theorem scanInt_intText (n : ℤ) (t : Bytes) :
    scanInt (intText n ++ 44 :: t) = some (n, 44 :: t) := by
  have hrest : ∀ c ∈ (44 :: t).head?, isDigit c = false := forall_head?_cons.mpr rfl
  rw [Stratum.intText_eq, signed, List.append_assoc]
  refine (scanInt_signed (Stratum.decimal_ne_nil n.natAbs) Stratum.isDigit_decimal hrest).trans ?_
  rw [Stratum.digitsValue_decimal]
  congr 2
  simp only [decide_eq_true_eq]
  split_ifs <;> omega

theorem store_toInt (n : Int32) : store n.toInt = n := by
  have hlo := n.le_toInt
  have hhi := n.toInt_lt
  rw [store, min_eq_right (by omega), max_eq_right (by omega), Int32.ofInt_toInt]

theorem scanInts_comma {s t : Bytes} {n : ℤ} (h : scanInt s = some (n, 44 :: t)) (k : ℕ) :
    scanInts (k + 1) s = (store n :: (scanInts k t).1, (scanInts k t).2) := by
  rw [scanInts, h]
  rfl

theorem scanInts_stop {s t : Bytes} {n : ℤ} (h : scanInt s = some (n, t))
    (ht : ∀ c ∈ t.head?, c ≠ 44) (k : ℕ) : scanInts (k + 1) s = ([store n], none) := by
  rw [scanInts, h]
  split
  · contradiction
  · rename_i heq
    obtain ⟨-, rfl⟩ := Prod.mk.inj (Option.some.inj heq)
    exact absurd rfl (ht 44 rfl)
  · rename_i heq
    rw [(Prod.mk.inj (Option.some.inj heq)).1]

/-- Integers with commas after them are stored one after another. -/
theorem scanInts_append (xs : List Int32) (k : ℕ) (t : Bytes) :
    scanInts (k + xs.length) (xs.flatMap (fun n => intText n.toInt ++ [44]) ++ t) =
      (xs ++ (scanInts k t).1, (scanInts k t).2) := by
  induction xs with
  | nil => rfl
  | cons n xs ih =>
    rw [List.length_cons, ← Nat.add_assoc, List.flatMap_cons, List.append_assoc, List.append_assoc,
      List.singleton_append, scanInts_comma (scanInt_intText _ _), ih, store_toInt,
      List.cons_append]

/-- `%d` on the text of a number stops at a point, an exponent or the end. -/
theorem exists_generalText_eq (q : ℚ) : ∃ d tail, generalText q = decimal d ++ tail ∧
    ∀ c ∈ tail.head?, isDigit c = false ∧ c ≠ 44 := by
  have hfraction : ∀ (digits t : Bytes), (∀ c ∈ t.head?, isDigit c = false ∧ c ≠ 44) →
      ∀ c ∈ (fraction digits ++ t).head?, isDigit c = false ∧ c ≠ 44 := by
    intro digits t ht
    unfold fraction
    split
    · exact ht
    · exact forall_head?_cons.mpr (by decide)
  unfold generalText
  split_ifs
  · exact ⟨0, [], rfl, nofun⟩
  · dsimp only
    split_ifs
    · refine ⟨_, fraction _ ++ [], by rw [List.append_nil], hfraction _ _ nofun⟩
    · exact ⟨_, _, rfl, hfraction _ _ (forall_head?_cons.mpr (by decide))⟩

example : (Double.finite true 1234567).text = bytes "-1.23457e+06" := by decide +kernel

/-- The thirteenth `%d` reads the integral part of a finite hashrate. The others are no integers,
and they are not written as the hashrate of a new `TuningResult` is. -/
theorem scanInts_text (x : Double) : (∃ n, scanInts 1 x.text = ([n], none)) ∨
    scanInts 1 x.text = ([], none) ∧ x.text ≠ (Double.finite false 0).text := by
  cases x with
  | finite negative q =>
    obtain ⟨d, tail, htext, htail⟩ := exists_generalText_eq q
    have hscan := @scanInt_signed negative (decimal d) tail (Stratum.decimal_ne_nil d)
      Stratum.isDigit_decimal fun c hc => (htail c hc).1
    rw [Double.text, htext]
    exact .inl ⟨_, scanInts_stop hscan (fun c hc => (htail c hc).2) 0⟩
  | inf negative => exact .inr (by cases negative <;> decide)
  | nan negative => exact .inr (by cases negative <;> decide)

end Scan

theorem scanInts_valuesText (result : TuningResult) :
    scanInts 13 ((valuesText result).takeWhile (· ≠ 0)) =
      (savedInts result ++ (scanInts 1 result.hashrate.text).1,
        (scanInts 1 result.hashrate.text).2) := by
  rw [(visible_valuesText result).takeWhile_eq]
  exact scanInts_append (savedInts result) 1 result.hashrate.text

/-- No result is loaded back after it was saved, and the entries of other devices stay. -/
theorem never_loadsBack (file : Option Bytes) (key : Key) (result : TuningResult)
    (hkey : key.NoSpace) : ¬ LoadsBack file key result ∧ OthersUnchanged file key result := by
  refine ⟨?_, othersUnchanged hkey⟩
  rintro ⟨loaded, hload, -, htext⟩
  rw [load, findSome_savedLines hkey] at hload
  dsimp only at hload
  rw [readValues, scanInts_valuesText] at hload
  rcases scanInts_text result.hashrate with ⟨n, hscan⟩ | ⟨hscan, hne⟩
  · -- Thirteen values are as many as no branch of `load` expects.
    rw [hscan] at hload
    exact Loaded.noConfusion hload
  · -- Twelve values pass for an old line, and the hashrate keeps its default.
    rw [hscan] at hload
    rw [← Loaded.result.inj hload] at htext
    exact hne htext.symm

/-- A device with no `PEARL_GEMM_ARCH` in the environment. -/
def sampleKey : Key := ⟨Vector.replicate 16 0, 9, 0, 12040, bytes "auto"⟩

def sampleResult : TuningResult := { batchSize := 64, hashrate := .finite false 1500000 }

theorem never_loadsBack_sample : sampleKey.NoSpace ∧ ¬ LoadsBack none sampleKey sampleResult ∧
    OthersUnchanged none sampleKey sampleResult := by
  have hkey : sampleKey.NoSpace := by decide
  exact ⟨hkey, never_loadsBack none sampleKey sampleResult hkey⟩

/-- The line ends in `1.5e+06`, of which `%d` takes the `1`. -/
theorem not_loadsBack_sample : 0 < sampleResult.graphBatchSize ∧
    load (save none sampleKey sampleResult) sampleKey = .missing ∧
    ¬ LoadsBack none sampleKey sampleResult := by
  have hload : load (save none sampleKey sampleResult) sampleKey = .missing := by decide +kernel
  refine ⟨by decide, hload, ?_⟩
  rintro ⟨loaded, hresult, -⟩
  rw [hload] at hresult
  exact Loaded.noConfusion hresult

end PropMiner.TuneCache
