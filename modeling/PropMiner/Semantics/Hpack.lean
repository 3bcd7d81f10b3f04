import Mathlib.Data.List.Basic
import Mathlib.Data.Nat.Basic
import Mathlib.Tactic.NormNum

/-!
# Header blocks

The part of HPACK that a client without tables writes: literal header fields with incremental
indexing and a new name. A string is preceded by its length, an integer with a prefix of seven
bits; the eighth bit says that the string is Huffman coded. A prefix of all ones means that the
rest of the integer follows in groups of seven bits.

What a Huffman code gives is left open, but its shortest codes have five bits.

## Main definitions

* `Huffman` — a decoder for strings, with that bound
* `continuation`, `integer`, `string`, `header`, `decode` — the readers

## Main results

* `integer_of_lt`, `integer_of_le` — what the reader of integers takes
* `exists_of_continuation_eq_zero` — the bytes that add nothing to an integer
-/

set_option autoImplicit false

namespace PropMiner.Semantics.Hpack

/-- A decoder for Huffman coded strings. No symbol has a code of fewer than five bits. -/
structure Huffman where
  decode : List UInt8 → Option (List UInt8)
  length_le : ∀ bs s, decode bs = some s → 5 * s.length ≤ 8 * bs.length

/-- A decoder that takes no string. -/
def Huffman.refuse : Huffman := ⟨fun _ => none, nofun⟩

/-- Groups of seven bits, least significant first; the top bit says that more follow. -/
def continuation : List UInt8 → Option (ℕ × List UInt8)
  | [] => none
  | b :: bs =>
      if b.toNat < 128 then some (b.toNat, bs)
      else (continuation bs).map fun r => (b.toNat % 128 + 128 * r.1, r.2)

/-- An integer whose prefix of seven bits has been read. -/
def integer (first : ℕ) (bs : List UInt8) : Option (ℕ × List UInt8) :=
  if first < 127 then some (first, bs) else (continuation bs).map fun r => (127 + r.1, r.2)

/-- What the bytes of a string stand for; the top bit of its first byte is the Huffman flag. -/
def Huffman.text (H : Huffman) (first : UInt8) (bs : List UInt8) : Option (List UInt8) :=
  if first.toNat < 128 then some bs else H.decode bs

/-- A string literal. -/
def string (H : Huffman) : List UInt8 → Option (List UInt8 × List UInt8)
  | [] => none
  | b :: bs =>
      (integer (b.toNat % 128) bs).bind fun r =>
        if r.1 ≤ r.2.length then (H.text b (r.2.take r.1)).map (·, r.2.drop r.1) else none

/-- A literal header field with incremental indexing and a new name. -/
def header (H : Huffman) : List UInt8 → Option ((List UInt8 × List UInt8) × List UInt8)
  | [] => none
  | b :: bs =>
      if b = 0x40 then do
        let (name, bs) ← string H bs
        let (value, bs) ← string H bs
        return ((name, value), bs)
      else none

/-- Header fields to the end of the block; each takes a byte at least. -/
def fields (H : Huffman) : ℕ → List UInt8 → Option (List (List UInt8 × List UInt8))
  | _, [] => some []
  | 0, _ :: _ => none
  | fuel + 1, b :: bs => do
      let (field, rest) ← header H (b :: bs)
      let more ← fields H fuel rest
      return field :: more

/-- The header fields of a block, if it is read to its end. -/
def decode (H : Huffman) (bs : List UInt8) : Option (List (List UInt8 × List UInt8)) :=
  fields H bs.length bs

variable {H : Huffman} {b : UInt8} {bs rest text : List UInt8} {n : ℕ}

/-! ### Integers -/

theorem continuation_cons_of_lt (h : b.toNat < 128) : continuation (b :: bs) = some (b.toNat, bs) :=
  if_pos h

theorem continuation_cons_of_le (h : 128 ≤ b.toNat) :
    continuation (b :: bs) =
      (continuation bs).map fun r => (b.toNat % 128 + 128 * r.1, r.2) :=
  if_neg (Nat.not_lt_of_le h)

/-- Bytes that add nothing: empty groups, and at least one of them. -/
theorem exists_of_continuation_eq_zero (h : continuation bs = some (0, rest)) :
    ∃ groups, bs = groups ++ rest ∧ groups ≠ [] ∧ ∀ b ∈ groups, b = 0x80 ∨ b = 0 := by
  induction bs with
  | nil => cases h
  | cons b bs ih =>
    rw [continuation] at h
    split_ifs at h with hlast
    · obtain ⟨hb, rfl⟩ := Prod.mk.inj (Option.some.inj h)
      refine ⟨[b], rfl, List.cons_ne_nil _ _, ?_⟩
      rw [List.forall_mem_singleton]
      exact .inr (UInt8.toNat_inj.mp hb)
    · obtain ⟨⟨m, rest'⟩, hmore, hr⟩ := Option.map_eq_some_iff.mp h
      obtain ⟨hzero, rfl⟩ := Prod.mk.inj hr
      obtain rfl : m = 0 := by omega
      obtain ⟨groups, rfl, -, hgroups⟩ := ih hmore
      refine ⟨b :: groups, rfl, List.cons_ne_nil _ _, ?_⟩
      rw [List.forall_mem_cons]
      refine ⟨.inl (UInt8.toNat_inj.mp ?_), hgroups⟩
      have hb := b.toNat_lt
      change b.toNat = 128
      omega

theorem integer_of_lt (bs : List UInt8) (h : n < 127) : integer n bs = some (n, bs) := if_pos h

theorem integer_of_le (bs : List UInt8) (h : 127 ≤ n) :
    integer n bs = (continuation bs).map fun r => (127 + r.1, r.2) :=
  if_neg (Nat.not_lt_of_le h)

/-! ### Strings -/

/-- What a string literal is: a length, and then that many bytes of the text or its code. -/
theorem string_eq_some_iff :
    string H (b :: bs) = some (text, rest) ↔
      ∃ length tail, integer (b.toNat % 128) bs = some (length, tail) ∧ length ≤ tail.length ∧
        H.text b (tail.take length) = some text ∧ tail.drop length = rest := by
  simp only [string, Option.bind_eq_some_iff, Prod.exists, Option.ite_none_right_eq_some,
    Option.map_eq_some_iff, Prod.mk.injEq, existsAndEq, true_and]

/-- A short string is the byte of its length and the text. -/
theorem string_short (hlength : text.length < 127) :
    string H (UInt8.ofNat text.length :: (text ++ rest)) = some (text, rest) := by
  have hbyte : (UInt8.ofNat text.length).toNat = text.length :=
    UInt8.toNat_ofNat_of_lt' (hlength.trans (by decide))
  rw [string_eq_some_iff]
  refine ⟨text.length, text ++ rest, ?_, by simp, ?_, List.drop_left⟩
  · rw [hbyte, Nat.mod_eq_of_lt (by omega), integer_of_lt _ hlength]
  · rw [Huffman.text, hbyte, if_pos (by omega), List.take_left]

/-- A coded string is at most eight fifths as long as its code. -/
theorem length_le_of_string (hb : 128 ≤ b.toNat)
    (hint : integer (b.toNat % 128) bs = some (n, rest))
    {r : List UInt8} (h : string H (b :: bs) = some (text, r)) : 5 * text.length ≤ 8 * n := by
  obtain ⟨length, tail, hint', hle, htext, -⟩ := string_eq_some_iff.mp h
  obtain ⟨rfl, rfl⟩ := Prod.mk.inj (Option.some.inj (hint.symm.trans hint'))
  rw [Huffman.text, if_neg (Nat.not_lt_of_le hb)] at htext
  have hcode := H.length_le _ _ htext
  rwa [List.length_take_of_le hle] at hcode

/-! ### Blocks -/

theorem header_eq_some_iff {name value : List UInt8} :
    header H (0x40 :: bs) = some ((name, value), rest) ↔
      ∃ tail, string H bs = some (name, tail) ∧ string H tail = some (value, rest) := by
  rw [header, if_pos rfl]
  constructor
  · intro h
    obtain ⟨⟨name', tail⟩, hname, h⟩ := Option.bind_eq_some_iff.mp h
    obtain ⟨⟨value', rest'⟩, hvalue, h⟩ := Option.bind_eq_some_iff.mp h
    cases h
    exact ⟨tail, hname, hvalue⟩
  · rintro ⟨tail, hname, hvalue⟩
    rw [hname]
    change (string H tail).bind _ = _
    rw [hvalue]
    rfl

theorem fields_cons_eq_some_iff {fuel : ℕ} {field : List UInt8 × List UInt8}
    {more : List (List UInt8 × List UInt8)} :
    fields H (fuel + 1) (b :: bs) = some (field :: more) ↔
      ∃ rest, header H (b :: bs) = some (field, rest) ∧ fields H fuel rest = some more := by
  rw [fields]
  constructor
  · intro h
    obtain ⟨⟨field', rest⟩, hfield, h⟩ := Option.bind_eq_some_iff.mp h
    obtain ⟨more', hmore, h⟩ := Option.bind_eq_some_iff.mp h
    cases h
    exact ⟨rest, hfield, hmore⟩
  · rintro ⟨rest, hfield, hmore⟩
    rw [hfield]
    change (fields H fuel rest).bind _ = _
    rw [hmore]
    rfl

end PropMiner.Semantics.Hpack
