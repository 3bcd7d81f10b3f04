import PropMiner.Semantics.Hpack
import PropMiner.Stratum.Json

/-!
# The headers of a request

`HpackEncoder`: seven literal header fields, each with a new name. A string is preceded by its
length. The encoder writes one byte up to 127 and groups of seven bits from 128 on, with the top
bit for "more follow" in every byte, the first one included; but in the first byte the top bit is
the Huffman flag, and a length of seven ones announces more bytes.

## Main definitions

* `encodeString`, `encodeLiteral`, `encodeRequestHeaders`
* `requestFields` — the header fields of a request

## Main results

* `string_encodeString` — a string of less than 127 bytes is read again
* `string_encodeString_ne` — a longer one is not, whatever code the Huffman flag stands for
* `decode_encodeRequestHeaders_iff` — a request is decoded if and only if its strings are short
-/

set_option autoImplicit false

namespace PropMiner.Grpc

open PropMiner.Semantics
open PropMiner.Stratum (bytes)

/-- `static_cast<uint8_t>((v & 0x7F) | 0x80)` -/
def group (v : ℕ) : UInt8 := UInt8.ofNat ((v &&& 0x7F) ||| 0x80)

/-- The loop of `encode_string`; a length is never shifted more often than it is large. -/
def pushGroups : ℕ → ℕ → List UInt8
  | 0, _ => []
  | fuel + 1, v => if v = 0 then [] else group v :: pushGroups fuel (v >>> 7)

/-- `out.back() &= 0x7F` -/
def clearBack : List UInt8 → List UInt8
  | [] => []
  | [b] => [b &&& 0x7F]
  | b :: bs => b :: clearBack bs

/-- `encode_string` -/
def encodeString (s : List UInt8) : List UInt8 :=
  let len := s.length
  (if len < 128 then [UInt8.ofNat len]
    else clearBack (group len :: pushGroups len (len >>> 7))) ++ s

/-- `encode_literal` -/
def encodeLiteral (name value : List UInt8) : List UInt8 :=
  0x40 :: (encodeString name ++ encodeString value)

/-- The header fields of a request, in the order in which they are written. -/
def requestFields (method scheme authority path userAgent contentType : List UInt8) :
    List (List UInt8 × List UInt8) :=
  [(bytes ":method", method), (bytes ":scheme", scheme), (bytes ":authority", authority),
    (bytes ":path", path), (bytes "content-type", contentType), (bytes "user-agent", userAgent),
    (bytes "te", bytes "trailers")]

/-- `encode_request_headers` -/
def encodeRequestHeaders (method scheme authority path userAgent contentType : List UInt8) :
    List UInt8 :=
  (requestFields method scheme authority path userAgent contentType).flatMap fun field =>
    encodeLiteral field.1 field.2

/-! ### Lengths -/

theorem toNat_group (v : ℕ) : (group v).toNat = v % 128 + 128 := by
  have hlt : v % 128 < 128 := Nat.mod_lt v (by norm_num)
  have hor : (v &&& 0x7F) ||| 0x80 = v % 128 + 128 := by
    have hand : v &&& 0x7F = v % 128 := Nat.and_two_pow_sub_one_eq_mod v 7
    have hadd := Nat.two_pow_add_eq_or_of_lt (i := 7) hlt 1
    rw [hand, Nat.or_comm]
    change 2 ^ 7 * 1 ||| v % 128 = _
    omega
  rw [group, hor]
  exact UInt8.toNat_ofNat_of_lt' (show _ < 256 by omega)

theorem toNat_and_7F (b : UInt8) : (b &&& 0x7F).toNat = b.toNat % 128 := by
  rw [UInt8.toNat_and]
  exact Nat.and_two_pow_sub_one_eq_mod b.toNat 7

theorem pushGroups_ne_nil {fuel v : ℕ} (hpos : 0 < v) (hfuel : v ≤ fuel) :
    pushGroups fuel v ≠ [] := by
  cases fuel with
  | zero => exact absurd hpos (Nat.not_lt_of_le hfuel)
  | succ fuel =>
    rw [pushGroups, if_neg hpos.ne']
    exact List.cons_ne_nil _ _

theorem clearBack_cons {b : UInt8} {bs : List UInt8} (h : bs ≠ []) :
    clearBack (b :: bs) = b :: clearBack bs := by
  cases bs with
  | nil => exact absurd rfl h
  | cons c bs => rfl

/-- What the loop writes continues an integer. -/
theorem continuation_clearBack {fuel v : ℕ} (hpos : 0 < v) (hfuel : v ≤ fuel) (rest : List UInt8) :
    Hpack.continuation (clearBack (pushGroups fuel v) ++ rest) = some (v, rest) := by
  induction fuel generalizing v with
  | zero => exact absurd hpos (Nat.not_lt_of_le hfuel)
  | succ fuel ih =>
    have hshift : v >>> 7 = v / 128 := Nat.shiftRight_eq_div_pow v 7
    rw [pushGroups, if_neg hpos.ne', hshift]
    rcases Nat.eq_zero_or_pos (v / 128) with hlast | hmore
    · have hstop : pushGroups fuel (v / 128) = [] := by
        rw [hlast]
        cases fuel with
        | zero => rfl
        | succ fuel => rfl
      have hbyte : (group v &&& 0x7F).toNat = v := by
        rw [toNat_and_7F, toNat_group]
        omega
      rw [hstop]
      change Hpack.continuation ((group v &&& 0x7F) :: rest) = _
      rw [Hpack.continuation_cons_of_lt (by omega), hbyte]
    · have hle : v / 128 ≤ fuel := by omega
      rw [clearBack_cons (pushGroups_ne_nil hmore hle), List.cons_append,
        Hpack.continuation_cons_of_le (by rw [toNat_group]; omega), ih hmore hle, toNat_group]
      change some (_, rest) = some (_, rest)
      congr 2
      omega

/-! ### Strings -/

variable {H : Hpack.Huffman} {s rest : List UInt8}

theorem string_encodeString (h : s.length < 127) :
    Hpack.string H (encodeString s ++ rest) = some (s, rest) := by
  rw [encodeString, if_pos (by omega)]
  exact Hpack.string_short h

/-- A list that repeats itself after some elements holds only these. -/
theorem mem_of_append_eq {α : Type*} {x w t more : List α} {c : α} (hw : w ≠ [])
    (h : x ++ c :: t = w ++ (x ++ more)) : c ∈ w := by
  have hall : ∀ i ≤ x.length, ∃ a ∈ w, (x ++ c :: t)[i]? = some a := by
    intro i
    induction i using Nat.strongRecOn with
    | ind i ih =>
      intro hi
      rcases Nat.lt_or_ge i w.length with hfirst | hlater
      · refine ⟨w[i], List.getElem_mem hfirst, ?_⟩
        rw [h, List.getElem?_append_left hfirst, List.getElem?_eq_getElem hfirst]
      · have hpos := List.length_pos_iff.mpr hw
        obtain ⟨a, ha, hget⟩ := ih (i - w.length) (by omega) (by omega)
        refine ⟨a, ha, ?_⟩
        rw [List.getElem?_append_left (by omega)] at hget
        rw [h, List.getElem?_append_right hlater, List.getElem?_append_left (by omega), hget]
  obtain ⟨a, ha, hget⟩ := hall x.length le_rfl
  rw [List.getElem?_append_right le_rfl, Nat.sub_self, List.getElem?_cons_zero] at hget
  exact Option.some.inj hget ▸ ha

/-- At 127 the first bytes of the text are taken for the rest of the length. Read as a length of
127 they would be empty groups, the text would begin again behind them, and so the byte behind the
text would be one of them. -/
theorem string_encodeString_127 (h : s.length = 127) {t r : List UInt8} :
    Hpack.string H (encodeString s ++ 0x40 :: t) ≠ some (s, r) := by
  intro hstring
  have hencode : encodeString s = 127 :: s := by
    rw [encodeString, if_pos (by omega), h]
    rfl
  rw [hencode, List.cons_append] at hstring
  obtain ⟨length, tail, hint, hle, htext, -⟩ := Hpack.string_eq_some_iff.mp hstring
  rw [Hpack.integer_of_le _ (by decide)] at hint
  obtain ⟨⟨n, tail'⟩, hcont, hr⟩ := Option.map_eq_some_iff.mp hint
  obtain ⟨rfl, rfl⟩ := Prod.mk.inj hr
  rw [Hpack.Huffman.text, if_pos (by decide)] at htext
  have htake := Option.some.inj htext
  obtain rfl : n = 0 := by
    have hlength := congrArg List.length htake
    rw [List.length_take_of_le hle, h] at hlength
    omega
  -- The groups are the first bytes of the text, which then begins again.
  obtain ⟨groups, hsplit, hne, hgroups⟩ := Hpack.exists_of_continuation_eq_zero hcont
  have hbegin : tail' = s ++ tail'.drop (127 + 0) := by
    conv_lhs => rw [← List.take_append_drop (127 + 0) tail', htake]
  rw [hbegin] at hsplit
  rcases hgroups _ (mem_of_append_eq hne hsplit) with hbyte | hbyte
  · exact absurd hbyte (by decide)
  · exact absurd hbyte (by decide)

/-- From 128 on the Huffman flag is set, and the length that is read is too short for the code of
a text of this length. -/
theorem string_encodeString_128 (h : 128 ≤ s.length) {r : List UInt8} :
    Hpack.string H (encodeString s ++ rest) ≠ some (s, r) := by
  intro hstring
  have hshift : s.length >>> 7 = s.length / 128 := Nat.shiftRight_eq_div_pow s.length 7
  have hpos : 0 < s.length / 128 := by omega
  have hfuel : s.length / 128 ≤ s.length := Nat.div_le_self _ _
  rw [encodeString, if_neg (by omega), hshift, clearBack_cons (pushGroups_ne_nil hpos hfuel),
    List.cons_append, List.cons_append, List.append_assoc] at hstring
  have hflag : 128 ≤ (group s.length).toNat := by
    rw [toNat_group]
    omega
  have hfirst : (group s.length).toNat % 128 = s.length % 128 := by
    rw [toNat_group]
    omega
  -- A prefix below 127 is the whole length; else what the loop wrote is added to 127.
  rcases Nat.lt_or_ge (s.length % 128) 127 with hshort | hlong
  · have hint := Hpack.integer_of_lt
      (clearBack (pushGroups s.length (s.length / 128)) ++ (s ++ rest)) hshort
    rw [← hfirst] at hint
    have hle := Hpack.length_le_of_string hflag hint hstring
    rw [hfirst] at hle
    omega
  · have hint := Hpack.integer_of_le
      (clearBack (pushGroups s.length (s.length / 128)) ++ (s ++ rest)) hlong
    rw [continuation_clearBack hpos hfuel, ← hfirst] at hint
    have hle := Hpack.length_le_of_string hflag hint hstring
    omega

theorem string_encodeString_ne (h : 127 ≤ s.length) {t r : List UInt8} :
    Hpack.string H (encodeString s ++ 0x40 :: t) ≠ some (s, r) := by
  rcases h.eq_or_lt with heq | hlt
  · exact string_encodeString_127 heq.symm
  · exact string_encodeString_128 hlt

/-! ### Blocks -/

/-- The bytes of header fields. -/
def encodeFields (fs : List (List UInt8 × List UInt8)) : List UInt8 :=
  fs.flatMap fun field => encodeLiteral field.1 field.2

theorem encodeFields_cons (f : List UInt8 × List UInt8) (fs : List (List UInt8 × List UInt8)) :
    encodeFields (f :: fs) =
      0x40 :: (encodeString f.1 ++ (encodeString f.2 ++ encodeFields fs)) := by
  rw [encodeFields, List.flatMap_cons, encodeLiteral, List.cons_append, List.append_assoc]
  rfl

/-- A field with a short name is read if and only if its value is. -/
theorem header_encodeFields_iff {f : List UInt8 × List UInt8} {fs : List (List UInt8 × List UInt8)}
    (hname : f.1.length < 127) :
    Hpack.header H (encodeFields (f :: fs)) = some (f, rest) ↔
      Hpack.string H (encodeString f.2 ++ encodeFields fs) = some (f.2, rest) := by
  rw [encodeFields_cons, Hpack.header_eq_some_iff, string_encodeString hname]
  constructor
  · rintro ⟨tail, hfirst, hvalue⟩
    obtain ⟨-, rfl⟩ := Prod.mk.inj (Option.some.inj hfirst)
    exact hvalue
  · exact fun hvalue => ⟨_, rfl, hvalue⟩

/-- Fields with short names, of which the last one has a short value, are read to the end if and
only if all values are short. -/
theorem fields_encodeFields_iff {fs : List (List UInt8 × List UInt8)}
    (hnames : ∀ f ∈ fs, f.1.length < 127) (hlast : ∀ f ∈ fs.getLast?, f.2.length < 127) {fuel : ℕ}
    (hfuel : (encodeFields fs).length ≤ fuel) :
    Hpack.fields H fuel (encodeFields fs) = some fs ↔ ∀ f ∈ fs, f.2.length < 127 := by
  induction fs generalizing fuel with
  | nil =>
    cases fuel with
    | zero => exact ⟨fun _ => nofun, fun _ => rfl⟩
    | succ fuel => exact ⟨fun _ => nofun, fun _ => rfl⟩
  | cons f fs ih =>
    rw [List.forall_mem_cons] at hnames ⊢
    have hbytes := encodeFields_cons f fs
    have hlength := congrArg List.length hbytes
    rw [List.length_cons, List.length_append, List.length_append] at hlength
    obtain ⟨fuel, rfl⟩ : ∃ n, fuel = n + 1 := Nat.exists_eq_add_one.mpr (by omega)
    rw [hbytes, Hpack.fields_cons_eq_some_iff, ← hbytes]
    simp only [header_encodeFields_iff hnames.1]
    have hlast' : ∀ g ∈ fs.getLast?, g.2.length < 127 := by
      intro g hg
      refine hlast g ?_
      rw [Option.mem_def] at hg ⊢
      rw [List.getLast?_cons, hg]
      rfl
    by_cases hvalue : f.2.length < 127
    · rw [string_encodeString hvalue]
      have htail := @ih hnames.2 hlast' fuel (by omega)
      constructor
      · rintro ⟨rest, hrest, hmore⟩
        obtain ⟨-, rfl⟩ := Prod.mk.inj (Option.some.inj hrest)
        exact ⟨hvalue, htail.mp hmore⟩
      · exact fun h => ⟨_, rfl, htail.mpr h.2⟩
    · -- Another field follows a value that is too long.
      refine ⟨?_, fun h => absurd h.1 hvalue⟩
      rintro ⟨rest, hrest, -⟩
      cases fs with
      | nil => exact absurd (hlast f rfl) hvalue
      | cons g fs =>
        rw [encodeFields_cons] at hrest
        exact absurd hrest (string_encodeString_ne (Nat.le_of_not_lt hvalue))

/-- **Request headers.** The block is decoded to its end and gives the seven header fields if and
only if each of the six strings has less than 127 bytes. -/
theorem decode_encodeRequestHeaders_iff (H : Hpack.Huffman)
    (method scheme authority path userAgent contentType : List UInt8) :
    Hpack.decode H
        (encodeRequestHeaders method scheme authority path userAgent contentType) =
      some [(bytes ":method", method), (bytes ":scheme", scheme), (bytes ":authority", authority),
        (bytes ":path", path), (bytes "content-type", contentType), (bytes "user-agent", userAgent),
        (bytes "te", bytes "trailers")] ↔
    ∀ s ∈ [method, scheme, authority, path, userAgent, contentType], s.length < 127 := by
  have htrailers : (bytes "trailers").length < 127 := by decide
  have hnames : ∀ f ∈ requestFields method scheme authority path userAgent contentType,
      f.1.length < 127 := by
    simp only [requestFields, List.forall_mem_cons]
    refine ⟨?_, ?_, ?_, ?_, ?_, ?_, ?_, nofun⟩ <;> decide
  have hlast : ∀ f ∈ (requestFields method scheme authority path userAgent contentType).getLast?,
      f.2.length < 127 := by
    rintro f ⟨⟩
    exact htrailers
  refine (fields_encodeFields_iff hnames hlast le_rfl).trans ?_
  simp only [requestFields, List.forall_mem_cons]
  constructor
  · rintro ⟨hmethod, hscheme, hauthority, hpath, htype, hagent, -, -⟩
    exact ⟨hmethod, hscheme, hauthority, hpath, hagent, htype, nofun⟩
  · rintro ⟨hmethod, hscheme, hauthority, hpath, hagent, htype, -⟩
    exact ⟨hmethod, hscheme, hauthority, hpath, htype, hagent, htrailers, nofun⟩

/-- With an authority of 127 letters the first of them is taken for a part of the length, and the
string that it announces does not end within the block. -/
theorem not_decode_encodeRequestHeaders :
    Hpack.decode .refuse (encodeRequestHeaders (bytes "POST") (bytes "http")
      (List.replicate 127 97) (bytes "/") (bytes "a") (bytes "b")) = none := by
  decide +kernel

end PropMiner.Grpc
