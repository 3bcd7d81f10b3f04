import Mathlib.Data.List.Forall2
import PropMiner.Stratum.Json

/-!
# Hexadecimal texts

The client decodes headers, targets and job ids two characters at a time with `strtoul`, which
skips blanks, takes a sign, and stops at the first character that is not a digit. So every text
is decoded to something. Bytes are written as two lower-case digits each.

## Main definitions

* `hexToBytes` — `hex_to_bytes`
* `hexOf` — the digits of a byte string

## Main results

* `hexToBytes_of_forall₂` — digits are decoded to the bytes they stand for
-/

set_option autoImplicit false

namespace PropMiner.Stratum

/-- The value of a hexadecimal digit. -/
def hexDigitValue (c : UInt8) : Option ℕ :=
  if isDigit c then some (c.toNat - 48)
  else if 97 ≤ c ∧ c ≤ 102 then some (c.toNat - 87)
  else if 65 ≤ c ∧ c ≤ 70 then some (c.toNat - 55)
  else none

/-- The number that the leading digits continue. -/
def leadingHex (n : ℕ) : Bytes → ℕ
  | [] => n
  | c :: s =>
    match hexDigitValue c with
    | some d => leadingHex (16 * n + d) s
    | none => n

theorem leadingHex_cons {c : UInt8} {d : ℕ} (h : hexDigitValue c = some d) (n : ℕ) (s : Bytes) :
    leadingHex n (c :: s) = leadingHex (16 * n + d) s := by
  simp only [leadingHex, h]

/-- `static_cast<uint8_t>(strtoul(s, nullptr, 16))` on two characters, which are too few for a
`0x` to matter: it has no digits after it. -/
def strtoul16 (s : Bytes) : UInt8 :=
  match (s.takeWhile (· ≠ 0)).dropWhile isSpace with
  | 45 :: s => -UInt8.ofNat (leadingHex 0 s)
  | 43 :: s => UInt8.ofNat (leadingHex 0 s)
  | s => UInt8.ofNat (leadingHex 0 s)

def hexPairs : Bytes → Bytes
  | a :: b :: s => strtoul16 [a, b] :: hexPairs s
  | _ => []

/-- An odd text gets a leading zero. -/
def padHex (h : Bytes) : Bytes := if h.length % 2 = 1 then 48 :: h else h

/-- `hex_to_bytes`; the marker is only known in lower case. -/
def hexToBytes (hex : Bytes) : Bytes :=
  hexPairs (padHex (if bytes "0x" <+: hex then hex.drop 2 else hex))

def hexDigit (n : ℕ) : UInt8 := UInt8.ofNat (if n < 10 then 48 + n else 87 + n)

/-- The two halves of each byte. -/
def nibbles (s : Bytes) : List ℕ := s.flatMap fun b => [b.toNat / 16, b.toNat % 16]

/-- `%02x` for each byte. -/
def hexOf (s : Bytes) : Bytes := (nibbles s).map hexDigit

theorem length_nibbles (s : Bytes) : (nibbles s).length = 2 * s.length := by
  induction s with
  | nil => rfl
  | cons b s ih =>
    change (nibbles s).length + 1 + 1 = 2 * (s.length + 1)
    omega

theorem lt_of_mem_nibbles {s : Bytes} {n : ℕ} (h : n ∈ nibbles s) : n < 16 := by
  obtain ⟨b, -, hn⟩ := List.mem_flatMap.mp h
  have hb := b.toNat_lt
  rcases List.mem_pair.mp hn with rfl | rfl <;> omega

theorem hexDigitValue_lt {c : UInt8} {x : ℕ} (h : hexDigitValue c = some x) : x < 16 := by
  have hall : ∀ n < 256, ∀ x ∈ hexDigitValue (UInt8.ofNat n), x < 16 := by decide +kernel
  have hc := hall c.toNat c.toNat_lt
  rw [UInt8.ofNat_toNat, h] at hc
  exact hc x rfl

/-- A digit is none of the characters that `strtoul` treats otherwise. -/
theorem hexDigitValue_special {c : UInt8} {x : ℕ} (h : hexDigitValue c = some x) :
    c ≠ 0 ∧ isSpace c = false ∧ c ≠ 45 ∧ c ≠ 43 ∧ c ≠ 120 := by
  have hall : ∀ n < 256, (hexDigitValue (UInt8.ofNat n)).isSome = true →
      UInt8.ofNat n ≠ 0 ∧ isSpace (UInt8.ofNat n) = false ∧ UInt8.ofNat n ≠ 45 ∧
        UInt8.ofNat n ≠ 43 ∧ UInt8.ofNat n ≠ 120 := by decide +kernel
  have hc := hall c.toNat c.toNat_lt
  rw [UInt8.ofNat_toNat, h] at hc
  exact hc rfl

theorem strtoul16_pair {a b : UInt8} {x y : ℕ} (ha : hexDigitValue a = some x)
    (hb : hexDigitValue b = some y) : strtoul16 [a, b] = UInt8.ofNat (16 * x + y) := by
  obtain ⟨ha0, haspace, haminus, haplus, -⟩ := hexDigitValue_special ha
  have hb0 := (hexDigitValue_special hb).1
  have htext : ([a, b].takeWhile (· ≠ 0)).dropWhile isSpace = [a, b] := by
    simp [ha0, hb0, haspace]
  rw [strtoul16, htext]
  split
  · next h => exact absurd (List.cons.inj h).1 haminus
  · next h => exact absurd (List.cons.inj h).1 haplus
  · simp [leadingHex, ha, hb]

theorem hexDigitValue_hexDigit {n : ℕ} (h : n < 16) : hexDigitValue (hexDigit n) = some n := by
  have hall : ∀ n < 16, hexDigitValue (hexDigit n) = some n := by decide +kernel
  exact hall n h

/-- The digits that are written stand for the halves of the bytes. -/
theorem forall₂_hexOf (s : Bytes) :
    List.Forall₂ (fun c d => hexDigitValue c = some d) (hexOf s) (nibbles s) := by
  rw [hexOf, List.forall₂_map_left_iff, List.forall₂_same]
  exact fun n hn => hexDigitValue_hexDigit (lt_of_mem_nibbles hn)

/-- Digits are decoded to the bytes they stand for. -/
theorem hexPairs_of_forall₂ {h s : Bytes}
    (hs : List.Forall₂ (fun c d => hexDigitValue c = some d) h (nibbles s)) : hexPairs h = s := by
  induction s generalizing h with
  | nil =>
    cases hs
    rfl
  | cons b s ih =>
    obtain ⟨a, t, ha, ht, rfl⟩ := List.forall₂_cons_right_iff.mp hs
    obtain ⟨c, u, hc, hu, rfl⟩ := List.forall₂_cons_right_iff.mp ht
    rw [hexPairs, strtoul16_pair ha hc, ih hu, Nat.div_add_mod, UInt8.ofNat_toNat]

theorem hexToBytes_of_forall₂ {h s : Bytes}
    (hs : List.Forall₂ (fun c d => hexDigitValue c = some d) h (nibbles s)) : hexToBytes h = s := by
  have heven : ¬ h.length % 2 = 1 := by
    rw [hs.length_eq, length_nibbles]
    omega
  have hmark : ¬ bytes "0x" <+: h := by
    -- an `x` is no digit
    rintro ⟨t, rfl⟩
    obtain ⟨_, _, _, hs, -⟩ := List.forall₂_cons_left_iff.mp hs
    obtain ⟨d, _, hx, -⟩ := List.forall₂_cons_left_iff.mp hs
    exact (hexDigitValue_special hx).2.2.2.2 rfl
  rw [hexToBytes, if_neg hmark, padHex, if_neg heven, hexPairs_of_forall₂ hs]

end PropMiner.Stratum
