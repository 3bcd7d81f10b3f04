import Mathlib.Tactic.NormNum

/-!
# Base64

Bytes are written three at a time as four digits of the alphabet; one or two bytes that are left
over are written as two or three digits, and padding. The decoder is strict: there is padding
only at the end, and the bits that it cuts off are zero.

## Main definitions

* `Base64.encode`, `Base64.decode`

## Main results

* `Base64.decode_encode` — what is encoded is decoded
* `Base64.mem_encode` — which characters are written
-/

set_option autoImplicit false

namespace PropMiner.Semantics.Base64

def alphabet : List UInt8 :=
  "ABCDEFGHIJKLMNOPQRSTUVWXYZabcdefghijklmnopqrstuvwxyz0123456789+/".toList.map
    fun c => UInt8.ofNat c.toNat

/-- The digit of a number below 64. -/
def digit (n : ℕ) : UInt8 := alphabet.getD n 0

def digitValue (c : UInt8) : Option ℕ := alphabet.idxOf? c

/-- `=` -/
def pad : UInt8 := 61

def encode : List UInt8 → List UInt8
  | a :: b :: c :: rest =>
    let n := a.toNat * 2 ^ 16 + b.toNat * 2 ^ 8 + c.toNat
    digit (n / 2 ^ 18 % 64) :: digit (n / 2 ^ 12 % 64) :: digit (n / 2 ^ 6 % 64) ::
      digit (n % 64) :: encode rest
  | [a, b] =>
    let n := a.toNat * 2 ^ 16 + b.toNat * 2 ^ 8
    [digit (n / 2 ^ 18 % 64), digit (n / 2 ^ 12 % 64), digit (n / 2 ^ 6 % 64), pad]
  | [a] =>
    let n := a.toNat * 2 ^ 16
    [digit (n / 2 ^ 18 % 64), digit (n / 2 ^ 12 % 64), pad, pad]
  | [] => []

/-- The bytes of four digits without padding. -/
def decodeFour (w x y z : UInt8) : Option (List UInt8) := do
  let w ← digitValue w
  let x ← digitValue x
  let y ← digitValue y
  let z ← digitValue z
  let n := w * 2 ^ 18 + x * 2 ^ 12 + y * 2 ^ 6 + z
  some [UInt8.ofNat (n / 2 ^ 16), UInt8.ofNat (n / 2 ^ 8 % 256), UInt8.ofNat (n % 256)]

/-- The bytes of the last four characters, which may end with padding. -/
def decodeLast (w x y z : UInt8) : Option (List UInt8) :=
  if z = pad then
    if y = pad then do
      let w ← digitValue w
      let x ← digitValue x
      if x % 16 = 0 then some [UInt8.ofNat (w * 4 + x / 16)] else none
    else do
      let w ← digitValue w
      let x ← digitValue x
      let y ← digitValue y
      if y % 4 = 0 then
        some [UInt8.ofNat (w * 4 + x / 16), UInt8.ofNat (x % 16 * 16 + y / 4)]
      else none
  else decodeFour w x y z

def decode : List UInt8 → Option (List UInt8)
  | [] => some []
  | [w, x, y, z] => decodeLast w x y z
  | w :: x :: y :: z :: rest => do
    let s ← decodeFour w x y z
    let t ← decode rest
    some (s ++ t)
  | _ => none

theorem digitValue_digit {n : ℕ} (hn : n < 64) : digitValue (digit n) = some n := by
  have hall : ∀ n < 64, digitValue (digit n) = some n := by decide +kernel
  exact hall n hn

theorem digitValue_pad : digitValue pad = none := by decide +kernel

theorem digit_ne_pad {n : ℕ} (hn : n < 64) : digit n ≠ pad := by
  intro h
  have hvalue := digitValue_digit hn
  rw [h, digitValue_pad] at hvalue
  cases hvalue

theorem digit_mem {n : ℕ} (hn : n < 64) : digit n ∈ alphabet := by
  have hsome : (alphabet.idxOf? (digit n)).isSome := by
    rw [← digitValue, digitValue_digit hn]
    rfl
  exact List.isSome_idxOf?.mp hsome

/-- Four characters with their values. -/
theorem decodeFour_eq {w x y z : UInt8} {i j k l : ℕ} (hw : digitValue w = some i)
    (hx : digitValue x = some j) (hy : digitValue y = some k) (hz : digitValue z = some l) :
    decodeFour w x y z =
      some [UInt8.ofNat ((i * 2 ^ 18 + j * 2 ^ 12 + k * 2 ^ 6 + l) / 2 ^ 16),
        UInt8.ofNat ((i * 2 ^ 18 + j * 2 ^ 12 + k * 2 ^ 6 + l) / 2 ^ 8 % 256),
        UInt8.ofNat ((i * 2 ^ 18 + j * 2 ^ 12 + k * 2 ^ 6 + l) % 256)] := by
  simp only [decodeFour, hw, hx, hy, hz, Option.bind_eq_bind, Option.bind_some]

theorem decodeFour_digits (a b c : UInt8) :
    let n := a.toNat * 2 ^ 16 + b.toNat * 2 ^ 8 + c.toNat
    decodeFour (digit (n / 2 ^ 18 % 64)) (digit (n / 2 ^ 12 % 64)) (digit (n / 2 ^ 6 % 64))
      (digit (n % 64)) = some [a, b, c] := by
  have ha := a.toNat_lt
  have hb := b.toNat_lt
  have hc := c.toNat_lt
  intro n
  have hn : n / 2 ^ 18 % 64 * 2 ^ 18 + n / 2 ^ 12 % 64 * 2 ^ 12 + n / 2 ^ 6 % 64 * 2 ^ 6 +
      n % 64 = n := by omega
  have h₀ : n / 2 ^ 16 = a.toNat := by omega
  have h₁ : n / 2 ^ 8 % 256 = b.toNat := by omega
  have h₂ : n % 256 = c.toNat := by omega
  have hvalue : ∀ m, digitValue (digit (m % 64)) = some (m % 64) := fun m =>
    digitValue_digit (Nat.mod_lt m (by decide))
  rw [decodeFour_eq (hvalue _) (hvalue _) (hvalue _) (hvalue _), hn, h₀, h₁, h₂,
    UInt8.ofNat_toNat, UInt8.ofNat_toNat, UInt8.ofNat_toNat]

/-- Three characters with their values, and padding. -/
theorem decodeLast_pad {w x y : UInt8} {i j k : ℕ} (hw : digitValue w = some i)
    (hx : digitValue x = some j) (hy : digitValue y = some k) (hne : y ≠ pad) (hk : k % 4 = 0) :
    decodeLast w x y pad =
      some [UInt8.ofNat (i * 4 + j / 16), UInt8.ofNat (j % 16 * 16 + k / 4)] := by
  rw [decodeLast, if_pos rfl, if_neg hne, hw, hx, hy]
  simp only [Option.bind_eq_bind, Option.bind_some]
  rw [if_pos hk]

/-- Two characters with their values, and padding. -/
theorem decodeLast_pad_pad {w x : UInt8} {i j : ℕ} (hw : digitValue w = some i)
    (hx : digitValue x = some j) (hj : j % 16 = 0) :
    decodeLast w x pad pad = some [UInt8.ofNat (i * 4 + j / 16)] := by
  rw [decodeLast, if_pos rfl, if_pos rfl, hw, hx]
  simp only [Option.bind_eq_bind, Option.bind_some]
  rw [if_pos hj]

/-- Digits without padding can stand anywhere. -/
theorem decode_cons {w x y z : UInt8} {rest s t : List UInt8} (hz : z ≠ pad)
    (hs : decodeFour w x y z = some s) (ht : decode rest = some t) :
    decode (w :: x :: y :: z :: rest) = some (s ++ t) := by
  cases rest with
  | nil =>
    obtain rfl := Option.some.inj ht
    rw [decode, decodeLast, if_neg hz, hs, List.append_nil]
  | cons c rest =>
    rw [decode, hs, ht]
    · rfl
    · exact List.cons_ne_nil c rest

/-- Two bytes at the end: the last digit is padding. -/
theorem decodeLast_two (a b : UInt8) :
    let n := a.toNat * 2 ^ 16 + b.toNat * 2 ^ 8
    decodeLast (digit (n / 2 ^ 18 % 64)) (digit (n / 2 ^ 12 % 64)) (digit (n / 2 ^ 6 % 64)) pad =
      some [a, b] := by
  have hlt : ∀ n, n % 64 < 64 := fun n => Nat.mod_lt n (by decide)
  have ha := a.toNat_lt
  have hb := b.toNat_lt
  intro n
  have hcut : n / 2 ^ 6 % 64 % 4 = 0 := by omega
  have h₀ : n / 2 ^ 18 % 64 * 4 + n / 2 ^ 12 % 64 / 16 = a.toNat := by omega
  have h₁ : n / 2 ^ 12 % 64 % 16 * 16 + n / 2 ^ 6 % 64 / 4 = b.toNat := by omega
  rw [decodeLast_pad (digitValue_digit (hlt _)) (digitValue_digit (hlt _))
    (digitValue_digit (hlt _)) (digit_ne_pad (hlt _)) hcut, h₀, h₁, UInt8.ofNat_toNat,
    UInt8.ofNat_toNat]

/-- One byte at the end: the last two digits are padding. -/
theorem decodeLast_one (a : UInt8) :
    let n := a.toNat * 2 ^ 16
    decodeLast (digit (n / 2 ^ 18 % 64)) (digit (n / 2 ^ 12 % 64)) pad pad = some [a] := by
  have hlt : ∀ n, n % 64 < 64 := fun n => Nat.mod_lt n (by decide)
  have ha := a.toNat_lt
  intro n
  have hcut : n / 2 ^ 12 % 64 % 16 = 0 := by omega
  have h₀ : n / 2 ^ 18 % 64 * 4 + n / 2 ^ 12 % 64 / 16 = a.toNat := by omega
  rw [decodeLast_pad_pad (digitValue_digit (hlt _)) (digitValue_digit (hlt _)) hcut, h₀,
    UInt8.ofNat_toNat]

/-- What is encoded is decoded. -/
theorem decode_encode (s : List UInt8) : decode (encode s) = some s := by
  fun_induction encode s with
  | case1 a b c rest n ih =>
    exact decode_cons (digit_ne_pad (Nat.mod_lt n (by decide))) (decodeFour_digits a b c) ih
  | case2 a b n => exact decodeLast_two a b
  | case3 a n => exact decodeLast_one a
  | case4 => rfl

theorem mem_encode {s : List UInt8} {c : UInt8} (h : c ∈ encode s) : c ∈ alphabet ∨ c = pad := by
  have hmem : ∀ n, digit (n % 64) ∈ alphabet := fun n => digit_mem (Nat.mod_lt n (by decide))
  fun_induction encode s with
  | case1 a b d rest n ih =>
    simp only [List.mem_cons] at h
    rcases h with rfl | rfl | rfl | rfl | h
    · exact .inl (hmem _)
    · exact .inl (hmem _)
    · exact .inl (hmem _)
    · exact .inl (hmem _)
    · exact ih h
  | case2 a b n =>
    simp only [List.mem_cons, List.not_mem_nil, or_false] at h
    rcases h with rfl | rfl | rfl | rfl
    · exact .inl (hmem _)
    · exact .inl (hmem _)
    · exact .inl (hmem _)
    · exact .inr rfl
  | case3 a n =>
    simp only [List.mem_cons, List.not_mem_nil, or_false] at h
    rcases h with rfl | rfl | rfl | rfl
    · exact .inl (hmem _)
    · exact .inl (hmem _)
    · exact .inr rfl
    · exact .inr rfl
  | case4 => cases h

end PropMiner.Semantics.Base64
