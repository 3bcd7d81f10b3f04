import Mathlib.Data.Nat.Digits.Lemmas

/-!
# Little-endian numbers

Lists of bytes as numbers, least significant byte first: multiplication by a factor with
a running carry, single bytes put in place, bytes taken as words, and comparison from the top
digit down.

## Main definitions

* `value` — the number that a list of bytes stands for
* `bytesOf` — the bytes of a number
* `mulCarry` — the schoolbook product with a factor
* `leTop`, `leRev` — the comparison of two numbers, given most significant digit or byte first

## Main results

* `value_mulCarry` — the product with its carry is exact
* `value_set` — what writing a byte adds
* `ofDigits_words` — words of four bytes are digits too
* `leTop_reverse`, `leRev_reverse` — the comparison decides `≤`
-/

set_option autoImplicit false

namespace PropMiner.Semantics.LittleEndian

variable {bs cs : List UInt8} {b c : UInt8} {factor carry : ℕ}

/-- The number that a list of bytes stands for, least significant byte first. -/
def value (bs : List UInt8) : ℕ := Nat.ofDigits 256 (bs.map UInt8.toNat)

@[simp] theorem value_nil : value [] = 0 := rfl

@[simp] theorem value_cons : value (b :: bs) = b.toNat + 256 * value bs := by
  simp [value, Nat.ofDigits_cons]

theorem value_append : value (bs ++ cs) = value bs + 256 ^ bs.length * value cs := by
  simp [value, Nat.ofDigits_append]

theorem value_lt (bs : List UInt8) : value bs < 256 ^ bs.length := by
  have hdigits : ∀ d ∈ bs.map UInt8.toNat, d < 256 := by
    intro d hd
    obtain ⟨b, -, rfl⟩ := List.mem_map.mp hd
    exact b.toNat_lt
  simpa [value] using Nat.ofDigits_lt_base_pow_length (by norm_num) hdigits

theorem value_replicate_max (n : ℕ) : value (List.replicate n 0xFF) = 256 ^ n - 1 := by
  induction n with
  | zero => rfl
  | succ n ih =>
    have hpos : 0 < 256 ^ n := by positivity
    rw [List.replicate_succ, value_cons, ih, pow_succ]
    change 255 + 256 * (256 ^ n - 1) = _
    omega

/-- The low `n` bytes of a number. -/
def bytesOf : ℕ → ℕ → List UInt8
  | 0, _ => []
  | n + 1, v => UInt8.ofNat v :: bytesOf n (v / 256)

@[simp] theorem length_bytesOf (n v : ℕ) : (bytesOf n v).length = n := by
  induction n generalizing v with
  | zero => rfl
  | succ n ih => simp [bytesOf, ih]

theorem bytesOf_eq_map (n v : ℕ) :
    bytesOf n v = (List.range n).map fun i => UInt8.ofNat (v / 256 ^ i) := by
  induction n generalizing v with
  | zero => rfl
  | succ n ih =>
    rw [bytesOf, ih, List.range_succ_eq_map, List.map_cons, List.map_map, pow_zero, Nat.div_one]
    refine congrArg _ (List.map_congr_left fun i _ => ?_)
    rw [Function.comp_apply, Nat.div_div_eq_div_mul, Nat.pow_succ']

theorem value_bytesOf (n v : ℕ) : value (bytesOf n v) = v % 256 ^ n := by
  induction n generalizing v with
  | zero => simp [bytesOf, Nat.mod_one]
  | succ n ih =>
    have hlow : (UInt8.ofNat v).toNat = v % 256 := UInt8.toNat_ofNat'
    rw [bytesOf, value_cons, ih, hlow, pow_succ', Nat.mod_mul]

/-! ### Products -/

/-- The product with `factor`, byte by byte: the low byte of each partial product is kept
and the rest is carried on. -/
def mulCarry (factor : ℕ) : List UInt8 → ℕ → List UInt8 × ℕ
  | [], carry => ([], carry)
  | b :: bs, carry =>
      let prod := b.toNat * factor + carry
      let r := mulCarry factor bs (prod / 256)
      (UInt8.ofNat prod :: r.1, r.2)

@[simp] theorem length_mulCarry : (mulCarry factor bs carry).1.length = bs.length := by
  induction bs generalizing carry with
  | nil => rfl
  | cons b bs ih => simp [mulCarry, ih]

/-- Digits and carry together are the product. -/
theorem value_mulCarry (factor : ℕ) (bs : List UInt8) (carry : ℕ) :
    value (mulCarry factor bs carry).1 + 256 ^ bs.length * (mulCarry factor bs carry).2 =
      value bs * factor + carry := by
  induction bs generalizing carry with
  | nil => simp [mulCarry]
  | cons b bs ih =>
    have hdigit : (UInt8.ofNat (b.toNat * factor + carry)).toNat =
        (b.toNat * factor + carry) % 256 := UInt8.toNat_ofNat'
    have hstep := ih ((b.toNat * factor + carry) / 256)
    have hsplit := Nat.div_add_mod (b.toNat * factor + carry) 256
    simp only [mulCarry, value_cons, hdigit, List.length_cons, pow_succ]
    calc _ = (b.toNat * factor + carry) % 256 +
          256 * (value (mulCarry factor bs ((b.toNat * factor + carry) / 256)).1 +
            256 ^ bs.length * (mulCarry factor bs ((b.toNat * factor + carry) / 256)).2) := by ring
      _ = (b.toNat * factor + carry) % 256 +
          256 * (value bs * factor + (b.toNat * factor + carry) / 256) := by rw [hstep]
      _ = 256 * (value bs * factor) + (b.toNat * factor + carry) := by omega
      _ = _ := by ring

/-! ### Single bytes -/

/-- Writing a byte changes the number by its place. -/
theorem value_set {i : ℕ} (h : i < bs.length) (b : UInt8) :
    value (bs.set i b) + 256 ^ i * (bs.getD i 0).toNat = value bs + 256 ^ i * b.toNat := by
  induction bs generalizing i with
  | nil => cases h
  | cons c bs ih =>
    cases i with
    | zero =>
      simp only [List.set_cons_zero, value_cons, List.getD_cons_zero, pow_zero, one_mul]
      omega
    | succ i =>
      have hstep := ih (Nat.lt_of_succ_lt_succ h)
      simp only [List.set_cons_succ, value_cons, List.getD_cons_succ, pow_succ']
      rw [Nat.mul_assoc, Nat.mul_assoc, Nat.add_assoc, Nat.add_assoc, ← Nat.mul_add, ← Nat.mul_add,
        hstep]

/-- What a byte adds at a place where there was a zero; behind the end it is lost. -/
theorem value_set_of_zero {i : ℕ} (h : bs.getD i 0 = 0) (b : UInt8) :
    value (bs.set i b) = value bs + if i < bs.length then 256 ^ i * b.toNat else 0 := by
  split_ifs with hi
  · have hset := value_set hi b
    rw [h] at hset
    exact hset
  · rw [List.set_eq_of_length_le (Nat.le_of_not_lt hi), Nat.add_zero]

/-! ### Words -/

/-- Four bytes at a time give the digits to the base `2 ^ 32`. -/
theorem ofDigits_words (bs : List UInt8) {n : ℕ} (h : 4 * n ≤ bs.length) :
    Nat.ofDigits (2 ^ 32) ((List.range n).map fun i => value ((bs.drop (4 * i)).take 4)) =
      value (bs.take (4 * n)) := by
  induction n with
  | zero => rfl
  | succ n ih =>
    have hsplit : bs.take (4 * (n + 1)) = bs.take (4 * n) ++ (bs.drop (4 * n)).take 4 := by
      rw [Nat.mul_succ, List.take_add]
    rw [List.range_succ, List.map_append, Nat.ofDigits_append, ih (by omega), hsplit, value_append,
      List.length_take, Nat.min_eq_left (by omega), List.length_map, List.length_range, pow_mul]
    simp

/-! ### Comparison -/

/-- Compare digits from the most significant one down; the first difference decides. -/
def leTop : List ℕ → List ℕ → Bool
  | d :: ds, e :: es => if d < e then true else if e < d then false else leTop ds es
  | _, _ => true

theorem leTop_reverse {base : ℕ} {ds es : List ℕ} (hbase : 1 < base) (hds : ∀ d ∈ ds, d < base)
    (hes : ∀ e ∈ es, e < base) (hlength : ds.length = es.length) :
    leTop ds.reverse es.reverse = decide (Nat.ofDigits base ds ≤ Nat.ofDigits base es) := by
  induction ds using List.reverseRecOn generalizing es with
  | nil =>
    obtain rfl := List.length_eq_zero_iff.mp hlength.symm
    rfl
  | append_singleton ds d ih =>
    rcases List.eq_nil_or_concat es with rfl | ⟨es, e, rfl⟩
    · simp at hlength
    · rw [List.concat_eq_append] at hlength hes ⊢
      rw [List.forall_mem_append, List.forall_mem_singleton] at hds hes
      have hsame : ds.length = es.length := by simpa using hlength
      have hlow := Nat.ofDigits_lt_base_pow_length hbase hds.1
      have hlow' := Nat.ofDigits_lt_base_pow_length hbase hes.1
      rw [← hsame] at hlow'
      rw [List.reverse_concat, List.reverse_concat, leTop, Nat.ofDigits_append,
        Nat.ofDigits_append, Nat.ofDigits_singleton, Nat.ofDigits_singleton, ← hsame]
      split_ifs with hlt hgt
      · -- a smaller top digit outweighs the digits below it
        have hmul := Nat.mul_le_mul_left (base ^ ds.length) (Nat.succ_le_of_lt hlt)
        rw [Nat.mul_succ] at hmul
        exact (decide_eq_true (by omega)).symm
      · have hmul := Nat.mul_le_mul_left (base ^ ds.length) (Nat.succ_le_of_lt hgt)
        rw [Nat.mul_succ] at hmul
        exact (decide_eq_false (by omega)).symm
      · obtain rfl : d = e := by omega
        rw [ih hds.1 hes.1 hsame]
        simp

/-- Compare from the most significant byte down; the first difference decides. -/
def leRev : List UInt8 → List UInt8 → Bool
  | b :: bs, c :: cs => if b < c then true else if c < b then false else leRev bs cs
  | _, _ => true

theorem leRev_eq_leTop (bs cs : List UInt8) :
    leRev bs cs = leTop (bs.map UInt8.toNat) (cs.map UInt8.toNat) := by
  induction bs generalizing cs with
  | nil => rfl
  | cons b bs ih =>
    cases cs with
    | nil => rfl
    | cons c cs =>
      simp only [leRev, leTop, List.map_cons, UInt8.lt_iff_toNat_lt, ih]

theorem leRev_reverse (hlength : bs.length = cs.length) :
    leRev bs.reverse cs.reverse = decide (value bs ≤ value cs) := by
  have hdigits : ∀ {bs : List UInt8}, ∀ d ∈ bs.map UInt8.toNat, d < 256 := by
    intro bs d hd
    obtain ⟨b, -, rfl⟩ := List.mem_map.mp hd
    exact b.toNat_lt
  rw [leRev_eq_leTop, List.map_reverse, List.map_reverse,
    leTop_reverse (by norm_num) hdigits hdigits (by rw [List.length_map, List.length_map, hlength])]
  rfl

end PropMiner.Semantics.LittleEndian
