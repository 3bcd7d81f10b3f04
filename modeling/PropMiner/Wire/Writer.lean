import PropMiner.Wire.Format
import PropMiner.Semantics.LittleEndian

/-!
# Writing the wire format

The other direction of `Wire.Format`: a field is written as its tag and its payload, and
reading what was written gives the field back with all that follows untouched.

## Main definitions

* `Wire.writeVarint` — a base-128 varint
* `Wire.Field`, `Wire.Field.encode` — a field by number and value, and its bytes
* `Wire.fields` — all fields of a message

## Main results

* `varint_writeVarint` — a varint is read as it was written
* `readField_encode` — so is a field
* `fields_encode` — so is a message
-/

set_option autoImplicit false

namespace PropMiner.Wire

open PropMiner.Semantics

/-- `while (v >= 0x80) { push(v | 0x80); v >>= 7; } push(v);` Ten rounds exhaust the
64 bits. -/
def writeVarintLoop : ℕ → UInt64 → List UInt8
  | 0, _ => []
  | fuel + 1, v =>
      if 0x80 ≤ v then (v ||| 0x80).toUInt8 :: writeVarintLoop fuel (v >>> 7) else [v.toUInt8]

/-- `write_varint` -/
def writeVarint (v : UInt64) : List UInt8 := writeVarintLoop 10 v

/-- `write_tag` -/
def writeTag (field wire : UInt32) : List UInt8 :=
  writeVarint ((field.toUInt64 <<< 3) ||| wire.toUInt64)

/-- What a field can hold. -/
inductive Value
  | varint (v : UInt64)
  | fixed64 (v : UInt64)
  | bytes (bs : List UInt8)
  | fixed32 (v : UInt32)
  deriving DecidableEq, Repr

namespace Value

def wire : Value → UInt32
  | varint _ => 0
  | fixed64 _ => 1
  | bytes _ => 2
  | fixed32 _ => 5

/-- The value that the head of the field holds. -/
def word : Value → UInt64
  | varint v => v
  | fixed64 _ | bytes _ | fixed32 _ => 0

/-- The bytes that follow the head of the field. -/
def payload : Value → List UInt8
  | varint _ => []
  | fixed64 v => LittleEndian.bytesOf 8 v.toNat
  | bytes bs => bs
  | fixed32 v => LittleEndian.bytesOf 4 v.toNat

/-- What stands between the tag and the payload. -/
def head : Value → List UInt8
  | varint v => writeVarint v
  | bytes bs => writeVarint (UInt64.ofNat bs.length)
  | fixed64 _ | fixed32 _ => []

/-- The number that a reader finds in a field. -/
def number : Value → UInt64
  | varint v | fixed64 v => v
  | fixed32 v => v.toUInt64
  | bytes _ => 0

/-- The bytes that a reader finds in a field. -/
def slice : Value → List UInt8
  | bytes bs => bs
  | varint _ | fixed64 _ | fixed32 _ => []

/-- The value of a field that was read. -/
def ofRead (h : Header) (payload : List UInt8) : Value :=
  if h.wire = 0 then varint h.value
  else if h.wire = 1 then fixed64 (UInt64.ofNat (LittleEndian.value payload))
  else if h.wire = 5 then fixed32 (UInt32.ofNat (LittleEndian.value payload))
  else bytes payload

end Value

structure Field where
  number : UInt32
  value : Value
  deriving DecidableEq, Repr

namespace Field

/-- The tag, what the tag announces, and the payload. -/
def encode (f : Field) : List UInt8 :=
  writeTag f.number f.value.wire ++ f.value.head ++ f.value.payload

/-- The head with which a written field is read, where `rest` follows it. -/
def header (f : Field) (rest : List UInt8) : Header :=
  ⟨f.number, f.value.wire, f.value.word, f.value.payload.length, f.value.payload ++ rest⟩

/-- A length fits in the 64 bits it is written with. -/
def Fits (f : Field) : Prop := f.value.payload.length < 2 ^ 64

end Field

/-- The fields at the head of a message, as many as `fuel` allows. -/
def readFields : ℕ → List UInt8 → Except ReadError (List Field)
  | 0, _ => .ok []
  | fuel + 1, bs => do
      match ← readField bs with
      | none => return []
      | some (h, payload, rest) => return ⟨h.field, .ofRead h payload⟩ :: (← readFields fuel rest)

/-- All fields of a message: each takes a byte or more. -/
def fields (bs : List UInt8) : Except ReadError (List Field) := readFields bs.length bs

/-! ### Varints -/

section Varints

variable {fuel shift : ℕ} {v w : UInt64} {b : UInt8} {rest : List UInt8}

/-- A property of bytes, checked on all of them. -/
theorem forall_byte {p : UInt8 → Prop} (h : ∀ x : Fin 256, p (UInt8.ofNat x)) (b : UInt8) :
    p b := by
  have hb := h ⟨b.toNat, b.toNat_lt⟩
  simpa using hb

theorem and_high_eq_zero_iff : ∀ b : UInt8, b &&& 0x80 = 0 ↔ b.toNat < 128 :=
  forall_byte (by decide +kernel)

theorem toNat_or_high : ∀ b : UInt8, (b ||| 0x80).toNat = b.toNat % 128 + 128 :=
  forall_byte (by decide +kernel)

theorem toNat_and_low : ∀ b : UInt8, (b &&& 0x7F).toNat = b.toNat % 128 :=
  forall_byte (by decide +kernel)

theorem toNat_continued (v : UInt64) : (v ||| 0x80).toUInt8.toNat = v.toNat % 128 + 128 := by
  have hbyte := toNat_or_high v.toUInt8
  rw [UInt64.toNat_toUInt8] at hbyte
  rw [UInt64.toUInt8_or]
  change (v.toUInt8 ||| 0x80).toNat = _
  omega

theorem toNat_shiftRight_seven (v : UInt64) : (v >>> 7).toNat = v.toNat / 128 := by
  rw [UInt64.toNat_shiftRight]
  exact Nat.shiftRight_eq_div_pow v.toNat 7

/-- Bits that enter above a number are added to it. -/
theorem toNat_or_shiftLeft (hv : v.toNat < 2 ^ shift) (hshift : shift < 64)
    (hw : w.toNat * 2 ^ shift < 2 ^ 64) :
    (v ||| (w <<< UInt64.ofNat shift)).toNat = v.toNat + w.toNat * 2 ^ shift := by
  have hamount : (UInt64.ofNat shift).toNat % 64 = shift := by
    rw [UInt64.toNat_ofNat_of_lt' (hshift.trans (by decide))]
    exact Nat.mod_eq_of_lt hshift
  rw [UInt64.toNat_or, UInt64.toNat_shiftLeft, hamount, Nat.shiftLeft_eq, Nat.mod_eq_of_lt hw,
    Nat.or_comm, Nat.mul_comm, ← Nat.two_pow_add_eq_or_of_lt hv, Nat.add_comm]

/-- What one round of the reader adds: the low seven bits of the byte. -/
theorem toNat_round (hv : v.toNat < 2 ^ shift) (hshift : shift < 64)
    (hb : b.toNat % 128 * 2 ^ shift < 2 ^ 64) :
    (v ||| ((b &&& 0x7F).toUInt64 <<< UInt64.ofNat shift)).toNat =
      v.toNat + b.toNat % 128 * 2 ^ shift := by
  have hlow : (b &&& 0x7F).toUInt64.toNat = b.toNat % 128 := by
    rw [UInt8.toNat_toUInt64, toNat_and_low]
  rw [toNat_or_shiftLeft hv hshift (by rwa [hlow]), hlow]

/-- A byte without its continuation bit ends the varint. -/
theorem varintLoop_last (hw : w.toNat < 128) (hv : v.toNat < 2 ^ shift)
    (hfits : w.toNat * 2 ^ shift < 2 ^ 64) (hshift : shift < 64) :
    varintLoop (fuel + 1) shift v (writeVarintLoop (fuel + 1) w ++ rest) =
      .ok (UInt64.ofNat (v.toNat + w.toNat * 2 ^ shift), rest) := by
  have hbyte : w.toUInt8.toNat = w.toNat := by
    rw [UInt64.toNat_toUInt8]
    omega
  have hmod : w.toUInt8.toNat % 128 = w.toNat := by omega
  have hround := toNat_round (b := w.toUInt8) hv hshift (by rwa [hmod])
  rw [hmod] at hround
  rw [writeVarintLoop, if_neg (by simpa [UInt64.le_iff_toNat_le] using hw), List.singleton_append,
    varintLoop]
  simp only [if_pos ((and_high_eq_zero_iff _).mpr (by omega : w.toUInt8.toNat < 128))]
  rw [← hround, UInt64.ofNat_toNat]

/-- The reader's shift keeps step with the writer: what has been read lies below it, and
what is still to come fits above it. -/
theorem varintLoop_writeVarintLoop (hfuel : shift + 7 * fuel = 63)
    (hv : v.toNat < 2 ^ shift) (hw : w.toNat * 2 ^ shift < 2 ^ 64) :
    varintLoop (fuel + 1) shift v (writeVarintLoop (fuel + 1) w ++ rest) =
      .ok (UInt64.ofNat (v.toNat + w.toNat * 2 ^ shift), rest) := by
  induction fuel generalizing shift v w with
  | zero =>
    -- the last round, with one bit to come
    obtain rfl : shift = 63 := by omega
    have hsmall : w.toNat < 128 := by omega
    exact varintLoop_last hsmall hv hw (by norm_num)
  | succ fuel ih =>
    rcases Nat.lt_or_ge w.toNat 128 with hsmall | hlarge
    · exact varintLoop_last hsmall hv hw (by omega)
    · have hbyte := toNat_continued w
      have hcontinues : ¬ ((w ||| 0x80).toUInt8 &&& 0x80 = 0) := by
        rw [and_high_eq_zero_iff]
        omega
      have hpow : 2 ^ (shift + 7) = 128 * 2 ^ shift := by rw [pow_add, mul_comm]; norm_num
      have hsplit : w.toNat * 2 ^ shift =
          w.toNat % 128 * 2 ^ shift + w.toNat / 128 * 2 ^ (shift + 7) := by
        conv_lhs => rw [← Nat.div_add_mod w.toNat 128]
        rw [hpow]
        ring
      have hmod : (w ||| 0x80).toUInt8.toNat % 128 = w.toNat % 128 := by omega
      have hround := toNat_round (b := (w ||| 0x80).toUInt8) hv (by omega) (by rw [hmod]; omega)
      rw [hmod] at hround
      have hbelow : w.toNat % 128 * 2 ^ shift + 2 ^ shift ≤ 2 ^ (shift + 7) := by
        rw [hpow, ← Nat.succ_mul]
        exact Nat.mul_le_mul_right _ (Nat.mod_lt _ (by norm_num))
      rw [writeVarintLoop, if_pos (by simpa [UInt64.le_iff_toNat_le] using hlarge),
        List.cons_append, varintLoop]
      simp only [if_neg hcontinues, if_neg (show ¬ 64 ≤ shift + 7 by omega)]
      rw [ih (by omega) (by rw [hround]; omega) (by rw [toNat_shiftRight_seven]; omega), hround,
        toNat_shiftRight_seven, hsplit, Nat.add_assoc]

theorem varint_writeVarint (v : UInt64) : varint (writeVarint v ++ rest) = .ok (v, rest) := by
  have hloop : varintLoop (9 + 1) 0 0 (writeVarintLoop (9 + 1) v ++ rest) =
      .ok (UInt64.ofNat ((0 : UInt64).toNat + v.toNat * 2 ^ 0), rest) :=
    varintLoop_writeVarintLoop rfl (by decide) (by simpa using v.toNat_lt)
  rw [pow_zero, Nat.mul_one, UInt64.toNat_zero, Nat.zero_add, UInt64.ofNat_toNat] at hloop
  exact hloop

theorem writeVarint_ne_nil (v : UInt64) : writeVarint v ≠ [] := by
  unfold writeVarint writeVarintLoop
  split_ifs
  · exact List.cons_ne_nil _ _
  · exact List.cons_ne_nil _ _

theorem length_writeVarintLoop_le (fuel : ℕ) (v : UInt64) :
    (writeVarintLoop fuel v).length ≤ fuel := by
  induction fuel generalizing v with
  | zero => exact Nat.le_refl _
  | succ fuel ih =>
    rw [writeVarintLoop]
    split_ifs
    · exact Nat.succ_le_succ (ih _)
    · exact Nat.le_add_left _ _

end Varints

/-! ### Fields -/

section Fields

variable {f : Field} {fs : List Field} {rest : List UInt8}

theorem toNat_tag {field wire : UInt32} (hwire : wire.toNat < 8) :
    ((field.toUInt64 <<< 3) ||| wire.toUInt64).toNat = 8 * field.toNat + wire.toNat := by
  have hfield := field.toNat_lt
  have hor := Nat.two_pow_add_eq_or_of_lt (i := 3) (b := wire.toNat) (by omega) field.toNat
  rw [UInt64.toNat_or, UInt64.toNat_shiftLeft, UInt32.toNat_toUInt64, UInt32.toNat_toUInt64]
  change (field.toNat <<< 3) % 2 ^ 64 ||| wire.toNat = _
  rw [Nat.shiftLeft_eq, Nat.mod_eq_of_lt (by omega), Nat.mul_comm field.toNat, ← hor]

theorem field_of_tag (field : UInt32) {wire : UInt32} (hwire : wire.toNat < 8) :
    ((((field.toUInt64 <<< 3) ||| wire.toUInt64) >>> 3).toUInt32) = field := by
  apply UInt32.toNat_inj.mp
  have hfield := field.toNat_lt
  rw [UInt64.toNat_toUInt32, UInt64.toNat_shiftRight, toNat_tag hwire]
  change ((8 * field.toNat + wire.toNat) >>> 3) % 2 ^ 32 = _
  rw [Nat.shiftRight_eq_div_pow]
  omega

theorem wire_of_tag (field : UInt32) {wire : UInt32} (hwire : wire.toNat < 8) :
    ((((field.toUInt64 <<< 3) ||| wire.toUInt64) &&& 7).toUInt32) = wire := by
  apply UInt32.toNat_inj.mp
  have hand := Nat.and_two_pow_sub_one_eq_mod (8 * field.toNat + wire.toNat) 3
  rw [UInt64.toNat_toUInt32, UInt64.toNat_and, toNat_tag hwire]
  change ((8 * field.toNat + wire.toNat) &&& 2 ^ 3 - 1) % 2 ^ 32 = _
  rw [hand]
  omega

theorem Value.wire_lt (v : Value) : v.wire.toNat < 8 := by
  cases v <;> simp [wire]

/-- The head of a written field announces the payload behind it. -/
theorem header_encode (hfits : f.Fits) :
    header (f.encode ++ rest) = .ok (some (f.header rest)) := by
  have hnumber := field_of_tag f.number f.value.wire_lt
  have hwire := wire_of_tag f.number f.value.wire_lt
  obtain ⟨number, value⟩ := f
  unfold header Field.encode Field.header writeTag
  rw [List.append_assoc, List.append_assoc, varint_writeVarint]
  simp only [bind, Except.bind, pure, Except.pure, hnumber, hwire]
  cases value with
  | varint v =>
    simp [Value.wire, Value.head, Value.word, Value.payload, varint_writeVarint]
  | fixed64 v => simp [Value.wire, Value.head, Value.word, Value.payload]
  | bytes bs =>
    have hlength : (UInt64.ofNat bs.length).toNat = bs.length := UInt64.toNat_ofNat_of_lt' hfits
    simp [Value.wire, Value.head, Value.word, Value.payload, varint_writeVarint, hlength]
  | fixed32 v => simp [Value.wire, Value.head, Value.word, Value.payload]

theorem Field.encode_ne_nil (f : Field) : f.encode ≠ [] := by
  unfold Field.encode writeTag
  rw [List.append_assoc]
  exact List.append_ne_nil_of_left_ne_nil (writeVarint_ne_nil _) _

theorem readField_encode (hfits : f.Fits) :
    readField (f.encode ++ rest) = .ok (some (f.header rest, f.value.payload, rest)) := by
  refine readField_some_iff.mpr ⟨?_, header_encode hfits, ?_, ?_, ?_⟩
  · exact List.append_ne_nil_of_left_ne_nil f.encode_ne_nil _
  · simp [Field.header]
  · exact List.take_left.symm
  · exact List.drop_left.symm

theorem Value.ofRead_payload (f : Field) (rest : List UInt8) :
    Value.ofRead (f.header rest) f.value.payload = f.value := by
  obtain ⟨number, value⟩ := f
  cases value with
  | varint v => rfl
  | fixed64 v =>
    simp [Field.header, Value.ofRead, Value.wire, Value.payload, LittleEndian.value_bytesOf]
  | bytes bs => rfl
  | fixed32 v =>
    simp [Field.header, Value.ofRead, Value.wire, Value.payload, LittleEndian.value_bytesOf]

theorem readFields_encode (hfits : ∀ f ∈ fs, f.Fits) {fuel : ℕ} (hfuel : fs.length ≤ fuel) :
    readFields fuel (fs.flatMap Field.encode) = .ok fs := by
  induction fs generalizing fuel with
  | nil =>
    cases fuel with
    | zero => rfl
    | succ fuel => rfl
  | cons f fs ih =>
    obtain ⟨fuel, rfl⟩ : ∃ n, fuel = n + 1 := Nat.exists_eq_add_one.mpr (by simp at hfuel; omega)
    have hrest := ih (fun g hg => hfits g (List.mem_cons_of_mem _ hg))
      (Nat.le_of_succ_le_succ hfuel)
    rw [List.flatMap_cons, readFields, readField_encode (hfits f List.mem_cons_self)]
    simp only [bind, Except.bind, hrest, pure, Except.pure, Value.ofRead_payload]
    rfl

/-- Tag and length take ten bytes each at most. -/
theorem Field.length_encode_le (f : Field) : f.encode.length ≤ f.value.payload.length + 20 := by
  have htag : (writeTag f.number f.value.wire).length ≤ 10 := length_writeVarintLoop_le 10 _
  have hhead : f.value.head.length ≤ 10 := by
    cases f.value with
    | varint v => exact length_writeVarintLoop_le 10 v
    | bytes bs => exact length_writeVarintLoop_le 10 _
    | fixed64 v | fixed32 v => exact Nat.zero_le _
  rw [encode, List.length_append, List.length_append]
  omega

theorem length_le_length_encode (fs : List Field) :
    fs.length ≤ (fs.flatMap Field.encode).length := by
  induction fs with
  | nil => rfl
  | cons f fs ih =>
    have hpos := List.length_pos_of_ne_nil f.encode_ne_nil
    rw [List.flatMap_cons, List.length_append, List.length_cons]
    omega

theorem Field.payload_length_le_of_mem (hf : f ∈ fs) :
    f.value.payload.length ≤ (fs.flatMap encode).length := by
  have hsub : f.encode.Sublist (fs.flatMap encode) := by
    rw [List.flatMap_def]
    exact List.sublist_flatten_of_mem (List.mem_map_of_mem hf)
  have hpayload : f.value.payload.length ≤ f.encode.length := by
    simp only [encode, List.length_append]
    omega
  exact hpayload.trans hsub.length_le

theorem Field.fits_of_mem (hf : f ∈ fs) (hlength : (fs.flatMap encode).length < 2 ^ 64) :
    f.Fits :=
  (payload_length_le_of_mem hf).trans_lt hlength

/-- A message that fits in memory is read as it was written. -/
theorem fields_encode (hlength : (fs.flatMap Field.encode).length < 2 ^ 64) :
    fields (fs.flatMap Field.encode) = .ok fs :=
  readFields_encode (fun _ hf => Field.fits_of_mem hf hlength) (length_le_length_encode fs)

end Fields

/-! ### Fields of any message -/

section Messages

variable {bs rest payload : List UInt8} {h : Header} {f : Field} {fs : List Field} {fuel : ℕ}

/-- More rounds than bytes make no difference. -/
theorem readFields_congr {n m : ℕ} (hn : bs.length ≤ n) (hm : bs.length ≤ m) :
    readFields n bs = readFields m bs := by
  induction n generalizing m bs with
  | zero =>
    obtain rfl := List.length_eq_zero_iff.mp (Nat.le_zero.mp hn)
    cases m with
    | zero => rfl
    | succ m => rfl
  | succ n ih =>
    cases m with
    | zero =>
      obtain rfl := List.length_eq_zero_iff.mp (Nat.le_zero.mp hm)
      rfl
    | succ m =>
      rw [readFields, readFields]
      cases hread : readField bs with
      | error e => rfl
      | ok o =>
        cases o with
        | none => rfl
        | some r =>
          obtain ⟨h, payload, rest⟩ := r
          have hlt := readField_length_lt hread
          have hrest : readFields n rest = readFields m rest := ih (by omega) (by omega)
          simp only [bind, Except.bind, hrest]

theorem fields_of_readField_none (hread : readField bs = .ok none) : fields bs = .ok [] := by
  unfold fields
  cases bs with
  | nil => rfl
  | cons b bs =>
    rw [List.length_cons, readFields, hread]
    rfl

theorem fields_of_readField_error {e : ReadError} (hread : readField bs = .error e) :
    fields bs = .error e := by
  unfold fields
  cases bs with
  | nil => cases hread
  | cons b bs =>
    rw [List.length_cons, readFields, hread]
    rfl

theorem fields_of_readField_some (hread : readField bs = .ok (some (h, payload, rest))) :
    fields bs = (fields rest).map (⟨h.field, .ofRead h payload⟩ :: ·) := by
  have hlt := readField_length_lt hread
  obtain ⟨n, hn⟩ : ∃ n, bs.length = n + 1 := Nat.exists_eq_add_one.mpr (Nat.zero_lt_of_lt hlt)
  have hrest : fields rest = readFields n rest := readFields_congr le_rfl (by omega)
  rw [fields, hn, readFields, hread, hrest]
  rfl

theorem fields_eq_cons (hread : readField bs = .ok (some (h, payload, rest)))
    (hfields : fields bs = .ok fs) :
    ∃ gs, fields rest = .ok gs ∧ fs = ⟨h.field, .ofRead h payload⟩ :: gs := by
  rw [fields_of_readField_some hread] at hfields
  cases hrest : fields rest with
  | error e =>
    rw [hrest] at hfields
    cases hfields
  | ok gs =>
    rw [hrest] at hfields
    exact ⟨gs, rfl, (Except.ok.inj hfields).symm⟩

/-- A message that can be read announces no payload longer than what follows. -/
theorem size_le_of_fields (hfields : fields bs = .ok fs) (hh : header bs = .ok (some h)) :
    h.size ≤ h.rest.length := by
  by_contra hlong
  have hbs : bs ≠ [] := by
    rintro rfl
    cases hh
  have hread : readField bs = .error (truncated h.wire) := by
    rw [readField, if_neg hbs, hh]
    exact if_pos (Nat.lt_of_not_le hlong)
  cases (fields_of_readField_error hread).symm.trans hfields

/-- The induction over the fields of a message that can be read: it ends, or a field is
followed by such a message. -/
theorem fields_induction {P : List UInt8 → List Field → Prop}
    (nil : ∀ bs, readField bs = .ok none → P bs [])
    (cons : ∀ bs h payload rest fs, readField bs = .ok (some (h, payload, rest)) →
      fields rest = .ok fs → P rest fs → P bs (⟨h.field, .ofRead h payload⟩ :: fs))
    {bs : List UInt8} {fs : List Field} (hfields : fields bs = .ok fs) : P bs fs := by
  induction hlength : bs.length using Nat.strong_induction_on generalizing bs fs with
  | _ n ih =>
    cases hread : readField bs with
    | error e => cases (fields_of_readField_error hread).symm.trans hfields
    | ok o =>
      cases o with
      | none =>
        obtain rfl := Except.ok.inj ((fields_of_readField_none hread).symm.trans hfields)
        exact nil bs hread
      | some r =>
        obtain ⟨h, payload, rest⟩ := r
        have hlt := readField_length_lt hread
        obtain ⟨gs, hrest, rfl⟩ := fields_eq_cons hread hfields
        exact cons bs h payload rest gs hread hrest (ih rest.length (by omega) hrest rfl)

theorem length_fields_le (hfields : fields bs = .ok fs) : fs.length ≤ bs.length := by
  refine fields_induction (P := fun bs fs => fs.length ≤ bs.length) ?nil ?cons hfields
  case nil => exact fun _ _ => Nat.zero_le _
  case cons =>
    intro bs h payload rest fs hread _ ih
    have hlt := readField_length_lt hread
    rw [List.length_cons]
    omega

/-- The payload of a field that was read is part of the message. -/
theorem length_payload_le (hread : readField bs = .ok (some (h, payload, rest))) :
    payload.length ≤ bs.length := by
  obtain ⟨-, hh, -, rfl, -⟩ := readField_some_iff.mp hread
  have hlt := (header_suffix hh).2
  rw [List.length_take]
  omega

theorem length_slice_le (hfields : fields bs = .ok fs) :
    ∀ f ∈ fs, f.value.slice.length ≤ bs.length := by
  refine fields_induction (P := fun bs fs => ∀ f ∈ fs, f.value.slice.length ≤ bs.length)
    ?nil ?cons hfields
  case nil => exact fun _ _ => nofun
  case cons =>
    intro bs h payload rest fs hread _ ih f hf
    have hlt := readField_length_lt hread
    rcases List.mem_cons.mp hf with rfl | hf
    · have hpayload := length_payload_le hread
      simp only [Value.ofRead]
      split_ifs
      all_goals first
        | exact hpayload
        | exact Nat.zero_le _
    · exact (ih f hf).trans hlt.le

end Messages

end PropMiner.Wire
