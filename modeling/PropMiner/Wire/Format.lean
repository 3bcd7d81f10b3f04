import Mathlib.Data.List.Basic
import Mathlib.Tactic.NormNum

/-!
# The tag-length-value wire format

Reading of one field of a protobuf-style message from a list of bytes, in
unbounded arithmetic: a declared length is a natural number and is compared with
the number of bytes that are left. There is no memory and no address here; this
is what a reader over memory is supposed to compute.

## Main definitions

* `Wire.varint` — a base-128 varint of at most ten bytes
* `Wire.header` — the tag of a field and what it says about the payload
* `Wire.readField` — one whole field, or the end of the input
* `Wire.Remains` — the suffixes reached by reading whole fields

## Main results

* `readField_length_lt` — a field that is read takes at least one byte
* `Remains.length_le` — reading never lengthens the input
-/

set_option autoImplicit false

namespace PropMiner.Wire

/-- Why a message cannot be read further. -/
inductive ReadError
  /-- `varint overflow`: ten bytes, and the last one still continues -/
  | varintOverflow
  /-- `truncated varint` -/
  | truncatedVarint
  /-- `truncated fixed64` -/
  | truncatedFixed64
  /-- `truncated bytes` -/
  | truncatedBytes
  /-- `truncated fixed32` -/
  | truncatedFixed32
  /-- a string longer than any string can be -/
  | lengthError
  deriving DecidableEq, Repr

/-- The varint loop: payload bits enter at `shift`, which grows by seven for each
byte that has its continuation bit set. -/
def varintLoop : ℕ → ℕ → UInt64 → List UInt8 → Except ReadError (UInt64 × List UInt8)
  | 0, _, _, _ => .error .varintOverflow
  | _ + 1, _, _, [] => .error .truncatedVarint
  | fuel + 1, shift, v, b :: bs =>
      let v := v ||| ((b &&& 0x7F).toUInt64 <<< UInt64.ofNat shift)
      if b &&& 0x80 = 0 then .ok (v, bs)
      else if 64 ≤ shift + 7 then .error .varintOverflow
      else varintLoop fuel (shift + 7) v bs

/-- A varint at the head of `bs`, with the bytes after it. Ten rounds exhaust the
64 bits, so the loop never runs out of its fuel. -/
def varint (bs : List UInt8) : Except ReadError (UInt64 × List UInt8) :=
  varintLoop 10 0 0 bs

/-- What the head of the input says about the next field, before its payload is
read: `size` bytes of payload are announced to follow in `rest`. A varint field
has its value in the head and announces no payload. -/
structure Header where
  field : UInt32
  wire : UInt32
  value : UInt64
  size : ℕ
  rest : List UInt8
  deriving DecidableEq, Repr

/-- The head of a field, or `none` for a wire type that has no length. -/
def header (bs : List UInt8) : Except ReadError (Option Header) := do
  let (tag, bs) ← varint bs
  let field := (tag >>> 3).toUInt32
  let wire := (tag &&& 7).toUInt32
  if wire = 0 then
    let (value, bs) ← varint bs
    return some ⟨field, wire, value, 0, bs⟩
  else if wire = 1 then return some ⟨field, wire, 0, 8, bs⟩
  else if wire = 2 then
    let (len, bs) ← varint bs
    return some ⟨field, wire, 0, len.toNat, bs⟩
  else if wire = 5 then return some ⟨field, wire, 0, 4, bs⟩
  else return none

/-- The error of a field whose announced payload is not all there. -/
def truncated (wire : UInt32) : ReadError :=
  if wire = 1 then .truncatedFixed64
  else if wire = 5 then .truncatedFixed32
  else .truncatedBytes

/-- One field with its payload and the bytes after it; `none` at the end of the
input and at a wire type that cannot be skipped. -/
def readField (bs : List UInt8) :
    Except ReadError (Option (Header × List UInt8 × List UInt8)) :=
  if bs = [] then .ok none
  else do
    match ← header bs with
    | none => return none
    | some h =>
        if h.rest.length < h.size then throw (truncated h.wire)
        else return some (h, h.rest.take h.size, h.rest.drop h.size)

/-- `Remains bs cs`: reading whole fields from `bs` leads to the suffix `cs`. -/
inductive Remains (bs : List UInt8) : List UInt8 → Prop
  | refl : Remains bs bs
  | field {cs ds payload : List UInt8} {h : Header} :
      Remains bs cs → readField cs = .ok (some (h, payload, ds)) → Remains bs ds

/-! ### What is read is a suffix -/

variable {bs cs ds payload rest : List UInt8} {v v' : UInt64} {fuel shift : ℕ} {h : Header}

theorem varintLoop_suffix (hv : varintLoop fuel shift v bs = .ok (v', rest)) :
    rest <:+ bs ∧ rest.length < bs.length := by
  induction fuel generalizing shift v bs with
  | zero => cases hv
  | succ fuel ih =>
    cases bs with
    | nil => cases hv
    | cons b bs =>
      simp only [varintLoop] at hv
      split_ifs at hv with hlast hover
      · obtain ⟨-, rfl⟩ := Prod.mk.inj (Except.ok.inj hv)
        exact ⟨List.suffix_cons _ _, by simp⟩
      · obtain ⟨hsuf, hlt⟩ := ih hv
        exact ⟨hsuf.trans (List.suffix_cons _ _), by simp only [List.length_cons]; omega⟩

theorem varint_suffix (hv : varint bs = .ok (v, rest)) :
    rest <:+ bs ∧ rest.length < bs.length :=
  varintLoop_suffix hv

theorem header_suffix (hh : header bs = .ok (some h)) :
    h.rest <:+ bs ∧ h.rest.length < bs.length := by
  simp only [header, bind, Except.bind] at hh
  split at hh
  · cases hh
  · rename_i tag htag
    obtain ⟨hsuf, hlt⟩ := varint_suffix htag
    split_ifs at hh
    all_goals try split at hh
    all_goals cases hh
    -- the varint and the length-delimited head read a second varint
    all_goals first
      | exact ⟨hsuf, hlt⟩
      | (rename_i second hsecond
         obtain ⟨hsuf', hlt'⟩ := varint_suffix hsecond
         exact ⟨hsuf'.trans hsuf, hlt'.trans hlt⟩)

theorem varintLoop_length_le (hv : varintLoop fuel shift v bs = .ok (v', rest)) :
    bs.length ≤ rest.length + fuel := by
  induction fuel generalizing shift v bs with
  | zero => cases hv
  | succ fuel ih =>
    cases bs with
    | nil => cases hv
    | cons b bs =>
      simp only [varintLoop] at hv
      split_ifs at hv with hlast hover
      · obtain ⟨-, rfl⟩ := Prod.mk.inj (Except.ok.inj hv)
        simp only [List.length_cons]
        omega
      · have hle := ih hv
        simp only [List.length_cons]
        omega

/-- A varint takes at most ten bytes. -/
theorem varint_length_le (hv : varint bs = .ok (v, rest)) : bs.length ≤ rest.length + 10 :=
  varintLoop_length_le hv

/-- What each wire type announces: nothing, eight bytes, a length, four bytes.
Only a length can exceed eight. -/
theorem header_wire_cases (hh : header bs = .ok (some h)) :
    h.wire = 0 ∧ h.size = 0 ∨ h.wire = 2 ∨
      (h.wire ≠ 2 ∧ h.size ≤ 8 ∧ bs.length ≤ h.rest.length + 10) := by
  simp only [header, bind, Except.bind] at hh
  split at hh
  · cases hh
  · rename_i tag htag
    have hlen := varint_length_le htag
    split_ifs at hh with h0 h1 h2 h5
    all_goals try split at hh
    all_goals cases hh
    · exact .inl ⟨h0, rfl⟩
    · exact .inr (.inr ⟨by simp [h1], le_rfl, hlen⟩)
    · exact .inr (.inl h2)
    · exact .inr (.inr ⟨by simp [h5], by simp, hlen⟩)

/-- The four wire types, and the sizes that three of them fix. -/
theorem header_kinds (hh : header bs = .ok (some h)) :
    (h.wire = 0 ∧ h.size = 0) ∨ (h.wire = 1 ∧ h.size = 8) ∨ h.wire = 2 ∨
      (h.wire = 5 ∧ h.size = 4) := by
  simp only [header, bind, Except.bind] at hh
  split at hh
  · cases hh
  · split_ifs at hh with h0 h1 h2 h5
    all_goals try split at hh
    all_goals cases hh
    · exact .inl ⟨h0, rfl⟩
    · exact .inr (.inl ⟨h1, rfl⟩)
    · exact .inr (.inr (.inl h2))
    · exact .inr (.inr (.inr ⟨h5, rfl⟩))

/-- An announced size is a 64-bit number. -/
theorem header_size_lt (hh : header bs = .ok (some h)) : h.size < 2 ^ 64 := by
  simp only [header, bind, Except.bind] at hh
  split at hh
  · cases hh
  · split_ifs at hh
    all_goals try split at hh
    all_goals cases hh
    all_goals first
      | exact UInt64.toNat_lt _
      | simp

theorem readField_some_iff :
    readField bs = .ok (some (h, payload, rest)) ↔
      bs ≠ [] ∧ header bs = .ok (some h) ∧ h.size ≤ h.rest.length ∧
        payload = h.rest.take h.size ∧ rest = h.rest.drop h.size := by
  unfold readField
  by_cases hbs : bs = []
  · simp [hbs]
  · cases hh : header bs with
    | error e => simp [hbs, bind, Except.bind]
    | ok o =>
      cases o with
      | none => simp [hbs, bind, Except.bind, pure, Except.pure]
      | some g =>
        by_cases hlt : g.rest.length < g.size
        · simp only [hbs, if_false, bind, Except.bind, hlt, if_true, throw, throwThe,
            MonadExceptOf.throw, reduceCtorEq, Except.ok.injEq, Option.some.injEq, ne_eq,
            not_false_eq_true, true_and, false_iff, not_and]
          rintro rfl hle
          omega
        · simp only [hbs, if_false, bind, Except.bind, hlt, pure, Except.pure, Except.ok.injEq,
            Option.some.injEq, Prod.mk.injEq, ne_eq, not_false_eq_true, true_and]
          constructor
          · rintro ⟨rfl, rfl, rfl⟩
            exact ⟨rfl, by omega, rfl, rfl⟩
          · rintro ⟨rfl, -, rfl, rfl⟩
            exact ⟨rfl, rfl, rfl⟩

/-- Before the end of the input, no field is read only where the head has no length. -/
theorem header_of_readField_none (hbs : bs ≠ []) (hr : readField bs = .ok none) :
    header bs = .ok none := by
  rw [readField, if_neg hbs] at hr
  cases hh : header bs with
  | error e =>
    rw [hh] at hr
    cases hr
  | ok o =>
    cases o with
    | none => rfl
    | some g =>
      simp only [hh, bind, Except.bind] at hr
      split_ifs at hr
      cases hr

/-- A field that is read takes at least one byte. -/
theorem readField_length_lt (hr : readField bs = .ok (some (h, payload, rest))) :
    rest.length < bs.length := by
  obtain ⟨-, hh, -, -, rfl⟩ := readField_some_iff.mp hr
  have hlt := (header_suffix hh).2
  simp only [List.length_drop]
  omega

theorem Remains.length_le (hr : Remains bs cs) : cs.length ≤ bs.length := by
  induction hr with
  | refl => exact le_rfl
  | field _ hread ih => exact (readField_length_lt hread).le.trans ih

end PropMiner.Wire
