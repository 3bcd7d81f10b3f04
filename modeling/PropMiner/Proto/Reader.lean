import PropMiner.Wire.Format

/-!
# The protobuf reader over memory

`ProtoReader` of `proto/mining_v2.cpp`: a cursor `p_` and a limit `end_`, both
64-bit addresses with wrapping addition, over a byte-addressed memory. Nothing
here assumes that an address lies in the buffer the reader was made for: a cursor
that has left it reads whatever memory holds there.

The second half compares the reader with `Wire.readField`, which reads the bytes
between cursor and limit in unbounded arithmetic. They agree as long as the end
of the announced payload is still an address.

## Main definitions

* `ProtoReader.decodeVarint`, `ProtoReader.skipField`, `ProtoReader.next`
* `bytesBetween` — the bytes from one address up to another

## Main results

* `decodeVarint_eq` — a varint read from memory is the varint of the bytes there
* `next_eq_of_fits` — `next` reads the field `Wire.readField` reads
* `next_of_wraps` — a payload that wraps around the address space is accepted
-/

set_option autoImplicit false

namespace PropMiner.Proto

open PropMiner.Wire (ReadError)

/-- Byte-addressed memory. -/
abbrev Memory := UInt64 → UInt8

/-- `WireField`: one field as `next` hands it out. A field that is not
length-delimited has the null pointer as `data`. -/
structure WireField where
  field : UInt32
  wire : UInt32
  value : UInt64
  data : UInt64
  len : UInt64
  deriving DecidableEq, Repr

/-- The `n` bytes from address `p` on. -/
def bytesAt (mem : Memory) : UInt64 → ℕ → List UInt8
  | _, 0 => []
  | p, n + 1 => mem p :: bytesAt mem (p + 1) n

/-- The bytes from `p` up to `q`. -/
def bytesBetween (mem : Memory) (p q : UInt64) : List UInt8 :=
  bytesAt mem p (q - p).toNat

/-- `memcpy` of `n` bytes at `p` into a zeroed little-endian word. -/
def loadLE (mem : Memory) (p : UInt64) : ℕ → UInt64
  | 0 => 0
  | n + 1 => (mem p).toUInt64 ||| (loadLE mem (p + 1) n <<< 8)

/-- `ProtoReader`: the cursor and the limit it must not pass. -/
structure ProtoReader where
  p : UInt64
  end_ : UInt64
  deriving DecidableEq, Repr

namespace ProtoReader

/-- The loop of `decode_varint`. It leaves at the latest when `shift` reaches 64,
so ten rounds of fuel are never used up. -/
def decodeVarintLoop (mem : Memory) (end_ : UInt64) :
    ℕ → ℕ → UInt64 → UInt64 → Except ReadError (UInt64 × UInt64)
  | 0, _, _, _ => .error .varintOverflow
  | fuel + 1, shift, v, p =>
      if p < end_ then
        let b := mem p
        let v := v ||| ((b &&& 0x7F).toUInt64 <<< UInt64.ofNat shift)
        if b &&& 0x80 = 0 then .ok (v, p + 1)
        else if 64 ≤ shift + 7 then .error .varintOverflow
        else decodeVarintLoop mem end_ fuel (shift + 7) v (p + 1)
      else .error .truncatedVarint

/-- `decode_varint`: the value and the cursor after it. -/
def decodeVarint (mem : Memory) (p end_ : UInt64) : Except ReadError (UInt64 × UInt64) :=
  decodeVarintLoop mem end_ 10 0 0 p

/-- `skip_field`: whether a field of this wire type could be skipped. -/
def skipField (mem : Memory) (r : ProtoReader) (wire : UInt32) :
    Except ReadError (Bool × ProtoReader) :=
  if wire = 0 then do
    let (_, p) ← decodeVarint mem r.p r.end_
    return (decide (p ≤ r.end_), { r with p })
  else if wire = 1 then
    if r.end_ < r.p + 8 then .ok (false, r) else .ok (true, { r with p := r.p + 8 })
  else if wire = 2 then do
    let (len, p) ← decodeVarint mem r.p r.end_
    if r.end_ < p + len then return (false, { r with p })
    else return (true, { r with p := p + len })
  else if wire = 5 then
    if r.end_ < r.p + 4 then .ok (false, r) else .ok (true, { r with p := r.p + 4 })
  -- groups and unknown wire types cannot be skipped safely
  else .ok (false, r)

/-- `next`: the next field, or `none` where the source returns `false`. -/
def next (mem : Memory) (r : ProtoReader) :
    Except ReadError (Option WireField × ProtoReader) :=
  if r.end_ ≤ r.p then .ok (none, r)
  else do
    let (tag, p) ← decodeVarint mem r.p r.end_
    let field := (tag >>> 3).toUInt32
    let wire := (tag &&& 7).toUInt32
    if wire = 0 then
      let (value, p) ← decodeVarint mem p r.end_
      return (some ⟨field, wire, value, 0, 0⟩, { r with p })
    else if wire = 1 then
      if r.end_ < p + 8 then throw .truncatedFixed64
      else return (some ⟨field, wire, loadLE mem p 8, 0, 0⟩, { r with p := p + 8 })
    else if wire = 2 then
      let (len, p) ← decodeVarint mem p r.end_
      if r.end_ < p + len then throw .truncatedBytes
      else return (some ⟨field, wire, 0, p, len⟩, { r with p := p + len })
    else if wire = 5 then
      if r.end_ < p + 4 then throw .truncatedFixed32
      else return (some ⟨field, wire, loadLE mem p 4, 0, 0⟩, { r with p := p + 4 })
    else
      let (skipped, r) ← skipField mem { r with p } wire
      if skipped then return (some ⟨field, wire, 0, 0, 0⟩, r)
      else return (none, r)

end ProtoReader

/-! ### Bytes between two addresses -/

section Bytes

variable {mem : Memory} {p q : UInt64} {n k : ℕ} {rest : List UInt8}

@[simp] theorem length_bytesAt (mem : Memory) (p : UInt64) (n : ℕ) :
    (bytesAt mem p n).length = n := by
  induction n generalizing p with
  | zero => rfl
  | succ n ih => simp [bytesAt, ih]

theorem add_one_add_ofNat (p : UInt64) (k : ℕ) :
    p + 1 + UInt64.ofNat k = p + UInt64.ofNat (k + 1) := by
  rw [UInt64.ofNat_add, UInt64.add_assoc, UInt64.add_comm 1]
  rfl

theorem drop_bytesAt (mem : Memory) (p : UInt64) (n k : ℕ) :
    (bytesAt mem p n).drop k = bytesAt mem (p + UInt64.ofNat k) (n - k) := by
  induction n generalizing p k with
  | zero => simp [bytesAt]
  | succ n ih =>
    cases k with
    | zero => simp
    | succ k =>
      rw [bytesAt, List.drop_succ_cons, ih, add_one_add_ofNat, Nat.add_sub_add_right]

theorem take_bytesAt (mem : Memory) (p : UInt64) (n k : ℕ) :
    (bytesAt mem p n).take k = bytesAt mem p (min k n) := by
  induction n generalizing p k with
  | zero => simp [bytesAt]
  | succ n ih =>
    cases k with
    | zero => simp [bytesAt]
    | succ k => rw [bytesAt, List.take_succ_cons, ih, Nat.succ_min_succ, bytesAt]

theorem getElem_bytesAt (mem : Memory) (p : UInt64) {n i : ℕ} (hi : i < (bytesAt mem p n).length) :
    (bytesAt mem p n)[i] = mem (p + UInt64.ofNat i) := by
  induction n generalizing p i with
  | zero => cases hi
  | succ n ih =>
    cases i with
    | zero => simp [bytesAt]
    | succ i =>
      rw [← add_one_add_ofNat]
      exact ih (p + 1) (Nat.lt_of_succ_lt_succ hi)

/-- These bytes from address `0x1000` on. -/
def memoryOf (bs : List UInt8) : Memory := fun a => bs.getD (a.toNat - 0x1000) 0

theorem bytesAt_memoryOf {bs behind : List UInt8} (hbs : bs.length < 2 ^ 63) :
    bytesAt (memoryOf (bs ++ behind)) 0x1000 bs.length = bs := by
  refine List.ext_getElem (length_bytesAt ..) fun i hi hi' => ?_
  have haddr : (0x1000 + UInt64.ofNat i).toNat - 0x1000 = i := by
    rw [UInt64.toNat_add, UInt64.toNat_ofNat_of_lt' (by omega : i < 2 ^ 64)]
    change (0x1000 + i) % 2 ^ 64 - 0x1000 = i
    omega
  have hget : (bs ++ behind).getD i 0 = bs[i] := by
    rw [List.getD_eq_getElem?_getD, List.getElem?_append_left hi', List.getElem?_eq_getElem hi']
    rfl
  rw [getElem_bytesAt, memoryOf, haddr, hget]

/-- A slice in the middle of some bytes. -/
theorem bytesAt_slice {pre mid post : List UInt8} (h : bytesAt mem p n = pre ++ mid ++ post) :
    bytesAt mem (p + UInt64.ofNat pre.length) mid.length = mid := by
  have hlength := congrArg List.length h
  simp only [length_bytesAt, List.length_append] at hlength
  have hdrop := congrArg (List.drop pre.length) h
  rw [drop_bytesAt, List.append_assoc, List.drop_left] at hdrop
  have htake := congrArg (List.take mid.length) hdrop
  rwa [take_bytesAt, List.take_left, Nat.min_eq_left (by omega)] at htake

theorem toNat_sub_of_le' (h : p ≤ q) : (q - p).toNat = q.toNat - p.toNat :=
  UInt64.toNat_sub_of_le _ _ h

theorem length_bytesBetween (h : p ≤ q) :
    (bytesBetween mem p q).length = q.toNat - p.toNat := by
  rw [bytesBetween, length_bytesAt, toNat_sub_of_le' h]

/-- A suffix of the bytes between two addresses lies right before the upper one. -/
theorem eq_bytesBetween_of_suffix (h : p ≤ q) (hs : rest <:+ bytesBetween mem p q) :
    rest = bytesBetween mem (q - UInt64.ofNat rest.length) q ∧
      p ≤ q - UInt64.ofNat rest.length ∧
      (q - UInt64.ofNat rest.length).toNat = q.toNat - rest.length := by
  have hlen := hs.length_le
  rw [length_bytesBetween h] at hlen
  have hq := q.toNat_lt
  have hofNat : (UInt64.ofNat rest.length).toNat = rest.length := by
    rw [UInt64.toNat_ofNat']
    exact Nat.mod_eq_of_lt (by omega)
  have hle : UInt64.ofNat rest.length ≤ q := by
    rw [UInt64.le_iff_toNat_le, hofNat]
    omega
  have hsub : (q - UInt64.ofNat rest.length).toNat = q.toNat - rest.length := by
    rw [UInt64.toNat_sub_of_le _ _ hle, hofNat]
  refine ⟨?_, by rw [UInt64.le_iff_toNat_le] at h ⊢; omega, hsub⟩
  have haddr : p + UInt64.ofNat (q.toNat - p.toNat - rest.length) =
      q - UInt64.ofNat rest.length := by
    rw [UInt64.le_iff_toNat_le] at h
    apply UInt64.toNat_inj.mp
    rw [UInt64.toNat_add, UInt64.toNat_ofNat', hsub]
    omega
  have hcount : (q - (q - UInt64.ofNat rest.length)).toNat = rest.length := by
    rw [toNat_sub_of_le' (by rw [UInt64.le_iff_toNat_le]; omega), hsub]
    rw [UInt64.le_iff_toNat_le, hofNat] at hle
    omega
  have hdrop := List.suffix_iff_eq_drop.mp hs
  rw [length_bytesBetween h, bytesBetween, drop_bytesAt, toNat_sub_of_le' h, haddr] at hdrop
  rw [bytesBetween, hcount]
  rwa [show q.toNat - p.toNat - (q.toNat - p.toNat - rest.length) = rest.length by omega] at hdrop

@[simp] theorem bytesBetween_self (mem : Memory) (p : UInt64) : bytesBetween mem p p = [] := by
  rw [bytesBetween, UInt64.sub_self]
  rfl

theorem bytesBetween_cons (h : p < q) :
    bytesBetween mem p q = mem p :: bytesBetween mem (p + 1) q := by
  rw [UInt64.lt_iff_toNat_lt] at h
  have hq := q.toNat_lt
  have hsucc : (p + 1).toNat = p.toNat + 1 := by
    rw [UInt64.toNat_add, UInt64.toNat_one]
    omega
  have hcount : (q - p).toNat = (q - (p + 1)).toNat + 1 := by
    rw [toNat_sub_of_le' (by rw [UInt64.le_iff_toNat_le]; omega),
      toNat_sub_of_le' (by rw [UInt64.le_iff_toNat_le]; omega), hsucc]
    omega
  rw [bytesBetween, hcount]
  rfl

theorem succ_le_of_lt (h : p < q) : p + 1 ≤ q := by
  have hq := q.toNat_lt
  rw [UInt64.lt_iff_toNat_lt] at h
  rw [UInt64.le_iff_toNat_le, UInt64.toNat_add, UInt64.toNat_one]
  omega

theorem sub_ofNat_length_bytesBetween (h : p ≤ q) :
    q - UInt64.ofNat (bytesBetween mem p q).length = p := by
  have hq := q.toNat_lt
  rw [length_bytesBetween h]
  rw [UInt64.le_iff_toNat_le] at h
  have hofNat : (UInt64.ofNat (q.toNat - p.toNat)).toNat = q.toNat - p.toNat := by
    rw [UInt64.toNat_ofNat']
    exact Nat.mod_eq_of_lt (by omega)
  apply UInt64.toNat_inj.mp
  rw [UInt64.toNat_sub_of_le _ _ (by rw [UInt64.le_iff_toNat_le, hofNat]; omega), hofNat]
  omega

end Bytes

/-! ### Agreement with the wire format -/

section Agreement

open ProtoReader

variable {mem : Memory} {p end_ : UInt64} {r : ProtoReader} {e : ReadError} {h : Wire.Header}

theorem decodeVarintLoop_eq {fuel shift : ℕ} {v : UInt64} (hp : p ≤ end_) :
    decodeVarintLoop mem end_ fuel shift v p =
      (Wire.varintLoop fuel shift v (bytesBetween mem p end_)).map
        fun r => (r.1, end_ - UInt64.ofNat r.2.length) := by
  induction fuel generalizing shift v p with
  | zero => rfl
  | succ fuel ih =>
    by_cases hlt : p < end_
    · have hle := succ_le_of_lt hlt
      simp only [decodeVarintLoop, if_pos hlt, bytesBetween_cons hlt, Wire.varintLoop]
      split_ifs
      · simp [Except.map, sub_ofNat_length_bytesBetween hle]
      · rfl
      · exact ih hle
    · obtain rfl : p = end_ := UInt64.le_antisymm hp (UInt64.not_lt.mp hlt)
      simp [decodeVarintLoop, Wire.varintLoop, Except.map]

/-- A varint read from memory is the varint of the bytes up to the limit, and the
cursor ends right before the bytes that are left. -/
theorem decodeVarint_eq (hp : p ≤ end_) :
    decodeVarint mem p end_ =
      (Wire.varint (bytesBetween mem p end_)).map
        fun r => (r.1, end_ - UInt64.ofNat r.2.length) :=
  decodeVarintLoop_eq hp

/-- The field that `next` hands out for a head whose payload starts at `a`. -/
def wireFieldOf (mem : Memory) (h : Wire.Header) (a : UInt64) : WireField where
  field := h.field
  wire := h.wire
  value :=
    if h.wire = 0 then h.value
    else if h.wire = 2 then 0
    else loadLE mem a h.size
  data := if h.wire = 2 then a else 0
  len := if h.wire = 2 then UInt64.ofNat h.size else 0

/-- The address at which the payload of a head starts. -/
def payloadAddr (end_ : UInt64) (h : Wire.Header) : UInt64 :=
  end_ - UInt64.ofNat h.rest.length

theorem decodeVarint_of_suffix {rest : List UInt8} (hp : p ≤ end_)
    (hs : rest <:+ bytesBetween mem p end_) :
    decodeVarint mem (end_ - UInt64.ofNat rest.length) end_ =
      (Wire.varint rest).map fun r => (r.1, end_ - UInt64.ofNat r.2.length) := by
  obtain ⟨hrest, -, hsub⟩ := eq_bytesBetween_of_suffix hp hs
  rw [decodeVarint_eq (by rw [UInt64.le_iff_toNat_le, hsub]; omega), ← hrest]

/-- `next` reads the head the wire format prescribes; only the test whether the
payload is all there is made in wrapping arithmetic. -/
theorem next_eq_header (hlt : r.p < r.end_) :
    match Wire.header (bytesBetween mem r.p r.end_) with
    | .error e => next mem r = .error e
    | .ok none => ∃ p, next mem r = .ok (none, { r with p })
    | .ok (some h) =>
        next mem r =
          if r.end_ < payloadAddr r.end_ h + UInt64.ofNat h.size then
            .error (Wire.truncated h.wire)
          else .ok (some (wireFieldOf mem h (payloadAddr r.end_ h)),
            { r with p := payloadAddr r.end_ h + UInt64.ofNat h.size }) := by
  have hle : r.p ≤ r.end_ := UInt64.le_of_lt hlt
  simp only [Wire.header, next, if_neg (UInt64.not_le.mpr hlt), decodeVarint_eq hle]
  cases htag : Wire.varint (bytesBetween mem r.p r.end_) with
  | error e => simp [Except.map, bind, Except.bind]
  | ok t =>
    obtain ⟨tag, rest⟩ := t
    have hsuf := (Wire.varint_suffix htag).1
    simp only [Except.map, bind, Except.bind, decodeVarint_of_suffix hle hsuf]
    generalize (tag &&& 7).toUInt32 = wire
    -- one case for each wire type that has a payload; the others end the message
    by_cases h0 : wire = 0
    · subst h0
      cases hval : Wire.varint rest with
      | error e => simp
      | ok t =>
        have hnot : ¬ r.end_ < r.end_ - UInt64.ofNat t.2.length := by
          obtain ⟨-, -, hsub⟩ := eq_bytesBetween_of_suffix hle
            ((Wire.varint_suffix hval).1.trans hsuf)
          rw [UInt64.lt_iff_toNat_lt, hsub]
          omega
        simp [pure, Except.pure, payloadAddr, wireFieldOf, hnot]
    by_cases h1 : wire = 1
    · subst h1
      simp [pure, Except.pure, payloadAddr, wireFieldOf, Wire.truncated, throw, throwThe,
        MonadExceptOf.throw]
    by_cases h2 : wire = 2
    · subst h2
      cases hlen : Wire.varint rest with
      | error e => simp
      | ok t =>
        simp [pure, Except.pure, payloadAddr, wireFieldOf, Wire.truncated, throw, throwThe,
          MonadExceptOf.throw]
    by_cases h5 : wire = 5
    · subst h5
      simp [pure, Except.pure, payloadAddr, wireFieldOf, Wire.truncated, throw, throwThe,
        MonadExceptOf.throw]
    · simp [h0, h1, h2, h5, skipField, pure, Except.pure]

/-- Where the announced payload ends, as a natural number. -/
def payloadEnd (end_ : UInt64) (h : Wire.Header) : ℕ :=
  end_.toNat - h.rest.length + h.size

theorem toNat_payloadAddr (hp : p ≤ end_)
    (hh : Wire.header (bytesBetween mem p end_) = .ok (some h)) :
    (payloadAddr end_ h).toNat = end_.toNat - h.rest.length ∧
      p < payloadAddr end_ h ∧ h.rest.length ≤ end_.toNat := by
  obtain ⟨hsuf, hlt⟩ := Wire.header_suffix hh
  obtain ⟨-, -, hsub⟩ := eq_bytesBetween_of_suffix hp hsuf
  rw [length_bytesBetween hp] at hlt
  refine ⟨hsub, ?_, by omega⟩
  rw [UInt64.lt_iff_toNat_lt, payloadAddr, hsub]
  omega

theorem toNat_payloadAddr_add (hp : p ≤ end_)
    (hh : Wire.header (bytesBetween mem p end_) = .ok (some h)) :
    (payloadAddr end_ h + UInt64.ofNat h.size).toNat = payloadEnd end_ h % 2 ^ 64 := by
  rw [UInt64.toNat_add, UInt64.toNat_ofNat', (toNat_payloadAddr hp hh).1, payloadEnd]
  omega

theorem next_of_header (hlt : r.p < r.end_)
    (hh : Wire.header (bytesBetween mem r.p r.end_) = .ok (some h)) :
    next mem r =
      if r.end_ < payloadAddr r.end_ h + UInt64.ofNat h.size then
        .error (Wire.truncated h.wire)
      else .ok (some (wireFieldOf mem h (payloadAddr r.end_ h)),
        { r with p := payloadAddr r.end_ h + UInt64.ofNat h.size }) := by
  have hnext := @next_eq_header mem r hlt
  rwa [hh] at hnext

/-- A payload that ends below `2 ^ 64` is found truncated exactly when it is. -/
theorem next_eq_of_fits (hlt : r.p < r.end_)
    (hh : Wire.header (bytesBetween mem r.p r.end_) = .ok (some h))
    (hfit : payloadEnd r.end_ h < 2 ^ 64) :
    next mem r =
      if h.rest.length < h.size then .error (Wire.truncated h.wire)
      else .ok (some (wireFieldOf mem h (payloadAddr r.end_ h)),
        { r with p := r.end_ - UInt64.ofNat (h.rest.drop h.size).length }) := by
  have hle : r.p ≤ r.end_ := UInt64.le_of_lt hlt
  have hend := toNat_payloadAddr_add hle hh
  have hrest := (toNat_payloadAddr hle hh).2.2
  rw [Nat.mod_eq_of_lt hfit] at hend
  rw [next_of_header hlt hh]
  by_cases hshort : h.rest.length < h.size
  · rw [if_pos hshort, if_pos]
    rw [UInt64.lt_iff_toNat_lt, hend, payloadEnd]
    omega
  · have haddr : payloadAddr r.end_ h + UInt64.ofNat h.size =
        r.end_ - UInt64.ofNat (h.rest.drop h.size).length := by
      obtain ⟨-, -, hsub⟩ := eq_bytesBetween_of_suffix hle
        ((List.drop_suffix h.size h.rest).trans (Wire.header_suffix hh).1)
      apply UInt64.toNat_inj.mp
      rw [hend, hsub, payloadEnd, List.length_drop]
      omega
    rw [if_neg hshort, if_neg, haddr]
    rw [UInt64.lt_iff_toNat_lt, hend, payloadEnd]
    omega

/-- A payload that wraps around the address space passes the test, whatever is
left of the buffer, and moves the cursor to where the wrapped sum points. -/
theorem next_of_wraps (hlt : r.p < r.end_)
    (hh : Wire.header (bytesBetween mem r.p r.end_) = .ok (some h))
    (hwrap : 2 ^ 64 ≤ payloadEnd r.end_ h) :
    next mem r =
      .ok (some (wireFieldOf mem h (payloadAddr r.end_ h)),
        { r with p := payloadAddr r.end_ h + UInt64.ofNat h.size }) := by
  have hle : r.p ≤ r.end_ := UInt64.le_of_lt hlt
  have hsize := Wire.header_size_lt hh
  have hend := r.end_.toNat_lt
  rw [next_of_header hlt hh, if_neg]
  -- the wrapped sum lies below the payload, hence below the limit
  rw [UInt64.lt_iff_toNat_lt, toNat_payloadAddr_add hle hh]
  unfold payloadEnd at hwrap ⊢
  omega

end Agreement

end PropMiner.Proto
