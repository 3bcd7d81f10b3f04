import PropMiner.Proto.Safety
import PropMiner.Wire.Writer

/-!
# Decoding as a fold over fields

A decode loop over a buffer whose bytes can be read as fields, in unbounded arithmetic,
meets exactly those fields: `next` hands them out one by one, a number in `value` and bytes
as a slice of the buffer. What the loop computes is then a fold over the list of fields,
wherever in memory the buffer lies.

## Main definitions

* `Presents` — what `next` hands out for a field
* `readMessage` — the fold over the fields of a message
* `readAll` — all fields of a buffer
* `arrayIf`, `doubleIf` — what the decoders do with a slice

## Main results

* `OnTrack.next_field` — `next` presents the field that the wire format reads
* `Buffer.decodeLoop_fields` — a decode loop is a fold over the fields
* `Presents.decodeLoop_read` — so is a loop over the slice of a field
* `Buffer.exists_readAll`, `Presents.exists_readAll` — written fields are handed out again
-/

set_option autoImplicit false

namespace PropMiner.Proto

open PropMiner.Wire (ReadError)
open PropMiner.Semantics
open ProtoReader

/-! ### What `next` hands out -/

section Presents

variable {mem : Memory} {data len : UInt64} {r : ProtoReader} {f : Wire.Field} {w : WireField}
  {cs ds payload : List UInt8} {h : Wire.Header}

/-- What `next` hands out for a field: its number, or its bytes as a slice of memory. -/
structure Presents (mem : Memory) (f : Wire.Field) (w : WireField) : Prop where
  field : w.field = f.number
  value : w.value = f.value.number
  len : w.len.toNat = f.value.slice.length
  bound : w.data.toNat + f.value.slice.length < 2 ^ 64
  bytes : bytesAt mem w.data f.value.slice.length = f.value.slice

theorem toNat_loadLE (mem : Memory) (p : UInt64) {n : ℕ} (hn : n ≤ 8) :
    (loadLE mem p n).toNat = LittleEndian.value (bytesAt mem p n) := by
  induction n generalizing p with
  | zero => rfl
  | succ n ih =>
    have hrest := ih (p + 1) (by omega)
    have hlt := LittleEndian.value_lt (bytesAt mem (p + 1) n)
    have hpow : 256 ^ n ≤ 256 ^ 7 := Nat.pow_le_pow_right (by norm_num) (by omega)
    rw [length_bytesAt] at hlt
    have hbyte : (mem p).toUInt64.toNat < 2 ^ 8 := by
      rw [UInt8.toNat_toUInt64]
      exact (mem p).toNat_lt
    have hfits : (loadLE mem (p + 1) n).toNat * 2 ^ 8 < 2 ^ 64 := by
      rw [hrest]
      norm_num at hpow ⊢
      omega
    have hor : (loadLE mem p (n + 1)).toNat =
        (mem p).toUInt64.toNat + (loadLE mem (p + 1) n).toNat * 2 ^ 8 :=
      Wire.toNat_or_shiftLeft hbyte (by norm_num) hfits
    rw [hor, bytesAt, LittleEndian.value_cons, hrest, UInt8.toNat_toUInt64]
    omega

theorem loadLE_eq (mem : Memory) (p : UInt64) {n : ℕ} (hn : n ≤ 8) :
    loadLE mem p n = UInt64.ofNat (LittleEndian.value (bytesAt mem p n)) := by
  rw [← toNat_loadLE mem p hn, UInt64.ofNat_toNat]

/-- The payload of a field lies in memory where its head says. -/
theorem OnTrack.bytesAt_payload (ht : OnTrack mem data len r cs)
    (hread : Wire.readField cs = .ok (some (h, payload, ds))) :
    bytesAt mem (payloadAddr r.end_ h) h.size = payload ∧
      (payloadAddr r.end_ h).toNat + h.size ≤ r.end_.toNat := by
  obtain ⟨-, hh, hsize, rfl, -⟩ := Wire.readField_some_iff.mp hread
  have hsuffix : h.rest <:+ bytesBetween mem r.p r.end_ := by
    rw [ht.bytes]
    exact (Wire.header_suffix hh).1
  obtain ⟨hbytes, -, hsub⟩ := eq_bytesBetween_of_suffix ht.below hsuffix
  have hle := (toNat_payloadAddr ht.below (ht.bytes ▸ hh)).2.2
  refine ⟨?_, ?_⟩
  · have hlength := congrArg List.length hbytes
    rw [bytesBetween, length_bytesAt] at hlength
    have htake := congrArg (List.take h.size) hbytes
    rw [bytesBetween, take_bytesAt, ← hlength, Nat.min_eq_left hsize] at htake
    exact htake.symm
  · rw [payloadAddr, hsub]
    omega

/-- The field that `next` makes of a head and a payload presents them. -/
theorem presents_wireFieldOf {a : UInt64} (hh : Wire.header cs = .ok (some h))
    (hbytes : bytesAt mem a h.size = payload) (hend : a.toNat + h.size < 2 ^ 64) :
    Presents mem ⟨h.field, .ofRead h payload⟩ (wireFieldOf mem h a) := by
  have hlength : payload.length = h.size := by rw [← hbytes, length_bytesAt]
  -- the four wire types: varint, 64 bits, bytes, 32 bits
  obtain ⟨h0, hsize⟩ | ⟨h1, hsize⟩ | h2 | ⟨h5, hsize⟩ := Wire.header_kinds hh
  · have hvalue : Wire.Value.ofRead h payload = .varint h.value := by simp [Wire.Value.ofRead, h0]
    rw [hvalue]
    refine ⟨rfl, ?_, ?_, ?_, ?_⟩ <;>
      simp [wireFieldOf, h0, Wire.Value.number, Wire.Value.slice, bytesAt]
  · have hvalue : Wire.Value.ofRead h payload =
        .fixed64 (UInt64.ofNat (LittleEndian.value payload)) := by simp [Wire.Value.ofRead, h1]
    have hload := loadLE_eq mem a hsize.le
    rw [hbytes] at hload
    rw [hvalue]
    refine ⟨rfl, ?_, ?_, ?_, ?_⟩ <;>
      simp [wireFieldOf, h1, Wire.Value.number, Wire.Value.slice, bytesAt, hload]
  · have hvalue : Wire.Value.ofRead h payload = .bytes payload := by simp [Wire.Value.ofRead, h2]
    obtain ⟨hdata, hlen⟩ := @wireFieldOf_slice mem cs h a hh h2
    rw [hvalue]
    refine ⟨rfl, by simp [wireFieldOf, h2, Wire.Value.number], ?_, ?_, ?_⟩
    · rw [hlen]
      exact hlength.symm
    · rw [hdata]
      simpa [Wire.Value.slice, hlength] using hend
    · rw [hdata]
      simpa [Wire.Value.slice, hlength] using hbytes
  · have hvalue : Wire.Value.ofRead h payload =
        .fixed32 (UInt32.ofNat (LittleEndian.value payload)) := by simp [Wire.Value.ofRead, h5]
    have hload := loadLE_eq mem a (show h.size ≤ 8 by omega)
    have hsmall : LittleEndian.value payload < 2 ^ 32 := by
      have hlt := LittleEndian.value_lt payload
      rw [hlength, hsize] at hlt
      omega
    rw [hbytes] at hload
    rw [hvalue]
    refine ⟨rfl, ?_, ?_, ?_, ?_⟩
    · have hcast : (UInt32.ofNat (LittleEndian.value payload)).toUInt64 =
          UInt64.ofNat (LittleEndian.value payload) := by
        apply UInt64.toNat_inj.mp
        rw [UInt32.toNat_toUInt64, UInt32.toNat_ofNat_of_lt' hsmall,
          UInt64.toNat_ofNat_of_lt' (hsmall.trans (by decide))]
      simp [wireFieldOf, h5, Wire.Value.number, hload, hcast]
    all_goals simp [wireFieldOf, h5, Wire.Value.slice, bytesAt]

/-- Before a field, `next` presents it and moves behind it. -/
theorem OnTrack.next_field (ht : OnTrack mem data len r cs)
    (hread : Wire.readField cs = .ok (some (h, payload, ds))) :
    ∃ w, next mem r = .ok (some w, Proto.after r ds) ∧
      Presents mem ⟨h.field, .ofRead h payload⟩ w ∧
      OnTrack mem data len (Proto.after r ds) ds := by
  obtain ⟨hbytes, hend⟩ := ht.bytesAt_payload hread
  have hlt := r.end_.toNat_lt
  obtain ⟨-, hh, hsize, hpayload, -⟩ := Wire.readField_some_iff.mp hread
  have haddr := (toNat_payloadAddr ht.below (ht.bytes ▸ hh)).1
  have hfit : payloadEnd r.end_ h < 2 ^ 64 := by
    rw [haddr] at hend
    unfold payloadEnd
    omega
  exact ⟨_, ht.next_of_readField hread hfit, presents_wireFieldOf hh hbytes (by omega),
    (ht.after hread).1⟩

/-- At the end of a message, or at a field that cannot be skipped, `next` returns `false`. -/
theorem OnTrack.next_end (ht : OnTrack mem data len r cs) (hread : Wire.readField cs = .ok none) :
    ∃ r', next mem r = .ok (none, r') := by
  by_cases hlt : r.p < r.end_
  · have hne := ht.ne_nil hlt
    have hnext := @next_eq_header mem r hlt
    rw [ht.bytes] at hnext
    rw [Wire.header_of_readField_none hne hread] at hnext
    obtain ⟨p, hp⟩ := hnext
    exact ⟨_, hp⟩
  · exact ⟨r, by rw [next, if_pos (UInt64.not_lt.mp hlt)]⟩

end Presents

/-! ### Loops -/

section Loops

variable {mem : Memory} {β : Type*} {body : β → WireField → Option (Except ReadError β)}
  {absorb : β → Wire.Field → Option β} {fs : List Wire.Field} {msg result : β}

/-- A decode loop takes in the fields of its buffer one by one. -/
theorem OnTrack.decodeLoop_fields {data len : UInt64} {cs : List UInt8}
    (hfields : Wire.fields cs = .ok fs)
    (hbody : ∀ f ∈ fs, ∀ msg w result, Presents mem f w → absorb msg f = some result →
      body msg w = some (.ok result)) :
    ∀ (r : ProtoReader) (msg : β) (n : ℕ), OnTrack mem data len r cs →
      fs.foldlM absorb msg = some result → fs.length < n →
      decodeLoop mem body n r msg = some (.ok result) := by
  revert hbody
  refine Wire.fields_induction (P := fun cs fs =>
    (∀ f ∈ fs, ∀ msg w result, Presents mem f w → absorb msg f = some result →
      body msg w = some (.ok result)) →
    ∀ (r : ProtoReader) (msg : β) (n : ℕ), OnTrack mem data len r cs →
      fs.foldlM absorb msg = some result → fs.length < n →
      decodeLoop mem body n r msg = some (.ok result)) ?nil ?cons hfields
  case nil =>
    intro cs hread _ r msg n ht hfold hn
    obtain ⟨n, rfl⟩ : ∃ k, n = k + 1 := Nat.exists_eq_add_one.mpr hn
    obtain ⟨r', hnext⟩ := ht.next_end hread
    obtain rfl := Option.some.inj hfold
    simp only [decodeLoop, hnext]
  case cons =>
    intro cs h payload rest fs hread _ ih hbody r msg n ht hfold hn
    obtain ⟨n, rfl⟩ : ∃ k, n = k + 1 := Nat.exists_eq_add_one.mpr (Nat.zero_lt_of_lt hn)
    obtain ⟨w, hnext, hw, ht'⟩ := ht.next_field hread
    rw [List.foldlM_cons] at hfold
    obtain ⟨msg', habsorb, hrest⟩ := Option.bind_eq_some_iff.mp hfold
    simp only [decodeLoop, hnext, hbody _ List.mem_cons_self msg w msg' hw habsorb]
    exact ih (fun g hg => hbody g (List.mem_cons_of_mem _ hg)) _ _ _ ht' hrest
      (Nat.lt_of_succ_lt_succ hn)

theorem Buffer.decodeLoop_fields (b : Buffer) {n : ℕ}
    (hfields : Wire.fields (bytesBetween mem b.data (b.data + b.len)) = .ok fs)
    (hbody : ∀ f ∈ fs, ∀ msg w result, Presents mem f w → absorb msg f = some result →
      body msg w = some (.ok result))
    (hfold : fs.foldlM absorb msg = some result) (hn : fs.length < n) :
    decodeLoop mem body n (.make b.data b.len) msg = some (.ok result) :=
  OnTrack.decodeLoop_fields hfields hbody _ msg n b.onTrack hfold hn

/-- Take in the fields of a message, if all of them can be read. -/
def readMessage (absorb : β → Wire.Field → Option β) (msg : β) (bs : List UInt8) : Option β :=
  match Wire.fields bs with
  | .ok fs => fs.foldlM absorb msg
  | .error _ => none

theorem foldlM_some {α : Type*} (step : β → α → β) (xs : List α) (msg : β) :
    xs.foldlM (fun m x => some (step m x)) msg = some (xs.foldl step msg) := by
  induction xs generalizing msg with
  | nil => rfl
  | cons x xs ih => exact ih _

/-- Every field of a message that was read has been taken in. -/
theorem exists_of_mem_foldlM {α : Type*} {step : β → α → Option β} {x : α} {xs : List α}
    (hfold : xs.foldlM step msg = some result) (hx : x ∈ xs) :
    ∃ msg' result', step msg' x = some result' := by
  induction xs generalizing msg with
  | nil => cases hx
  | cons y ys ih =>
    rw [List.foldlM_cons] at hfold
    obtain ⟨msg', hy, hrest⟩ := Option.bind_eq_some_iff.mp hfold
    rcases List.mem_cons.mp hx with rfl | hx
    · exact ⟨msg, msg', hy⟩
    · exact ih hrest hx

theorem readMessage_eq_some_iff {bs : List UInt8} : readMessage absorb msg bs = some result ↔
    ∃ fs, Wire.fields bs = .ok fs ∧ fs.foldlM absorb msg = some result := by
  unfold readMessage
  cases Wire.fields bs with
  | error e => simp
  | ok fs => simp

theorem bytesBetween_add (mem : Memory) (p n : UInt64) :
    bytesBetween mem p (p + n) = bytesAt mem p n.toNat := by
  rw [bytesBetween, UInt64.add_comm, UInt64.add_sub_cancel]

/-- The slice of a presented field is a buffer of its own. -/
theorem Presents.buffer {f : Wire.Field} {w : WireField} (hw : Presents mem f w) :
    ∃ b : Buffer, b.data = w.data ∧ b.len = w.len ∧
      bytesBetween mem b.data (b.data + b.len) = f.value.slice := by
  have hslice : bytesBetween mem w.data (w.data + w.len) = f.value.slice := by
    rw [bytesBetween_add, hw.len, hw.bytes]
  exact ⟨⟨w.data, w.len, by rw [hw.len]; exact hw.bound⟩, rfl, rfl, hslice⟩

/-- A message in the slice of a field is decoded as it is read. -/
theorem Presents.decodeLoop_read {f : Wire.Field} {w : WireField} {n : ℕ} (hw : Presents mem f w)
    (hbody : ∀ g, g.value.slice.length ≤ f.value.slice.length → ∀ msg w result,
      Presents mem g w → absorb msg g = some result → body msg w = some (.ok result))
    (hread : readMessage absorb msg f.value.slice = some result)
    (hn : f.value.slice.length < n) :
    decodeLoop mem body n (.make w.data w.len) msg = some (.ok result) := by
  obtain ⟨b, hdata, hlen, hbytes⟩ := hw.buffer
  obtain ⟨fs, hfields, hfold⟩ := readMessage_eq_some_iff.mp hread
  have hcount := Wire.length_fields_le hfields
  rw [← hdata, ← hlen]
  refine b.decodeLoop_fields (hbytes ▸ hfields) (fun g hg => ?_) hfold (by omega)
  exact hbody g (Wire.length_slice_le hfields g hg)

/-- The fold of a message that takes any field. -/
def readPlain (absorb : β → Wire.Field → β) (msg : β) (bs : List UInt8) : Option β :=
  readMessage (fun msg f => some (absorb msg f)) msg bs

theorem Presents.decodeLoop_readPlain {absorb : β → Wire.Field → β} {f : Wire.Field}
    {w : WireField} {n : ℕ} (hw : Presents mem f w) (hlen : f.value.slice.length < 2 ^ 63)
    (hbody : ∀ g msg w, g.value.slice.length < 2 ^ 63 → Presents mem g w →
      body msg w = some (.ok (absorb msg g)))
    (hread : readPlain absorb msg f.value.slice = some result) (hn : f.value.slice.length < n) :
    decodeLoop mem body n (.make w.data w.len) msg = some (.ok result) := by
  refine hw.decodeLoop_read (fun g hg msg w result hw hresult => ?_) hread hn
  obtain rfl := Option.some.inj hresult
  exact hbody g msg w (hg.trans_lt hlen) hw

end Loops

/-! ### All fields of a message -/

section Collect

variable {mem : Memory} {fs : List Wire.Field} {ws : List WireField}

/-- A loop body that keeps each field. -/
def collect (ws : List WireField) (w : WireField) : Option (Except ReadError (List WireField)) :=
  some (.ok (ws ++ [w]))

/-- The fields that a `ProtoReader` over a buffer hands out, one after the other, until there
are no more. -/
def readAll (mem : Memory) (data len : UInt64) : Option (Except ReadError (List WireField)) :=
  decodeLoop mem collect (len.toNat + 1) (.make data len) []

/-- The bytes of the fields with this number. -/
def slicesOf (mem : Memory) (ws : List WireField) (number : UInt32) : List (List UInt8) :=
  (ws.filter (·.field = number)).map fun w => bytesAt mem w.data w.len.toNat

/-- The values of the fields with this number. -/
def numbersOf (ws : List WireField) (number : UInt32) : List UInt64 :=
  (ws.filter (·.field = number)).map (·.value)

theorem OnTrack.decodeLoop_collect {data len : UInt64} {cs : List UInt8}
    (hfields : Wire.fields cs = .ok fs) :
    ∀ r, OnTrack mem data len r cs → ∃ ws, List.Forall₂ (Presents mem) fs ws ∧
      ∀ acc n, fs.length < n → decodeLoop mem collect n r acc = some (.ok (acc ++ ws)) := by
  refine Wire.fields_induction (P := fun cs fs => ∀ r, OnTrack mem data len r cs →
    ∃ ws, List.Forall₂ (Presents mem) fs ws ∧
      ∀ acc n, fs.length < n → decodeLoop mem collect n r acc = some (.ok (acc ++ ws)))
    ?nil ?cons hfields
  case nil =>
    intro cs hread r ht
    obtain ⟨r', hnext⟩ := ht.next_end hread
    refine ⟨[], .nil, fun acc n hn => ?_⟩
    obtain ⟨n, rfl⟩ : ∃ k, n = k + 1 := Nat.exists_eq_add_one.mpr hn
    simp only [decodeLoop, hnext, List.append_nil]
  case cons =>
    intro cs h payload rest fs hread _ ih r ht
    obtain ⟨w, hnext, hw, ht'⟩ := ht.next_field hread
    obtain ⟨ws, hws, hloop⟩ := ih _ ht'
    refine ⟨w :: ws, .cons hw hws, fun acc n hn => ?_⟩
    obtain ⟨n, rfl⟩ : ∃ k, n = k + 1 := Nat.exists_eq_add_one.mpr (Nat.zero_lt_of_lt hn)
    simp only [decodeLoop, hnext, collect, hloop _ n (Nat.lt_of_succ_lt_succ hn),
      List.append_assoc, List.singleton_append]

/-- Fields that were written into a buffer are handed out as they were written. -/
theorem Buffer.exists_readAll (b : Buffer)
    (hbytes : bytesBetween mem b.data (b.data + b.len) = fs.flatMap Wire.Field.encode) :
    ∃ ws, readAll mem b.data b.len = some (.ok ws) ∧ List.Forall₂ (Presents mem) fs ws := by
  have hlength : (fs.flatMap Wire.Field.encode).length = b.len.toNat := by
    rw [← hbytes, bytesBetween_add, length_bytesAt]
  have hfields : Wire.fields (bytesBetween mem b.data (b.data + b.len)) = .ok fs := by
    rw [hbytes]
    exact Wire.fields_encode (by rw [hlength]; exact b.len.toNat_lt)
  have hcount := Wire.length_fields_le hfields
  rw [hbytes, hlength] at hcount
  obtain ⟨ws, hws, hloop⟩ := OnTrack.decodeLoop_collect hfields _ b.onTrack
  exact ⟨ws, hloop [] _ (by omega), hws⟩

theorem Presents.exists_readAll {f : Wire.Field} {w : WireField} (hw : Presents mem f w)
    (hbytes : f.value.slice = fs.flatMap Wire.Field.encode) :
    ∃ ws, readAll mem w.data w.len = some (.ok ws) ∧ List.Forall₂ (Presents mem) fs ws := by
  obtain ⟨b, hdata, hlen, hslice⟩ := hw.buffer
  rw [← hdata, ← hlen]
  exact b.exists_readAll (hslice.trans hbytes)

/-- What is read off the fields handed out is read off those that were written. -/
theorem map_of_presents {α : Type*} {found : WireField → α} {written : Wire.Field → α}
    (hsame : ∀ f w, Presents mem f w → found w = written f)
    (hws : List.Forall₂ (Presents mem) fs ws) : ws.map found = fs.map written := by
  induction hws with
  | nil => rfl
  | cons hw _ ih => rw [List.map_cons, List.map_cons, hsame _ _ hw, ih]

theorem map_field_of_presents (hws : List.Forall₂ (Presents mem) fs ws) :
    ws.map (·.field) = fs.map (·.number) :=
  map_of_presents (fun _ _ hw => hw.field) hws

theorem filter_of_presents (hws : List.Forall₂ (Presents mem) fs ws) (number : UInt32) :
    List.Forall₂ (Presents mem) (fs.filter (·.number = number)) (ws.filter (·.field = number)) := by
  refine List.rel_filter (fun f w hw => ?_) hws
  change decide (f.number = number) = true ↔ decide (w.field = number) = true
  rw [hw.field]

theorem slicesOf_of_presents (hws : List.Forall₂ (Presents mem) fs ws) (number : UInt32) :
    slicesOf mem ws number = (fs.filter (·.number = number)).map (·.value.slice) := by
  refine map_of_presents (fun f w hw => ?_) (filter_of_presents hws number)
  rw [hw.len, hw.bytes]

theorem numbersOf_of_presents (hws : List.Forall₂ (Presents mem) fs ws) (number : UInt32) :
    numbersOf ws number = (fs.filter (·.number = number)).map (·.value.number) :=
  map_of_presents (fun _ _ hw => hw.value) (filter_of_presents hws number)

end Collect

/-! ### What the decoders do with a presented field -/

section Decoders

variable {mem : Memory} {f : Wire.Field} {w : WireField}

/-- `copyArrayIf`, on the bytes of the slice. -/
def arrayIf {n : ℕ} (bs : List UInt8) (old : Vector UInt8 n) : Vector UInt8 n :=
  if h : bs.length = n then ⟨bs.toArray, h⟩ else old

/-- `copyDoubleIf`, on the bytes of the slice. -/
def doubleIf (bs : List UInt8) (old : UInt64) : UInt64 :=
  if bs.length = 8 then UInt64.ofNat (LittleEndian.value bs) else old

theorem assign_of_presents (hw : Presents mem f w) (hlen : f.value.slice.length < 2 ^ 63) :
    assign mem w = .ok f.value.slice := by
  rw [assign, hw.len, hw.bytes, if_pos]
  unfold maxStringSize
  omega

theorem copyArray_of_presents (hw : Presents mem f w) {n : ℕ} (hn : f.value.slice.length = n) :
    copyArray mem w n = ⟨f.value.slice.toArray, hn⟩ := by
  refine Vector.ext fun i hi => ?_
  have hget := getElem_bytesAt mem w.data (show i < (bytesAt mem w.data n).length by simpa)
  have hbytes : bytesAt mem w.data n = f.value.slice := hn ▸ hw.bytes
  simp only [hbytes] at hget
  simp [copyArray, hget]

theorem copyArrayIf_of_presents (hw : Presents mem f w) {n : ℕ} (old : Vector UInt8 n) :
    copyArrayIf mem w old = arrayIf f.value.slice old := by
  unfold copyArrayIf arrayIf
  rw [hw.len]
  split_ifs with hn
  · exact copyArray_of_presents hw hn
  · rfl

theorem copyDoubleIf_of_presents (hw : Presents mem f w) (old : UInt64) :
    copyDoubleIf mem w old = doubleIf f.value.slice old := by
  have hlen : w.len = 8 ↔ f.value.slice.length = 8 := by
    rw [← hw.len, ← UInt64.toNat_inj]
    rfl
  unfold copyDoubleIf doubleIf
  by_cases h : f.value.slice.length = 8
  · rw [if_pos (hlen.mpr h), if_pos h, loadLE_eq mem w.data le_rfl, ← h, hw.bytes]
  · rw [if_neg (mt hlen.mp h), if_neg h]

end Decoders

end PropMiner.Proto
