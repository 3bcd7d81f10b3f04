import PropMiner.Proto.Messages

/-!
# Memory safety and termination of the decoders

A pool chooses every byte of a message, so the decoders must stay inside the
buffer and return on every input. They do, except where the test
`p_ + len > end_` is made on a sum that has wrapped around the address space:
then a field far longer than the buffer passes, the cursor moves backwards, and a
loop can run forever.

## Main definitions

* `LoopSafe` — what a decode loop over one buffer promises
* `EventSafe` — the same of `PoolEvent::decode` and the decoders it calls
* `Fits`, `EventFits` — no announced payload ends at or above `2 ^ 64`

## Main results

* `eventSafe_iff_eventFits` — the promise is kept exactly on the buffers that fit
* `eventSafe_fails` — eleven bytes on which `PoolEvent::decode` never returns
-/

set_option autoImplicit false

namespace PropMiner.Proto

open PropMiner.Wire (ReadError)
open ProtoReader

/-- A byte buffer: its end is an address. -/
structure Buffer where
  data : UInt64
  len : UInt64
  end_lt : data.toNat + len.toNat < 2 ^ 64

/-- The readers that a loop over `next` goes through from `r` on. -/
inductive Reaches (mem : Memory) (r : ProtoReader) : ProtoReader → Prop
  | refl : Reaches mem r r
  | next {r' r'' : ProtoReader} {f : WireField} :
      Reaches mem r r' → next mem r' = .ok (some f, r'') → Reaches mem r r''

/-- What a call of `next` that returns `true` promises: the cursor has moved on,
not past the limit, and a length-delimited slice lies inside the buffer. -/
structure CallSafe (data len : UInt64) (r r' : ProtoReader) (f : WireField) : Prop where
  progress : r.p < r'.p
  bounded : r'.p ≤ r.end_
  slice : f.wire = 2 →
    data.toNat ≤ f.data.toNat ∧ f.data.toNat + f.len.toNat ≤ data.toNat + len.toNat

/-- What a decode loop over a buffer promises: every call of `next` is safe, and
the loop ends after at most `len` rounds whenever its body returns. -/
structure LoopSafe (mem : Memory) (data len : UInt64) : Prop where
  calls : ∀ r r' f, Reaches mem (.make data len) r → next mem r = .ok (some f, r') →
    CallSafe data len r r' f
  ends : ∀ {β : Type} (body : β → WireField → Option (Except ReadError β)) (msg : β),
    (∀ m r r' f, Reaches mem (.make data len) r → next mem r = .ok (some f, r') →
      body m f ≠ none) →
    decodeLoop mem body (len.toNat + 1) (.make data len) msg ≠ none

/-- The fields of a `PoolEvent` that carry a message of their own. -/
def IsNested (field : UInt32) : Prop := 2 ≤ field.toNat ∧ field.toNat ≤ 7

/-- `PoolEvent::decode` on a buffer: its own loop and those of the decoders it
calls are safe, and it returns. -/
structure EventSafe (mem : Memory) (data len : UInt64) : Prop where
  outer : LoopSafe mem data len
  nested : ∀ r r' f, Reaches mem (.make data len) r → next mem r = .ok (some f, r') →
    IsNested f.field → LoopSafe mem f.data f.len
  returns : ∀ msg, PoolEvent.decode mem (len.toNat + 1) data len msg ≠ none

/-- No field met while reading the buffer in unbounded arithmetic announces a
payload that ends at or above `2 ^ 64`. -/
def Fits (mem : Memory) (data len : UInt64) : Prop :=
  ∀ cs, Wire.Remains (bytesBetween mem data (data + len)) cs →
    ∀ h, Wire.header cs = .ok (some h) → payloadEnd (data + len) h < 2 ^ 64

/-- The buffer fits, and so does every nested message in it. -/
def EventFits (mem : Memory) (data len : UInt64) : Prop :=
  Fits mem data len ∧
    ∀ cs, Wire.Remains (bytesBetween mem data (data + len)) cs →
      ∀ h payload ds, Wire.readField cs = .ok (some (h, payload, ds)) → IsNested h.field →
        h.wire = 2 → Fits mem (payloadAddr (data + len) h) (UInt64.ofNat h.size)

/-! ### The loop and its fuel -/

section Loop

variable {β : Type*} {mem : Memory} {body : β → WireField → Option (Except ReadError β)}
  {r : ProtoReader} {msg : β} {n n' : ℕ}

theorem decodeLoop_mono (hle : n ≤ n') (hn : decodeLoop mem body n r msg ≠ none) :
    decodeLoop mem body n' r msg ≠ none := by
  induction n generalizing n' r msg with
  | zero => exact absurd rfl hn
  | succ n ih =>
    obtain ⟨n', rfl⟩ : ∃ k, n' = k + 1 := ⟨n' - 1, by omega⟩
    simp only [decodeLoop] at hn ⊢
    split at hn
    · simp
    · simp
    · split at hn
      · exact absurd rfl hn
      · simp
      · exact ih (by omega) hn

end Loop

/-! ### Following the wire format -/

section Track

variable {mem : Memory} {data len : UInt64} {r r' : ProtoReader} {f : WireField}
  {cs ds payload : List UInt8} {h : Wire.Header}

/-- The reader `r` of the buffer stands right before the bytes `cs`, which the
wire format leaves after some whole fields. -/
structure OnTrack (mem : Memory) (data len : UInt64) (r : ProtoReader) (cs : List UInt8) :
    Prop where
  limit : r.end_ = data + len
  above : data ≤ r.p
  below : r.p ≤ r.end_
  bytes : bytesBetween mem r.p r.end_ = cs
  remains : Wire.Remains (bytesBetween mem data (data + len)) cs

theorem Buffer.toNat_end (b : Buffer) : (b.data + b.len).toNat = b.data.toNat + b.len.toNat := by
  rw [UInt64.toNat_add, Nat.mod_eq_of_lt b.end_lt]

theorem Buffer.data_le_end (b : Buffer) : b.data ≤ b.data + b.len := by
  rw [UInt64.le_iff_toNat_le, b.toNat_end]
  exact Nat.le_add_right _ _

theorem Buffer.onTrack (b : Buffer) :
    OnTrack mem b.data b.len (.make b.data b.len) (bytesBetween mem b.data (b.data + b.len)) where
  limit := rfl
  above := UInt64.le_refl _
  below := b.data_le_end
  bytes := rfl
  remains := .refl

theorem lt_of_next_some (hnext : next mem r = .ok (some f, r')) : r.p < r.end_ := by
  by_contra hge
  rw [next, if_pos (UInt64.not_lt.mp hge)] at hnext
  cases hnext

theorem OnTrack.ne_nil (ht : OnTrack mem data len r cs) (hlt : r.p < r.end_) : cs ≠ [] := by
  rw [← ht.bytes, bytesBetween_cons hlt]
  exact List.cons_ne_nil _ _

theorem OnTrack.lt_of_header (ht : OnTrack mem data len r cs)
    (hh : Wire.header cs = .ok (some h)) : r.p < r.end_ := by
  by_contra hge
  have heq := UInt64.le_antisymm ht.below (UInt64.not_lt.mp hge)
  rw [← ht.bytes, heq, bytesBetween_self] at hh
  cases hh

/-- The cursor after a field that the wire format reads from `cs`. -/
def after (r : ProtoReader) (ds : List UInt8) : ProtoReader :=
  { r with p := r.end_ - UInt64.ofNat ds.length }

theorem OnTrack.after (ht : OnTrack mem data len r cs)
    (hread : Wire.readField cs = .ok (some (h, payload, ds))) :
    OnTrack mem data len (after r ds) ds ∧ r.p < (Proto.after r ds).p := by
  obtain ⟨-, hh, -, -, rfl⟩ := Wire.readField_some_iff.mp hread
  have hsuf : h.rest.drop h.size <:+ bytesBetween mem r.p r.end_ := by
    rw [ht.bytes]
    exact (List.drop_suffix _ _).trans (Wire.header_suffix hh).1
  obtain ⟨hbytes, hge, hsub⟩ := eq_bytesBetween_of_suffix ht.below hsuf
  have hlen := Wire.readField_length_lt hread
  rw [← ht.bytes, length_bytesBetween ht.below] at hlen
  refine ⟨⟨ht.limit, UInt64.le_trans ht.above hge, ?_, hbytes.symm, ht.remains.field hread⟩, ?_⟩
  · rw [UInt64.le_iff_toNat_le, Proto.after, hsub]
    exact Nat.sub_le _ _
  · rw [UInt64.lt_iff_toNat_lt, Proto.after, hsub]
    omega

/-- The slice of a length-delimited field starts at its payload. -/
theorem wireFieldOf_slice (a : UInt64) (hh : Wire.header cs = .ok (some h)) (hwire : h.wire = 2) :
    (wireFieldOf mem h a).data = a ∧ (wireFieldOf mem h a).len.toNat = h.size := by
  refine ⟨if_pos hwire, ?_⟩
  simp only [wireFieldOf, if_pos hwire, UInt64.toNat_ofNat']
  exact Nat.mod_eq_of_lt (Wire.header_size_lt hh)

/-- A field of another wire type has the empty slice at the null pointer. -/
theorem wireFieldOf_noSlice (a : UInt64) (hwire : h.wire ≠ 2) :
    (wireFieldOf mem h a).data = 0 ∧ (wireFieldOf mem h a).len = 0 :=
  ⟨if_neg hwire, if_neg hwire⟩

/-- Where nothing wraps, a field the wire format reads is the field `next` hands
out. -/
theorem OnTrack.next_of_readField (ht : OnTrack mem data len r cs)
    (hread : Wire.readField cs = .ok (some (h, payload, ds)))
    (hfit : payloadEnd r.end_ h < 2 ^ 64) :
    next mem r = .ok (some (wireFieldOf mem h (payloadAddr r.end_ h)), Proto.after r ds) := by
  obtain ⟨-, hh, hsize, -, rfl⟩ := Wire.readField_some_iff.mp hread
  rw [next_eq_of_fits (ht.lt_of_header hh) (ht.bytes ▸ hh) hfit, if_neg (Nat.not_lt.mpr hsize)]
  rfl

/-- Where nothing wraps, `next` hands out nothing but the field the wire format
reads. -/
theorem OnTrack.readField_of_next (hfits : Fits mem data len) (ht : OnTrack mem data len r cs)
    (hnext : next mem r = .ok (some f, r')) :
    ∃ h payload ds, Wire.readField cs = .ok (some (h, payload, ds)) ∧
      f = wireFieldOf mem h (payloadAddr r.end_ h) ∧ r' = Proto.after r ds ∧
      payloadEnd r.end_ h < 2 ^ 64 := by
  have hlt := lt_of_next_some hnext
  have hheader := @next_eq_header mem r hlt
  rw [ht.bytes] at hheader
  cases hh : Wire.header cs with
  | error e =>
    rw [hh] at hheader
    cases hheader.symm.trans hnext
  | ok o =>
    cases o with
    | none =>
      rw [hh] at hheader
      obtain ⟨p, hp⟩ := hheader
      cases hp.symm.trans hnext
    | some h =>
      have hfit : payloadEnd r.end_ h < 2 ^ 64 := ht.limit ▸ hfits cs ht.remains h hh
      have hsize : h.size ≤ h.rest.length := by
        by_contra hshort
        rw [next_eq_of_fits hlt (ht.bytes ▸ hh) hfit, if_pos (Nat.lt_of_not_le hshort)] at hnext
        cases hnext
      have hread : Wire.readField cs =
          .ok (some (h, h.rest.take h.size, h.rest.drop h.size)) :=
        Wire.readField_some_iff.mpr ⟨ht.ne_nil hlt, hh, hsize, rfl, rfl⟩
      have heq := (ht.next_of_readField hread hfit).symm.trans hnext
      simp only [Except.ok.injEq, Prod.mk.injEq, Option.some.injEq] at heq
      exact ⟨h, _, _, hread, heq.1.symm, heq.2.symm, hfit⟩

/-- Where nothing wraps, every reader the loop goes through is on track. -/
theorem Reaches.onTrack {b : Buffer} (hfits : Fits mem b.data b.len)
    (hr : Reaches mem (.make b.data b.len) r) : ∃ cs, OnTrack mem b.data b.len r cs := by
  induction hr with
  | refl => exact ⟨_, b.onTrack⟩
  | next _ hnext ih =>
    obtain ⟨cs, ht⟩ := ih
    obtain ⟨h, payload, ds, hread, -, rfl, -⟩ := ht.readField_of_next hfits hnext
    exact ⟨ds, (ht.after hread).1⟩

end Track

/-! ### Fitting buffers are read safely -/

section Safe

variable {mem : Memory} {b : Buffer} {r r' : ProtoReader} {f : WireField} {cs : List UInt8}

theorem callSafe_of_fits (hfits : Fits mem b.data b.len)
    (hr : Reaches mem (.make b.data b.len) r) (hnext : next mem r = .ok (some f, r')) :
    CallSafe b.data b.len r r' f := by
  obtain ⟨cs, ht⟩ := hr.onTrack hfits
  obtain ⟨h, payload, ds, hread, rfl, rfl, hfit⟩ := ht.readField_of_next hfits hnext
  obtain ⟨ht', hlt⟩ := ht.after hread
  refine ⟨hlt, ht'.below, ?_⟩
  intro hwire
  obtain ⟨-, hh, hsize, -, -⟩ := Wire.readField_some_iff.mp hread
  obtain ⟨haddr, hpos, hrest⟩ := toNat_payloadAddr ht.below (ht.bytes ▸ hh)
  obtain ⟨hdata, hlen⟩ := @wireFieldOf_slice mem cs h (payloadAddr r.end_ h) hh hwire
  have habove := UInt64.le_iff_toNat_le.mp ht.above
  have hend : r.end_.toNat = b.data.toNat + b.len.toNat := ht.limit ▸ b.toNat_end
  rw [UInt64.lt_iff_toNat_lt] at hpos
  rw [hdata, hlen, haddr]
  omega

/-- The loop ends within any fuel that exceeds the number of bytes left, since
each round reads at least one of them. -/
theorem decodeLoop_ne_none_of_fits {β : Type} {n : ℕ} {msg : β}
    {body : β → WireField → Option (Except ReadError β)} (hfits : Fits mem b.data b.len)
    (hbody : ∀ m r r' f, Reaches mem (.make b.data b.len) r → next mem r = .ok (some f, r') →
      body m f ≠ none)
    (hr : Reaches mem (.make b.data b.len) r) (ht : OnTrack mem b.data b.len r cs)
    (hn : cs.length < n) : decodeLoop mem body n r msg ≠ none := by
  induction n generalizing r cs msg with
  | zero => omega
  | succ n ih =>
    simp only [decodeLoop]
    split
    · exact Option.some_ne_none _
    · exact Option.some_ne_none _
    · rename_i f r' hnext
      obtain ⟨h, payload, ds, hread, -, rfl, -⟩ := ht.readField_of_next hfits hnext
      have hlen := Wire.readField_length_lt hread
      split
      · rename_i hnone
        exact absurd hnone (hbody _ _ _ _ hr hnext)
      · exact Option.some_ne_none _
      · exact ih (hr.next hnext) (ht.after hread).1 (by omega)

theorem loopSafe_of_fits (hfits : Fits mem b.data b.len) : LoopSafe mem b.data b.len where
  calls _ _ _ hr hnext := callSafe_of_fits hfits hr hnext
  ends body msg hbody := by
    refine decodeLoop_ne_none_of_fits hfits hbody .refl b.onTrack ?_
    have hlength := @length_bytesBetween mem _ _ b.data_le_end
    rw [b.toNat_end] at hlength
    omega

end Safe

/-! ### Safe reading forces the buffer to fit -/

section Converse

variable {mem : Memory} {b : Buffer} {r : ProtoReader} {cs : List UInt8} {h : Wire.Header}

/-- A call that passes a wrapped payload is not safe: a wrapped slice leaves the
buffer, and a wrapped number of fixed size moves the cursor to the bottom of
memory. -/
theorem not_callSafe_of_wraps (ht : OnTrack mem b.data b.len r cs)
    (hh : Wire.header cs = .ok (some h)) (hwrap : 2 ^ 64 ≤ payloadEnd r.end_ h) :
    ¬ CallSafe b.data b.len r { r with p := payloadAddr r.end_ h + UInt64.ofNat h.size }
      (wireFieldOf mem h (payloadAddr r.end_ h)) := by
  intro hsafe
  obtain ⟨haddr, -, hrest⟩ := toNat_payloadAddr ht.below (ht.bytes ▸ hh)
  have hend : r.end_.toNat = b.data.toNat + b.len.toNat := ht.limit ▸ b.toNat_end
  have hlt := b.end_lt
  rcases Wire.header_wire_cases hh with ⟨-, hsize⟩ | hwire | ⟨-, hsize, hlen⟩
  · unfold payloadEnd at hwrap
    omega
  · obtain ⟨hdata, hlen⟩ := @wireFieldOf_slice mem cs h (payloadAddr r.end_ h) hh hwire
    have hslice := (hsafe.slice hwire).2
    rw [hdata, hlen, haddr] at hslice
    unfold payloadEnd at hwrap
    omega
  · have hprogress := hsafe.progress
    rw [UInt64.lt_iff_toNat_lt, toNat_payloadAddr_add ht.below (ht.bytes ▸ hh)] at hprogress
    rw [← ht.bytes, length_bytesBetween ht.below] at hlen
    have hbelow := UInt64.le_iff_toNat_le.mp ht.below
    unfold payloadEnd at hwrap hprogress
    omega

theorem OnTrack.fits_of_calls (hsafe : LoopSafe mem b.data b.len)
    (hr : Reaches mem (.make b.data b.len) r) (ht : OnTrack mem b.data b.len r cs)
    (hh : Wire.header cs = .ok (some h)) : payloadEnd r.end_ h < 2 ^ 64 := by
  by_contra hwrap
  have hnext := next_of_wraps (ht.lt_of_header hh) (ht.bytes ▸ hh) (Nat.not_lt.mp hwrap)
  exact not_callSafe_of_wraps ht hh (Nat.not_lt.mp hwrap) (hsafe.calls _ _ _ hr hnext)

/-- Under safe calls, the loop gets to every suffix of the wire format. -/
theorem exists_onTrack_of_remains (hsafe : LoopSafe mem b.data b.len)
    (hrem : Wire.Remains (bytesBetween mem b.data (b.data + b.len)) cs) :
    ∃ r, Reaches mem (.make b.data b.len) r ∧ OnTrack mem b.data b.len r cs := by
  induction hrem with
  | refl => exact ⟨_, .refl, b.onTrack⟩
  | field _ hread ih =>
    obtain ⟨r, hr, ht⟩ := ih
    have hfit := ht.fits_of_calls hsafe hr (Wire.readField_some_iff.mp hread).2.1
    exact ⟨_, hr.next (ht.next_of_readField hread hfit), (ht.after hread).1⟩

theorem fits_of_loopSafe (hsafe : LoopSafe mem b.data b.len) : Fits mem b.data b.len := by
  intro cs hrem h hh
  obtain ⟨r, hr, ht⟩ := exists_onTrack_of_remains hsafe hrem
  rw [← ht.limit]
  exact ht.fits_of_calls hsafe hr hh

end Converse

/-! ### Events -/

section Event

variable {mem : Memory} {b : Buffer} {r : ProtoReader} {cs ds payload : List UInt8}
  {h : Wire.Header}

/-- The payload of a field that is all there is a buffer of its own. -/
def OnTrack.payloadBuffer (ht : OnTrack mem b.data b.len r cs)
    (hread : Wire.readField cs = .ok (some (h, payload, ds))) : Buffer where
  data := payloadAddr r.end_ h
  len := UInt64.ofNat h.size
  end_lt := by
    obtain ⟨-, hh, hsize, -, -⟩ := Wire.readField_some_iff.mp hread
    obtain ⟨haddr, -, hrest⟩ := toNat_payloadAddr ht.below (ht.bytes ▸ hh)
    have hend := r.end_.toNat_lt
    rw [haddr, UInt64.toNat_ofNat', Nat.mod_eq_of_lt (Wire.header_size_lt hh)]
    omega

/-- The empty buffer at the null pointer, which a field of another wire type
hands to its decoder. -/
def nullBuffer : Buffer := ⟨0, 0, by decide⟩

theorem fits_nullBuffer : Fits mem nullBuffer.data nullBuffer.len := by
  intro cs hrem h hh
  have hlen := hrem.length_le
  have hnil : cs = [] := List.eq_nil_of_length_eq_zero (Nat.le_zero.mp hlen)
  rw [hnil] at hh
  cases hh

theorem eventFits_of_eventSafe (hsafe : EventSafe mem b.data b.len) :
    EventFits mem b.data b.len := by
  refine ⟨fits_of_loopSafe hsafe.outer, ?_⟩
  intro cs hrem h payload ds hread hnested hwire
  obtain ⟨r, hr, ht⟩ := exists_onTrack_of_remains hsafe.outer hrem
  obtain ⟨-, hh, -, -, -⟩ := Wire.readField_some_iff.mp hread
  have hnext := ht.next_of_readField hread (ht.fits_of_calls hsafe.outer hr hh)
  have hloop := hsafe.nested _ _ _ hr hnext hnested
  simp only [wireFieldOf, if_pos hwire] at hloop
  rw [← ht.limit]
  exact @fits_of_loopSafe mem (ht.payloadBuffer hread) hloop

theorem nested_of_eventFits (hfits : EventFits mem b.data b.len) {r' : ProtoReader}
    {f : WireField} (hr : Reaches mem (.make b.data b.len) r)
    (hnext : next mem r = .ok (some f, r')) (hnested : IsNested f.field) :
    LoopSafe mem f.data f.len ∧ f.len ≤ b.len := by
  obtain ⟨cs, ht⟩ := hr.onTrack hfits.1
  obtain ⟨h, payload, ds, hread, rfl, rfl, -⟩ := ht.readField_of_next hfits.1 hnext
  by_cases hwire : h.wire = 2
  · have hslice := (callSafe_of_fits hfits.1 hr hnext).slice hwire
    refine ⟨?_, by rw [UInt64.le_iff_toNat_le]; omega⟩
    have hfit := hfits.2 cs ht.remains h payload ds hread hnested hwire
    rw [← ht.limit] at hfit
    simp only [wireFieldOf, if_pos hwire]
    exact @loopSafe_of_fits mem (ht.payloadBuffer hread) hfit
  · obtain ⟨hdata, hlen⟩ := @wireFieldOf_noSlice mem h (payloadAddr r.end_ h) hwire
    rw [hdata, hlen]
    exact ⟨@loopSafe_of_fits mem nullBuffer fits_nullBuffer, UInt64.zero_le⟩

/-- A safe slice is decoded by any loop whose body always answers, also with more
fuel than the slice needs. -/
theorem LoopSafe.decodeLoop_ne_none {β : Type} {data len len' : UInt64}
    (hsafe : LoopSafe mem data len) (hle : len ≤ len')
    {body : β → WireField → Option (Except ReadError β)} (hbody : ∀ m f, body m f ≠ none)
    (msg : β) :
    decodeLoop mem body (len'.toNat + 1) (.make data len) msg ≠ none := by
  rw [UInt64.le_iff_toNat_le] at hle
  exact decodeLoop_mono (by omega) (hsafe.ends body msg fun m _ _ f _ _ => hbody m f)

theorem plainBody_ne_none {β : Type} {body : β → WireField → Except ReadError β} (m : β)
    (f : WireField) : plainBody body m f ≠ none :=
  Option.some_ne_none _

theorem pureBody_ne_none {β : Type} {body : β → WireField → β} (m : β) (f : WireField) :
    pureBody body m f ≠ none :=
  Option.some_ne_none _

theorem field_ne_none {msg : PoolEvent} {f : WireField}
    (hnested : IsNested f.field → LoopSafe mem f.data f.len ∧ f.len ≤ b.len) :
    PoolEvent.field mem (b.len.toNat + 1) msg f ≠ none := by
  have hslice (k : ℕ) (hk : f.field.toNat = k) (hle : 2 ≤ k ∧ k ≤ 7) :
      LoopSafe mem f.data f.len ∧ f.len ≤ b.len := hnested (by rw [IsNested, hk]; exact hle)
  unfold PoolEvent.field
  split
  case h_1 | h_8 => exact Option.some_ne_none _
  case h_2 hk | h_5 hk =>
    obtain ⟨hsafe, hle⟩ := hslice _ hk (by decide)
    rw [ne_eq, Option.map_eq_none_iff]
    exact hsafe.decodeLoop_ne_none hle pureBody_ne_none _
  all_goals
    rename_i hk
    obtain ⟨hsafe, hle⟩ := hslice _ hk (by decide)
    rw [ne_eq, Option.map_eq_none_iff]
    exact hsafe.decodeLoop_ne_none hle plainBody_ne_none _

theorem eventSafe_of_eventFits (hfits : EventFits mem b.data b.len) :
    EventSafe mem b.data b.len where
  outer := loopSafe_of_fits hfits.1
  nested _ _ _ hr hnext hnested := (nested_of_eventFits hfits hr hnext hnested).1
  returns msg := (loopSafe_of_fits hfits.1).ends _ msg fun _ _ _ _ hr hnext =>
    field_ne_none (nested_of_eventFits hfits hr hnext)

/-- The decoders of pool events keep their promise exactly on the buffers in which
no announced payload, at the top or in a nested message, ends at or above
`2 ^ 64`. -/
theorem eventSafe_iff_eventFits (mem : Memory) (b : Buffer) :
    EventSafe mem b.data b.len ↔ EventFits mem b.data b.len :=
  ⟨eventFits_of_eventSafe, eventSafe_of_eventFits⟩

/-! ### A message that is never decoded -/

/-- Eleven bytes at address `0x1000`: field 1, length-delimited, of length
`2 ^ 64 - 11`. The payload would start at the end of the buffer and wrap around
to its beginning. -/
def hostileMemory : Memory := fun a =>
  [0x0A, 0xF5, 0xFF, 0xFF, 0xFF, 0xFF, 0xFF, 0xFF, 0xFF, 0xFF, 0x01].getD
    (a.toNat - 0x1000) 0

theorem next_hostileMemory :
    next hostileMemory (.make 0x1000 11) =
      .ok (some ⟨1, 2, 0, 0x100B, 0xFFFFFFFFFFFFFFF5⟩, .make 0x1000 11) := by
  decide

/-- `PoolEvent::decode` reads the same field again and again, for every number of
rounds; the slice it is handed each time is almost the whole address space. -/
theorem eventSafe_fails :
    ¬ EventSafe hostileMemory 0x1000 11 ∧
      ∀ fuel msg, PoolEvent.decode hostileMemory fuel 0x1000 11 msg = none := by
  have hloop (fuel limit : ℕ) (msg : PoolEvent) :
      decodeLoop hostileMemory (PoolEvent.field hostileMemory limit) fuel (.make 0x1000 11) msg =
        none := by
    induction fuel generalizing msg with
    | zero => rfl
    | succ fuel ih =>
      rw [decodeLoop, next_hostileMemory]
      exact ih _
  exact ⟨fun hsafe => hsafe.returns {} (hloop _ _ _), fun fuel msg => hloop fuel fuel msg⟩

end Event

end PropMiner.Proto
