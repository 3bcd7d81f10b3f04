import PropMiner.Proto.Fields

/-!
# Pool events as their bytes tell them

What the decoders of pool messages take from each field, and with it what a body means as a
`PoolEvent`: `PoolEvent.read` needs no memory and no address, and has no answer for a body
in which some field, at the top or in a nested message, is cut short.

## Main definitions

* `JobAssignment.absorb` and its siblings
* `PoolEvent.read` — the event that a well-formed body holds

## Main results

* `PoolEvent.decode_of_read` — a well-formed body is decoded to its event, wherever it lies
* `eventSafe_of_read` — and it is decoded safely
-/

set_option autoImplicit false

namespace PropMiner.Proto

open PropMiner.Wire (ReadError)
open ProtoReader

/-! ### Plain messages -/

section Plain

variable {mem : Memory} {f : Wire.Field} {w : WireField}

/-- `JobAssignment.sigmaOf`, on the bytes of the slice. -/
def JobAssignment.sigmaIf (bs : List UInt8) (old : Vector UInt8 kSigmaHeaderBytes) :
    Vector UInt8 kSigmaHeaderBytes :=
  if h : bs.length = kSigmaHeaderBytes then ⟨bs.toArray, h⟩
  else if bs.length = 32 then
    Vector.ofFn fun i : Fin kSigmaHeaderBytes => if i.val < 32 then bs.getD i 0 else 0
  else old

def JobAssignment.absorb (msg : JobAssignment) (f : Wire.Field) : JobAssignment :=
  match f.number.toNat with
  | 1 => { msg with jobId := arrayIf f.value.slice msg.jobId }
  | 2 => { msg with sigma := JobAssignment.sigmaIf f.value.slice msg.sigma }
  | 3 => { msg with targetNbits := f.value.number.toUInt32 }
  | 4 => { msg with networkTargetNbits := f.value.number.toUInt32 }
  | 5 => { msg with blockHeight := f.value.number.toInt64 }
  | 6 => { msg with protocolVersion := f.value.number.toUInt32 }
  | 7 => { msg with bSeed := arrayIf f.value.slice msg.bSeed }
  | 8 => { msg with auditK := f.value.number.toUInt32 }
  | _ => msg

def ShareResult.absorb (msg : ShareResult) (f : Wire.Field) : ShareResult :=
  match f.number.toNat with
  | 1 => { msg with computedHash := arrayIf f.value.slice msg.computedHash }
  | 2 => { msg with accepted := f.value.number ≠ 0 }
  | 3 => { msg with outcome := f.value.slice }
  | 4 => { msg with message := f.value.slice }
  | 5 => { msg with isBlockFind := f.value.number ≠ 0 }
  | _ => msg

def DifficultyAdjust.absorb (msg : DifficultyAdjust) (f : Wire.Field) : DifficultyAdjust :=
  match f.number.toNat with
  | 1 => { msg with newTargetNbits := f.value.number.toUInt32 }
  | 2 => { msg with reason := f.value.slice }
  | 3 => { msg with measuredHashrate := f.value.number }
  | _ => msg

def PongEvent.absorb (msg : PongEvent) (f : Wire.Field) : PongEvent :=
  if f.number = 1 then { msg with timestamp := f.value.number.toInt64 } else msg

def PoolError.absorb (msg : PoolError) (f : Wire.Field) : PoolError :=
  match f.number.toNat with
  | 1 => { msg with code := f.value.slice }
  | 2 => { msg with message := f.value.slice }
  | 3 => { msg with fatal := f.value.number ≠ 0 }
  | _ => msg

def ReconnectHint.absorb (msg : ReconnectHint) (f : Wire.Field) : ReconnectHint :=
  match f.number.toNat with
  | 1 => { msg with waitSeconds := f.value.number.toUInt32.toInt32 }
  | 2 => { msg with reason := f.value.slice }
  | _ => msg

theorem JobAssignment.sigmaOf_of_presents (hw : Presents mem f w)
    (old : Vector UInt8 kSigmaHeaderBytes) :
    JobAssignment.sigmaOf mem w old = JobAssignment.sigmaIf f.value.slice old := by
  have hlen : w.len = 32 ↔ f.value.slice.length = 32 := by
    rw [← hw.len, ← UInt64.toNat_inj]
    rfl
  unfold JobAssignment.sigmaOf JobAssignment.sigmaIf
  rw [hw.len]
  split_ifs with hfull h32 h32' h32'
  · exact copyArray_of_presents hw hfull
  · -- 32 bytes, padded with zeros
    refine Vector.ext fun i hi => ?_
    have hslice : f.value.slice.length = 32 := h32'
    simp only [Vector.getElem_ofFn]
    split_ifs with hi32
    · have hget := getElem_bytesAt mem w.data
        (show i < (bytesAt mem w.data f.value.slice.length).length by simpa [hslice] using hi32)
      simp only [hw.bytes] at hget
      rw [← List.getElem_eq_getD (h := by omega) 0, hget]
    · rfl
  · exact absurd (hlen.mp h32) h32'
  · exact absurd (hlen.mpr h32') h32
  · rfl

theorem JobAssignment.body_of_presents (f : Wire.Field) (msg : JobAssignment) (w : WireField)
    (_ : f.value.slice.length < 2 ^ 63) (hw : Presents mem f w) :
    pureBody (JobAssignment.field mem) msg w = some (.ok (msg.absorb f)) := by
  rewrite [pureBody, JobAssignment.field, JobAssignment.absorb, hw.field,
    copyArrayIf_of_presents hw, copyArrayIf_of_presents hw, sigmaOf_of_presents hw, hw.value]
  generalize f.number.toNat = k
  rcases k with _ | _ | _ | _ | _ | _ | _ | _ | _ | k <;> rfl

theorem ShareResult.body_of_presents (f : Wire.Field) (msg : ShareResult) (w : WireField)
    (hlen : f.value.slice.length < 2 ^ 63) (hw : Presents mem f w) :
    plainBody (ShareResult.field mem) msg w = some (.ok (msg.absorb f)) := by
  rewrite [plainBody, ShareResult.field, ShareResult.absorb, hw.field, assign_of_presents hw hlen,
    copyArrayIf_of_presents hw, hw.value]
  generalize f.number.toNat = k
  rcases k with _ | _ | _ | _ | _ | _ | k <;> rfl

theorem DifficultyAdjust.body_of_presents (f : Wire.Field) (msg : DifficultyAdjust)
    (w : WireField) (hlen : f.value.slice.length < 2 ^ 63) (hw : Presents mem f w) :
    plainBody (DifficultyAdjust.field mem) msg w = some (.ok (msg.absorb f)) := by
  rewrite [plainBody, DifficultyAdjust.field, DifficultyAdjust.absorb, hw.field,
    assign_of_presents hw hlen, hw.value]
  generalize f.number.toNat = k
  rcases k with _ | _ | _ | _ | k <;> rfl

theorem PongEvent.body_of_presents (f : Wire.Field) (msg : PongEvent) (w : WireField)
    (_ : f.value.slice.length < 2 ^ 63) (hw : Presents mem f w) :
    pureBody PongEvent.field msg w = some (.ok (msg.absorb f)) := by
  rw [pureBody, PongEvent.field, PongEvent.absorb, hw.field, hw.value]

theorem PoolError.body_of_presents (f : Wire.Field) (msg : PoolError) (w : WireField)
    (hlen : f.value.slice.length < 2 ^ 63) (hw : Presents mem f w) :
    plainBody (PoolError.field mem) msg w = some (.ok (msg.absorb f)) := by
  rewrite [plainBody, PoolError.field, PoolError.absorb, hw.field, assign_of_presents hw hlen,
    hw.value]
  generalize f.number.toNat = k
  rcases k with _ | _ | _ | _ | k <;> rfl

theorem ReconnectHint.body_of_presents (f : Wire.Field) (msg : ReconnectHint) (w : WireField)
    (hlen : f.value.slice.length < 2 ^ 63) (hw : Presents mem f w) :
    plainBody (ReconnectHint.field mem) msg w = some (.ok (msg.absorb f)) := by
  rewrite [plainBody, ReconnectHint.field, ReconnectHint.absorb, hw.field,
    assign_of_presents hw hlen, hw.value]
  generalize f.number.toNat = k
  rcases k with _ | _ | _ | k <;> rfl

end Plain

/-! ### Events -/

namespace PoolEvent

variable {mem : Memory} {f : Wire.Field} {w : WireField} {msg result : PoolEvent} {fuel : ℕ}

/-- What an event takes from a field; a nested message must be readable. -/
def absorb (msg : PoolEvent) (f : Wire.Field) : Option PoolEvent :=
  match f.number.toNat with
  | 1 => some { msg with seq := f.value.number }
  | 2 => (readPlain JobAssignment.absorb msg.job f.value.slice).map fun m =>
      { msg with type := .job, job := m }
  | 3 => (readPlain ShareResult.absorb msg.shareResult f.value.slice).map fun m =>
      { msg with type := .shareResult, shareResult := m }
  | 4 => (readPlain DifficultyAdjust.absorb msg.vardiff f.value.slice).map fun m =>
      { msg with type := .vardiff, vardiff := m }
  | 5 => (readPlain PongEvent.absorb msg.pong f.value.slice).map fun m =>
      { msg with type := .pong, pong := m }
  | 6 => (readPlain PoolError.absorb msg.error f.value.slice).map fun m =>
      { msg with type := .error, error := m }
  | 7 => (readPlain ReconnectHint.absorb msg.reconnect f.value.slice).map fun m =>
      { msg with type := .reconnect, reconnect := m }
  | _ => some msg

/-- The event that a body holds, if the body is well-formed. -/
def read (body : List UInt8) : Option PoolEvent := readMessage absorb {} body

theorem field_of_presents (hlen : f.value.slice.length < 2 ^ 63)
    (hfuel : f.value.slice.length < fuel) (hw : Presents mem f w)
    (habsorb : msg.absorb f = some result) :
    PoolEvent.field mem fuel msg w = some (.ok result) := by
  -- a nested message is decoded as it is read, and then set as a member of the event
  have hnested {γ : Type} {body : γ → WireField → Option (Except ReadError γ)}
      {step : γ → Wire.Field → γ} {m : γ} {set : γ → PoolEvent}
      (hbody : ∀ g m w, g.value.slice.length < 2 ^ 63 → Presents mem g w →
        body m w = some (.ok (step m g)))
      (h : (readPlain step m f.value.slice).map set = some result) :
      ((decodeLoop mem body fuel (.make w.data w.len) m).map fun r => r.map set) =
        some (.ok result) := by
    obtain ⟨m', hread, rfl⟩ := Option.map_eq_some_iff.mp h
    rw [hw.decodeLoop_readPlain hlen hbody hread hfuel]
    rfl
  rw [PoolEvent.field, hw.field, hw.value]
  rw [absorb] at habsorb
  revert habsorb
  -- one case for each field number that the `switch` knows
  generalize f.number.toNat = k
  rcases k with _ | _ | _ | _ | _ | _ | _ | _ | k <;> intro habsorb
  case succ.succ.zero => exact hnested JobAssignment.body_of_presents habsorb
  case succ.succ.succ.zero => exact hnested ShareResult.body_of_presents habsorb
  case succ.succ.succ.succ.zero => exact hnested DifficultyAdjust.body_of_presents habsorb
  case succ.succ.succ.succ.succ.zero => exact hnested PongEvent.body_of_presents habsorb
  case succ.succ.succ.succ.succ.succ.zero => exact hnested PoolError.body_of_presents habsorb
  case succ.succ.succ.succ.succ.succ.succ.zero =>
    exact hnested ReconnectHint.body_of_presents habsorb
  all_goals
    obtain rfl := Option.some.inj habsorb
    rfl

/-- A well-formed body is decoded to its event, wherever it lies. -/
theorem decode_of_read (b : Buffer) {body : List UInt8}
    (hbytes : bytesBetween mem b.data (b.data + b.len) = body) (hread : read body = some result)
    (hlen : body.length < 2 ^ 63) (hfuel : body.length < fuel) :
    PoolEvent.decode mem fuel b.data b.len {} = some (.ok result) := by
  obtain ⟨fs, hfields, hfold⟩ := readMessage_eq_some_iff.mp hread
  have hcount := Wire.length_fields_le hfields
  refine b.decodeLoop_fields (hbytes ▸ hfields) ?_ hfold (by omega)
  intro f hf msg w result hw habsorb
  have hslice := Wire.length_slice_le hfields f hf
  exact field_of_presents (by omega) (by omega) hw habsorb

theorem fields_of_absorb (hnested : IsNested f.number) (habsorb : msg.absorb f = some result) :
    ∃ fs, Wire.fields f.value.slice = .ok fs := by
  have hread {γ : Type} {step : γ → Wire.Field → γ} {m : γ} {set : γ → PoolEvent}
      (h : (readPlain step m f.value.slice).map set = some result) :
      ∃ fs, Wire.fields f.value.slice = .ok fs := by
    obtain ⟨_, hm, -⟩ := Option.map_eq_some_iff.mp h
    obtain ⟨fs, hfields, -⟩ := readMessage_eq_some_iff.mp hm
    exact ⟨fs, hfields⟩
  obtain ⟨hlow, hhigh⟩ := hnested
  rw [absorb] at habsorb
  revert hlow hhigh habsorb
  generalize f.number.toNat = k
  intro habsorb hlow hhigh
  interval_cases k
  all_goals exact hread habsorb

end PoolEvent

/-! ### Well-formed bodies are decoded safely -/

section Safe

variable {mem : Memory} {bs cs : List UInt8} {fs : List Wire.Field}

/-- Where reading whole fields leads, the remaining fields are read. -/
theorem fields_of_remains (hrem : Wire.Remains bs cs) (hfields : Wire.fields bs = .ok fs) :
    ∃ gs, Wire.fields cs = .ok gs ∧ gs <:+ fs := by
  induction hrem with
  | refl => exact ⟨fs, hfields, List.suffix_rfl⟩
  | field _ hread ih =>
    obtain ⟨gs, hgs, hsuffix⟩ := ih
    obtain ⟨gs', hgs', rfl⟩ := Wire.fields_eq_cons hread hgs
    exact ⟨gs', hgs', (List.suffix_cons _ _).trans hsuffix⟩

/-- A buffer whose fields can all be read announces no payload behind its end. -/
theorem fits_of_fields (b : Buffer)
    (hfields : Wire.fields (bytesBetween mem b.data (b.data + b.len)) = .ok fs) :
    Fits mem b.data b.len := by
  intro cs hrem h hh
  obtain ⟨gs, hgs, -⟩ := fields_of_remains hrem hfields
  have hsize := Wire.size_le_of_fields hgs hh
  have hrest := (Wire.header_suffix hh).2
  have hlength := hrem.length_le
  rw [length_bytesBetween b.data_le_end, b.toNat_end] at hlength
  have hend := b.end_lt
  rw [payloadEnd, b.toNat_end]
  omega

theorem eventFits_of_read (b : Buffer) {event : PoolEvent}
    (hread : PoolEvent.read (bytesBetween mem b.data (b.data + b.len)) = some event) :
    EventFits mem b.data b.len := by
  obtain ⟨fs, hfields, hfold⟩ := readMessage_eq_some_iff.mp hread
  have hfits := fits_of_fields b hfields
  refine ⟨hfits, ?_⟩
  intro cs hrem h payload ds hfield hnested hwire
  -- the field is one of those that were taken in, so its slice was read too
  obtain ⟨gs, hgs, hsuffix⟩ := fields_of_remains hrem hfields
  obtain ⟨gs', -, rfl⟩ := Wire.fields_eq_cons hfield hgs
  obtain ⟨msg, result, habsorb⟩ :=
    exists_of_mem_foldlM hfold (hsuffix.subset List.mem_cons_self)
  obtain ⟨inner, hinner⟩ := PoolEvent.fields_of_absorb hnested habsorb
  have hslice : (Wire.Value.ofRead h payload).slice = payload := by
    simp [Wire.Value.ofRead, hwire, Wire.Value.slice]
  -- and the slice is the payload, which lies where the reader stands
  obtain ⟨r, -, ht⟩ := exists_onTrack_of_remains (loopSafe_of_fits hfits) hrem
  rw [← ht.limit]
  have hbytes : bytesBetween mem (payloadAddr r.end_ h)
      (payloadAddr r.end_ h + UInt64.ofNat h.size) = payload := by
    have hh := (Wire.readField_some_iff.mp hfield).2.1
    rw [bytesBetween_add, UInt64.toNat_ofNat', Nat.mod_eq_of_lt (Wire.header_size_lt hh),
      (ht.bytesAt_payload hfield).1]
  rw [hslice, ← hbytes] at hinner
  exact fits_of_fields (ht.payloadBuffer hfield) hinner

/-- A well-formed body is decoded safely. -/
theorem eventSafe_of_read (b : Buffer) {event : PoolEvent}
    (hread : PoolEvent.read (bytesBetween mem b.data (b.data + b.len)) = some event) :
    EventSafe mem b.data b.len :=
  eventSafe_of_eventFits (eventFits_of_read b hread)

end Safe

end PropMiner.Proto
