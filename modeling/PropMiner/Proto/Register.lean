import PropMiner.Proto.Fields

/-!
# Registering, there and back

`RegisterRequest::encode` writes its fields with a `ProtoWriter`, and
`RegisterRequest::decode` reads them back, so a round trip is a fold over the fields that
were written. All of them come back except the hashrates: they are written as fixed 64-bit
numbers, and the decoder looks for them in a slice of eight bytes, which such a field does
not have.

## Main definitions

* `GpuCard.encode`, `RegisterRequest.encode`
* `GpuCard.absorb`, `RegisterRequest.absorb` — what the decoders take from a field
* `RegisterRequest.withoutRates` — a request with every hashrate set to zero

## Main results

* `RegisterRequest.decode_encode` — what comes back is the request without its hashrates
* `RegisterRequest.comes_back_iff` — so a request comes back exactly if it has none
-/

set_option autoImplicit false

namespace PropMiner.Proto

open PropMiner.Wire (ReadError)
open PropMiner.Semantics

/-! ### The encoders -/

/-- `d > 0.0`, on the pattern of a double: no sign, not zero, and no NaN. -/
def isPositive (d : UInt64) : Bool := 0 < d && d ≤ 0x7FF0000000000000

def GpuCard.fields (g : GpuCard) : List Wire.Field :=
  [⟨1, .bytes g.uuid⟩, ⟨2, .bytes g.model⟩, ⟨3, .varint g.index.toUInt64⟩,
    ⟨4, .fixed64 g.hashrate⟩]

def GpuCard.encode (g : GpuCard) : List UInt8 := g.fields.flatMap Wire.Field.encode

namespace RegisterRequest

def fields (r : RegisterRequest) : List Wire.Field :=
  (if r.minerId.toList.any (· ≠ 0) then [⟨1, .bytes r.minerId.toList⟩] else []) ++
  (if r.identityKey ≠ [] then [⟨2, .bytes r.identityKey⟩] else []) ++
  [⟨3, .bytes r.walletAddress⟩, ⟨4, .bytes r.workerName⟩] ++
  r.gpuCards.map (fun g => ⟨5, .bytes g.encode⟩) ++
  (if isPositive r.claimedTotalHashrate then [⟨6, .fixed64 r.claimedTotalHashrate⟩] else []) ++
  [⟨7, .bytes r.minerVersion⟩] ++
  (if r.gitSha ≠ [] then [⟨8, .bytes r.gitSha⟩] else []) ++
  [⟨9, .varint r.protocolVersion.toUInt64⟩, ⟨10, .varint r.k.toUInt64⟩]

def encode (r : RegisterRequest) : List UInt8 := r.fields.flatMap Wire.Field.encode

/-- The strings of a request. -/
def strings (r : RegisterRequest) : List (List UInt8) :=
  [r.identityKey, r.walletAddress, r.workerName, r.minerVersion, r.gitSha] ++
    r.gpuCards.flatMap fun g => [g.uuid, g.model]

/-- The request with every hashrate at its default. -/
def withoutRates (r : RegisterRequest) : RegisterRequest :=
  { r with
    gpuCards := r.gpuCards.map fun g => { g with hashrate := 0 }
    claimedTotalHashrate := 0 }

end RegisterRequest

/-! ### Cards -/

section Cards

variable {mem : Memory} {g : GpuCard}

/-- What a card takes from a field. -/
def GpuCard.absorb (g : GpuCard) (f : Wire.Field) : GpuCard :=
  match f.number.toNat with
  | 1 => { g with uuid := f.value.slice }
  | 2 => { g with model := f.value.slice }
  | 3 => { g with index := f.value.number.toUInt32 }
  | 4 => { g with hashrate := doubleIf f.value.slice g.hashrate }
  | _ => g

theorem GpuCard.field_of_presents {f : Wire.Field} {w : WireField} (msg : GpuCard)
    (hlen : f.value.slice.length < 2 ^ 63) (hw : Presents mem f w) :
    GpuCard.field mem msg w = .ok (msg.absorb f) := by
  rw [GpuCard.field, GpuCard.absorb, hw.field, assign_of_presents hw hlen,
    copyDoubleIf_of_presents hw, hw.value]
  generalize f.number.toNat = k
  rcases k with _ | _ | _ | _ | _ | k <;> rfl

theorem GpuCard.foldl_absorb (g : GpuCard) :
    g.fields.foldl GpuCard.absorb {} = { g with hashrate := 0 } := by
  simp [GpuCard.fields, GpuCard.absorb, Wire.Value.slice, Wire.Value.number, doubleIf]

/-- A written card is read without its hashrate. -/
theorem GpuCard.read_encode (hlen : g.encode.length < 2 ^ 64) :
    readPlain GpuCard.absorb {} g.encode = some { g with hashrate := 0 } := by
  refine readMessage_eq_some_iff.mpr ⟨g.fields, Wire.fields_encode hlen, ?_⟩
  exact (foldlM_some _ _ _).trans (congrArg some g.foldl_absorb)

theorem GpuCard.length_encode_lt (huuid : g.uuid.length < 2 ^ 32)
    (hmodel : g.model.length < 2 ^ 32) : g.encode.length < 2 ^ 63 := by
  have h1 := Wire.Field.length_encode_le ⟨1, .bytes g.uuid⟩
  have h2 := Wire.Field.length_encode_le ⟨2, .bytes g.model⟩
  have h3 := Wire.Field.length_encode_le ⟨3, .varint g.index.toUInt64⟩
  have h4 := Wire.Field.length_encode_le ⟨4, .fixed64 g.hashrate⟩
  simp only [Wire.Value.payload, List.length_nil, LittleEndian.length_bytesOf] at h1 h2 h3 h4
  simp only [GpuCard.encode, GpuCard.fields, List.flatMap_cons, List.flatMap_nil,
    List.length_append, List.length_nil]
  omega

end Cards

/-! ### Requests -/

namespace RegisterRequest

variable {mem : Memory} {r : RegisterRequest}

/-- What a request takes from a field; a card must be readable. -/
def absorb (r : RegisterRequest) (f : Wire.Field) : Option RegisterRequest :=
  match f.number.toNat with
  | 1 => some { r with minerId := arrayIf f.value.slice r.minerId }
  | 2 => some { r with identityKey := f.value.slice }
  | 3 => some { r with walletAddress := f.value.slice }
  | 4 => some { r with workerName := f.value.slice }
  | 5 => (readPlain GpuCard.absorb {} f.value.slice).map fun g =>
      { r with gpuCards := r.gpuCards ++ [g] }
  | 6 => some { r with claimedTotalHashrate := doubleIf f.value.slice r.claimedTotalHashrate }
  | 7 => some { r with minerVersion := f.value.slice }
  | 8 => some { r with gitSha := f.value.slice }
  | 9 => some { r with protocolVersion := f.value.number.toUInt32 }
  | 10 => some { r with k := f.value.number.toUInt32 }
  | _ => some r

theorem field_of_presents {f : Wire.Field} {w : WireField} {fuel : ℕ}
    {msg result : RegisterRequest} (hlen : f.value.slice.length < 2 ^ 63)
    (hfuel : f.value.slice.length < fuel) (hw : Presents mem f w)
    (habsorb : msg.absorb f = some result) :
    RegisterRequest.field mem fuel msg w = some (.ok result) := by
  rw [RegisterRequest.absorb] at habsorb
  rw [RegisterRequest.field, hw.field, assign_of_presents hw hlen, copyArrayIf_of_presents hw,
    copyDoubleIf_of_presents hw, hw.value]
  generalize f.number.toNat = k at habsorb
  rcases k with _ | _ | _ | _ | _ | _ | _ | _ | _ | _ | _ | k
  case succ.succ.succ.succ.succ.zero =>
    obtain ⟨g, hread, rfl⟩ := Option.map_eq_some_iff.mp habsorb
    have hcard : GpuCard.decode mem fuel w.data w.len {} = some (.ok g) :=
      hw.decodeLoop_readPlain hlen
        (fun _ msg _ hlen hw => congrArg some (GpuCard.field_of_presents msg hlen hw)) hread hfuel
    simp [hcard, Except.map]
  all_goals
    obtain rfl := Option.some.inj habsorb
    rfl

theorem mem_fields {f : Wire.Field} (hf : f ∈ r.fields) :
    f = ⟨1, .bytes r.minerId.toList⟩ ∨ f = ⟨2, .bytes r.identityKey⟩ ∨
      f = ⟨3, .bytes r.walletAddress⟩ ∨ f = ⟨4, .bytes r.workerName⟩ ∨
      (∃ g ∈ r.gpuCards, f = ⟨5, .bytes g.encode⟩) ∨ f = ⟨6, .fixed64 r.claimedTotalHashrate⟩ ∨
      f = ⟨7, .bytes r.minerVersion⟩ ∨ f = ⟨8, .bytes r.gitSha⟩ ∨
      f = ⟨9, .varint r.protocolVersion.toUInt64⟩ ∨ f = ⟨10, .varint r.k.toUInt64⟩ := by
  unfold fields at hf
  simp only [List.mem_append, List.mem_ite_nil_right, List.mem_cons, List.not_mem_nil, or_false,
    List.mem_map] at hf
  grind

theorem absorb_card {g : GpuCard} {msg : RegisterRequest} (hlen : g.encode.length < 2 ^ 64) :
    msg.absorb ⟨5, .bytes g.encode⟩ =
      some { msg with gpuCards := msg.gpuCards ++ [{ g with hashrate := 0 }] } := by
  have hread := GpuCard.read_encode hlen
  simp [absorb, Wire.Value.slice, hread]

theorem foldlM_absorb_cards {cards : List GpuCard} {msg : RegisterRequest}
    (hlen : ∀ g ∈ cards, g.encode.length < 2 ^ 64) :
    (cards.map fun g => (⟨5, .bytes g.encode⟩ : Wire.Field)).foldlM absorb msg =
      some { msg with
        gpuCards := msg.gpuCards ++ cards.map fun g => { g with hashrate := 0 } } := by
  induction cards generalizing msg with
  | nil => simp
  | cons g cards ih =>
    rw [List.map_cons, List.foldlM_cons, absorb_card (hlen g List.mem_cons_self)]
    exact (ih fun g hg => hlen g (List.mem_cons_of_mem _ hg)).trans (by simp)

/-- The default identifier need not be written. -/
theorem foldlM_absorb_minerId {msg : RegisterRequest}
    (hmsg : msg.minerId = Vector.replicate 16 0) :
    (if r.minerId.toList.any (· ≠ 0) then [(⟨1, .bytes r.minerId.toList⟩ : Wire.Field)]
      else []).foldlM absorb msg = some { msg with minerId := r.minerId } := by
  split_ifs with hany
  · have harray : arrayIf r.minerId.toList msg.minerId = r.minerId := by
      simp [arrayIf, Vector.toList]
    simp [absorb, Wire.Value.slice, harray]
  · have hzero : r.minerId = Vector.replicate 16 0 := by
      simp only [List.any_eq_true, not_exists, not_and, decide_eq_true_eq, ne_eq, not_not] at hany
      refine Vector.ext fun i hi => ?_
      have hmem : r.minerId[i] ∈ r.minerId.toList :=
        Vector.mem_toList_iff.mpr (Vector.getElem_mem hi)
      rw [hany _ hmem, Vector.getElem_replicate]
    rw [List.foldlM_nil, hzero, ← hmsg]
    rfl

/-- All that was written is taken in but the hashrates. -/
theorem foldlM_absorb_fields (hlen : ∀ g ∈ r.gpuCards, g.encode.length < 2 ^ 64) :
    r.fields.foldlM absorb {} = some r.withoutRates := by
  unfold fields
  simp only [List.foldlM_append, foldlM_absorb_minerId, foldlM_absorb_cards hlen,
    Option.bind_eq_bind, Option.bind_some]
  by_cases hkey : r.identityKey = [] <;> by_cases hsha : r.gitSha = [] <;>
    by_cases hrate : isPositive r.claimedTotalHashrate = true <;>
    simp [hkey, hsha, hrate, absorb, withoutRates, Wire.Value.slice, Wire.Value.number, doubleIf]

theorem length_slice_lt (hstrings : ∀ s ∈ r.strings, s.length < 2 ^ 32) {f : Wire.Field}
    (hf : f ∈ r.fields) : f.value.slice.length < 2 ^ 63 := by
  have hshort : ∀ s ∈ r.strings, s.length < 2 ^ 63 := fun s hs =>
    (hstrings s hs).trans (by norm_num)
  simp only [strings, List.mem_append, List.mem_cons, List.not_mem_nil, or_false,
    List.mem_flatMap] at hstrings hshort
  rcases mem_fields hf with rfl | rfl | rfl | rfl | ⟨g, hg, rfl⟩ | rfl | rfl | rfl | rfl | rfl
  · simp [Wire.Value.slice]
  · exact hshort r.identityKey (by simp)
  · exact hshort r.walletAddress (by simp)
  · exact hshort r.workerName (by simp)
  · exact GpuCard.length_encode_lt (hstrings g.uuid (.inr ⟨g, hg, .inl rfl⟩))
      (hstrings g.model (.inr ⟨g, hg, .inr rfl⟩))
  · simp [Wire.Value.slice]
  · exact hshort r.minerVersion (by simp)
  · exact hshort r.gitSha (by simp)
  · simp [Wire.Value.slice]
  · simp [Wire.Value.slice]

theorem length_encode_card_le {g : GpuCard} (hg : g ∈ r.gpuCards) :
    g.encode.length ≤ r.encode.length := by
  have hf : (⟨5, .bytes g.encode⟩ : Wire.Field) ∈ r.fields := by
    simp only [fields, List.mem_append, List.mem_map]
    exact .inl (.inl (.inl (.inl (.inr ⟨g, hg, rfl⟩))))
  exact Wire.Field.payload_length_le_of_mem hf

/-- A written request is decoded, and comes back without its hashrates. -/
theorem decode_encode {b : Buffer} {fuel : ℕ} (hstrings : ∀ s ∈ r.strings, s.length < 2 ^ 32)
    (hbytes : bytesBetween mem b.data (b.data + b.len) = r.encode)
    (hfuel : r.encode.length < fuel) :
    RegisterRequest.decode mem fuel b.data b.len {} = some (.ok r.withoutRates) := by
  have hlength := @length_bytesBetween mem _ _ b.data_le_end
  rw [b.toNat_end, hbytes] at hlength
  have hend := b.end_lt
  have hlt : r.encode.length < 2 ^ 64 := by omega
  have hfields : Wire.fields r.encode = .ok r.fields := Wire.fields_encode hlt
  have hcards : ∀ g ∈ r.gpuCards, g.encode.length < 2 ^ 64 := by
    intro g hg
    have hle := length_encode_card_le hg
    omega
  have hcount := Wire.length_fields_le hfields
  refine b.decodeLoop_fields (hbytes ▸ hfields) (fun f hf msg w result hw habsorb => ?_)
    (foldlM_absorb_fields hcards) (by omega)
  have hslice := Wire.length_slice_le hfields f hf
  exact field_of_presents (length_slice_lt hstrings hf) (by omega) hw habsorb

theorem withoutRates_eq_self_iff :
    r.withoutRates = r ↔ (∀ g ∈ r.gpuCards, g.hashrate = 0) ∧ r.claimedTotalHashrate = 0 := by
  have hcard : ∀ g : GpuCard, { g with hashrate := 0 } = g ↔ g.hashrate = 0 := by
    intro g
    cases g
    simp [eq_comm]
  have hcards : (r.gpuCards.map fun g => { g with hashrate := 0 }) = r.gpuCards ↔
      ∀ g ∈ r.gpuCards, g.hashrate = 0 := by
    conv_lhs => rhs; rw [← List.map_id r.gpuCards]
    rw [List.map_inj_left]
    exact forall₂_congr fun g _ => hcard g
  rw [← hcards]
  constructor
  · intro h
    exact ⟨congrArg gpuCards h, (congrArg claimedTotalHashrate h).symm⟩
  · rintro ⟨hmap, hclaimed⟩
    rw [withoutRates, hmap, ← hclaimed]

/-- A request that is written and decoded comes back as it was exactly if it carries no
hashrate at all. -/
theorem comes_back_iff {b : Buffer} {fuel : ℕ} (hstrings : ∀ s ∈ r.strings, s.length < 2 ^ 32)
    (hbytes : bytesBetween mem b.data (b.data + b.len) = r.encode)
    (hfuel : r.encode.length < fuel) :
    RegisterRequest.decode mem fuel b.data b.len {} = some (.ok r) ↔
      (∀ g ∈ r.gpuCards, g.hashrate = 0) ∧ r.claimedTotalHashrate = 0 := by
  rw [decode_encode hstrings hbytes hfuel, ← withoutRates_eq_self_iff]
  simp

/-! ### A request with one card -/

/-- A request whose card and total have this hashrate. -/
def sample (rate : UInt64) : RegisterRequest where
  walletAddress := [0x6B, 0x72, 0x78]
  workerName := [0x77]
  gpuCards := [{ uuid := [0x67, 0x70, 0x75], hashrate := rate }]
  claimedTotalHashrate := rate
  minerVersion := [0x32]

/-- The buffer of a sample without hashrates, and of one with them. -/
def sampleBuffer (rated : Bool) : Buffer where
  data := 0x1000
  len := if rated then 45 else 36
  end_lt := by cases rated <;> decide

theorem sample_zero_comes_back :
    RegisterRequest.decode (memoryOf (sample 0).encode) 100 (sampleBuffer false).data
      (sampleBuffer false).len {} = some (.ok (sample 0)) :=
  (comes_back_iff (by decide +kernel) (by decide +kernel) (by decide +kernel)).mpr (by decide)

/-- At a hashrate of 1.0 both numbers come back as zero. -/
theorem comes_back_fails :
    isPositive 0x3FF0000000000000 = true ∧
      bytesBetween (memoryOf (sample 0x3FF0000000000000).encode) (sampleBuffer true).data
        ((sampleBuffer true).data + (sampleBuffer true).len) =
        (sample 0x3FF0000000000000).encode ∧
      RegisterRequest.decode (memoryOf (sample 0x3FF0000000000000).encode) 100
        (sampleBuffer true).data (sampleBuffer true).len {} = some (.ok (sample 0)) ∧
      sample 0 ≠ sample 0x3FF0000000000000 := by
  refine ⟨by decide, by decide +kernel, by decide +kernel, by decide⟩

end RegisterRequest

end PropMiner.Proto
