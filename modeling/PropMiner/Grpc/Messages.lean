import PropMiner.Grpc.Http2
import PropMiner.Proto.Events

/-!
# From DATA payloads to pool events

`drain_frames` appends the payload of a DATA frame to `read_buf_`, and
`parse_grpc_messages` then takes every complete message from its front: it decodes the body
in place, queues the event and erases the message. However the stream is cut into payloads,
this should queue the events of the well-formed bodies and leave the incomplete rest.

Two things stand in the way. The test for a complete message adds the five bytes of the
prefix to the length in 32 bits, so a length within five of `2 ^ 32` passes it at once; and
a body that cannot be decoded throws out of the loop, before it is erased.

The buffer lives in memory, and every time it changes it may lie elsewhere: a `Heap` says
where, for every content.

## Main definitions

* `grpc` — the framing of gRPC messages
* `parseGrpcMessages`, `receive` — the loop, and a sequence of payloads
* `Delivered` — what the payloads of a stream should lead to

## Main results

* `delivered_iff` — they do exactly if all bodies are well-formed and no length is near the top
* `delivered_fails` — a body of one byte throws, and five bytes are taken for a message
-/

set_option autoImplicit false

namespace PropMiner.Grpc

open PropMiner.Semantics (Framing)
open PropMiner.Proto
open PropMiner.Wire (ReadError)

/-! ### Messages -/

/-- A flag, a length in four bytes, and so many bytes. -/
def grpc : Framing UInt8 where
  header := 5
  header_pos := by norm_num
  body hdr := (readU32Be (hdr.drop 1)).toNat

section Framing

variable {bs msg : List UInt8} {n : ℕ}

theorem readU32Be_take (bs : List UInt8) : readU32Be (bs.take 4) = readU32Be bs := by
  match bs with
  | [] | [_] | [_, _] | [_, _, _] | _ :: _ :: _ :: _ :: _ => rfl

theorem size_grpc (bs : List UInt8) :
    grpc.size bs = if 5 ≤ bs.length then some (5 + (readU32Be (bs.drop 1)).toNat) else none := by
  have hhead : (bs.take 5).drop 1 = (bs.drop 1).take 4 := List.drop_take
  have hbody : grpc.body (bs.take 5) = (readU32Be (bs.drop 1)).toNat := by
    change (readU32Be ((bs.take 5).drop 1)).toNat = _
    rw [hhead, readU32Be_take]
  change (if 5 ≤ bs.length then some (5 + grpc.body (bs.take 5)) else none) = _
  rw [hbody]

theorem whole_grpcMessage (hlen : msg.length < 2 ^ 32) : grpc.Whole (grpcMessage msg) := by
  have hread : readU32Be ((grpcMessage msg).drop 1) = UInt32.ofNat msg.length :=
    readU32Be_writeU32Be _ msg
  rw [Framing.Whole, size_grpc, hread, length_grpcMessage, if_pos (Nat.le_add_left _ _),
    UInt32.toNat_ofNat_of_lt' hlen, Nat.add_comm]

theorem take_grpcMessage (msg : List UInt8) :
    (grpcMessage msg).take 5 = 0 :: writeU32Be (UInt32.ofNat msg.length) := rfl

end Framing

/-- A sequence of messages, the last one incomplete: of `last` only the first `cut` bytes,
fewer than all, are there. -/
structure Stream where
  bodies : List (List UInt8)
  last : List UInt8
  cut : ℕ
  bodies_lt : ∀ b ∈ bodies, b.length < 2 ^ 32
  last_lt : last.length < 2 ^ 32
  cut_lt : cut < (grpcMessage last).length

namespace Stream

def tail (s : Stream) : List UInt8 := (grpcMessage s.last).take s.cut

def bytes (s : Stream) : List UInt8 := s.bodies.flatMap grpcMessage ++ s.tail

/-- The events of the well-formed bodies. -/
def events (s : Stream) : List PoolEvent := s.bodies.filterMap PoolEvent.read

/-- All bodies are well-formed, and no length that can be read is within five of the top. -/
def Clean (s : Stream) : Prop :=
  (∀ b ∈ s.bodies, (PoolEvent.read b).isSome ∧ b.length + 5 < 2 ^ 32) ∧
    (5 ≤ s.cut → s.last.length + 5 < 2 ^ 32)

instance (s : Stream) : Decidable s.Clean := inferInstanceAs (Decidable (_ ∧ _))

end Stream

/-! ### The parser -/

/-- Where the vector with some content lies. -/
structure Heap where
  mem : List UInt8 → Memory
  data : List UInt8 → UInt64
  placed : ∀ bs : List UInt8, bs.length < 2 ^ 63 →
    (data bs).toNat + bs.length < 2 ^ 64 ∧ bytesAt (mem bs) (data bs) bs.length = bs

/-- A call of `PoolEvent::decode`, with what `read_buf_` holds at that time. -/
structure Call where
  readBuf : List UInt8
  mem : Memory
  data : UInt64
  msgLen : UInt32

/-- The call reads no byte outside `read_buf_`. -/
structure Call.Inside (c : Call) : Prop where
  slice : 5 + c.msgLen.toNat ≤ c.readBuf.length
  safe : EventSafe c.mem c.data c.msgLen.toUInt64

/-- Why `parse_grpc_messages` ends other than by returning. -/
inductive Fault
  /-- an exception of `PoolEvent::decode` -/
  | exception (e : ReadError)
  /-- `erase` up to an iterator behind the end -/
  | outOfRange
  deriving DecidableEq, Repr

/-- `read_buf_`, `event_queue_`, and the calls of `PoolEvent::decode` so far. -/
structure Incoming where
  readBuf : List UInt8 := []
  eventQueue : List PoolEvent := []
  calls : List Call := []

/-- `read_u32_be(read_buf_.data() + 1)` -/
def Incoming.msgLen (s : Incoming) : UInt32 := readU32Be (s.readBuf.drop 1)

/-- `evt.decode(read_buf_.data() + 5, msg_len)` -/
def Incoming.call (heap : Heap) (s : Incoming) : Call where
  readBuf := s.readBuf
  mem := heap.mem s.readBuf
  data := heap.data s.readBuf + 5
  msgLen := s.msgLen

/-- Decode the body, unless it is compressed; `decode` returns `true` or throws. -/
def decodeMessage (heap : Heap) (fuel : ℕ) (s : Incoming) : Option (Incoming × Option Fault) :=
  if s.readBuf.headD 0 ≠ 0 then some (s, none)
  else
    let c := s.call heap
    match PoolEvent.decode c.mem fuel c.data c.msgLen.toUInt64 {} with
    | none => none
    | some (.error e) => some ({ s with calls := s.calls ++ [c] }, some (.exception e))
    | some (.ok evt) =>
        some ({ s with eventQueue := s.eventQueue ++ [evt], calls := s.calls ++ [c] }, none)

/-- `read_buf_.erase(read_buf_.begin(), read_buf_.begin() + 5 + msg_len)` -/
def eraseMessage (s : Incoming) : Incoming × Option Fault :=
  if 5 + s.msgLen.toNat ≤ s.readBuf.length then
    ({ s with readBuf := s.readBuf.drop (5 + s.msgLen.toNat) }, none)
  else (s, some .outOfRange)

/-- The loop of `parse_grpc_messages`; the sum in its second test is one of 32 bits. -/
def parseLoop (heap : Heap) (fuel : ℕ) : ℕ → Incoming → Option (Incoming × Option Fault)
  | 0, _ => none
  | rounds + 1, s =>
      -- `while (size >= 5)` and, inside, `if (size < 5 + msg_len) break`
      if s.readBuf.length < 5 ∨ s.readBuf.length < (5 + s.msgLen).toNat then some (s, none)
      else
        match decodeMessage heap fuel s with
        | none => none
        -- thrown before the erase: the message stays where it is
        | some (s, some fault) => some (s, some fault)
        | some (s, none) =>
            match eraseMessage s with
            | (s, some fault) => some (s, some fault)
            | (s, none) => parseLoop heap fuel rounds s

/-- `parse_grpc_messages`; `fuel` bounds every loop. -/
def parseGrpcMessages (heap : Heap) (fuel : ℕ) (s : Incoming) :
    Option (Incoming × Option Fault) :=
  parseLoop heap fuel fuel s

/-- The payload of a DATA frame, whose length is a number of 24 bits. -/
structure Delivery where
  payload : List UInt8
  short : payload.length < 2 ^ 24
  heap : Heap

/-- The payloads are appended one by one, and after each the buffer is parsed. -/
def receive (fuel : ℕ) : List Delivery → Incoming → Option (Incoming × Option Fault)
  | [], s => some (s, none)
  | d :: ds, s =>
      match parseGrpcMessages d.heap fuel { s with readBuf := s.readBuf ++ d.payload } with
      | none => none
      | some (s, some fault) => some (s, some fault)
      | some (s, none) => receive fuel ds s

/-- The payloads of the stream lead to its events and leave its incomplete rest; nothing
throws, and nothing is read outside the buffer. -/
def Delivered (s : Stream) (ds : List Delivery) : Prop :=
  ∃ fuel t, receive fuel ds {} = some (t, none) ∧ t.readBuf = s.tail ∧
    t.eventQueue = s.events ∧ ∀ c ∈ t.calls, c.Inside

/-! ### Well-formed messages are taken -/

section Complete

variable {heap : Heap} {fuel : ℕ} {s : Incoming} {body rest : List UInt8} {evt : PoolEvent}

/-- No announced size is too large for 32 bits. -/
def Small (bs : List UInt8) : Prop := ∀ n, grpc.size bs = some n → n < 2 ^ 32

theorem msgLen_of_message (hbuf : s.readBuf = grpcMessage body ++ rest)
    (hlen : body.length < 2 ^ 32) : s.msgLen.toNat = body.length := by
  have hread : readU32Be ((grpcMessage body ++ rest).drop 1) = UInt32.ofNat body.length := by
    have hwrite := readU32Be_writeU32Be (UInt32.ofNat body.length) (body ++ rest)
    simpa [grpcMessage] using hwrite
  rw [Incoming.msgLen, hbuf, hread, UInt32.toNat_ofNat_of_lt' hlen]

/-- The body of the first message is a buffer of its own. -/
theorem exists_buffer (hbuf : s.readBuf = grpcMessage body ++ rest) (hlen : body.length < 2 ^ 32)
    (hfits : s.readBuf.length < 2 ^ 63) :
    ∃ b : Buffer, b.data = (s.call heap).data ∧ b.len = (s.call heap).msgLen.toUInt64 ∧
      bytesBetween (s.call heap).mem b.data (b.data + b.len) = body := by
  have hmsg : s.msgLen.toUInt64.toNat = body.length := by
    rw [UInt32.toNat_toUInt64, msgLen_of_message hbuf hlen]
  obtain ⟨hend, hbytes⟩ := heap.placed s.readBuf hfits
  have hlength : s.readBuf.length = body.length + 5 + rest.length := by
    rw [hbuf, List.length_append, length_grpcMessage]
  have hdata : (heap.data s.readBuf + 5).toNat = (heap.data s.readBuf).toNat + 5 := by
    rw [UInt64.toNat_add]
    exact Nat.mod_eq_of_lt (by change _ + 5 < _; omega)
  refine ⟨⟨heap.data s.readBuf + 5, s.msgLen.toUInt64, by omega⟩, rfl, rfl, ?_⟩
  -- five bytes of prefix, the body, and what follows
  have hslice : bytesAt (heap.mem s.readBuf) (heap.data s.readBuf) s.readBuf.length =
      (0 :: writeU32Be (UInt32.ofNat body.length)) ++ body ++ rest := by
    rw [hbytes, hbuf]
    rfl
  have hbody := bytesAt_slice hslice
  change bytesBetween (heap.mem s.readBuf) (heap.data s.readBuf + 5)
    (heap.data s.readBuf + 5 + s.msgLen.toUInt64) = body
  rw [bytesBetween_add, hmsg]
  exact hbody

theorem decodeMessage_of_read (hbuf : s.readBuf = grpcMessage body ++ rest)
    (hlen : body.length < 2 ^ 32) (hfits : s.readBuf.length < 2 ^ 63)
    (hread : PoolEvent.read body = some evt) (hfuel : body.length < fuel) :
    decodeMessage heap fuel s =
        some (⟨s.readBuf, s.eventQueue ++ [evt], s.calls ++ [s.call heap]⟩, none) ∧
      (s.call heap).Inside := by
  obtain ⟨b, hdata, hblen, hbytes⟩ := @exists_buffer heap s body rest hbuf hlen hfits
  have hflag : s.readBuf.headD 0 = 0 := by rw [hbuf]; rfl
  have hdecode := PoolEvent.decode_of_read b hbytes hread (by omega) hfuel
  have hsafe := eventSafe_of_read b (hbytes.symm ▸ hread)
  rw [hdata, hblen] at hdecode hsafe
  refine ⟨?_, ⟨?_, hsafe⟩⟩
  · rw [decodeMessage, if_neg (not_not.mpr hflag)]
    simp only [hdecode]
  · change 5 + s.msgLen.toNat ≤ s.readBuf.length
    rw [msgLen_of_message hbuf hlen, hbuf, List.length_append, length_grpcMessage]
    omega

theorem eraseMessage_of_message (hbuf : s.readBuf = grpcMessage body ++ rest)
    (hlen : body.length < 2 ^ 32) : eraseMessage s = ({ s with readBuf := rest }, none) := by
  have hmsg := msgLen_of_message hbuf hlen
  have hlength : s.readBuf.length = body.length + 5 + rest.length := by
    rw [hbuf, List.length_append, length_grpcMessage]
  have hdrop : s.readBuf.drop (5 + body.length) = rest := by
    rw [hbuf, List.drop_left' (by rw [length_grpcMessage, Nat.add_comm])]
  rw [eraseMessage, hmsg, if_pos (by omega), hdrop]

/-- One round takes a well-formed message. -/
theorem parseLoop_message {rounds : ℕ} (hbuf : s.readBuf = grpcMessage body ++ rest)
    (hlen : body.length + 5 < 2 ^ 32) (hfits : s.readBuf.length < 2 ^ 63)
    (hread : PoolEvent.read body = some evt) (hfuel : body.length < fuel) :
    parseLoop heap fuel (rounds + 1) s =
      parseLoop heap fuel rounds ⟨rest, s.eventQueue ++ [evt], s.calls ++ [s.call heap]⟩ := by
  have hmsg := msgLen_of_message hbuf (by omega)
  have hlength : s.readBuf.length = body.length + 5 + rest.length := by
    rw [hbuf, List.length_append, length_grpcMessage]
  have hsum : (5 + s.msgLen).toNat = 5 + body.length := by
    rw [UInt32.toNat_add, hmsg]
    exact Nat.mod_eq_of_lt (by change 5 + _ < _; omega)
  have hdecode := (@decodeMessage_of_read heap fuel s body rest evt hbuf (by omega) hfits hread
    hfuel).1
  have herase := @eraseMessage_of_message
    ⟨s.readBuf, s.eventQueue ++ [evt], s.calls ++ [s.call heap]⟩ body rest hbuf (by omega)
  rw [parseLoop, if_neg (by omega)]
  simp only [hdecode, herase]

theorem parseLoop_stop {rounds : ℕ} (hnext : grpc.next s.readBuf = none)
    (hsmall : Small s.readBuf) : parseLoop heap fuel (rounds + 1) s = some (s, none) := by
  rw [parseLoop, if_pos]
  by_cases hheader : s.readBuf.length < 5
  · exact .inl hheader
  · have hsize := size_grpc s.readBuf
    rw [if_pos (Nat.le_of_not_lt hheader)] at hsize
    have hlt := hsmall _ hsize
    have hshort := Framing.length_lt_of_next_none hnext hsize
    refine .inr ?_
    rw [UInt32.toNat_add, Incoming.msgLen]
    exact lt_of_lt_of_eq hshort (Nat.mod_eq_of_lt hlt).symm

/-- Well-formed messages and an incomplete rest: all of them are taken. -/
theorem parseLoop_messages {bodies : List (List UInt8)} {rounds : ℕ}
    (hbodies : ∀ b ∈ bodies, (PoolEvent.read b).isSome ∧ b.length + 5 < 2 ^ 32 ∧ b.length < fuel)
    (hnext : grpc.next rest = none) (hsmall : Small rest)
    (hbuf : s.readBuf = bodies.flatMap grpcMessage ++ rest) (hfits : s.readBuf.length < 2 ^ 63)
    (hrounds : bodies.length < rounds) :
    ∃ cs, parseLoop heap fuel rounds s =
        some (⟨rest, s.eventQueue ++ bodies.filterMap PoolEvent.read, s.calls ++ cs⟩, none) ∧
      ∀ c ∈ cs, c.Inside := by
  -- by induction on the messages: a round takes the first and leaves a buffer with the others
  induction bodies generalizing s rounds with
  | nil =>
    obtain ⟨rounds, rfl⟩ : ∃ n, rounds = n + 1 := Nat.exists_eq_add_one.mpr hrounds
    have hrest : s.readBuf = rest := hbuf
    refine ⟨[], ?_, nofun⟩
    rw [parseLoop_stop (hrest ▸ hnext) (hrest ▸ hsmall), ← hrest]
    simp
  | cons b bodies ih =>
    obtain ⟨rounds, rfl⟩ : ∃ n, rounds = n + 1 :=
      Nat.exists_eq_add_one.mpr (Nat.zero_lt_of_lt hrounds)
    obtain ⟨hsome, hlen, hfuel⟩ := hbodies b List.mem_cons_self
    obtain ⟨evt, hread⟩ := Option.isSome_iff_exists.mp hsome
    rw [List.flatMap_cons, List.append_assoc] at hbuf
    have hlength := congrArg List.length hbuf
    rw [List.length_append] at hlength
    have hrest : (bodies.flatMap grpcMessage ++ rest).length < 2 ^ 63 := by omega
    obtain ⟨cs, hloop, hcs⟩ := @ih
      ⟨bodies.flatMap grpcMessage ++ rest, s.eventQueue ++ [evt], s.calls ++ [s.call heap]⟩ rounds
      (fun c hc => hbodies c (List.mem_cons_of_mem _ hc)) rfl hrest
      (Nat.lt_of_succ_lt_succ hrounds)
    have hinside := (@decodeMessage_of_read heap fuel s b _ evt hbuf (by omega) hfits hread hfuel).2
    refine ⟨s.call heap :: cs, ?_, ?_⟩
    · rw [parseLoop_message hbuf hlen hfits hread hfuel, hloop, List.filterMap_cons_some hread]
      simp
    · rintro c (_ | ⟨_, hc⟩)
      · exact hinside
      · exact hcs c hc

theorem whole_messages {bodies : List (List UInt8)} (hbodies : ∀ b ∈ bodies, b.length < 2 ^ 32) :
    ∀ f ∈ bodies.map grpcMessage, grpc.Whole f := by
  intro f hf
  obtain ⟨b, hb, rfl⟩ := List.mem_map.mp hf
  exact whole_grpcMessage (hbodies b hb)

/-- In a stream without large lengths, no part of it announces one. -/
theorem small_of_append {bodies : List (List UInt8)} {bs more tail : List UInt8}
    (hbodies : ∀ b ∈ bodies, b.length + 5 < 2 ^ 32) (hsmall : Small tail)
    (h : bs ++ more = (bodies.map grpcMessage).flatten ++ tail) : Small bs := by
  intro n hn
  have hsize := @Framing.size_append _ grpc bs more n hn
  rw [h] at hsize
  have hwhole := whole_messages fun b hb => (Nat.le_add_right _ 5).trans_lt (hbodies b hb)
  rcases Framing.size_flatten_append hwhole hsize with ⟨f, hf, rfl⟩ | htail
  · obtain ⟨b, hb, rfl⟩ := List.mem_map.mp hf
    rw [length_grpcMessage]
    exact hbodies b hb
  · exact hsmall n htail

theorem length_lt_of_stop {bs : List UInt8} (hnext : grpc.next bs = none) (hsmall : Small bs) :
    bs.length < 2 ^ 32 := by
  cases hsize : grpc.size bs with
  | none =>
    rw [size_grpc] at hsize
    split_ifs at hsize with hheader
    omega
  | some n => exact (Framing.length_lt_of_next_none hnext hsize).trans (hsmall n hsize)

/-- The messages of a stream are taken payload by payload: what the payloads still bring,
behind what the buffer holds, is the rest of the stream. -/
theorem receive_of_clean {bodies : List (List UInt8)} {tail : List UInt8} {ds : List Delivery}
    (hbodies : ∀ b ∈ bodies, (PoolEvent.read b).isSome ∧ b.length + 5 < 2 ^ 32 ∧ b.length < fuel)
    (htail : grpc.next tail = none) (hsmall : Small tail)
    (hstop : grpc.next s.readBuf = none)
    (hbytes : s.readBuf ++ ds.flatMap Delivery.payload = bodies.flatMap grpcMessage ++ tail)
    (hcount : bodies.length < fuel) :
    ∃ cs, receive fuel ds s =
        some (⟨tail, s.eventQueue ++ bodies.filterMap PoolEvent.read, s.calls ++ cs⟩, none) ∧
      ∀ c ∈ cs, c.Inside := by
  induction ds generalizing s bodies with
  | nil =>
    -- nothing is to come, so what the buffer holds is the incomplete rest
    have hjoin : ([] : List (List UInt8)).flatten ++ s.readBuf =
        (bodies.map grpcMessage).flatten ++ tail := by
      simpa [List.flatMap_def] using hbytes
    have hwhole := whole_messages fun b hb => (Nat.le_add_right _ 5).trans_lt (hbodies b hb).2.1
    obtain ⟨hnil, rfl⟩ := Framing.split_unique (fun _ h => absurd h List.not_mem_nil) hwhole hstop
      htail hjoin
    obtain rfl := List.map_eq_nil_iff.mp hnil.symm
    exact ⟨[], by simp [receive], nofun⟩
  | cons d ds ih =>
    have hwhole := whole_messages fun b hb => (Nat.le_add_right _ 5).trans_lt (hbodies b hb).2.1
    have hstream : s.readBuf ++ d.payload ++ ds.flatMap Delivery.payload =
        (bodies.map grpcMessage).flatten ++ tail := by
      rw [List.append_assoc, ← List.flatMap_cons, hbytes, List.flatMap_def]
    -- the buffer is cut into the first messages of the stream and an incomplete one
    obtain ⟨gs, hframes, hmore⟩ := Framing.split_prefix hwhole htail hstream
    obtain ⟨taken, left, rfl, htaken, rfl⟩ := List.map_eq_append_iff.mp hframes
    have hbuf : s.readBuf ++ d.payload =
        taken.flatMap grpcMessage ++ (grpc.split (s.readBuf ++ d.payload)).2 := by
      rw [List.flatMap_def, htaken, Framing.flatten_split]
    have hleft : ∀ b ∈ left, b.length + 5 < 2 ^ 32 := fun b hb =>
      (hbodies b (List.mem_append_right _ hb)).2.1
    have hrest := small_of_append hleft hsmall hmore
    -- an incomplete message and one payload: short enough to lie in memory
    have hlength : (s.readBuf ++ d.payload).length < 2 ^ 63 := by
      have hsmallBuf := small_of_append (fun b hb => (hbodies b hb).2.1) hsmall
        (List.append_assoc .. ▸ hstream)
      have hshort := length_lt_of_stop hstop hsmallBuf
      have hpayload := d.short
      rw [List.length_append]
      omega
    rw [List.length_append] at hcount
    obtain ⟨cs, hparse, hcs⟩ := @parseLoop_messages d.heap fuel
      { s with readBuf := s.readBuf ++ d.payload } _ taken fuel
      (fun b hb => hbodies b (List.mem_append_left _ hb)) Framing.next_split hrest hbuf hlength
      (by omega)
    obtain ⟨cs', hreceive, hcs'⟩ := @ih ⟨(grpc.split (s.readBuf ++ d.payload)).2,
        s.eventQueue ++ taken.filterMap PoolEvent.read, s.calls ++ cs⟩ left
      (fun b hb => hbodies b (List.mem_append_right _ hb)) Framing.next_split
      (hmore.trans (by rw [List.flatMap_def])) (by omega)
    refine ⟨cs ++ cs', ?_, ?_⟩
    · rw [receive, parseGrpcMessages, hparse]
      simp only [hreceive, List.filterMap_append, List.append_assoc]
    · intro c hc
      rcases List.mem_append.mp hc with hc | hc
      · exact hcs c hc
      · exact hcs' c hc

end Complete

/-! ### What is taken is a message -/

section Sound

variable {heap : Heap} {fuel : ℕ} {s t : Incoming} {bytes : List UInt8} {fs : List (List UInt8)}

/-- A buffer that has got at most one payload since its first message was looked at. -/
def Fresh (bs : List UInt8) : Prop :=
  bs.length < 2 ^ 24 + 5 ∨ ∃ n, grpc.size bs = some n ∧ n < 2 ^ 32 ∧ bs.length < 2 ^ 24 + n

/-- The messages taken from the stream so far, one event for each that is not compressed. -/
structure Taken (bytes : List UInt8) (s : Incoming) (fs : List (List UInt8)) : Prop where
  whole : ∀ f ∈ fs, grpc.Whole f
  small : ∀ f ∈ fs, f.length < 2 ^ 32
  bytes : fs.flatten ++ s.readBuf = bytes
  count : s.eventQueue.length = fs.countP fun f => f.headD 0 = 0

theorem fresh_append {bs payload : List UInt8} (hnext : grpc.next bs = none) (hsmall : Small bs)
    (hpayload : payload.length < 2 ^ 24) : Fresh (bs ++ payload) := by
  cases hsize : grpc.size bs with
  | none =>
    left
    rw [size_grpc] at hsize
    split_ifs at hsize with hheader
    rw [List.length_append]
    omega
  | some n =>
    have hshort := Framing.length_lt_of_next_none hnext hsize
    refine .inr ⟨n, Framing.size_append hsize, hsmall n hsize, ?_⟩
    rw [List.length_append]
    omega

/-- A message that is taken from a fresh buffer is small, and leaves a fresh buffer. -/
theorem Fresh.drop {bs : List UInt8} {n : ℕ} (hfresh : Fresh bs) (hsize : grpc.size bs = some n)
    (hle : n ≤ bs.length) : n < 2 ^ 32 ∧ Fresh (bs.drop n) := by
  have hpos : 5 ≤ n := by
    rw [size_grpc] at hsize
    split_ifs at hsize
    rw [← Option.some.inj hsize]
    exact Nat.le_add_right _ _
  unfold Fresh
  rw [List.length_drop]
  rcases hfresh with hshort | ⟨m, hm, hlt, hshort⟩
  -- the message came with the last payload, or was announced before it
  · exact ⟨by omega, .inl (by omega)⟩
  · obtain rfl := Option.some.inj (hm.symm.trans hsize)
    exact ⟨hlt, .inl (by omega)⟩

/-- Decoding leaves the buffer alone, and queues an event unless the message is compressed. -/
theorem decodeMessage_ok (h : decodeMessage heap fuel s = some (t, none)) :
    t.readBuf = s.readBuf ∧
      t.eventQueue.length = s.eventQueue.length + if s.readBuf.headD 0 = 0 then 1 else 0 := by
  unfold decodeMessage at h
  split_ifs at h with hflag
  · obtain ⟨rfl, -⟩ := Prod.mk.inj (Option.some.inj h)
    rw [if_neg hflag]
    exact ⟨rfl, rfl⟩
  · rw [if_pos (not_not.mp hflag)]
    simp only at h
    split at h
    · cases h
    · cases h
    · obtain ⟨rfl, -⟩ := Prod.mk.inj (Option.some.inj h)
      exact ⟨rfl, List.length_append⟩

theorem eraseMessage_ok (h : eraseMessage s = (t, none)) :
    5 + s.msgLen.toNat ≤ s.readBuf.length ∧
      t = { s with readBuf := s.readBuf.drop (5 + s.msgLen.toNat) } := by
  unfold eraseMessage at h
  split_ifs at h with hle
  · exact ⟨hle, (Prod.mk.inj h).1.symm⟩
  · cases h

/-- Where the loop stops, the rest is incomplete, and announces nothing large: a length
near the top makes the sum smaller than five. -/
theorem stop_of_test
    (h : s.readBuf.length < 5 ∨ s.readBuf.length < (5 + s.msgLen).toNat) :
    grpc.next s.readBuf = none ∧ Small s.readBuf := by
  have hsize := size_grpc s.readBuf
  have hmsg := (readU32Be (s.readBuf.drop 1)).toNat_lt
  have hsum : (5 + s.msgLen).toNat = (5 + (readU32Be (s.readBuf.drop 1)).toNat) % 2 ^ 32 := by
    rw [UInt32.toNat_add]
    rfl
  have hboth : ∀ n, grpc.size s.readBuf = some n → s.readBuf.length < n ∧ n < 2 ^ 32 := by
    intro n hn
    rw [hsize] at hn
    split_ifs at hn with hheader
    obtain rfl := Option.some.inj hn
    omega
  exact ⟨Framing.next_eq_none_of_size fun n hn => (hboth n hn).1, fun n hn => (hboth n hn).2⟩

/-- A round takes the message at the front of the buffer. -/
theorem Taken.round {s₁ : Incoming} (htaken : Taken bytes s fs) (hfresh : Fresh s.readBuf)
    (hdecode : decodeMessage heap fuel s = some (s₁, none))
    (herase : eraseMessage s₁ = (t, none)) :
    ∃ gs, Taken bytes t gs ∧ Fresh t.readBuf := by
  obtain ⟨hbuf, hqueue⟩ := decodeMessage_ok hdecode
  obtain ⟨hle, rfl⟩ := eraseMessage_ok herase
  rw [hbuf] at hle
  have hmsg : s₁.msgLen = readU32Be (s.readBuf.drop 1) := by rw [Incoming.msgLen, hbuf]
  have hsize : grpc.size s.readBuf = some (5 + s₁.msgLen.toNat) := by
    rw [size_grpc, if_pos (by omega), hmsg]
  have hnext : grpc.next s.readBuf =
      some (s.readBuf.take (5 + s₁.msgLen.toNat), s.readBuf.drop (5 + s₁.msgLen.toNat)) := by
    rw [Framing.next, hsize, Option.bind_some, if_pos hle]
  obtain ⟨hwhole, hsplit⟩ := Framing.whole_of_next hnext
  obtain ⟨hlt, hrest⟩ := hfresh.drop hsize hle
  have hflag : (s.readBuf.take (5 + s₁.msgLen.toNat)).headD 0 = s.readBuf.headD 0 := by
    rw [Nat.add_comm]
    cases s.readBuf <;> rfl
  refine ⟨fs ++ [s.readBuf.take (5 + s₁.msgLen.toNat)], ⟨?_, ?_, ?_, ?_⟩, ?_⟩
  · intro f hf
    rcases List.mem_append.mp hf with hf | hf
    · exact htaken.whole f hf
    · exact List.mem_singleton.mp hf ▸ hwhole
  · intro f hf
    rcases List.mem_append.mp hf with hf | hf
    · exact htaken.small f hf
    · rw [List.mem_singleton.mp hf, List.length_take_of_le hle]
      exact hlt
  · rw [hbuf, List.flatten_append, List.flatten_singleton, List.append_assoc,
      List.take_append_drop, htaken.bytes]
  · rw [List.countP_append, List.countP_singleton, ← htaken.count, hflag]
    simpa using hqueue
  · rw [hbuf]
    exact hrest

/-- A loop that returns has taken messages, and stands before an incomplete one. -/
theorem Taken.parseLoop {rounds : ℕ} (htaken : Taken bytes s fs) (hfresh : Fresh s.readBuf)
    (h : parseLoop heap fuel rounds s = some (t, none)) :
    ∃ gs, Taken bytes t gs ∧ grpc.next t.readBuf = none ∧ Small t.readBuf := by
  induction rounds generalizing s fs with
  | zero => cases h
  | succ rounds ih =>
    rw [Grpc.parseLoop] at h
    split_ifs at h with htest
    · obtain ⟨rfl, -⟩ := Prod.mk.inj (Option.some.inj h)
      exact ⟨fs, htaken, stop_of_test htest⟩
    · split at h
      · cases h
      · cases h
      · rename_i s₁ hdecode
        split at h
        · cases h
        · rename_i s₂ herase
          obtain ⟨gs, hround, hrest⟩ := htaken.round hfresh hdecode herase
          exact ih hround hrest h

/-- So has a sequence of payloads, none of which throws. -/
theorem Taken.receive {ds : List Delivery} (htaken : Taken bytes s fs)
    (hnext : grpc.next s.readBuf = none) (hsmall : Small s.readBuf)
    (h : receive fuel ds s = some (t, none)) :
    ∃ gs, Taken (bytes ++ ds.flatMap Delivery.payload) t gs ∧ grpc.next t.readBuf = none ∧
      Small t.readBuf := by
  induction ds generalizing s fs bytes with
  | nil =>
    obtain ⟨rfl, -⟩ := Prod.mk.inj (Option.some.inj h)
    rw [List.flatMap_nil, List.append_nil]
    exact ⟨fs, htaken, hnext, hsmall⟩
  | cons d ds ih =>
    rw [Grpc.receive] at h
    split at h
    · cases h
    · cases h
    · rename_i s₁ hparse
      -- appending a payload takes nothing yet
      have hstart : Taken (bytes ++ d.payload) { s with readBuf := s.readBuf ++ d.payload } fs :=
        ⟨htaken.whole, htaken.small, by rw [← List.append_assoc, htaken.bytes], htaken.count⟩
      obtain ⟨gs, hgs, hnext', hsmall'⟩ :=
        hstart.parseLoop (fresh_append hnext hsmall d.short) hparse
      rw [List.flatMap_cons, ← List.append_assoc]
      exact ih hgs hnext' hsmall' h

end Sound

/-! ### Streams -/

section Streams

variable {s : Stream} {ds : List Delivery}

theorem Stream.next_tail (s : Stream) : grpc.next s.tail = none :=
  Framing.next_take (whole_grpcMessage s.last_lt) s.cut_lt

theorem Stream.size_tail (s : Stream) :
    grpc.size s.tail = if 5 ≤ s.cut then some (s.last.length + 5) else none := by
  have hsize := Framing.size_take (whole_grpcMessage s.last_lt) s.cut_lt.le
  rw [length_grpcMessage] at hsize
  exact hsize

theorem Stream.small_tail_iff (s : Stream) :
    Small s.tail ↔ (5 ≤ s.cut → s.last.length + 5 < 2 ^ 32) := by
  unfold Small
  rw [s.size_tail]
  split_ifs with hcut
  · simp [hcut]
  · simp [hcut]

theorem delivered_of_clean (hbytes : ds.flatMap Delivery.payload = s.bytes) (hclean : s.Clean) :
    Delivered s ds := by
  have hlength : ∀ b ∈ s.bodies, b.length ≤ s.bodies.flatten.length := fun b hb =>
    (List.sublist_flatten_of_mem hb).length_le
  obtain ⟨cs, hreceive, hcs⟩ := @receive_of_clean
    (s.bodies.length + s.bodies.flatten.length + 1) {} s.bodies s.tail ds
    (fun b hb => ⟨(hclean.1 b hb).1, (hclean.1 b hb).2, by have := hlength b hb; omega⟩)
    s.next_tail (s.small_tail_iff.mpr hclean.2) rfl hbytes (by omega)
  exact ⟨_, _, hreceive, rfl, rfl, hcs⟩

theorem clean_of_delivered (hbytes : ds.flatMap Delivery.payload = s.bytes)
    (h : Delivered s ds) : s.Clean := by
  obtain ⟨fuel, t, hreceive, htail, hqueue, -⟩ := h
  have hinit : Taken [] {} [] := ⟨nofun, nofun, rfl, rfl⟩
  obtain ⟨fs, htaken, hnext, hsmall⟩ := hinit.receive rfl (by rintro n ⟨⟩) hreceive
  have hjoin : fs.flatten ++ t.readBuf = (s.bodies.map grpcMessage).flatten ++ s.tail := by
    rw [htaken.bytes, List.nil_append, hbytes, Stream.bytes, List.flatMap_def]
  obtain ⟨rfl, -⟩ := Framing.split_unique htaken.whole (whole_messages s.bodies_lt) hnext
    s.next_tail hjoin
  -- there are as many events as messages, so no body has been left out
  have hcount : (s.bodies.filterMap PoolEvent.read).length = s.bodies.length := by
    have hflags : (s.bodies.map grpcMessage).countP (fun f => f.headD 0 = 0) =
        s.bodies.length := by
      rw [List.countP_map, List.countP_eq_length]
      exact fun b _ => rfl
    rw [← Stream.events, ← hqueue, htaken.count, hflags]
  rw [List.length_filterMap_eq_countP, List.countP_eq_length] at hcount
  refine ⟨fun b hb => ⟨hcount b hb, ?_⟩, s.small_tail_iff.mp (htail ▸ hsmall)⟩
  have hlt := htaken.small (grpcMessage b) (List.mem_map_of_mem hb)
  rwa [length_grpcMessage] at hlt

/-- The payloads of a stream lead to its events exactly if all its bodies are well-formed
and no length in it is within five of the top. -/
theorem delivered_iff (hbytes : ds.flatMap Delivery.payload = s.bytes) :
    Delivered s ds ↔ s.Clean :=
  ⟨clean_of_delivered hbytes, delivered_of_clean hbytes⟩

/-- Every buffer lies at address `0x1000`, and behind it a byte that ends any message. -/
def lowHeap : Heap where
  mem bs := memoryOf (bs ++ [0x0B])
  data _ := 0x1000
  placed bs hbs := ⟨by change 0x1000 + bs.length < _; omega, bytesAt_memoryOf hbs⟩

/-- A pong, and four bytes of another message. -/
def pongStream : Stream where
  bodies := [[0x2A, 0x02, 0x08, 0x05]]
  last := [0x08, 0x01]
  cut := 4
  bodies_lt := by decide
  last_lt := by decide
  cut_lt := by decide

theorem delivered_pongStream :
    Delivered pongStream [⟨[0, 0, 0], by decide, lowHeap⟩,
      ⟨[0, 4, 0x2A, 0x02, 0x08, 0x05, 0, 0, 0, 0], by decide, lowHeap⟩] :=
  (delivered_iff (by decide)).mpr (by decide +kernel)

/-- A body that ends inside its first field. -/
def truncatedStream : Stream where
  bodies := [[0x08]]
  last := []
  cut := 0
  bodies_lt := by decide
  last_lt := by decide
  cut_lt := by decide

/-- The prefix of a message of `2 ^ 32 - 5` bytes. -/
def hugeStream : Stream where
  bodies := []
  last := List.replicate 0xFFFFFFFB 0
  cut := 5
  bodies_lt := nofun
  last_lt := by rw [List.length_replicate]; norm_num
  cut_lt := by rw [length_grpcMessage, List.length_replicate]; norm_num

theorem bytes_hugeStream : hugeStream.bytes = [0, 0xFF, 0xFF, 0xFF, 0xFB] := by
  have hlength : hugeStream.last.length = 0xFFFFFFFB := List.length_replicate
  have htake : hugeStream.bytes = 0 :: writeU32Be (UInt32.ofNat hugeStream.last.length) :=
    take_grpcMessage _
  rw [htake, hlength]
  rfl

/-- A truncated body throws and stays in the buffer; a prefix with a length near the top is
taken for a message, whose body is read behind the buffer. -/
theorem delivered_fails :
    (∃ t, receive 2 [⟨truncatedStream.bytes, by decide, lowHeap⟩] {} =
        some (t, some (.exception .truncatedVarint)) ∧ t.readBuf = truncatedStream.bytes ∧
      ¬ Delivered truncatedStream [⟨truncatedStream.bytes, by decide, lowHeap⟩]) ∧
    (∃ t c, receive 2 [⟨[0, 0xFF, 0xFF, 0xFF, 0xFB], by decide, lowHeap⟩] {} =
        some (t, some .outOfRange) ∧ t.eventQueue = [{}] ∧ t.calls = [c] ∧ ¬ c.Inside ∧
      ¬ Delivered hugeStream [⟨[0, 0xFF, 0xFF, 0xFF, 0xFB], by decide, lowHeap⟩]) := by
  refine ⟨⟨_, rfl, rfl, fun h => ?_⟩, ⟨_, _, rfl, rfl, rfl, fun h => ?_, fun h => ?_⟩⟩
  · have hclean := clean_of_delivered (by simp) h
    exact absurd hclean (by decide +kernel)
  · exact absurd h.slice (by decide)
  · have hclean := clean_of_delivered (by rw [bytes_hugeStream]; rfl) h
    have hlength : hugeStream.last.length = 0xFFFFFFFB := List.length_replicate
    have hlast := hclean.2 le_rfl
    omega

end Streams

end PropMiner.Grpc
