import PropMiner.Semantics.Framing
import PropMiner.Semantics.Words
import PropMiner.Wire.Writer

/-!
# HTTP/2 frames of the gRPC client

`grpc_client.cpp` writes its own HTTP/2: a header of nine bytes (24-bit length, type,
flags, stream) and a payload. A gRPC message is a flag byte, its length in four bytes and
its body, and `send_data_message` puts all of it into one DATA frame.

## Main definitions

* `Frame`, `Frame.bytes` — a frame, and what `send_frame` writes for it
* `sendDataMessage` — the frame of a message
* `http2`, `readFrames` — frames as a peer reads them
* `Framed` — a message arrives in DATA frames of the default size

## Main results

* `framed_iff` — it does as long as it fits in one such frame
* `framed_fails` — nothing splits a message that does not
-/

set_option autoImplicit false

namespace PropMiner.Grpc

open PropMiner.Semantics

/-! ### Big-endian numbers -/

/-- `write_u24_be` -/
def writeU24Be (v : UInt32) : List UInt8 := [(v >>> 16).toUInt8, (v >>> 8).toUInt8, v.toUInt8]

/-- `write_u32_be` -/
def writeU32Be (v : UInt32) : List UInt8 :=
  [(v >>> 24).toUInt8, (v >>> 16).toUInt8, (v >>> 8).toUInt8, v.toUInt8]

/-- `read_u24_be` -/
def readU24Be : List UInt8 → UInt32
  | a :: b :: c :: _ => (a.toUInt32 <<< 16) ||| (b.toUInt32 <<< 8) ||| c.toUInt32
  | _ => 0

/-- `read_u32_be` -/
def readU32Be : List UInt8 → UInt32
  | a :: b :: c :: d :: _ =>
      (a.toUInt32 <<< 24) ||| (b.toUInt32 <<< 16) ||| (c.toUInt32 <<< 8) ||| d.toUInt32
  | _ => 0

section Numbers

variable {a b c d : UInt8} {v : UInt32} {rest : List UInt8}

theorem toNat_readU24Be :
    (readU24Be (a :: b :: c :: rest)).toNat = a.toNat * 65536 + b.toNat * 256 + c.toNat :=
  Words.toNat_threeBytes a b c

theorem toNat_readU32Be :
    (readU32Be (a :: b :: c :: d :: rest)).toNat =
      a.toNat * 16777216 + b.toNat * 65536 + c.toNat * 256 + d.toNat :=
  Words.toNat_fourBytes a b c d

theorem toNat_readU24Be_lt (bs : List UInt8) : (readU24Be bs).toNat < 2 ^ 24 := by
  match bs with
  | [] | [_] | [_, _] => exact (by decide : (0 : UInt32).toNat < 2 ^ 24)
  | a :: b :: c :: rest =>
    have ha := a.toNat_lt
    have hb := b.toNat_lt
    have hc := c.toNat_lt
    rw [toNat_readU24Be]
    omega

theorem readU24Be_writeU24Be (v : UInt32) (rest : List UInt8) :
    (readU24Be (writeU24Be v ++ rest)).toNat = v.toNat % 2 ^ 24 := by
  have h1 : (v >>> 16).toUInt8.toNat = v.toNat / 2 ^ 16 % 256 :=
    Words.toNat_shiftRight_byte v (by norm_num)
  have h2 : (v >>> 8).toUInt8.toNat = v.toNat / 2 ^ 8 % 256 :=
    Words.toNat_shiftRight_byte v (by norm_num)
  rw [writeU24Be, List.cons_append, List.cons_append, List.cons_append, toNat_readU24Be, h1, h2,
    UInt32.toNat_toUInt8]
  omega

theorem readU32Be_writeU32Be (v : UInt32) (rest : List UInt8) :
    readU32Be (writeU32Be v ++ rest) = v := by
  have h0 := v.toNat_lt
  have h1 : (v >>> 24).toUInt8.toNat = v.toNat / 2 ^ 24 % 256 :=
    Words.toNat_shiftRight_byte v (by norm_num)
  have h2 : (v >>> 16).toUInt8.toNat = v.toNat / 2 ^ 16 % 256 :=
    Words.toNat_shiftRight_byte v (by norm_num)
  have h3 : (v >>> 8).toUInt8.toNat = v.toNat / 2 ^ 8 % 256 :=
    Words.toNat_shiftRight_byte v (by norm_num)
  apply UInt32.toNat_inj.mp
  rw [writeU32Be, List.cons_append, List.cons_append, List.cons_append, List.cons_append,
    toNat_readU32Be, h1, h2, h3, UInt32.toNat_toUInt8]
  omega

end Numbers

/-! ### Frames -/

/-- `FRAME_DATA` and its siblings. -/
def FRAME_DATA : UInt8 := 0x0
def FRAME_HEADERS : UInt8 := 0x1
def FRAME_SETTINGS : UInt8 := 0x4
def FRAME_PING : UInt8 := 0x6
def FRAME_GOAWAY : UInt8 := 0x7
def FRAME_WINDOW_UPDATE : UInt8 := 0x8

def FLAG_END_STREAM : UInt8 := 0x1
def FLAG_ACK : UInt8 := 0x1

structure Frame where
  type : UInt8
  flags : UInt8
  streamId : UInt32
  payload : List UInt8
  deriving DecidableEq, Repr

namespace Frame

/-- `hdr` of `send_frame`. -/
def header (f : Frame) : List UInt8 :=
  writeU24Be (UInt32.ofNat f.payload.length) ++ [f.type, f.flags] ++ writeU32Be f.streamId

/-- What `send_frame` writes. -/
def bytes (f : Frame) : List UInt8 := f.header ++ f.payload

@[simp] theorem length_header (f : Frame) : f.header.length = 9 := rfl

end Frame

/-- The prefix of a gRPC message, and the message. -/
def grpcMessage (msg : List UInt8) : List UInt8 :=
  0 :: writeU32Be (UInt32.ofNat msg.length) ++ msg

/-- `send_data_message` -/
def sendDataMessage (streamId : UInt32) (msg : List UInt8) (endStream : Bool) :
    Except String Frame :=
  if 0xFFFFFF < msg.length then .error "grpc message too large"
  else .ok ⟨FRAME_DATA, if endStream then FLAG_END_STREAM else 0, streamId, grpcMessage msg⟩

/-! ### Frames as a peer reads them -/

/-- A header of nine bytes, the first three of which are the length. -/
def http2 : Framing UInt8 where
  header := 9
  header_pos := by norm_num
  body hdr := (readU24Be hdr).toNat

/-- The fields of a frame; the first bit of the stream is reserved. -/
def Frame.ofBytes (bs : List UInt8) : Frame where
  type := bs.getD 3 0
  flags := bs.getD 4 0
  streamId := readU32Be (bs.drop 5) &&& 0x7FFFFFFF
  payload := bs.drop 9

/-- The frames at the head of a stream, and what is left. -/
def readFrames (bs : List UInt8) : List Frame × List UInt8 :=
  ((http2.split bs).1.map Frame.ofBytes, (http2.split bs).2)

/-- SETTINGS_MAX_FRAME_SIZE, as long as the peer has not been heard. -/
def maxFrameSize : ℕ := 16384

/-- What is read is a sequence of DATA frames of this stream, none too large, and together
they hold the message. -/
def Framed (streamId : UInt32) (msg bs : List UInt8) : Prop :=
  ∃ frames, readFrames bs = (frames, []) ∧
    (∀ f ∈ frames, f.type = FRAME_DATA ∧ f.streamId = streamId ∧ f.payload.length ≤ maxFrameSize) ∧
    frames.flatMap Frame.payload = grpcMessage msg

section Reading

variable {f : Frame} {rest bs msg : List UInt8} {streamId : UInt32}

theorem readU24Be_header (hlen : f.payload.length < 2 ^ 24) :
    (readU24Be f.header).toNat = f.payload.length := by
  have hread := readU24Be_writeU24Be (UInt32.ofNat f.payload.length)
    ([f.type, f.flags] ++ writeU32Be f.streamId)
  rw [UInt32.toNat_ofNat_of_lt' (hlen.trans (by decide)), Nat.mod_eq_of_lt hlen] at hread
  exact hread

theorem whole_bytes (hlen : f.payload.length < 2 ^ 24) : http2.Whole f.bytes := by
  rw [Framing.whole_iff]
  refine ⟨by simp [http2, Frame.bytes], ?_⟩
  simp only [http2, Frame.bytes, List.length_append, Frame.length_header]
  rw [List.take_left' f.length_header, readU24Be_header hlen]

theorem toNat_and_mask (v : UInt32) : (v &&& 0x7FFFFFFF).toNat = v.toNat % 2 ^ 31 := by
  rw [UInt32.toNat_and]
  exact Nat.and_two_pow_sub_one_eq_mod v.toNat 31

/-- All of a frame is read back but the reserved bit. -/
theorem ofBytes_bytes (f : Frame) :
    Frame.ofBytes f.bytes = { f with streamId := f.streamId &&& 0x7FFFFFFF } := by
  have hstream : readU32Be (f.bytes.drop 5) = f.streamId :=
    readU32Be_writeU32Be f.streamId f.payload
  have hpayload : f.bytes.drop 9 = f.payload := List.drop_left' f.length_header
  rw [Frame.ofBytes, hstream, hpayload]
  rfl

theorem next_nil : http2.next [] = none := rfl

/-- Each frame costs nine bytes besides its payload. -/
theorem length_flatten_eq {fs : List (List UInt8)} (hfs : ∀ f ∈ fs, http2.Whole f) :
    fs.flatten.length = 9 * fs.length + (fs.flatMap (Frame.payload ∘ Frame.ofBytes)).length := by
  induction fs with
  | nil => rfl
  | cons f fs ih =>
    have hf : 9 ≤ f.length := (Framing.whole_iff.mp (hfs f List.mem_cons_self)).1
    have htail := ih fun g hg => hfs g (List.mem_cons_of_mem _ hg)
    have hpayload : ((Frame.payload ∘ Frame.ofBytes) f).length = f.length - 9 := List.length_drop
    rw [List.flatten_cons, List.flatMap_cons, List.length_append, List.length_append,
      List.length_cons, hpayload, htail]
    omega

end Reading

/-! ### Messages in frames -/

section Messages

variable {msg : List UInt8} {streamId : UInt32} {endStream : Bool} {frame : Frame}

theorem length_grpcMessage (msg : List UInt8) : (grpcMessage msg).length = msg.length + 5 := by
  simp [grpcMessage, writeU32Be]

theorem sendDataMessage_ok (h : sendDataMessage streamId msg endStream = .ok frame) :
    msg.length ≤ 0xFFFFFF ∧ frame.type = FRAME_DATA ∧ frame.streamId = streamId ∧
      frame.payload = grpcMessage msg := by
  unfold sendDataMessage at h
  split_ifs at h with hlarge
  · obtain rfl := Except.ok.inj h
    exact ⟨Nat.le_of_not_lt hlarge, rfl, rfl, rfl⟩
  · obtain rfl := Except.ok.inj h
    exact ⟨Nat.le_of_not_lt hlarge, rfl, rfl, rfl⟩

/-- One frame is all that is written, so one frame is all that may be read. -/
theorem length_le_of_framed (hpayload : frame.payload = grpcMessage msg)
    (h : Framed streamId msg frame.bytes) :
    (grpcMessage msg).length ≤ maxFrameSize ∧ (Frame.ofBytes frame.bytes).streamId = streamId := by
  obtain ⟨frames, hread, hframes, hjoin⟩ := h
  obtain ⟨rfl, hrest⟩ := Prod.mk.inj hread
  have hflat : (http2.split frame.bytes).1.flatten = frame.bytes := by
    have hsplit := @Framing.flatten_split _ http2 frame.bytes
    rwa [hrest, List.append_nil] at hsplit
  have hcount := length_flatten_eq fun f => @Framing.whole_of_mem_split _ http2 frame.bytes f
  rw [List.flatMap_map] at hjoin
  have hbytes : frame.bytes.length = 9 + (grpcMessage msg).length := by
    rw [Frame.bytes, List.length_append, Frame.length_header, hpayload]
  rw [hflat, hbytes] at hcount
  have hjoined : ((http2.split frame.bytes).1.flatMap (Frame.payload ∘ Frame.ofBytes)).length =
      (grpcMessage msg).length := congrArg List.length hjoin
  have hone : (http2.split frame.bytes).1.length = 1 := by omega
  obtain ⟨g, hg⟩ := List.length_eq_one_iff.mp hone
  rw [hg, List.flatten_singleton] at hflat
  subst hflat
  have hframe := hframes (Frame.ofBytes frame.bytes) (by rw [hg]; exact List.mem_cons_self)
  refine ⟨?_, hframe.2.1⟩
  have hle := hframe.2.2
  rwa [ofBytes_bytes, hpayload] at hle

/-- A message that is accepted arrives in DATA frames of the default size exactly if it
fits in one of them with its prefix. -/
theorem framed_iff (h : sendDataMessage streamId msg endStream = .ok frame) :
    Framed streamId msg frame.bytes ↔
      msg.length + 5 ≤ maxFrameSize ∧ streamId.toNat < 2 ^ 31 := by
  obtain ⟨-, htype, hstream, hpayload⟩ := sendDataMessage_ok h
  constructor
  · intro hframed
    obtain ⟨hle, hid⟩ := length_le_of_framed hpayload hframed
    rw [length_grpcMessage] at hle
    refine ⟨hle, ?_⟩
    have hmask := toNat_and_mask streamId
    rw [ofBytes_bytes, hstream] at hid
    change streamId &&& 0x7FFFFFFF = streamId at hid
    rw [hid] at hmask
    omega
  · rintro ⟨hle, hid⟩
    have hlength : frame.payload.length = msg.length + 5 := by rw [hpayload, length_grpcMessage]
    have hwhole : http2.Whole frame.bytes := whole_bytes (by unfold maxFrameSize at hle; omega)
    have hsplit : http2.split frame.bytes = ([frame.bytes], []) := by
      have hflatten : http2.split ([frame.bytes].flatten ++ []) = ([frame.bytes], []) :=
        Framing.split_flatten (by simpa using hwhole) next_nil
      simpa using hflatten
    have hmask : streamId &&& 0x7FFFFFFF = streamId := by
      apply UInt32.toNat_inj.mp
      rw [toNat_and_mask, Nat.mod_eq_of_lt hid]
    refine ⟨[frame], ?_, ?_, ?_⟩
    · rw [readFrames, hsplit, List.map_singleton, ofBytes_bytes, hstream, hmask, ← hstream]
    · intro f hf
      obtain rfl := List.mem_singleton.mp hf
      exact ⟨htype, hstream, hlength ▸ hle⟩
    · rw [List.flatMap_singleton, hpayload]

theorem framed_of_short :
    ∃ frame, sendDataMessage 3 [1, 2, 3] false = .ok frame ∧ Framed 3 [1, 2, 3] frame.bytes :=
  ⟨_, rfl, (framed_iff rfl).mpr (by decide)⟩

/-- A message of 16380 bytes is accepted and sent in a frame of 16385. -/
theorem framed_fails :
    ∃ frame, sendDataMessage 3 (List.replicate 16380 0) false = .ok frame ∧
      frame.payload.length = 16385 ∧ ¬ Framed 3 (List.replicate 16380 0) frame.bytes := by
  have hlength : (grpcMessage (List.replicate 16380 0)).length = 16385 := by
    rw [length_grpcMessage, List.length_replicate]
  refine ⟨⟨FRAME_DATA, 0, 3, grpcMessage (List.replicate 16380 0)⟩, ?_, hlength, ?_⟩
  · rw [sendDataMessage, List.length_replicate]
    rfl
  · intro hframed
    have hle := (length_le_of_framed rfl hframed).1
    rw [hlength] at hle
    exact absurd hle (by decide)

end Messages

end PropMiner.Grpc
