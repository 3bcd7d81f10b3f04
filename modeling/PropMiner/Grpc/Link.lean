import PropMiner.Grpc.DrainFrames
import PropMiner.Grpc.EventSeq
import PropMiner.Grpc.RequestHeaders
import PropMiner.Stratum.JsonNumber

/-!
# The life of a connection

A connection is followed from its handshake on: `register_miner` on the first stream, the mining
stream on the second, `receive_event` and the frames that other threads send meanwhile. The pool is
no code of this repository; it may write any frame at any time.

All writes succeed, as the session is given up after one that does not. Of `register_miner` the
loop that reads the answer is kept; what is made of the answer sends nothing.

## Main definitions

* `Client.readFrame` — the reads that every loop over frames begins with
* `Link`, `Link.step`, `link` — both ends of a connection as a machine

## Main results

* `drainFrames_eq` — a call of `drain_frames` reads a frame and dispatches it
* `step_incomplete` — a DATA frame that arrives whole and completes no message
-/

set_option autoImplicit false

namespace PropMiner.Grpc

open PropMiner.Semantics (Machine)
open PropMiner.Stratum (bytes intText)

/-! ### Reading a frame -/

/-- How far a frame was read. -/
inductive FrameRead
  | noHeader
  | noPayload
  | frame (f : Frame)
  deriving DecidableEq

def FrameRead.frames : FrameRead → List Frame
  | .frame f => [f]
  | _ => []

/-- The two calls of `read_exact` that all loops over frames begin with. -/
def Client.readFrame (s : Client) (answers : List Answer) : Option (Client × FrameRead) :=
  match readExact answers 9 [] s.unread with
  | none => none
  | some (.stopped e, unread, rest) =>
      if rest = [] then some (s.readFailed unread e, .noHeader) else none
  | some (.done hdr, unread, rest) =>
      match readExact rest (readU24Be hdr).toNat [] unread with
      | none => none
      | some (.stopped e, unread, rest) =>
          if rest = [] then some (s.readFailed unread e, .noPayload) else none
      | some (.done payload, unread, rest) =>
          if rest = [] then some ({ s with unread }, .frame (Frame.ofRead hdr payload)) else none

/-- What `drain_frames` does with what was read. -/
def Client.drained (heap : Heap) (fuel : ℕ) (s : Client) :
    FrameRead → Option (Client × List Frame × Option Fault)
  | .frame f => (s.dispatch heap fuel f).map fun r => (r.1, [f], r.2)
  | _ => some (s, [], none)

/-! ### What is sent -/

def FLAG_END_HEADERS : UInt8 := 0x4

/-- `PearlGrpcClient::Options` -/
structure Options where
  host : List UInt8
  port : Int32 := 443
  useTls : Bool := true
  userAgent : List UInt8 := bytes "propminer/1.0"

/-- `authority` of `send_headers`. -/
def Options.authority (opts : Options) : List UInt8 :=
  opts.host ++ if opts.port ≠ 443 then bytes ":" ++ intText opts.port.toInt else []

/-- `send_headers` -/
def sendHeaders (opts : Options) (streamId : UInt32) (path : List UInt8) (endStream : Bool) :
    Frame where
  type := FRAME_HEADERS
  flags := FLAG_END_HEADERS ||| if endStream then FLAG_END_STREAM else 0
  streamId
  payload := encodeRequestHeaders (bytes "POST") (bytes (if opts.useTls then "https" else "http"))
    opts.authority path opts.userAgent (bytes "application/grpc+proto")

/-- `send_settings_ack` -/
def settingsAck : Frame := ⟨FRAME_SETTINGS, FLAG_ACK, 0, []⟩

/-- `send_window_update` -/
def sendWindowUpdate (streamId increment : UInt32) : Frame :=
  ⟨FRAME_WINDOW_UPDATE, 0, streamId, writeU32Be increment⟩

/-- The answer of `handle_connection_control_frame`. -/
def controlAnswer (f : Frame) : List Frame :=
  if f.type = FRAME_SETTINGS then if f.flags &&& FLAG_ACK = 0 then [settingsAck] else []
  else if f.type = FRAME_PING ∧ f.payload.length = 8 then [⟨FRAME_PING, FLAG_ACK, 0, f.payload⟩]
  else []

/-! ### The connection -/

/-- How far the network thread has come with a connection. -/
inductive Phase
  | opened
  | handshake (gotSettings gotAck : Bool)
  | connected
  | registering (sid : UInt32) (responseBody : List UInt8)
  /-- `register_miner` has read its answer -/
  | registered (responseBody : List UInt8)
  | mining
  /-- a call has failed, and the session is given up -/
  | closed
  deriving DecidableEq

/-- `connected_` -/
def Phase.isConnected : Phase → Bool
  | .connected | .registering _ _ | .registered _ | .mining => true
  | _ => false

/-- Both ends of a connection. -/
structure Link where
  opts : Options
  phase : Phase := .opened
  /-- the client, with the bytes of the pool that it has not read -/
  client : Client := { unread := [] }
  /-- the frames that the client has sent, apart from its answers to frames of the pool -/
  sent : List Frame := []
  /-- the frames that the pool has sent -/
  offered : List PoolFrame := []

inductive LinkInput
  /-- the pool sends a frame -/
  | offer (f : PoolFrame)
  /-- `perform_http2_handshake`, before its loop -/
  | handshake
  | readHandshake (answers : List Answer)
  /-- `register_miner`, before its loop -/
  | register (body : List UInt8)
  | readRegister (answers : List Answer)
  /-- the deadline of a loop passes -/
  | deadline
  | startMiningStream (auth : List UInt8)
  | receiveEvent (answers : List Answer) (heap : Heap) (fuel : ℕ)
  | tryReceiveEvent
  /-- `send_event`, of any thread -/
  | sendEvent (e : MinerEvent)
  /-- a round of the keepalive thread -/
  | keepalive

namespace Link

def start (opts : Options) : Link := { opts }

/-- All frames that the client has sent. -/
def written (s : Link) : List Frame := s.sent ++ s.client.answered

def send (s : Link) (f : Frame) : Link := { s with sent := s.sent ++ [f] }

def answer (s : Link) (fs : List Frame) : Link :=
  { s with client := { s.client with answered := s.client.answered ++ fs } }

def setError (s : Link) (text : String) : Link :=
  { s with client := { s.client with lastError := text } }

def close (s : Link) : Link := { s with phase := .closed }

/-- `while (!got_settings || !got_ack)` -/
def afterHandshake (s : Link) (gotSettings gotAck : Bool) : Link :=
  { s with phase := if gotSettings && gotAck then .connected else .handshake gotSettings gotAck }

/-- A round of the loop in `perform_http2_handshake`. -/
def handshakeRound (s : Link) (gotSettings gotAck : Bool) : FrameRead → Link
  | .frame f =>
      if f.type = FRAME_SETTINGS then
        -- the pool may answer before it sends its own settings
        if f.flags &&& FLAG_ACK ≠ 0 then s.afterHandshake gotSettings true
        else (s.answer [settingsAck]).afterHandshake true gotAck
      else if f.type = FRAME_WINDOW_UPDATE ∧ f.streamId = 0 then s
      else if f.type = FRAME_GOAWAY then (s.setError "GOAWAY during handshake").close
      else s
  | _ => s.close

/-- A round of the loop in `register_miner`. A header that does not come is waited for again. -/
def registerRound (s : Link) (sid : UInt32) (responseBody : List UInt8) : FrameRead → Link
  | .noHeader => s
  | .noPayload => s.close
  | .frame f =>
      -- before the stream is looked at: GOAWAY belongs to none
      if f.type = FRAME_GOAWAY then (s.setError "GOAWAY during register").close
      else if f.streamId = 0 then s.answer (controlAnswer f)
      -- read and dropped, DATA too
      else if f.streamId ≠ sid then s
      else
        let responseBody := if f.type = FRAME_DATA then responseBody ++ f.payload else responseBody
        if f.flags &&& FLAG_END_STREAM ≠ 0 then { s with phase := .registered responseBody }
        else { s with phase := .registering sid responseBody }

/-- `send_event` -/
def sendEvent (s : Link) (e : MinerEvent) : Link :=
  if ¬ s.phase.isConnected ∨ s.client.streamId = 0 then s.setError "mining stream not started"
  else
    match sendDataMessage s.client.streamId e.encode false with
    | .ok f => s.send f
    | .error text => s.setError text

/-- `register_miner`, up to its loop. -/
def register (s : Link) (body : List UInt8) : Link :=
  let sid := s.client.nextStreamId
  let s := { s with client := { s.client with nextStreamId := sid + 2 } }
  let s := s.send (sendHeaders s.opts sid
    (bytes "/pearlpool.mining.v2.MinerService/Register") false)
  match sendDataMessage sid body true with
  | .ok f => { s.send f with phase := .registering sid [] }
  | .error text => (s.setError text).close

/-- `start_mining_stream`, with the state that its call sets. -/
def startMiningStream (s : Link) (client : Client) (auth : List UInt8) : Link :=
  let s := { s with client, phase := .mining }
  let s := s.send (sendHeaders s.opts s.client.streamId
    (bytes "/pearlpool.mining.v2.MinerService/MiningStream") false)
  s.sendEvent ⟨1, .auth, auth⟩

/-- A call that reads a frame, and what is done with it. -/
def reads (s : Link) (answers : List Answer) (round : Link → FrameRead → Link) :
    Option (Link × List Frame) :=
  (s.client.readFrame answers).map fun r => (round { s with client := r.1 } r.2, r.2.frames)

/-- A call that changes nothing but the client. -/
def calls (s : Link) (a : ReceiveInput) : Option (Link × List Frame) :=
  (s.client.step a).map fun r => ({ s with client := r.1 }, r.2)

/-- One call, or one round of a loop, with the frames that it has handled. -/
def step (s : Link) : LinkInput → Option (Link × List Frame)
  | .offer f =>
      some ({ s with
        client := { s.client with unread := s.client.unread ++ f.val.bytes }
        offered := s.offered ++ [f] }, [])
  | .handshake =>
      if s.phase = .opened then
        some ({ s.send ⟨FRAME_SETTINGS, 0, 0, []⟩ with phase := .handshake false false }, [])
      else none
  | .readHandshake answers =>
      match s.phase with
      | .handshake gotSettings gotAck =>
          s.reads answers fun s r => s.handshakeRound gotSettings gotAck r
      | _ => none
  | .register body => if s.phase = .connected then some (s.register body, []) else none
  | .readRegister answers =>
      match s.phase with
      | .registering sid responseBody =>
          s.reads answers fun s r => s.registerRound sid responseBody r
      | _ => none
  | .deadline =>
      match s.phase with
      | .handshake _ _ => some ((s.setError "HTTP/2 handshake timeout").close, [])
      -- the loop ends, and what has come by then is taken for the answer
      | .registering _ responseBody => some ({ s with phase := .registered responseBody }, [])
      | _ => none
  | .startMiningStream auth =>
      match s.phase, s.client.step .startMiningStream with
      | .registered _, some (client, frames) => some (s.startMiningStream client auth, frames)
      | _, _ => none
  | .receiveEvent answers heap fuel =>
      if s.phase = .mining then s.calls (.receiveEvent answers heap fuel) else none
  | .tryReceiveEvent => if s.phase = .mining then s.calls .tryReceiveEvent else none
  | .sendEvent e => some (s.sendEvent e, [])
  | .keepalive =>
      if s.phase.isConnected then some (s.send ⟨FRAME_PING, 0, 0, List.replicate 8 0⟩, []) else none

end Link

def link : Machine Link LinkInput Frame := ⟨Link.step⟩

/-! ### One call of `drain_frames` -/

/-- `drain_frames` reads a frame and dispatches it; none is oversized. -/
theorem drainFrames_eq (answers : List Answer) (heap : Heap) (fuel : ℕ) (s : Client) :
    s.drainFrames answers heap fuel =
      (s.readFrame answers).bind fun r => r.1.drained heap fuel r.2 := by
  unfold Client.drainFrames Client.readFrame
  rcases readExact answers 9 [] s.unread with _ | ⟨hdr | e, unread, rest⟩
  · rfl
  · have hlarge : ¬ 0xFFFFFF < readU24Be hdr := by
      rw [UInt32.lt_iff_toNat_lt]
      exact Nat.not_lt.mpr (Nat.le_of_lt_succ (toNat_readU24Be_lt hdr))
    dsimp only
    rw [if_neg hlarge]
    rcases readExact rest (readU24Be hdr).toNat [] unread with _ | ⟨payload | e, unread, rest⟩
    · rfl
    · dsimp only
      split_ifs <;> rfl
    · dsimp only
      split_ifs <;> rfl
  · dsimp only
    split_ifs <;> rfl

/-! ### A frame that arrives whole -/

section Whole

variable {heap : Heap} {fuel : ℕ} {c : Client} {f : PoolFrame}

theorem readFrame_whole (hunread : c.unread = f.val.bytes) (hpayload : f.val.payload ≠ []) :
    c.readFrame [.bytes 9, .bytes f.val.payload.length] =
      some ({ c with unread := [] }, .frame f.seen) := by
  have hpos : 0 < f.val.payload.length := List.length_pos_iff.mpr hpayload
  have hheader : readExact [.bytes 9, .bytes f.val.payload.length] 9 [] c.unread =
      some (.done f.val.header, f.val.payload, [.bytes f.val.payload.length]) := by
    have hlength : 9 ≤ c.unread.length := by
      rw [hunread, Frame.bytes, List.length_append, Frame.length_header]
      exact Nat.le_add_right 9 _
    rw [readExact, if_pos ⟨by norm_num, le_refl 9, hlength⟩, readExact, hunread, Frame.bytes,
      List.take_left' f.val.length_header, List.drop_left' f.val.length_header]
    rfl
  have hrest : readExact [.bytes f.val.payload.length] f.val.payload.length [] f.val.payload =
      some (.done f.val.payload, [], []) := by
    obtain ⟨k, hk⟩ := Nat.exists_eq_succ_of_ne_zero hpos.ne'
    have hall : readExact [.bytes f.val.payload.length] (k + 1) [] f.val.payload =
        readExact [] (k + 1 - f.val.payload.length) ([] ++ f.val.payload.take f.val.payload.length)
          (f.val.payload.drop f.val.payload.length) := if_pos ⟨hpos, hk.le, le_refl _⟩
    rw [Nat.succ_eq_add_one] at hk
    rw [← hk] at hall
    rw [hall, Nat.sub_self, List.take_length, List.drop_length]
    rfl
  rw [Client.readFrame, hheader]
  dsimp only
  rw [readU24Be_header f.property, hrest]
  dsimp only
  rw [if_pos rfl, ofRead_header]

/-- `parse_grpc_messages` stops at once. -/
def Incomplete (buf : List UInt8) : Prop :=
  buf.length < 5 ∨ buf.length < (5 + readU32Be (buf.drop 1)).toNat

/-- DATA of the stream that does not complete a message is kept. -/
theorem dispatch_incomplete {g : Frame} (hdata : g.type = FRAME_DATA)
    (hstream : g.streamId = c.streamId) (hflags : g.flags = 0)
    (hshort : Incomplete (c.incoming.readBuf ++ g.payload)) :
    c.dispatch heap (fuel + 1) g =
      some ({ c with incoming :=
        { c.incoming with readBuf := c.incoming.readBuf ++ g.payload } }, none) := by
  have hheaders : ¬ (g.type = FRAME_HEADERS ∧ g.streamId = c.streamId) := by
    rw [hdata]
    exact fun h => absurd h.1 (by decide)
  have hopen : (c.streamClosed || g.flags &&& FLAG_END_STREAM != 0) = c.streamClosed := by
    rw [hflags]
    exact Bool.or_false _
  have hparse : parseGrpcMessages heap (fuel + 1)
      { c.incoming with readBuf := c.incoming.readBuf ++ g.payload } =
      some ({ c.incoming with readBuf := c.incoming.readBuf ++ g.payload }, none) :=
    if_pos hshort
  rw [Client.dispatch, if_neg hheaders, if_pos ⟨hdata, hstream⟩, hopen, hparse]
  rfl

/-- `receive_event` on such a frame. -/
theorem step_incomplete (hunread : c.unread = f.val.bytes)
    (hqueue : c.incoming.eventQueue = []) (hpayload : f.val.payload ≠ [])
    (hdata : f.val.type = FRAME_DATA) (hstream : f.seen.streamId = c.streamId)
    (hflags : f.val.flags = 0) (hshort : Incomplete (c.incoming.readBuf ++ f.val.payload)) :
    c.step (.receiveEvent [.bytes 9, .bytes f.val.payload.length] heap (fuel + 1)) =
      some ({ c with
        unread := []
        incoming := { c.incoming with readBuf := c.incoming.readBuf ++ f.val.payload } },
        [f.seen]) := by
  have hdispatch := @dispatch_incomplete heap fuel { c with unread := [] } f.seen hdata hstream
    hflags hshort
  have htail : c.incoming.eventQueue.tail = c.incoming.eventQueue := by
    rw [hqueue]
    rfl
  rw [Client.step, if_neg (not_not.mpr hqueue), drainFrames_eq, readFrame_whole hunread hpayload,
    Option.bind_some, Client.drained, hdispatch]
  simp only [Option.map_some, Client.popEvent, htail]
  rfl

end Whole

end PropMiner.Grpc
