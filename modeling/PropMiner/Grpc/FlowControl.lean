import PropMiner.Grpc.Link

/-!
# The windows of a connection

In HTTP/2 the receiver of DATA frames says how much it takes. Each connection and each stream has
a window of 65535 bytes to begin with. The payloads of DATA frames use it up, and WINDOW_UPDATE
frames of the receiver widen it; a peer that conforms sends no more than the windows have left.

The client has a function that sends WINDOW_UPDATE, and nothing calls it.

## Main definitions

* `Window.used`, `Window.granted`, `Link.credit` — what a window has left
* `conforming` — the pool keeps to the windows and to the size of a frame
* `Quiet` — no WINDOW_UPDATE was sent

## Main results

* `Quiet.step` — no step of the client sends one
* `credit_pos_iff` — the windows are open if less than 65535 bytes were sent on the connection
* `used_le_of_conforming` — a conforming pool sends 65535 bytes in the life of a connection
* `credit_fails` — a message of 65524 bytes that is not received
-/

set_option autoImplicit false

namespace PropMiner.Grpc

open PropMiner.Semantics (Machine)
open PropMiner.Stratum (bytes)

/-! ### Windows -/

/-- The window of the connection, or that of a stream. -/
inductive Window
  | connection
  | stream (id : UInt32)

def isData (f : Frame) : Bool := f.type = FRAME_DATA

namespace Window

/-- The stream that a WINDOW_UPDATE of this window names. -/
def id : Window → UInt32
  | connection => 0
  | stream id => id

/-- The frame is one that uses the window. -/
def covers : Window → Frame → Bool
  | connection, f => isData f
  | stream id, f => isData f && f.streamId == id

/-- The bytes of the window that some frames use. -/
def used (w : Window) (received : List Frame) : ℕ :=
  ((received.filter w.covers).map fun f => f.payload.length).sum

/-- By how much some frames widen the window. -/
def granted (w : Window) (written : List Frame) : ℕ :=
  ((written.filter fun f => f.type = FRAME_WINDOW_UPDATE ∧ f.streamId = w.id).map fun f =>
    (readU32Be f.payload &&& 0x7FFFFFFF).toNat).sum

end Window

/-- SETTINGS_INITIAL_WINDOW_SIZE, which the client does not set. -/
def initialWindowSize : ℕ := 65535

/-- What a window has left after some frames. -/
def Link.credit (s : Link) (w : Window) (received : List Frame) : ℤ :=
  initialWindowSize + w.granted s.written - w.used received

def isConforming (s : Link) : LinkInput → Bool
  | .offer f =>
      decide (f.val.payload.length ≤ maxFrameSize) &&
        (!isData f.seen ||
          (f.val.payload.length ≤ s.credit .connection (s.offered.map PoolFrame.seen) &&
            f.val.payload.length ≤
              s.credit (.stream f.seen.streamId) (s.offered.map PoolFrame.seen)))
  | _ => true

/-- The pool sends no frame that is too large, and no more DATA than both windows have left. -/
def conforming (s : Link) (a : LinkInput) : Prop := isConforming s a = true

instance (s : Link) (a : LinkInput) : Decidable (conforming s a) :=
  inferInstanceAs (Decidable (isConforming s a = true))

/-! ### Answers -/

section Calls

variable {answers : List Answer} {heap : Heap} {fuel : ℕ} {s t : Client} {frames : List Frame}
  {fault : Option Fault}

/-- None of the frames is a WINDOW_UPDATE. -/
def NoUpdates (fs : List Frame) : Prop := ∀ f ∈ fs, f.type ≠ FRAME_WINDOW_UPDATE

instance (fs : List Frame) : Decidable (NoUpdates fs) :=
  List.decidableBAll (fun f : Frame => f.type ≠ FRAME_WINDOW_UPDATE) fs

theorem NoUpdates.append {fs gs : List Frame} (hfs : NoUpdates fs) (hgs : NoUpdates gs) :
    NoUpdates (fs ++ gs) := fun f hf => (List.mem_append.mp hf).elim (hfs f) (hgs f)

theorem readFrame_answered {r : Client × FrameRead} (h : s.readFrame answers = some r) :
    r.1.answered = s.answered := by
  unfold Client.readFrame at h
  split at h
  · cases h
  · split_ifs at h
    cases h
    rfl
  · split at h
    · cases h
    · split_ifs at h
      cases h
      rfl
    · split_ifs at h
      cases h
      rfl

/-- A frame is answered with SETTINGS, with PING or not at all. -/
theorem dispatch_noUpdates {f : Frame} (hs : NoUpdates s.answered)
    (h : s.dispatch heap fuel f = some (t, fault)) : NoUpdates t.answered := by
  have hack : NoUpdates [⟨FRAME_SETTINGS, FLAG_ACK, 0, []⟩] := by decide
  have hping : NoUpdates [⟨FRAME_PING, FLAG_ACK, 0, f.payload⟩] :=
    List.forall_mem_singleton.mpr (by decide : FRAME_PING ≠ FRAME_WINDOW_UPDATE)
  unfold Client.dispatch at h
  simp only at h
  split_ifs at h
  all_goals first
    | obtain ⟨rfl, -⟩ := Prod.mk.inj (Option.some.inj h)
      first
        | exact hs
        | exact hs.append hack
        | exact hs.append hping
    | obtain ⟨r, -, hr⟩ := Option.map_eq_some_iff.mp h
      obtain ⟨rfl, -⟩ := Prod.mk.inj hr
      exact hs

theorem drainFrames_noUpdates (hs : NoUpdates s.answered)
    (h : s.drainFrames answers heap fuel = some (t, frames, fault)) : NoUpdates t.answered := by
  rw [drainFrames_eq, Option.bind_eq_some_iff] at h
  obtain ⟨⟨u, r⟩, hread, hdrained⟩ := h
  have hu : NoUpdates u.answered := by
    rw [readFrame_answered hread]
    exact hs
  cases r with
  | frame f =>
    obtain ⟨⟨v, fault⟩, hdispatch, hv⟩ := Option.map_eq_some_iff.mp hdrained
    obtain ⟨rfl, -⟩ := Prod.mk.inj hv
    exact dispatch_noUpdates hu hdispatch
  | noHeader | noPayload =>
    cases hdrained
    exact hu

theorem clientStep_noUpdates {a : ReceiveInput} (hs : NoUpdates s.answered)
    (h : s.step a = some (t, frames)) : NoUpdates t.answered := by
  cases a with
  | receiveEvent answers heap fuel =>
    unfold Client.step at h
    simp only at h
    split at h
    case isTrue =>
      split_ifs at h
      cases h
      exact hs
    case isFalse =>
      split at h
      case h_1 => cases h
      case h_2 u frames' hdrain =>
        cases h
        have hu : NoUpdates u.answered := drainFrames_noUpdates hs hdrain
        exact hu
      case h_3 u frames' e hdrain =>
        cases h
        exact drainFrames_noUpdates hs hdrain
      case h_4 => cases h
  | tryReceiveEvent =>
    cases h
    exact hs
  | startMiningStream =>
    cases h
    exact hs

end Calls

/-! ### What a step leaves -/

section Steps

variable {s t : Link} {frames : List Frame} {offered : List PoolFrame}

theorem noUpdates_controlAnswer (f : Frame) : NoUpdates (controlAnswer f) := by
  unfold controlAnswer
  split_ifs
  · decide
  · exact nofun
  · exact List.forall_mem_singleton.mpr (by decide : FRAME_PING ≠ FRAME_WINDOW_UPDATE)
  · exact nofun

/-- The client has sent no WINDOW_UPDATE, the pool these frames. -/
structure Quiet (offered : List PoolFrame) (s : Link) : Prop where
  sent : NoUpdates s.sent
  answered : NoUpdates s.client.answered
  offered : s.offered = offered

namespace Quiet

theorem send {f : Frame} (h : Quiet offered s) (hf : f.type ≠ FRAME_WINDOW_UPDATE) :
    Quiet offered (s.send f) :=
  ⟨h.sent.append (List.forall_mem_singleton.mpr hf), h.answered, h.offered⟩

theorem answer {fs : List Frame} (h : Quiet offered s) (hfs : NoUpdates fs) :
    Quiet offered (s.answer fs) :=
  ⟨h.sent, h.answered.append hfs, h.offered⟩

theorem handshakeRound (h : Quiet offered s) (gotSettings gotAck : Bool) (r : FrameRead) :
    Quiet offered (s.handshakeRound gotSettings gotAck r) := by
  have hack := h.answer (by decide : NoUpdates [settingsAck])
  cases r with
  | frame f =>
    unfold Link.handshakeRound
    dsimp only
    split_ifs
    · exact ⟨h.sent, h.answered, h.offered⟩
    · exact ⟨hack.sent, hack.answered, hack.offered⟩
    · exact h
    · exact ⟨h.sent, h.answered, h.offered⟩
    · exact h
  | noHeader | noPayload => exact ⟨h.sent, h.answered, h.offered⟩

theorem registerRound (h : Quiet offered s) (sid : UInt32) (responseBody : List UInt8)
    (r : FrameRead) : Quiet offered (s.registerRound sid responseBody r) := by
  cases r with
  | frame f =>
    unfold Link.registerRound
    dsimp only
    split_ifs
    · exact ⟨h.sent, h.answered, h.offered⟩
    · exact h.answer (noUpdates_controlAnswer f)
    all_goals exact ⟨h.sent, h.answered, h.offered⟩
  | noHeader => exact h
  | noPayload => exact ⟨h.sent, h.answered, h.offered⟩

theorem sendData {sid : UInt32} {msg : List UInt8} {endStream : Bool} {f : Frame}
    (h : Quiet offered s) (hsend : sendDataMessage sid msg endStream = .ok f) :
    Quiet offered (s.send f) := by
  apply h.send
  rw [(sendDataMessage_ok hsend).2.1]
  decide

theorem sendEvent (h : Quiet offered s) (e : MinerEvent) : Quiet offered (s.sendEvent e) := by
  unfold Link.sendEvent
  split_ifs
  · exact ⟨h.sent, h.answered, h.offered⟩
  · split
    case h_1 f hsend => exact h.sendData hsend
    case h_2 => exact ⟨h.sent, h.answered, h.offered⟩

theorem sendHeaders (h : Quiet offered s) (opts : Options) (sid : UInt32) (path : List UInt8)
    (endStream : Bool) : Quiet offered (s.send (sendHeaders opts sid path endStream)) :=
  h.send (by decide : FRAME_HEADERS ≠ FRAME_WINDOW_UPDATE)

theorem register (h : Quiet offered s) (body : List UInt8) : Quiet offered (s.register body) := by
  have hnext : Quiet offered { s with client :=
      { s.client with nextStreamId := s.client.nextStreamId + 2 } } :=
    ⟨h.sent, h.answered, h.offered⟩
  have hheaders := hnext.sendHeaders s.opts s.client.nextStreamId
    (bytes "/pearlpool.mining.v2.MinerService/Register") false
  unfold Link.register
  dsimp only
  split
  case h_1 f hsend => exact ⟨(hheaders.sendData hsend).sent, h.answered, h.offered⟩
  case h_2 => exact ⟨hheaders.sent, h.answered, h.offered⟩

theorem reads {answers : List Answer} {round : Link → FrameRead → Link} (h : Quiet offered s)
    (hround : ∀ s r, Quiet offered s → Quiet offered (round s r))
    (hstep : s.reads answers round = some (t, frames)) : Quiet offered t := by
  obtain ⟨r, hread, hr⟩ := Option.map_eq_some_iff.mp hstep
  obtain ⟨rfl, -⟩ := Prod.mk.inj hr
  apply hround
  refine ⟨h.sent, ?_, h.offered⟩
  dsimp only
  rw [readFrame_answered hread]
  exact h.answered

theorem calls {a : ReceiveInput} (h : Quiet offered s)
    (hstep : s.calls a = some (t, frames)) : Quiet offered t := by
  obtain ⟨⟨client, frames'⟩, hclient, hr⟩ := Option.map_eq_some_iff.mp hstep
  obtain ⟨rfl, -⟩ := Prod.mk.inj hr
  exact ⟨h.sent, clientStep_noUpdates h.answered hclient, h.offered⟩

end Quiet

/-- What the pool sends in a step. -/
def LinkInput.offers : LinkInput → List PoolFrame
  | .offer f => [f]
  | _ => []

/-- No step of the client sends a WINDOW_UPDATE. -/
theorem Quiet.clientStep {a : LinkInput} (h : Quiet offered s) (hclient : a.offers = [])
    (hstep : s.step a = some (t, frames)) : Quiet offered t := by
  cases a with
  | offer f => cases hclient
  | handshake =>
    simp only [Link.step] at hstep
    split_ifs at hstep
    cases hstep
    exact ⟨(h.send (by decide : FRAME_SETTINGS ≠ FRAME_WINDOW_UPDATE)).sent, h.answered, h.offered⟩
  | readHandshake answers =>
    simp only [Link.step] at hstep
    split at hstep
    · exact h.reads (fun _ r hs => hs.handshakeRound _ _ r) hstep
    · cases hstep
  | register body =>
    simp only [Link.step] at hstep
    split_ifs at hstep
    cases hstep
    exact h.register body
  | readRegister answers =>
    simp only [Link.step] at hstep
    split at hstep
    · exact h.reads (fun _ r hs => hs.registerRound _ _ r) hstep
    · cases hstep
  | deadline =>
    simp only [Link.step] at hstep
    split at hstep
    · cases hstep
      exact ⟨h.sent, h.answered, h.offered⟩
    · cases hstep
      exact ⟨h.sent, h.answered, h.offered⟩
    · cases hstep
  | startMiningStream auth =>
    simp only [Link.step] at hstep
    split at hstep
    case h_1 client frames' _ hclient =>
      cases hstep
      have hopened : Quiet offered { s with client, phase := .mining } :=
        ⟨h.sent, clientStep_noUpdates h.answered hclient, h.offered⟩
      exact (hopened.sendHeaders s.opts client.streamId _ false).sendEvent _
    case h_2 => cases hstep
  | receiveEvent answers heap fuel =>
    simp only [Link.step] at hstep
    split_ifs at hstep
    exact h.calls hstep
  | tryReceiveEvent =>
    simp only [Link.step] at hstep
    split_ifs at hstep
    exact h.calls hstep
  | sendEvent e =>
    cases hstep
    exact h.sendEvent e
  | keepalive =>
    simp only [Link.step] at hstep
    split_ifs at hstep
    cases hstep
    exact h.send (by decide : FRAME_PING ≠ FRAME_WINDOW_UPDATE)

theorem Quiet.step {a : LinkInput} (h : Quiet offered s) (hstep : s.step a = some (t, frames)) :
    Quiet (offered ++ a.offers) t := by
  by_cases hclient : a.offers = []
  · rw [hclient, List.append_nil]
    exact h.clientStep hclient hstep
  · cases a with
    | offer f =>
      cases hstep
      exact ⟨h.sent, h.answered, congrArg (· ++ [f]) h.offered⟩
    | _ => exact absurd rfl hclient

/-- No window is widened. -/
theorem Quiet.granted (h : Quiet offered s) (w : Window) : w.granted s.written = 0 := by
  have hnone : NoUpdates s.written := h.sent.append h.answered
  rw [Window.granted, List.filter_eq_nil_iff.mpr]
  · rfl
  · intro f hf hupdate
    exact hnone f hf (of_decide_eq_true hupdate).1

end Steps

/-! ### Runs -/

section Runs

variable {guard : Link → LinkInput → Prop} {opts : Options} {t : Link} {tr : List Frame}
  {w : Window} {f : Frame} {fs gs : List Frame}

theorem quiet_start (opts : Options) : Quiet [] (.start opts) :=
  ⟨List.forall_mem_nil _, List.forall_mem_nil _, rfl⟩

theorem quiet_of_run (hrun : link.Run guard (.start opts) tr t) : Quiet t.offered t := by
  refine hrun.stateInvariant (I := fun t => Quiet t.offered t) (quiet_start opts)
    fun s a t _ hs _ hstep => ?_
  have ht := hs.step hstep
  rw [← ht.offered] at ht
  exact ht

theorem Window.used_cons :
    w.used (f :: fs) = (if w.covers f then f.payload.length else 0) + w.used fs := by
  unfold Window.used
  rw [List.filter_cons]
  split_ifs
  · rw [List.map_cons, List.sum_cons]
  · rw [Nat.zero_add]

theorem Window.used_append : w.used (fs ++ gs) = w.used fs + w.used gs := by
  rw [Window.used, List.filter_append, List.map_append, List.sum_append, Window.used, Window.used]

theorem Window.used_singleton :
    w.used [f] = if w.covers f then f.payload.length else 0 := Window.used_cons

/-- What uses the window of a stream also uses that of the connection. -/
theorem Window.used_le_connection (w : Window) (fs : List Frame) :
    w.used fs ≤ Window.connection.used fs := by
  have hcovers : ∀ f, w.covers f = true → Window.connection.covers f = true := by
    intro f hf
    cases w with
    | connection => exact hf
    | stream id => exact (Bool.and_eq_true_iff.mp hf).1
  induction fs with
  | nil => exact Nat.le_refl 0
  | cons f fs ih =>
    rw [Window.used_cons, Window.used_cons]
    by_cases hf : w.covers f = true
    · rw [if_pos hf, if_pos (hcovers f hf)]
      exact Nat.add_le_add_left ih _
    · rw [if_neg hf, Nat.zero_add]
      exact Nat.le_add_left_of_le ih

/-- Only DATA frames use a window. -/
theorem Window.used_filter_isData (w : Window) (fs : List Frame) :
    w.used (fs.filter isData) = w.used fs := by
  unfold Window.used
  rw [List.filter_filter]
  congr 2
  apply List.filter_congr
  intro f _
  cases w with
  | connection => exact Bool.and_self _
  | stream id =>
    change (isData f && f.streamId == id && isData f) = (isData f && f.streamId == id)
    cases isData f with
    | true => rw [Bool.and_true]
    | false => rfl

/-- In a run in which every DATA frame of the pool is handled, the windows of the connection and
of the mining stream are open if and only if the DATA frames of the whole connection hold less than
65535 bytes. -/
theorem credit_pos_iff (hrun : link.Run guard (.start opts) tr t)
    (hhandled : tr.filter isData = (t.offered.map PoolFrame.seen).filter isData) :
    0 < t.credit .connection tr ∧ 0 < t.credit (.stream t.client.streamId) tr ↔
      Window.connection.used (t.offered.map PoolFrame.seen) < 65535 := by
  -- what was handled is what was sent, as far as windows go
  have hused : ∀ w : Window, w.used tr = w.used (t.offered.map PoolFrame.seen) := by
    intro w
    rw [← Window.used_filter_isData, hhandled, Window.used_filter_isData]
  have hquiet := quiet_of_run hrun
  have hle := Window.used_le_connection (.stream t.client.streamId)
    (t.offered.map PoolFrame.seen)
  rw [Link.credit, Link.credit, hquiet.granted, hquiet.granted, hused, hused, initialWindowSize]
  omega

/-- A DATA frame of a conforming pool finds room in the window of the connection. -/
theorem room_of_conforming {s : Link} {f : PoolFrame} (h : conforming s (.offer f))
    (hdata : isData f.seen = true) :
    (f.val.payload.length : ℤ) ≤ s.credit .connection (s.offered.map PoolFrame.seen) := by
  simp only [conforming, isConforming, hdata, Bool.not_true, Bool.false_or, Bool.and_eq_true,
    decide_eq_true_eq] at h
  exact h.2.1

/-- A conforming pool sends at most 65535 bytes of DATA in the life of a connection. -/
theorem used_le_of_conforming (hrun : link.Run conforming (.start opts) tr t) :
    Window.connection.used (t.offered.map PoolFrame.seen) ≤ 65535 := by
  -- the bound alone is not kept: the guard speaks of the windows, and they must not be wider
  refine (hrun.stateInvariant (I := fun t => Quiet t.offered t ∧
    Window.connection.used (t.offered.map PoolFrame.seen) ≤ 65535)
    ⟨quiet_start opts, Nat.zero_le _⟩ ?_).2
  rintro s a t _ ⟨hs, hle⟩ hguard hstep
  have ht := hs.step hstep
  refine ⟨⟨ht.sent, ht.answered, rfl⟩, ?_⟩
  rw [ht.offered, List.map_append, Window.used_append]
  cases a with
  | offer f =>
    rw [LinkInput.offers, List.map_singleton, Window.used_singleton]
    by_cases hdata : isData f.seen = true
    · have hroom := room_of_conforming hguard hdata
      rw [Link.credit, hs.granted, initialWindowSize] at hroom
      have hlength : f.seen.payload.length = f.val.payload.length := rfl
      rw [Window.covers, if_pos hdata, hlength]
      omega
    · rw [Window.covers, if_neg hdata]
      exact hle
  | _ => exact hle

end Runs

/-! ### A message that is too long -/

section Samples

/-- A message of 65524 bytes with its prefix. -/
def largeMessage : List UInt8 := grpcMessage (List.replicate 65524 0)

theorem length_largeMessage : largeMessage.length = 65529 := by
  rw [largeMessage, length_grpcMessage, List.length_replicate]

/-- A piece of the message on the mining stream. -/
def piece (n k : ℕ) : PoolFrame where
  val := ⟨FRAME_DATA, 0, 3, (largeMessage.drop n).take k⟩
  property := by
    rw [List.length_take, List.length_drop, length_largeMessage]
    omega

/-- The mining stream has delivered the first bytes of the message. Seven more were used by the
answer to `register_miner`. -/
structure Waiting (n : ℕ) (s : Link) : Prop where
  quiet : Quiet s.offered s
  phase : s.phase = .mining
  streamId : s.client.streamId = 3
  unread : s.client.unread = []
  queue : s.client.incoming.eventQueue = []
  readBuf : s.client.incoming.readBuf = largeMessage.take n
  connection : Window.connection.used (s.offered.map PoolFrame.seen) = 7 + n
  stream : (Window.stream 3).used (s.offered.map PoolFrame.seen) = n

theorem isData_piece (n k : ℕ) : isData (piece n k).seen = true := rfl

theorem length_piece {n k : ℕ} (h : n + k ≤ 65529) : (piece n k).val.payload.length = k := by
  have hlength := length_largeMessage
  rw [piece, List.length_take, List.length_drop]
  omega

/-- The prefix announces more bytes than the windows leave room for. -/
theorem take_incomplete {n : ℕ} (h : n ≤ 65528) : Incomplete (largeMessage.take n) := by
  rcases Nat.lt_or_ge n 5 with hn | hn
  · left
    rw [List.length_take]
    omega
  · right
    have hlength : ∀ msg : List UInt8,
        ((grpcMessage msg).take (4 + 1)).drop 1 = writeU32Be (UInt32.ofNat msg.length) :=
      fun _ => rfl
    have hread : readU32Be ((largeMessage.take n).drop 1) = 65524 := by
      rw [← readU32Be_take, List.take_drop, List.take_take, min_eq_left hn, largeMessage, hlength,
        List.length_replicate]
      decide
    rw [hread, List.length_take, length_largeMessage]
    exact Nat.lt_of_le_of_lt (min_le_left _ _) (Nat.lt_of_le_of_lt h (by decide))

theorem conforming_piece {n k : ℕ} {s : Link} (h : Waiting n s) (hsize : k ≤ maxFrameSize)
    (hroom : n + k ≤ 65528) : conforming s (.offer (piece n k)) := by
  have hlength := length_piece (hroom.trans (by norm_num))
  have hid : (piece n k).seen.streamId = 3 := (by decide : (3 : UInt32) &&& 0x7FFFFFFF = 3)
  simp only [conforming, isConforming, hlength, hid, Link.credit, h.quiet.granted, h.connection,
    h.stream, initialWindowSize, Bool.and_eq_true, Bool.or_eq_true, decide_eq_true_eq]
  exact ⟨hsize, .inr ⟨by omega, by omega⟩⟩

/-- Another piece arrives and is handled. -/
theorem deliver_piece {n k : ℕ} {s : Link} (h : Waiting n s) (hk : 0 < k)
    (hsize : k ≤ maxFrameSize) (hroom : n + k ≤ 65528) :
    ∃ t, link.Run conforming s [(piece n k).seen] t ∧ Waiting (n + k) t ∧
      t.offered = s.offered ++ [piece n k] := by
  have hlength := length_piece (hroom.trans (by norm_num))
  have hjoin : largeMessage.take n ++ (piece n k).val.payload = largeMessage.take (n + k) :=
    (List.take_add ..).symm
  have hseen : (piece n k).seen = ⟨FRAME_DATA, 0, 3, (piece n k).val.payload⟩ := by
    have hid : (3 : UInt32) &&& 0x7FFFFFFF = 3 := by decide
    rw [PoolFrame.seen, piece, hid]
  have hused : ∀ w : Window, w.covers (piece n k).seen = true →
      w.used ((s.offered ++ [piece n k]).map PoolFrame.seen) =
        w.used (s.offered.map PoolFrame.seen) + k := by
    intro w hw
    rw [List.map_append, Window.used_append, List.map_singleton, Window.used_singleton, if_pos hw,
      hseen, hlength]
  -- the client with the frame before it
  let c : Client := { s.client with unread := s.client.unread ++ (piece n k).val.bytes }
  have hreceive : c.step (.receiveEvent [.bytes 9, .bytes (piece n k).val.payload.length]
      lowHeap 1) = some ({ c with
        unread := []
        incoming := { c.incoming with
          readBuf := c.incoming.readBuf ++ (piece n k).val.payload } }, [(piece n k).seen]) := by
    apply step_incomplete
    · exact congrArg (· ++ (piece n k).val.bytes) h.unread
    · exact h.queue
    · exact List.length_pos_iff.mp (hk.trans_eq hlength.symm)
    · rfl
    · rw [hseen]
      exact h.streamId.symm
    · rfl
    · rw [show c.incoming.readBuf = largeMessage.take n from h.readBuf, hjoin]
      exact take_incomplete hroom
  let s' : Link := { s with client := c, offered := s.offered ++ [piece n k] }
  have hcall : s'.step (.receiveEvent [.bytes 9, .bytes (piece n k).val.payload.length] lowHeap 1) =
      some ({ s' with client := { c with
        unread := []
        incoming := { c.incoming with
          readBuf := c.incoming.readBuf ++ (piece n k).val.payload } } }, [(piece n k).seen]) := by
    rw [Link.step, if_pos h.phase, Link.calls, hreceive]
    rfl
  have hoffer : link.Run conforming s [] s' :=
    Machine.Run.refl.snoc (conforming_piece h hsize hroom) rfl
  have hread : conforming s'
      (.receiveEvent [.bytes 9, .bytes (piece n k).val.payload.length] lowHeap 1) := rfl
  refine ⟨_, hoffer.snoc hread hcall, ?_, rfl⟩
  exact
    { quiet := ⟨h.quiet.sent, h.quiet.answered, rfl⟩
      phase := h.phase
      streamId := h.streamId
      unread := rfl
      queue := h.queue
      readBuf := (congrArg (· ++ (piece n k).val.payload) h.readBuf).trans hjoin
      connection := by
        rw [hused .connection (by rw [hseen]; rfl), h.connection, Nat.add_assoc]
      stream := by
        rw [hused (.stream 3) (by rw [hseen]; rfl), h.stream] }

/-- The pool answers the handshake and `register_miner`, and the mining stream is opened. -/
def openingInputs : List LinkInput :=
  [.handshake, .offer ⟨⟨FRAME_SETTINGS, 0, 0, []⟩, by decide⟩,
    .offer ⟨⟨FRAME_SETTINGS, FLAG_ACK, 0, []⟩, by decide⟩, .readHandshake [.bytes 9],
    .readHandshake [.bytes 9], .register [],
    .offer ⟨⟨FRAME_HEADERS, FLAG_END_HEADERS, 1, []⟩, by decide⟩,
    .offer ⟨⟨FRAME_DATA, FLAG_END_STREAM, 1, grpcMessage [8, 1]⟩, by decide⟩,
    .readRegister [.bytes 9], .readRegister [.bytes 9, .bytes 7], .startMiningStream []]

theorem exists_opened : ∃ t tr, link.Run conforming (.start { host := bytes "pool" }) tr t ∧
    tr = t.offered.map PoolFrame.seen ∧ Waiting 0 t := by
  have hexec : (link.exec conforming openingInputs (.start { host := bytes "pool" })).any
      (fun r => decide (r.2 = r.1.offered.map PoolFrame.seen ∧ r.1.phase = .mining ∧
        r.1.client.streamId = 3 ∧ r.1.client.unread = [] ∧
        r.1.client.incoming.eventQueue.isEmpty ∧ r.1.client.incoming.readBuf = [] ∧
        Window.connection.used (r.1.offered.map PoolFrame.seen) = 7 ∧
        (Window.stream 3).used (r.1.offered.map PoolFrame.seen) = 0)) = true := by
    decide +kernel
  obtain ⟨t, tr, hrun, hresult⟩ := Machine.exists_run_of_exec hexec
  obtain ⟨htr, hphase, hstreamId, hunread, hqueue, hreadBuf, hconnection, hstream⟩ :=
    of_decide_eq_true hresult
  refine ⟨t, tr, hrun, htr, ?_⟩
  exact
    { quiet := quiet_of_run hrun
      phase := hphase
      streamId := hstreamId
      unread := hunread
      queue := List.isEmpty_iff.mp hqueue
      readBuf := hreadBuf
      connection := hconnection
      stream := hstream }

theorem used_le_of_conforming_opened :
    ∃ t tr, link.Run conforming (.start { host := bytes "pool" }) tr t ∧
      Window.connection.used (t.offered.map PoolFrame.seen) ≤ 65535 := by
  obtain ⟨t, tr, hrun, -⟩ := exists_opened
  exact ⟨t, tr, hrun, used_le_of_conforming hrun⟩

/-- While the mining stream is young, both windows are open. -/
theorem credit_pos_opened : ∃ t tr, link.Run conforming (.start { host := bytes "pool" }) tr t ∧
    tr.filter isData = (t.offered.map PoolFrame.seen).filter isData ∧ t.phase = .mining ∧
    0 < t.credit .connection tr ∧ 0 < t.credit (.stream t.client.streamId) tr := by
  obtain ⟨t, tr, hrun, htr, hwaiting⟩ := exists_opened
  have hhandled := congrArg (List.filter isData) htr
  refine ⟨t, tr, hrun, hhandled, hwaiting.phase, (credit_pos_iff hrun hhandled).mpr ?_⟩
  rw [hwaiting.connection]
  norm_num

/-- A message of 65524 bytes on the mining stream. The client has handled all but its last byte,
and the window of the connection is closed: a conforming pool may not send that byte. -/
theorem credit_fails : ∃ t tr, link.Run conforming (.start { host := bytes "pool" }) tr t ∧
    tr = t.offered.map PoolFrame.seen ∧ t.phase = .mining ∧
    t.client.incoming.readBuf = largeMessage.take 65528 ∧ t.credit .connection tr = 0 ∧
    ¬ conforming t (.offer (piece 65528 1)) := by
  obtain ⟨t₀, tr, hrun, htr, h₀⟩ := exists_opened
  -- three frames of the largest size, and one that fills the window
  obtain ⟨t₁, hrun₁, h₁, hoffered₁⟩ :=
    deliver_piece h₀ (k := 16384) (by norm_num) le_rfl (by norm_num)
  obtain ⟨t₂, hrun₂, h₂, hoffered₂⟩ :=
    deliver_piece h₁ (k := 16384) (by norm_num) le_rfl (by norm_num)
  obtain ⟨t₃, hrun₃, h₃, hoffered₃⟩ :=
    deliver_piece h₂ (k := 16384) (by norm_num) le_rfl (by norm_num)
  obtain ⟨t₄, hrun₄, h₄, hoffered₄⟩ :=
    deliver_piece h₃ (k := 16376) (by norm_num) (by decide) (by norm_num)
  have hall := (((hrun.trans hrun₁).trans hrun₂).trans hrun₃).trans hrun₄
  have hhandled : tr ++ [(piece 0 16384).seen] ++ [(piece (0 + 16384) 16384).seen] ++
      [(piece (0 + 16384 + 16384) 16384).seen] ++ [(piece (0 + 16384 + 16384 + 16384) 16376).seen] =
      t₄.offered.map PoolFrame.seen := by
    rw [hoffered₄, hoffered₃, hoffered₂, hoffered₁, htr]
    simp only [List.map_append, List.map_singleton]
  have hcredit : t₄.credit .connection (t₄.offered.map PoolFrame.seen) = 0 := by
    rw [Link.credit, h₄.quiet.granted, h₄.connection, initialWindowSize]
    norm_num
  refine ⟨t₄, _, hall, hhandled, h₄.phase, h₄.readBuf, hhandled ▸ hcredit, fun hconforming => ?_⟩
  -- one byte is more than nothing
  have hroom := room_of_conforming hconforming (isData_piece 65528 1)
  rw [hcredit, length_piece le_rfl] at hroom
  exact absurd hroom (by norm_num)

end Samples

end PropMiner.Grpc
