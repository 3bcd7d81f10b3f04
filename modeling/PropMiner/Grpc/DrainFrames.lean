import PropMiner.Grpc.Messages
import PropMiner.Semantics.Machine

/-!
# Reading frames under timeouts

`receive_event` waits for an event by reading one frame: `drain_frames` reads the nine bytes
of a header and then the payload, each with `read_exact`, which gathers bytes until it has
all of them or a deadline passes. What it has gathered by then is in a buffer of the caller,
who returns: a frame that arrives too slowly leaves the next call in the middle of it.

A call is given the answers that the socket gives it, one for each round of `read_exact`. The
bytes of the pool wait in `unread`; how many an answer hands out is what has arrived by then.

## Main definitions

* `readExact`, `drainFrames` — the reads, and the dispatch on the type of the frame
* `receiver` — calls of `receive_event` and its siblings as a machine
* `InOrder` — the frames processed are the first of those sent
* `wholeOrNothing` — a call that fails has got no byte

## Main results

* `inOrder_of_wholeOrNothing` — in runs of such calls the frames are processed in order
* `inOrder_fails` — a timeout after four bytes, and the rest is taken for another frame
-/

set_option autoImplicit false

namespace PropMiner.Grpc

open PropMiner.Semantics (Machine)
open PropMiner.Proto

/-! ### Reading from the socket -/

/-- Why `read_exact` returns `false`. -/
inductive ReadFailure
  | pollTimeout
  | pollFailed
  | recvFailed
  | sslReadFailed (reason : String)
  | sslClosed
  deriving DecidableEq, Repr

/-- The text that `set_error` gets. -/
def ReadFailure.text : ReadFailure → String
  | .pollTimeout => "poll timeout"
  | .pollFailed => "poll failed"
  | .recvFailed => "recv failed"
  | .sslReadFailed reason => "SSL_read failed: " ++ reason
  | .sslClosed => "SSL_read failed (connection closed)"

/-- What one round of `read_exact` meets. -/
inductive Answer
  /-- `recv` or `SSL_read` returns this many bytes -/
  | bytes (n : ℕ)
  /-- nothing is there, and `poll_socket` sees more before the deadline -/
  | again
  | failed (e : ReadFailure)
  deriving DecidableEq, Repr

def Answer.isBytes : Answer → Bool
  | .bytes _ => true
  | _ => false

def Answer.isFailure : Answer → Bool
  | .failed _ => true
  | _ => false

/-- How `read_exact` ends. -/
inductive ReadEnd
  | done (out : List UInt8)
  | stopped (e : ReadFailure)
  deriving DecidableEq, Repr

/-- `read_exact` with `n` bytes to go; also the bytes and the answers that are left. Where it
fails, what it has got is gone from the socket. -/
def readExact : List Answer → ℕ → List UInt8 → List UInt8 →
    Option (ReadEnd × List UInt8 × List Answer)
  | answers, 0, out, unread => some (.done out, unread, answers)
  | [], _ + 1, _, _ => none
  | .bytes k :: answers, n + 1, out, unread =>
      -- at most what was asked for, and what the pool has sent
      if 0 < k ∧ k ≤ n + 1 ∧ k ≤ unread.length then
        readExact answers (n + 1 - k) (out ++ unread.take k) (unread.drop k)
      else none
  | .again :: answers, n + 1, out, unread => readExact answers (n + 1) out unread
  | .failed e :: answers, _ + 1, _, unread => some (.stopped e, unread, answers)

/-! ### The client -/

/-- What the receiving side of the client reads and writes. -/
structure Client where
  /-- what the pool sends and `read_exact` has not taken -/
  unread : List UInt8
  streamId : UInt32 := 0
  nextStreamId : UInt32 := 1
  headersReceived : Bool := false
  streamClosed : Bool := false
  incoming : Incoming := {}
  lastError : String := ""
  /-- the frames it has answered with -/
  answered : List Frame := []

/-- `type`, `flags`, `sid` and `payload` of `drain_frames`. -/
def Frame.ofRead (hdr payload : List UInt8) : Frame where
  type := hdr.getD 3 0
  flags := hdr.getD 4 0
  streamId := readU32Be (hdr.drop 5) &&& 0x7FFFFFFF
  payload

namespace Client

/-- The end of `drain_frames`: what is done with a frame. -/
def dispatch (heap : Heap) (fuel : ℕ) (s : Client) (f : Frame) : Option (Client × Option Fault) :=
  let closed := s.streamClosed || f.flags &&& FLAG_END_STREAM != 0
  if f.type = FRAME_HEADERS ∧ f.streamId = s.streamId then
    some ({ s with headersReceived := true, streamClosed := closed }, none)
  else if f.type = FRAME_DATA ∧ f.streamId = s.streamId then
    (parseGrpcMessages heap fuel
      { s.incoming with readBuf := s.incoming.readBuf ++ f.payload }).map fun r =>
        ({ s with incoming := r.1, streamClosed := closed }, r.2)
  else if f.type = FRAME_SETTINGS then
    if f.flags &&& FLAG_ACK = 0 then
      some ({ s with answered := s.answered ++ [⟨FRAME_SETTINGS, FLAG_ACK, 0, []⟩] }, none)
    else some (s, none)
  else if f.type = FRAME_GOAWAY then some ({ s with streamClosed := true }, none)
  else if f.type = FRAME_WINDOW_UPDATE then some (s, none)
  else if f.type = FRAME_PING then
    -- a PING that is itself an answer is answered too
    if f.payload.length = 8 then
      some ({ s with answered := s.answered ++ [⟨FRAME_PING, FLAG_ACK, 0, f.payload⟩] }, none)
    else some (s, none)
  else some (s, none)

/-- A read has failed. -/
def readFailed (s : Client) (unread : List UInt8) (e : ReadFailure) : Client :=
  { s with unread, lastError := e.text }

/-- `drain_frames`, with the frame it has processed. The answers are those of this call, all
of them used. -/
def drainFrames (answers : List Answer) (heap : Heap) (fuel : ℕ) (s : Client) :
    Option (Client × List Frame × Option Fault) :=
  match readExact answers 9 [] s.unread with
  | none => none
  | some (.stopped e, unread, rest) =>
      if rest = [] then some (s.readFailed unread e, [], none) else none
  | some (.done hdr, unread, rest) =>
      let len := readU24Be hdr
      -- never true of 24 bits
      if 0xFFFFFF < len then
        if rest = [] then some ({ s with unread, lastError := "oversized frame" }, [], none)
        else none
      else
        match readExact rest len.toNat [] unread with
        | none => none
        | some (.stopped e, unread, rest) =>
            if rest = [] then some (s.readFailed unread e, [], none) else none
        | some (.done payload, unread, rest) =>
            let f := Frame.ofRead hdr payload
            if rest = [] then
              (dispatch heap fuel { s with unread } f).map fun r => (r.1, [f], r.2)
            else none

/-- The front of `event_queue_` is handed out, if there is one. -/
def popEvent (s : Client) : Client :=
  { s with incoming := { s.incoming with eventQueue := s.incoming.eventQueue.tail } }

end Client

inductive ReceiveInput
  | receiveEvent (answers : List Answer) (heap : Heap) (fuel : ℕ)
  | tryReceiveEvent
  /-- the state that `start_mining_stream` sets -/
  | startMiningStream

/-- One call. `receive_event` reads a frame only if no event waits; an exception leaves it
before it looks at the queue again, and after an erase behind the end nothing is known. -/
def Client.step (s : Client) : ReceiveInput → Option (Client × List Frame)
  | .receiveEvent answers heap fuel =>
      if s.incoming.eventQueue ≠ [] then
        if answers = [] then some (s.popEvent, []) else none
      else
        match s.drainFrames answers heap fuel with
        | none => none
        | some (s, frames, none) => some (s.popEvent, frames)
        | some (s, frames, some (.exception _)) => some (s, frames)
        | some (_, _, some .outOfRange) => none
  | .tryReceiveEvent => some (s.popEvent, [])
  | .startMiningStream =>
      some ({ s with
        streamId := s.nextStreamId
        nextStreamId := s.nextStreamId + 2
        headersReceived := false
        streamClosed := false }, [])

def receiver : Machine Client ReceiveInput Frame := ⟨Client.step⟩

/-- A frame of the pool: its length is a number of 24 bits. -/
abbrev PoolFrame := { f : Frame // f.payload.length < 2 ^ 24 }

/-- A frame as it is processed, without the reserved bit of its stream. -/
def PoolFrame.seen (f : PoolFrame) : Frame :=
  { f.val with streamId := f.val.streamId &&& 0x7FFFFFFF }

/-- What the pool writes for its frames. -/
def wire (sent : List PoolFrame) : List UInt8 := sent.flatMap fun f => f.val.bytes

/-- The frames processed are the first of those sent, in order. -/
def InOrder (sent : List PoolFrame) (processed : List Frame) : Prop :=
  processed <+: sent.map PoolFrame.seen

instance (sent : List PoolFrame) (processed : List Frame) : Decidable (InOrder sent processed) :=
  inferInstanceAs (Decidable (_ <+: _))

def isWholeOrNothing : ReceiveInput → Bool
  | .receiveEvent answers _ _ => !(answers.any Answer.isFailure && answers.any Answer.isBytes)
  | _ => true

/-- A call in which a read fails gets no byte at all. -/
def wholeOrNothing (_ : Client) (a : ReceiveInput) : Prop := isWholeOrNothing a = true

instance (s : Client) (a : ReceiveInput) : Decidable (wholeOrNothing s a) :=
  inferInstanceAs (Decidable (isWholeOrNothing a = true))

/-! ### Reads -/

section Reads

variable {answers rest : List Answer} {n : ℕ} {out unread unread' bs : List UInt8}
  {e : ReadFailure}

/-- A read that ends well has taken exactly its bytes, in at least one piece. -/
theorem readExact_done (h : readExact answers n out unread = some (.done bs, unread', rest)) :
    n ≤ unread.length ∧ bs = out ++ unread.take n ∧ unread' = unread.drop n ∧
      ∃ used, answers = used ++ rest ∧ (0 < n → used.any Answer.isBytes) := by
  -- by induction on the answers: a piece of `k` bytes leaves `n - k` to read
  induction answers generalizing n out unread with
  | nil =>
    cases n with
    | zero =>
      cases h
      exact ⟨Nat.zero_le _, by simp, rfl, [], rfl, nofun⟩
    | succ n => cases h
  | cons a answers ih =>
    cases n with
    | zero =>
      cases h
      exact ⟨Nat.zero_le _, by simp, rfl, [], rfl, nofun⟩
    | succ n =>
      cases a with
      | bytes k =>
        rw [readExact] at h
        split_ifs at h with hk
        obtain ⟨hle, rfl, rfl, used, rfl, -⟩ := ih h
        rw [List.length_drop] at hle
        have hsum : k + (n + 1 - k) = n + 1 := Nat.add_sub_cancel' hk.2.1
        refine ⟨by omega, ?_, ?_, .bytes k :: used, rfl, fun _ => rfl⟩
        · rw [List.append_assoc, ← List.take_add, hsum]
        · rw [List.drop_drop, hsum]
      | again =>
        obtain ⟨hle, hbs, hunread, used, rfl, hused⟩ := ih h
        refine ⟨hle, hbs, hunread, .again :: used, rfl, fun hn => ?_⟩
        simpa [Answer.isBytes] using hused hn
      | failed e => cases h

/-- A read that fails has met a failure; it has taken nothing unless it got bytes. -/
theorem readExact_stopped
    (h : readExact answers n out unread = some (.stopped e, unread', rest)) :
    ∃ used, answers = used ++ rest ∧ used.any Answer.isFailure ∧
      (used.any Answer.isBytes = false → unread' = unread) := by
  induction answers generalizing n out unread with
  | nil => cases n <;> cases h
  | cons a answers ih =>
    cases n with
    | zero => cases h
    | succ n =>
      cases a with
      | bytes k =>
        rw [readExact] at h
        split_ifs at h with hk
        obtain ⟨used, rfl, hfailure, -⟩ := ih h
        -- bytes were taken, so nothing is promised about the rest
        refine ⟨.bytes k :: used, rfl, by simpa [Answer.isFailure] using hfailure, ?_⟩
        simp [Answer.isBytes]
      | again =>
        obtain ⟨used, rfl, hfailure, hunread⟩ := ih h
        refine ⟨.again :: used, rfl, by simpa [Answer.isFailure] using hfailure, fun hused => ?_⟩
        exact hunread hused
      | failed e =>
        cases h
        exact ⟨[.failed e], rfl, rfl, fun _ => rfl⟩

end Reads

/-! ### Frames -/

section Frames

variable {answers : List Answer} {heap : Heap} {fuel : ℕ} {s t : Client} {frames : List Frame}
  {fault : Option Fault} {left : List PoolFrame}

/-- Reading frames, the client stands before whole frames of the pool, those that are left
after the processed ones. -/
structure AtBoundary (sent : List PoolFrame) (processed : List Frame) (s : Client)
    (left : List PoolFrame) : Prop where
  unread : s.unread = wire left
  split : processed ++ left.map PoolFrame.seen = sent.map PoolFrame.seen

theorem AtBoundary.inOrder {sent : List PoolFrame} {processed : List Frame}
    (h : AtBoundary sent processed s left) : InOrder sent processed := ⟨_, h.split⟩

theorem dispatch_unread {f : Frame} (h : s.dispatch heap fuel f = some (t, fault)) :
    t.unread = s.unread := by
  unfold Client.dispatch at h
  simp only at h
  split_ifs at h
  all_goals first
    | obtain ⟨rfl, -⟩ := Prod.mk.inj (Option.some.inj h)
      rfl
    | obtain ⟨r, -, hr⟩ := Option.map_eq_some_iff.mp h
      obtain ⟨rfl, -⟩ := Prod.mk.inj hr
      rfl

/-- What a call of `drain_frames` can do: fail in the header, fail in the payload, or process
the frame. No length of 24 bits is oversized. -/
theorem drainFrames_cases (h : s.drainFrames answers heap fuel = some (t, frames, fault)) :
    (∃ e, readExact answers 9 [] s.unread = some (.stopped e, t.unread, []) ∧ frames = []) ∨
    ∃ hdr unread rest, readExact answers 9 [] s.unread = some (.done hdr, unread, rest) ∧
      ((∃ e, readExact rest (readU24Be hdr).toNat [] unread = some (.stopped e, t.unread, []) ∧
          frames = []) ∨
        ∃ payload, readExact rest (readU24Be hdr).toNat [] unread =
            some (.done payload, t.unread, []) ∧ frames = [Frame.ofRead hdr payload]) := by
  unfold Client.drainFrames at h
  split at h
  case h_1 => cases h
  case h_2 e unread rest hread =>
    split_ifs at h with hrest
    cases h
    exact .inl ⟨e, hrest ▸ hread, rfl⟩
  case h_3 hdr unread rest hread =>
    refine .inr ⟨hdr, unread, rest, hread, ?_⟩
    simp only at h
    split at h
    case isTrue hlarge =>
      rw [UInt32.lt_iff_toNat_lt] at hlarge
      exact absurd hlarge (Nat.not_lt.mpr (Nat.le_of_lt_succ (toNat_readU24Be_lt hdr)))
    case isFalse =>
      split at h
      case h_1 => cases h
      case h_2 e unread' rest' hpayload =>
        split_ifs at h with hrest
        cases h
        exact .inl ⟨e, hrest ▸ hpayload, rfl⟩
      case h_3 payload unread' rest' hpayload =>
        split_ifs at h with hrest
        obtain ⟨⟨u, fault'⟩, hdispatch, hr⟩ := Option.map_eq_some_iff.mp h
        cases hr
        have hunread := dispatch_unread hdispatch
        exact .inr ⟨payload, by rw [hpayload, hrest, hunread], rfl⟩

/-- A header that was read is the header of the next frame. -/
theorem header_of_wire (hle : 9 ≤ (wire left).length) :
    ∃ f rest, left = f :: rest ∧ (wire left).take 9 = f.val.header ∧
      (wire left).drop 9 = f.val.payload ++ wire rest := by
  cases left with
  | nil => cases hle
  | cons f rest =>
    have hwire : wire (f :: rest) = f.val.header ++ (f.val.payload ++ wire rest) := by
      rw [wire, List.flatMap_cons, Frame.bytes, List.append_assoc]
      rfl
    rw [hwire]
    exact ⟨f, rest, rfl, List.take_left' f.val.length_header, List.drop_left' f.val.length_header⟩

theorem ofRead_header (f : PoolFrame) : Frame.ofRead f.val.header f.val.payload = f.seen := by
  have hstream : readU32Be (f.val.header.drop 5) = f.val.streamId :=
    readU32Be_writeU32Be f.val.streamId []
  rw [Frame.ofRead, hstream]
  rfl

/-- A call of `drain_frames` that does not fail, or gets no byte, processes the next frame of
the pool, or nothing. -/
theorem drainFrames_next (hunread : s.unread = wire left)
    (hwhole : answers.any Answer.isFailure → answers.any Answer.isBytes = false)
    (h : s.drainFrames answers heap fuel = some (t, frames, fault)) :
    frames = [] ∧ t.unread = wire left ∨
      ∃ f rest, left = f :: rest ∧ frames = [f.seen] ∧ t.unread = wire rest := by
  rcases drainFrames_cases h with ⟨e, hread, rfl⟩ | ⟨hdr, unread, rest, hread, hpayload⟩
  · -- a failure, so no byte
    obtain ⟨used, rfl, hfailure, hsame⟩ := readExact_stopped hread
    rw [List.append_nil] at hwhole
    exact .inl ⟨rfl, (hsame (hwhole hfailure)).trans hunread⟩
  · rw [hunread] at hread
    obtain ⟨hle, hhdr, hrest, used, rfl, hbytes⟩ := readExact_done hread
    obtain ⟨f, left', rfl, htake, hdrop⟩ := header_of_wire hle
    rw [List.nil_append, htake] at hhdr
    rw [hdrop] at hrest
    have hlen := readU24Be_header f.property
    subst hhdr hrest
    rcases hpayload with ⟨e, hread', -⟩ | ⟨payload, hread', rfl⟩
    · -- the header came in bytes, so the payload cannot fail
      obtain ⟨used', rfl, hfailure, -⟩ := readExact_stopped hread'
      simp only [List.any_append, hfailure, hbytes (by norm_num), List.append_nil, Bool.or_true,
        Bool.true_or] at hwhole
      cases hwhole trivial
    · obtain ⟨-, hpayload, hrest, -⟩ := readExact_done hread'
      rw [hlen, List.nil_append, List.take_left] at hpayload
      rw [hlen, List.drop_left] at hrest
      rw [hpayload, ofRead_header]
      exact .inr ⟨f, left', rfl, rfl, hrest⟩

/-- A call reads nothing, or is `receive_event` and reads what `drain_frames` reads. -/
theorem step_cases {a : ReceiveInput} (h : s.step a = some (t, frames)) :
    (t.unread = s.unread ∧ frames = []) ∨
    ∃ answers heap fuel u fault, a = .receiveEvent answers heap fuel ∧
      s.drainFrames answers heap fuel = some (u, frames, fault) ∧ t.unread = u.unread := by
  cases a with
  | receiveEvent answers heap fuel =>
    unfold Client.step at h
    simp only at h
    split at h
    case isTrue =>
      split_ifs at h
      cases h
      exact .inl ⟨rfl, rfl⟩
    case isFalse =>
      split at h
      case h_1 => cases h
      case h_2 u frames' hdrain =>
        cases h
        exact .inr ⟨_, _, _, u, _, rfl, hdrain, rfl⟩
      case h_3 u frames' e hdrain =>
        cases h
        exact .inr ⟨_, _, _, _, _, rfl, hdrain, rfl⟩
      case h_4 => cases h
  | tryReceiveEvent =>
    cases h
    exact .inl ⟨rfl, rfl⟩
  | startMiningStream =>
    cases h
    exact .inl ⟨rfl, rfl⟩

/-- A call keeps the client before a whole frame, and processes the next one at most. -/
theorem AtBoundary.step {sent : List PoolFrame} {processed : List Frame} {a : ReceiveInput}
    (hs : AtBoundary sent processed s left) (hguard : wholeOrNothing s a)
    (h : s.step a = some (t, frames)) :
    ∃ left', AtBoundary sent (processed ++ frames) t left' := by
  rcases step_cases h with ⟨ht, rfl⟩ | ⟨answers, heap, fuel, u, fault, rfl, hdrain, ht⟩
  · exact ⟨left, ht.trans hs.unread, by rw [List.append_nil]; exact hs.split⟩
  · have hwhole : answers.any Answer.isFailure → answers.any Answer.isBytes = false := by
      intro hfailure
      simpa [wholeOrNothing, isWholeOrNothing, hfailure] using hguard
    rcases drainFrames_next hs.unread hwhole hdrain with ⟨rfl, hu⟩ | ⟨f, rest, rfl, rfl, hu⟩
    · exact ⟨left, ht.trans hu, by rw [List.append_nil]; exact hs.split⟩
    · exact ⟨rest, ht.trans hu, by rw [List.append_assoc]; exact hs.split⟩

end Frames

/-- As long as no call fails with a part of a frame in its hands, the frames processed are
the first of those sent, whatever arrives when. -/
theorem inOrder_of_wholeOrNothing {sent : List PoolFrame} {s t : Client} {processed : List Frame}
    (hstart : s.unread = wire sent) (hrun : receiver.Run wholeOrNothing s processed t) :
    InOrder sent processed := by
  have hboundary : ∃ left, AtBoundary sent processed t left := by
    refine hrun.invariant (I := fun tr t => ∃ left, AtBoundary sent tr t left)
      ⟨sent, hstart, rfl⟩ ?_
    rintro tr s a u frames ⟨left, hs⟩ hguard hstep
    exact hs.step hguard hstep
  obtain ⟨left, hleft⟩ := hboundary
  exact hleft.inOrder

/-! ### A slow frame -/

section Samples

/-- The pool opens the window of the connection by one byte. -/
def sampleUpdate : PoolFrame := ⟨⟨FRAME_WINDOW_UPDATE, 0, 0, [0, 0, 0, 1]⟩, by decide⟩

/-- A timeout without a byte, and then the frame in three pieces. -/
theorem inOrder_slowFrame :
    ∃ t, receiver.Run wholeOrNothing { unread := wire [sampleUpdate] } [sampleUpdate.seen] t ∧
      InOrder [sampleUpdate] [sampleUpdate.seen] := by
  have hexec : (receiver.exec wholeOrNothing
      [.receiveEvent [.again, .failed .pollTimeout] lowHeap 1,
        .receiveEvent [.bytes 4, .again, .bytes 5, .bytes 4] lowHeap 1]
      { unread := wire [sampleUpdate] }).any
      (fun r => decide (r.2 = [sampleUpdate.seen])) = true := by
    decide +kernel
  obtain ⟨t, tr, hrun, hresult⟩ := Machine.exists_run_of_exec hexec
  obtain rfl : tr = _ := of_decide_eq_true hresult
  exact ⟨t, hrun, inOrder_of_wholeOrNothing rfl hrun⟩

/-- The deadline passes after four bytes of the header. The next call takes the other nine
for the header of an empty DATA frame. -/
theorem inOrder_fails :
    ∃ t, receiver.Run Machine.anyStep { unread := wire [sampleUpdate] }
      [⟨FRAME_DATA, 0, 1, []⟩] t ∧ ¬ InOrder [sampleUpdate] [⟨FRAME_DATA, 0, 1, []⟩] := by
  have hexec : (receiver.exec Machine.anyStep
      [.receiveEvent [.bytes 4, .failed .pollTimeout] lowHeap 1,
        .receiveEvent [.bytes 9] lowHeap 1]
      { unread := wire [sampleUpdate] }).any
      (fun r => decide (r.2 = [⟨FRAME_DATA, 0, 1, []⟩])) = true := by
    decide +kernel
  obtain ⟨t, tr, hrun, hresult⟩ := Machine.exists_run_of_exec hexec
  obtain rfl : tr = _ := of_decide_eq_true hresult
  exact ⟨t, hrun, by decide +kernel⟩

end Samples

end PropMiner.Grpc
