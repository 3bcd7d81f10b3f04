import PropMiner.Grpc.Http2
import PropMiner.Semantics.Machine

/-!
# The numbers of miner events

Every `MinerEvent` carries a number. The ping and the share thread take theirs from one
counter under a lock and send after they have released it; the event that opens a mining
stream always has number 1; a heartbeat is built without a number. All of them are written
to the stream that the client has open at that moment.

## Main definitions

* `MinerEvent`, `MinerEvent.encode`
* `Session`, `Session.step`, `session` — numbering and sending as a machine
* `Increasing` — on each stream the numbers grow
* `orderly` — no heartbeat, no overtaking, and nothing before the opening event

## Main results

* `readSeq_of_sendEvent` — the number can be read off the frame
* `increasing_of_orderly` — along orderly runs the numbers grow
* `increasing_fails` — each of the three conditions is needed
-/

set_option autoImplicit false

namespace PropMiner.Grpc

open PropMiner.Semantics (Machine)

inductive MinerEventType
  | none | auth | share | heartbeat | ping
  deriving DecidableEq, Repr

/-- The field that holds an event of this type. -/
def MinerEventType.number : MinerEventType → UInt32
  | none => 0
  | auth => 2
  | share => 3
  | heartbeat => 4
  | ping => 5

structure MinerEvent where
  seq : UInt64 := 0
  type : MinerEventType := .none
  payload : List UInt8 := []
  deriving DecidableEq, Repr

def MinerEvent.fields (e : MinerEvent) : List Wire.Field :=
  ⟨1, .varint e.seq⟩ :: if e.payload = [] then [] else [⟨e.type.number, .bytes e.payload⟩]

def MinerEvent.encode (e : MinerEvent) : List UInt8 := e.fields.flatMap Wire.Field.encode

/-- The threads that number their events. -/
inductive Numberer
  | ping | share
  deriving DecidableEq, Repr

def Numberer.type : Numberer → MinerEventType
  | ping => .ping
  | share => .share

/-- The first stream of a connection registers the miner, the second one mines. -/
def miningStreamId : UInt32 := 3

structure Session where
  /-- `miner_event_seq_` -/
  minerEventSeq : UInt64 := 1
  /-- how many mining streams were opened so far, over all connections -/
  streams : ℕ := 0
  /-- the mining stream that `client_` has open -/
  stream : Option ℕ := none
  /-- `start_mining_stream` has set the stream and not yet sent the `AuthEvent` -/
  starting : Bool := false
  /-- the event that a thread has numbered and not yet sent -/
  pending : Numberer → Option MinerEvent := fun _ => none

/-- What was written to which stream. -/
structure Wrote where
  stream : ℕ
  frame : Frame
  deriving DecidableEq, Repr

/-- `ok` says that `client_` exists and is connected and the write succeeds. -/
inductive SessionInput
  | openStream
  | auth (payload : List UInt8) (ok : Bool)
  | closeStream
  | number (t : Numberer) (payload : List UInt8)
  | send (t : Numberer) (ok : Bool)
  | heartbeat (payload : List UInt8) (ok : Bool)
  deriving DecidableEq, Repr

namespace Session

/-- `send_event` -/
def sendEvent (s : Session) (e : MinerEvent) : Except String Frame :=
  if s.stream = none then .error "mining stream not started"
  else sendDataMessage miningStreamId e.encode false

def written (s : Session) (e : MinerEvent) (ok : Bool) : List Wrote :=
  match s.stream, s.sendEvent e with
  | some k, .ok f => if ok then [⟨k, f⟩] else []
  | _, _ => []

def setPending (s : Session) (t : Numberer) (e : Option MinerEvent) : Session :=
  { s with pending := Function.update s.pending t e }

def step (s : Session) : SessionInput → Option (Session × List Wrote)
  -- `start_mining_stream` on a fresh client, up to `stream_id_ = sid`
  | .openStream =>
      if s.stream = none then
        some ({ s with streams := s.streams + 1, stream := some s.streams, starting := true }, [])
      else none
  | .auth payload ok =>
      if s.starting then some ({ s with starting := false }, s.written ⟨1, .auth, payload⟩ ok)
      else none
  -- `reset_pool_session`
  | .closeStream => if s.starting then none else some ({ s with stream := none }, [])
  | .number t payload =>
      if s.pending t = none then
        let s := { s with minerEventSeq := s.minerEventSeq + 1 }
        some (s.setPending t (some ⟨s.minerEventSeq, t.type, payload⟩), [])
      else none
  | .send t ok =>
      match s.pending t with
      | none => none
      | some e => some (s.setPending t none, s.written e ok)
  -- `send_heartbeat` leaves `seq` at its default
  | .heartbeat payload ok => some (s, s.written { type := .heartbeat, payload } ok)

end Session

def session : Machine Session SessionInput Wrote := ⟨Session.step⟩

/-- The number of the event in a DATA frame, as the pool reads it. -/
def readSeq (f : Frame) : Option UInt64 :=
  match Wire.fields (f.payload.drop 5) with
  | .ok (⟨1, .varint v⟩ :: _) => some v
  | _ => none

/-- The numbers on a stream, in the order of writing. -/
def seqs (k : ℕ) (tr : List Wrote) : List UInt64 :=
  (tr.filter (·.stream = k)).filterMap fun w => readSeq w.frame

/-- On each stream the numbers grow. -/
def Increasing (tr : List Wrote) : Prop := ∀ k, (seqs k tr).Pairwise (· < ·)

def isOrderly (s : Session) : SessionInput → Bool
  | .number _ _ =>
      (s.pending .ping).isNone && (s.pending .share).isNone &&
        s.minerEventSeq != UInt64.ofNat (2 ^ 64 - 1)
  | .send _ ok => !(ok && s.starting)
  | .heartbeat _ ok => !(ok && s.stream.isSome)
  | _ => true

/-- An event is numbered only while no other waits to be sent and the counter does not wrap,
nothing is sent before the event that opens the stream, and no heartbeat is sent. -/
def orderly (s : Session) (a : SessionInput) : Prop := isOrderly s a = true

instance (s : Session) (a : SessionInput) : Decidable (orderly s a) :=
  inferInstanceAs (Decidable (isOrderly s a = true))

/-! ### Numbers on the wire -/

section Numbers

variable {s : Session} {e : MinerEvent} {f : Frame} {k : ℕ} {ok : Bool} {tr es : List Wrote}

@[simp] theorem seqs_append : seqs k (tr ++ es) = seqs k tr ++ seqs k es := by
  simp [seqs]

/-- The number of an event that was sent can be read off its frame. -/
theorem readSeq_of_sendEvent (h : s.sendEvent e = .ok f) : readSeq f = some e.seq := by
  unfold Session.sendEvent at h
  split_ifs at h
  obtain ⟨hlength, -, -, hpayload⟩ := sendDataMessage_ok h
  have hdrop : f.payload.drop 5 = e.encode := by
    rw [hpayload]
    rfl
  have hfields : Wire.fields e.encode = .ok e.fields :=
    Wire.fields_encode (Nat.lt_of_le_of_lt hlength (by norm_num))
  rw [readSeq, hdrop, hfields]
  rfl

/-- A write adds its number to the open stream, or nothing. -/
theorem seqs_written (k : ℕ) : seqs k (s.written e ok) = [] ∨
    s.stream = some k ∧ ok = true ∧ seqs k (s.written e ok) = [e.seq] := by
  unfold Session.written
  split
  · rename_i j f hstream hsend
    split_ifs with hok
    · by_cases hk : j = k
      · subst hk
        exact .inr ⟨hstream, hok, by simp [seqs, readSeq_of_sendEvent hsend]⟩
      · exact .inl (by simp [seqs, hk])
    · exact .inl rfl
  · exact .inl rfl

theorem mem_seqs_written {n : UInt64} (hn : n ∈ seqs k (tr ++ s.written e ok)) :
    n ∈ seqs k tr ∨ n = e.seq := by
  rw [seqs_append, List.mem_append] at hn
  refine hn.imp_right fun hnew => ?_
  rcases @seqs_written s e ok k with hnil | ⟨-, -, hone⟩
  · rw [hnil] at hnew
    cases hnew
  · rwa [hone, List.mem_singleton] at hnew

end Numbers

/-! ### Steps -/

section Steps

variable {s s' : Session} {e : MinerEvent} {t : Numberer} {ok : Bool} {tr es : List Wrote}
  {payload : List UInt8}

/-- The invariant of orderly runs: what waits to be sent has a number above all that was
written, and the stream that is being opened is still empty. -/
structure Ordered (tr : List Wrote) (s : Session) : Prop where
  increasing : Increasing tr
  counter : 1 ≤ s.minerEventSeq
  bounded : ∀ k, ∀ n ∈ seqs k tr, n ≤ s.minerEventSeq
  waiting : ∀ t e, s.pending t = some e →
    1 < e.seq ∧ e.seq ≤ s.minerEventSeq ∧ ∀ k, ∀ n ∈ seqs k tr, n < e.seq
  single : ∀ t u, s.pending t ≠ none → s.pending u ≠ none → t = u
  fresh : ∀ k, s.streams ≤ k → seqs k tr = []
  opened : ∀ k, s.stream = some k → k < s.streams
  starting : s.starting = true → ∀ k, s.stream = some k → seqs k tr = []

/-- A write keeps the order if its number is above those on the stream and below those
that wait. -/
theorem Ordered.write (h : Ordered tr s)
    (habove : ∀ k, s.stream = some k → ∀ n ∈ seqs k tr, n < e.seq)
    (hbound : e.seq ≤ s.minerEventSeq)
    (hwaiting : ∀ t e', s.pending t = some e' → e.seq < e'.seq)
    (hstarting : ok = true → s.starting = false) : Ordered (tr ++ s.written e ok) s where
  increasing k := by
    rw [seqs_append]
    rcases @seqs_written s e ok k with hnil | ⟨hstream, -, hone⟩
    · rw [hnil, List.append_nil]
      exact h.increasing k
    · rw [hone, List.pairwise_append]
      refine ⟨h.increasing k, List.pairwise_singleton _ _, ?_⟩
      intro n hn m hm
      rw [List.mem_singleton.mp hm]
      exact habove k hstream n hn
  counter := h.counter
  bounded k n hn := by
    rcases mem_seqs_written hn with hn | rfl
    · exact h.bounded k n hn
    · exact hbound
  waiting t e' hpending := by
    obtain ⟨hone, hle, hlt⟩ := h.waiting t e' hpending
    refine ⟨hone, hle, fun k n hn => ?_⟩
    rcases mem_seqs_written hn with hn | rfl
    · exact hlt k n hn
    · exact hwaiting t e' hpending
  single := h.single
  fresh k hk := by
    rcases @seqs_written s e ok k with hnil | ⟨hstream, -, -⟩
    · rw [seqs_append, h.fresh k hk, hnil, List.append_nil]
    · exact absurd (h.opened k hstream) (Nat.not_lt.mpr hk)
  opened := h.opened
  starting hstart k hstream := by
    rcases @seqs_written s e ok k with hnil | ⟨-, hok, -⟩
    · rw [seqs_append, h.starting hstart k hstream, hnil, List.append_nil]
    · rw [hstarting hok] at hstart
      cases hstart

/-- The number of the opening event is below all others, and its stream is empty. -/
theorem ordered_auth (h : Ordered tr s) (hstarting : s.starting = true) :
    Ordered (tr ++ s.written ⟨1, .auth, payload⟩ ok) { s with starting := false } := by
  have hempty := h.starting hstarting
  have h' : Ordered tr { s with starting := false } := { h with starting := nofun }
  refine h'.write ?_ h.counter (fun t e hpending => (h.waiting t e hpending).1) fun _ => rfl
  intro k hstream n hn
  rw [hempty k hstream] at hn
  cases hn

theorem ordered_openStream (h : Ordered tr s) :
    Ordered tr { s with streams := s.streams + 1, stream := some s.streams, starting := true } :=
  { h with
    fresh := fun k hk => h.fresh k (Nat.le_of_succ_le hk)
    opened := by
      intro k hk
      obtain rfl := Option.some.inj hk
      exact Nat.lt_succ_self _
    starting := by
      intro _ k hk
      obtain rfl := Option.some.inj hk
      exact h.fresh _ (Nat.le_refl _) }

theorem lt_succ_of_ne_max {n : UInt64} (hmax : n ≠ UInt64.ofNat (2 ^ 64 - 1)) : n < n + 1 := by
  have hn := n.toNat_lt
  have hne : n.toNat ≠ 2 ^ 64 - 1 := by
    intro h
    exact hmax (by rw [← h, UInt64.ofNat_toNat])
  rw [UInt64.lt_iff_toNat_lt, UInt64.toNat_add, UInt64.toNat_one]
  omega

theorem pending_setPending_self (s : Session) (t : Numberer) (e : Option MinerEvent) :
    (s.setPending t e).pending t = e := by
  simp [Session.setPending]

theorem pending_setPending_of_ne {u : Numberer} (hu : u ≠ t) (s : Session)
    (e : Option MinerEvent) : (s.setPending t e).pending u = s.pending u := by
  simp [Session.setPending, Function.update_of_ne hu]

theorem single_setPending {u v : Numberer} {e : Option MinerEvent} (hnone : ∀ u, s.pending u = none)
    (hu : (s.setPending t e).pending u ≠ none) (hv : (s.setPending t e).pending v ≠ none) :
    u = v := by
  have honly : ∀ w, (s.setPending t e).pending w ≠ none → w = t := by
    intro w hw
    by_contra hne
    exact hw ((pending_setPending_of_ne hne s e).trans (hnone w))
  rw [honly u hu, honly v hv]

/-- A new number is above all that were written, and nothing else waits. -/
theorem ordered_number (h : Ordered tr s) (hguard : orderly s (.number t payload))
    (hstep : s.step (.number t payload) = some (s', es)) : Ordered (tr ++ es) s' := by
  simp only [orderly, isOrderly, Bool.and_eq_true, Option.isNone_iff_eq_none, bne_iff_ne,
    ne_eq] at hguard
  obtain ⟨⟨hping, hshare⟩, hmax⟩ := hguard
  have hnone : ∀ u, s.pending u = none := by
    intro u
    cases u
    · exact hping
    · exact hshare
  have hlt := lt_succ_of_ne_max hmax
  simp only [Session.step, hnone t, if_true, Option.some.injEq, Prod.mk.injEq] at hstep
  obtain ⟨rfl, rfl⟩ := hstep
  rw [List.append_nil]
  exact {
    increasing := h.increasing
    counter := UInt64.le_trans h.counter (UInt64.le_of_lt hlt)
    bounded := fun k n hn => UInt64.le_trans (h.bounded k n hn) (UInt64.le_of_lt hlt)
    waiting := by
      intro u e hpending
      by_cases hu : u = t
      · subst hu
        rw [pending_setPending_self] at hpending
        obtain rfl := Option.some.inj hpending
        exact ⟨UInt64.lt_of_le_of_lt h.counter hlt, UInt64.le_refl _,
          fun k n hn => UInt64.lt_of_le_of_lt (h.bounded k n hn) hlt⟩
      · rw [pending_setPending_of_ne hu] at hpending
        cases (hnone u).symm.trans hpending
    single := fun u v => single_setPending hnone
    fresh := h.fresh
    opened := h.opened
    starting := h.starting }

theorem ordered_send (h : Ordered tr s) (hguard : orderly s (.send t ok))
    (hstep : s.step (.send t ok) = some (s', es)) : Ordered (tr ++ es) s' := by
  cases hpending : s.pending t with
  | none => simp [Session.step, hpending] at hstep
  | some e =>
    simp only [Session.step, hpending, Option.some.injEq, Prod.mk.injEq] at hstep
    obtain ⟨rfl, rfl⟩ := hstep
    obtain ⟨-, hle, hlt⟩ := h.waiting t e hpending
    have hothers : ∀ u, (s.setPending t none).pending u = none := by
      intro u
      by_cases hu : u = t
      · rw [hu, pending_setPending_self]
      · rw [pending_setPending_of_ne hu]
        by_contra hne
        exact hu (h.single u t hne (by simp [hpending]))
    have h' : Ordered tr (s.setPending t none) :=
      { h with
        waiting := fun u e hu => by cases (hothers u).symm.trans hu
        single := fun u v hu => absurd (hothers u) hu }
    refine h'.write (fun k _ => hlt k) hle ?_ ?_
    · intro u e' hu
      cases (hothers u).symm.trans hu
    · intro hok
      change s.starting = false
      simpa [orderly, isOrderly, hok] using hguard

/-- The heartbeats of orderly runs are not written. -/
theorem written_heartbeat (hguard : orderly s (.heartbeat payload ok)) :
    s.written { type := .heartbeat, payload } ok = [] := by
  unfold Session.written
  split
  · rename_i hstream _
    simp only [orderly, isOrderly, hstream] at hguard
    simp only [Option.isSome_some, Bool.and_true, Bool.not_eq_true'] at hguard
    simp [hguard]
  · rfl

theorem ordered_step {a : SessionInput} (h : Ordered tr s) (hguard : orderly s a)
    (hstep : s.step a = some (s', es)) : Ordered (tr ++ es) s' := by
  cases a with
  | openStream =>
    simp only [Session.step] at hstep
    split_ifs at hstep
    obtain ⟨rfl, rfl⟩ := Prod.mk.inj (Option.some.inj hstep)
    rw [List.append_nil]
    exact ordered_openStream h
  | auth payload ok =>
    simp only [Session.step] at hstep
    split_ifs at hstep with hstarting
    obtain ⟨rfl, rfl⟩ := Prod.mk.inj (Option.some.inj hstep)
    exact ordered_auth h hstarting
  | closeStream =>
    simp only [Session.step] at hstep
    split_ifs at hstep
    obtain ⟨rfl, rfl⟩ := Prod.mk.inj (Option.some.inj hstep)
    rw [List.append_nil]
    exact { h with opened := nofun, starting := nofun }
  | number t payload => exact ordered_number h hguard hstep
  | send t ok => exact ordered_send h hguard hstep
  | heartbeat payload ok =>
    obtain ⟨rfl, rfl⟩ := Prod.mk.inj (Option.some.inj hstep)
    rw [written_heartbeat hguard, List.append_nil]
    exact h

end Steps

/-- In orderly runs the numbers on each stream grow. -/
theorem increasing_of_orderly {tr : List Wrote} {s : Session}
    (hrun : session.Run orderly {} tr s) : Increasing tr := by
  have hinit : Ordered [] {} :=
    ⟨fun _ => .nil, by decide, nofun, nofun, nofun, fun _ _ => rfl, nofun, nofun⟩
  have hordered : Ordered tr s :=
    hrun.invariant hinit fun _ _ _ _ _ => ordered_step
  exact hordered.increasing

/-! ### Four runs -/

section Samples

/-- A stream, a share, a second stream and a ping. -/
def reconnectRun : List SessionInput :=
  [.openStream, .auth [1] true, .number .share [2], .send .share true, .closeStream,
    .openStream, .auth [1] true, .number .ping [3], .send .ping true]

theorem increasing_reconnectRun :
    ∃ s tr, session.Run orderly {} tr s ∧ seqs 0 tr = [1, 2] ∧ seqs 1 tr = [1, 3] ∧
      Increasing tr := by
  have hexec : (session.exec orderly reconnectRun {}).any
      (fun r => decide (seqs 0 r.2 = [1, 2] ∧ seqs 1 r.2 = [1, 3])) = true := by
    decide +kernel
  obtain ⟨s, tr, hrun, hseqs⟩ := Machine.exists_run_of_exec hexec
  obtain ⟨hfirst, hsecond⟩ := of_decide_eq_true hseqs
  exact ⟨s, tr, hrun, hfirst, hsecond, increasing_of_orderly hrun⟩

/-- A heartbeat comes after the opening event, with number 0. -/
def heartbeatRun : List SessionInput :=
  [.openStream, .auth [1] true, .heartbeat [2] true]

/-- A ping is numbered first and sent last. -/
def overtakenRun : List SessionInput :=
  [.openStream, .auth [1] true, .number .ping [2], .number .share [3], .send .share true,
    .send .ping true]

/-- A ping is sent on a stream whose opening event is still to come. -/
def earlyRun : List SessionInput :=
  [.openStream, .number .ping [2], .send .ping true, .auth [1] true]

/-- A computed run with numbers on its first stream that do not grow. -/
theorem not_increasing_of_exec {inputs : List SessionInput}
    (h : (session.exec Machine.anyStep inputs {}).any
      (fun r => !decide ((seqs 0 r.2).Pairwise (· < ·))) = true) :
    ∃ r, session.exec Machine.anyStep inputs {} = some r ∧
      session.Run Machine.anyStep {} r.2 r.1 ∧ ¬ Increasing r.2 := by
  obtain ⟨r, hr, hseqs⟩ := (Option.any_eq_true _ _).mp h
  refine ⟨r, hr, Machine.run_of_exec hr, fun hincreasing => ?_⟩
  rw [decide_eq_true (hincreasing 0)] at hseqs
  cases hseqs

theorem increasing_fails :
    (∃ r, session.exec Machine.anyStep heartbeatRun {} = some r ∧
      session.Run Machine.anyStep {} r.2 r.1 ∧ ¬ Increasing r.2) ∧
    (∃ r, session.exec Machine.anyStep overtakenRun {} = some r ∧
      session.Run Machine.anyStep {} r.2 r.1 ∧ ¬ Increasing r.2) ∧
    ∃ r, session.exec Machine.anyStep earlyRun {} = some r ∧
      session.Run Machine.anyStep {} r.2 r.1 ∧ ¬ Increasing r.2 :=
  ⟨not_increasing_of_exec (by decide +kernel), not_increasing_of_exec (by decide +kernel),
    not_increasing_of_exec (by decide +kernel)⟩

end Samples

end PropMiner.Grpc
