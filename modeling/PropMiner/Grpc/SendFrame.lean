import PropMiner.Grpc.Http2
import PropMiner.Semantics.Machine
import Mathlib.Data.List.Permutation

/-!
# Five threads on one connection

`send_frame` writes a frame in two calls of `write_exact`, the header and then the payload,
and nothing keeps another thread from writing in between: the keepalive thread sends PING,
the ping, heartbeat and share threads send DATA, and the network thread answers SETTINGS
and PING and opens streams. A call that fails may leave a part of what it had to write.

## Main definitions

* `Connection`, `Connection.step`, `connection` — the writes of all threads as a machine
* `Intact` — what was written are whole frames, and each frame reported sent is one of them
* `exclusive` — no write falls between the header and the payload of another frame

## Main results

* `intact_of_exclusive` — runs of such steps leave the connection intact
* `intact_fails` — a PING between header and payload of a DATA frame does not
-/

set_option autoImplicit false

namespace PropMiner.Grpc

open PropMiner.Semantics (Machine)

/-- The threads that call `send_frame`. -/
inductive Caller
  | keepalive | ping | heartbeat | shareSender | network
  deriving DecidableEq, Repr

def Caller.all : List Caller := [.keepalive, .ping, .heartbeat, .shareSender, .network]

theorem Caller.mem_all (t : Caller) : t ∈ Caller.all := by
  cases t <;> decide

/-- How `write_exact` ends: all is written, or it returns `false` with this much written. -/
inductive Written
  | all
  | failed (sent : ℕ)
  deriving DecidableEq, Repr

/-- What a write leaves on the connection. -/
def Written.of (bs : List UInt8) : Written → List UInt8
  | .all => bs
  | .failed sent => bs.take sent

structure Connection where
  /-- all that was written so far -/
  wire : List UInt8 := []
  /-- the frame of each thread whose header is written and whose payload is not -/
  begun : Caller → Option Frame := fun _ => none

inductive SendInput
  /-- a call of `send_frame`, up to the write of the header -/
  | header (t : Caller) (f : Frame) (w : Written)
  | payload (t : Caller) (w : Written)
  deriving DecidableEq, Repr

/-- What `send_frame` returns. -/
structure Returned where
  frame : Frame
  ok : Bool
  deriving DecidableEq, Repr

namespace Connection

def setBegun (s : Connection) (t : Caller) (f : Option Frame) : Connection :=
  { s with begun := Function.update s.begun t f }

def write (s : Connection) (bs : List UInt8) : Connection := { s with wire := s.wire ++ bs }

/-- One call of `write_exact`. A frame without a payload is done with its header. -/
def step (s : Connection) : SendInput → Option (Connection × List Returned)
  | .header t f w =>
      if s.begun t = none then
        let s := s.write (w.of f.header)
        match w with
        | .failed _ => some (s, [⟨f, false⟩])
        | .all =>
            if f.payload = [] then some (s, [⟨f, true⟩]) else some (s.setBegun t (some f), [])
      else none
  | .payload t w =>
      match s.begun t with
      | none => none
      | some f => some ((s.write (w.of f.payload)).setBegun t none, [⟨f, w == .all⟩])

/-- No call of `send_frame` is under way. -/
def AtRest (s : Connection) : Prop := ∀ t, s.begun t = none

end Connection

def connection : Machine Connection SendInput Returned := ⟨Connection.step⟩

/-- The frames that were reported sent, in the order of the reports. -/
def reported (tr : List Returned) : List Frame := (tr.filter Returned.ok).map Returned.frame

/-- What was written are whole frames, those that were reported sent and no others, up to
the header of a frame under way. -/
structure Intact (tr : List Returned) (s : Connection) : Prop where
  rest : s.AtRest → ∃ fs : List Frame, fs.Perm (reported tr) ∧ s.wire = fs.flatMap Frame.bytes
  busy : ∀ t f, s.begun t = some f →
    ∃ fs : List Frame, fs.Perm (reported tr) ∧ s.wire = fs.flatMap Frame.bytes ++ f.header

def isExclusive (s : Connection) : SendInput → Bool
  | .header _ _ w =>
      Caller.all.all (fun t => (s.begun t).isNone) && (w == .all || w == .failed 0)
  | .payload _ w => w == .all

/-- A frame is begun while no other is under way, and a write that fails has written
nothing of a frame. -/
def exclusive (s : Connection) (a : SendInput) : Prop := isExclusive s a = true

instance (s : Connection) (a : SendInput) : Decidable (exclusive s a) :=
  inferInstanceAs (Decidable (isExclusive s a = true))

/-! ### Steps -/

section Steps

variable {s s' : Connection} {t : Caller} {f : Frame} {w : Written} {tr es : List Returned}

theorem atRest_of_all (h : Caller.all.all (fun t => (s.begun t).isNone) = true) : s.AtRest := by
  intro t
  exact Option.isNone_iff_eq_none.mp (List.all_eq_true.mp h t t.mem_all)

@[simp] theorem reported_append (tr es : List Returned) :
    reported (tr ++ es) = reported tr ++ reported es := by
  simp [reported]

theorem bytes_of_payload_nil (h : f.payload = []) : f.bytes = f.header := by
  rw [Frame.bytes, h, List.append_nil]

/-- The frames reported sent are on the wire in the order of the reports, followed by the
header of the one frame under way. -/
structure Orderly (tr : List Returned) (s : Connection) : Prop where
  rest : s.AtRest → s.wire = (reported tr).flatMap Frame.bytes
  busy : ∀ t f, s.begun t = some f →
    s.wire = (reported tr).flatMap Frame.bytes ++ f.header ∧ ∀ u, u ≠ t → s.begun u = none

theorem Orderly.intact (h : Orderly tr s) : Intact tr s where
  rest hrest := ⟨_, .refl _, h.rest hrest⟩
  busy t f hbusy := ⟨_, .refl _, (h.busy t f hbusy).1⟩

theorem orderly_of_atRest (hrest : s.AtRest) (hwire : s.wire = (reported tr).flatMap Frame.bytes) :
    Orderly tr s where
  rest _ := hwire
  busy t f hbusy := by
    rw [hrest t] at hbusy
    cases hbusy

theorem orderly_header (h : Orderly tr s) (hguard : exclusive s (.header t f w))
    (hstep : s.step (.header t f w) = some (s', es)) : Orderly (tr ++ es) s' := by
  obtain ⟨hall, hw⟩ := Bool.and_eq_true_iff.mp hguard
  have hrest := atRest_of_all hall
  have hwire := h.rest hrest
  simp only [Connection.step, hrest t, if_true] at hstep
  cases w with
  | failed sent =>
    obtain rfl : sent = 0 := by simpa using hw
    obtain ⟨rfl, rfl⟩ := Prod.mk.inj (Option.some.inj hstep)
    refine orderly_of_atRest hrest ?_
    simp [Connection.write, Written.of, hwire, reported]
  | all =>
    split_ifs at hstep with hpayload
    · obtain ⟨rfl, rfl⟩ := Prod.mk.inj (Option.some.inj hstep)
      refine orderly_of_atRest hrest ?_
      simp [Connection.write, Written.of, hwire, reported, bytes_of_payload_nil hpayload]
    · obtain ⟨rfl, rfl⟩ := Prod.mk.inj (Option.some.inj hstep)
      rw [List.append_nil]
      refine ⟨fun hrest' => ?_, fun u g hbusy => ?_⟩
      · have ht := hrest' t
        simp [Connection.setBegun] at ht
      · -- only the caller itself is under way
        by_cases hu : u = t
        · subst hu
          obtain rfl : f = g := by simpa [Connection.setBegun] using hbusy
          refine ⟨by simp [Connection.setBegun, Connection.write, Written.of, hwire], ?_⟩
          intro v hv
          simpa [Connection.setBegun, Connection.write, Function.update_of_ne hv] using hrest v
        · have hnone := hrest u
          simp [Connection.setBegun, Connection.write, Function.update_of_ne hu, hnone] at hbusy

theorem orderly_payload (h : Orderly tr s) (hguard : exclusive s (.payload t w))
    (hstep : s.step (.payload t w) = some (s', es)) : Orderly (tr ++ es) s' := by
  obtain rfl : w = .all := by simpa [exclusive, isExclusive] using hguard
  cases hbegun : s.begun t with
  | none => simp [Connection.step, hbegun] at hstep
  | some f =>
    simp only [Connection.step, hbegun, Option.some.injEq, Prod.mk.injEq] at hstep
    obtain ⟨rfl, rfl⟩ := hstep
    obtain ⟨hwire, hothers⟩ := h.busy t f hbegun
    refine orderly_of_atRest (fun u => ?_) ?_
    · by_cases hu : u = t
      · subst hu
        simp [Connection.setBegun]
      · simpa [Connection.setBegun, Connection.write, Function.update_of_ne hu] using hothers u hu
    · simp [Connection.setBegun, Connection.write, Written.of, hwire, reported, Frame.bytes]

end Steps

/-- As long as no write falls between header and payload of another frame, the connection
carries whole frames, each one that was reported sent exactly once. -/
theorem intact_of_exclusive {tr : List Returned} {s : Connection}
    (hrun : connection.Run exclusive {} tr s) : Intact tr s := by
  have hinit : Orderly [] {} := orderly_of_atRest (fun _ => rfl) rfl
  have horderly : Orderly tr s := by
    refine hrun.invariant hinit ?_
    intro tr s a s' es h hguard hstep
    cases a with
    | header t f w => exact orderly_header h hguard hstep
    | payload t w => exact orderly_payload h hguard hstep
  exact horderly.intact

/-! ### Two frames, one after the other and one inside the other -/

section Samples

/-- The PING of the keepalive thread. -/
def keepalivePing : Frame := ⟨FRAME_PING, 0, 0, List.replicate 8 0⟩

/-- A DATA frame of the share sender. -/
def sampleData : Frame := ⟨FRAME_DATA, 0, 3, grpcMessage [7]⟩

theorem intact_sequence :
    ∃ tr s, connection.Run exclusive {} tr s ∧ reported tr = [sampleData, keepalivePing] ∧
      Intact tr s := by
  have hexec : (connection.exec exclusive
      [.header .shareSender sampleData .all, .payload .shareSender .all,
        .header .keepalive keepalivePing .all, .payload .keepalive .all] {}).any
      (fun r => decide (reported r.2 = [sampleData, keepalivePing])) = true := by
    decide +kernel
  obtain ⟨s, tr, hrun, hreported⟩ := Machine.exists_run_of_exec hexec
  exact ⟨tr, s, hrun, of_decide_eq_true hreported, intact_of_exclusive hrun⟩

/-- The keepalive thread writes its PING after the header of a DATA frame. Both frames are
reported sent, and the connection carries them in neither order. -/
theorem intact_fails :
    ∃ tr s, connection.Run Machine.anyStep {} tr s ∧ s.AtRest ∧
      reported tr = [keepalivePing, sampleData] ∧ ¬ Intact tr s := by
  have hexec : (connection.exec Machine.anyStep
      [.header .shareSender sampleData .all, .header .keepalive keepalivePing .all,
        .payload .keepalive .all, .payload .shareSender .all] {}).any
      (fun r => Caller.all.all (fun t => (r.1.begun t).isNone) &&
        decide (reported r.2 = [keepalivePing, sampleData] ∧
          r.1.wire ≠ [keepalivePing, sampleData].flatMap Frame.bytes ∧
          r.1.wire ≠ [sampleData, keepalivePing].flatMap Frame.bytes)) = true := by
    decide +kernel
  obtain ⟨s, tr, hrun, hresult⟩ := Machine.exists_run_of_exec hexec
  obtain ⟨hrest, hwire⟩ := Bool.and_eq_true_iff.mp hresult
  obtain ⟨hreported, hfirst, hsecond⟩ := of_decide_eq_true hwire
  refine ⟨tr, s, hrun, atRest_of_all hrest, hreported, fun hintact => ?_⟩
  obtain ⟨fs, hperm, hfs⟩ := hintact.rest (atRest_of_all hrest)
  rw [hreported, List.perm_pair] at hperm
  rcases hperm with rfl | rfl
  · exact hfirst hfs
  · exact hsecond hfs

end Samples

end PropMiner.Grpc
