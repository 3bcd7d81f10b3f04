import PropMiner.Proto.Reader

/-!
# Message decoders

The `decode` members of `proto/mining_v2.cpp`. Every one is the same loop,
`while (r.next(f)) switch (f.field)`, over its own message; `decodeLoop` is that
loop and each message gives its `switch`. `PoolEvent` and `RegisterRequest` call
another decoder from inside the loop, on the slice `(f.data, f.len)`.

The loops of the source have no bound. Here `fuel` bounds the calls of `next` in
every loop, and `none` says that some loop wanted more: a decoder that answers
`none` for every fuel does not return.

Byte strings are lists of bytes, fixed arrays are vectors, and a `double` is its
64-bit pattern.
-/

set_option autoImplicit false

namespace PropMiner.Proto

open PropMiner.Wire (ReadError)

/-- `ProtoReader(data, len)`. -/
def ProtoReader.make (data len : UInt64) : ProtoReader := ⟨data, data + len⟩

/-- `while (r.next(f)) body`, with at most `fuel` calls of `next`. -/
def decodeLoop {β : Type*} (mem : Memory)
    (body : β → WireField → Option (Except ReadError β)) :
    ℕ → ProtoReader → β → Option (Except ReadError β)
  | 0, _, _ => none
  | fuel + 1, r, msg =>
      match ProtoReader.next mem r with
      | .error e => some (.error e)
      | .ok (none, _) => some (.ok msg)
      | .ok (some f, r) =>
          match body msg f with
          | none => none
          | some (.error e) => some (.error e)
          | some (.ok msg) => decodeLoop mem body fuel r msg

/-- The longest `std::string`. -/
def maxStringSize : ℕ := 2 ^ 63 - 1

/-- `s.assign(f.data, f.len)`. -/
def assign (mem : Memory) (f : WireField) : Except ReadError (List UInt8) :=
  if f.len.toNat ≤ maxStringSize then .ok (bytesAt mem f.data f.len.toNat)
  else .error .lengthError

/-- `memcpy(a.data(), f.data, n)` into a fixed array. -/
def copyArray (mem : Memory) (f : WireField) (n : ℕ) : Vector UInt8 n :=
  Vector.ofFn fun i : Fin n => mem (f.data + UInt64.ofNat i)

/-- `if (f.len == n) memcpy(a.data(), f.data, n)`. -/
def copyArrayIf (mem : Memory) (f : WireField) {n : ℕ} (old : Vector UInt8 n) : Vector UInt8 n :=
  if f.len.toNat = n then copyArray mem f n else old

/-- `if (f.len == sizeof(double)) memcpy(&d, f.data, sizeof(double))`. -/
def copyDoubleIf (mem : Memory) (f : WireField) (old : UInt64) : UInt64 :=
  if f.len = 8 then loadLE mem f.data 8 else old

/-- A `switch` whose branches neither loop nor fail. -/
def pureBody {β : Type*} (body : β → WireField → β) :
    β → WireField → Option (Except ReadError β) :=
  fun msg f => some (.ok (body msg f))

/-- A `switch` whose branches may fail. -/
def plainBody {β : Type*} (body : β → WireField → Except ReadError β) :
    β → WireField → Option (Except ReadError β) :=
  fun msg f => some (body msg f)

/-! ### Messages from the miner -/

structure GpuCard where
  uuid : List UInt8 := []
  model : List UInt8 := []
  index : UInt32 := 0
  hashrate : UInt64 := 0
  deriving DecidableEq, Repr

def GpuCard.field (mem : Memory) (msg : GpuCard) (f : WireField) : Except ReadError GpuCard :=
  match f.field.toNat with
  | 1 => return { msg with uuid := ← assign mem f }
  | 2 => return { msg with model := ← assign mem f }
  | 3 => return { msg with index := f.value.toUInt32 }
  | 4 => return { msg with hashrate := copyDoubleIf mem f msg.hashrate }
  | _ => return msg

def GpuCard.decode (mem : Memory) (fuel : ℕ) (data len : UInt64) (msg : GpuCard) :
    Option (Except ReadError GpuCard) :=
  decodeLoop mem (plainBody (GpuCard.field mem)) fuel (.make data len) msg

structure RegisterRequest where
  minerId : Vector UInt8 16 := Vector.replicate 16 0
  identityKey : List UInt8 := []
  walletAddress : List UInt8 := []
  workerName : List UInt8 := []
  gpuCards : List GpuCard := []
  claimedTotalHashrate : UInt64 := 0
  minerVersion : List UInt8 := []
  gitSha : List UInt8 := []
  protocolVersion : UInt32 := 2
  k : UInt32 := 128
  deriving DecidableEq, Repr

/-- Field 5 decodes one more card; the others are plain. -/
def RegisterRequest.field (mem : Memory) (fuel : ℕ) (msg : RegisterRequest) (f : WireField) :
    Option (Except ReadError RegisterRequest) :=
  match f.field.toNat with
  | 1 => some (.ok { msg with minerId := copyArrayIf mem f msg.minerId })
  | 2 => some ((assign mem f).map fun s => { msg with identityKey := s })
  | 3 => some ((assign mem f).map fun s => { msg with walletAddress := s })
  | 4 => some ((assign mem f).map fun s => { msg with workerName := s })
  | 5 => (GpuCard.decode mem fuel f.data f.len {}).map fun r =>
      r.map fun g => { msg with gpuCards := msg.gpuCards ++ [g] }
  | 6 => some (.ok { msg with
      claimedTotalHashrate := copyDoubleIf mem f msg.claimedTotalHashrate })
  | 7 => some ((assign mem f).map fun s => { msg with minerVersion := s })
  | 8 => some ((assign mem f).map fun s => { msg with gitSha := s })
  | 9 => some (.ok { msg with protocolVersion := f.value.toUInt32 })
  | 10 => some (.ok { msg with k := f.value.toUInt32 })
  | _ => some (.ok msg)

def RegisterRequest.decode (mem : Memory) (fuel : ℕ) (data len : UInt64)
    (msg : RegisterRequest) : Option (Except ReadError RegisterRequest) :=
  decodeLoop mem (RegisterRequest.field mem fuel) fuel (.make data len) msg

/-! ### Messages from the pool -/

structure RegisterResponse where
  success : Bool := false
  minerId : Vector UInt8 16 := Vector.replicate 16 0
  sessionToken : List UInt8 := []
  identityKey : List UInt8 := []
  initialDifficultyNbits : UInt32 := 0
  poolId : Vector UInt8 32 := Vector.replicate 32 0
  errorMessage : List UInt8 := []
  deriving DecidableEq, Repr

def RegisterResponse.field (mem : Memory) (msg : RegisterResponse) (f : WireField) :
    Except ReadError RegisterResponse :=
  match f.field.toNat with
  | 1 => return { msg with success := f.value ≠ 0 }
  | 2 => return { msg with minerId := copyArrayIf mem f msg.minerId }
  | 3 => return { msg with sessionToken := ← assign mem f }
  | 4 => return { msg with identityKey := ← assign mem f }
  | 5 => return { msg with initialDifficultyNbits := f.value.toUInt32 }
  | 6 => return { msg with poolId := copyArrayIf mem f msg.poolId }
  | 7 => return { msg with errorMessage := ← assign mem f }
  | _ => return msg

def RegisterResponse.decode (mem : Memory) (fuel : ℕ) (data len : UInt64)
    (msg : RegisterResponse) : Option (Except ReadError RegisterResponse) :=
  decodeLoop mem (plainBody (RegisterResponse.field mem)) fuel (.make data len) msg

/-- `kSigmaHeaderBytes`. -/
def kSigmaHeaderBytes : ℕ := 76

structure JobAssignment where
  jobId : Vector UInt8 16 := Vector.replicate 16 0
  sigma : Vector UInt8 kSigmaHeaderBytes := Vector.replicate _ 0
  targetNbits : UInt32 := 0
  networkTargetNbits : UInt32 := 0
  blockHeight : Int64 := 0
  protocolVersion : UInt32 := 2
  bSeed : Vector UInt8 32 := Vector.replicate 32 0
  auditK : UInt32 := 0
  deriving DecidableEq, Repr

/-- A 32-byte sigma is padded with zeros to the full header. -/
def JobAssignment.sigmaOf (mem : Memory) (f : WireField)
    (old : Vector UInt8 kSigmaHeaderBytes) : Vector UInt8 kSigmaHeaderBytes :=
  if f.len.toNat = kSigmaHeaderBytes then copyArray mem f kSigmaHeaderBytes
  else if f.len = 32 then
    Vector.ofFn fun i : Fin kSigmaHeaderBytes =>
      if i.val < 32 then mem (f.data + UInt64.ofNat i) else 0
  else old

def JobAssignment.field (mem : Memory) (msg : JobAssignment) (f : WireField) : JobAssignment :=
  match f.field.toNat with
  | 1 => { msg with jobId := copyArrayIf mem f msg.jobId }
  | 2 => { msg with sigma := JobAssignment.sigmaOf mem f msg.sigma }
  | 3 => { msg with targetNbits := f.value.toUInt32 }
  | 4 => { msg with networkTargetNbits := f.value.toUInt32 }
  | 5 => { msg with blockHeight := f.value.toInt64 }
  | 6 => { msg with protocolVersion := f.value.toUInt32 }
  | 7 => { msg with bSeed := copyArrayIf mem f msg.bSeed }
  | 8 => { msg with auditK := f.value.toUInt32 }
  | _ => msg

def JobAssignment.decode (mem : Memory) (fuel : ℕ) (data len : UInt64) (msg : JobAssignment) :
    Option (Except ReadError JobAssignment) :=
  decodeLoop mem (pureBody (JobAssignment.field mem)) fuel (.make data len) msg

structure ShareResult where
  computedHash : Vector UInt8 32 := Vector.replicate 32 0
  accepted : Bool := false
  outcome : List UInt8 := []
  message : List UInt8 := []
  isBlockFind : Bool := false
  deriving DecidableEq, Repr

def ShareResult.field (mem : Memory) (msg : ShareResult) (f : WireField) :
    Except ReadError ShareResult :=
  match f.field.toNat with
  | 1 => return { msg with computedHash := copyArrayIf mem f msg.computedHash }
  | 2 => return { msg with accepted := f.value ≠ 0 }
  | 3 => return { msg with outcome := ← assign mem f }
  | 4 => return { msg with message := ← assign mem f }
  | 5 => return { msg with isBlockFind := f.value ≠ 0 }
  | _ => return msg

def ShareResult.decode (mem : Memory) (fuel : ℕ) (data len : UInt64) (msg : ShareResult) :
    Option (Except ReadError ShareResult) :=
  decodeLoop mem (plainBody (ShareResult.field mem)) fuel (.make data len) msg

structure DifficultyAdjust where
  newTargetNbits : UInt32 := 0
  reason : List UInt8 := []
  measuredHashrate : UInt64 := 0
  deriving DecidableEq, Repr

def DifficultyAdjust.field (mem : Memory) (msg : DifficultyAdjust) (f : WireField) :
    Except ReadError DifficultyAdjust :=
  match f.field.toNat with
  | 1 => return { msg with newTargetNbits := f.value.toUInt32 }
  | 2 => return { msg with reason := ← assign mem f }
  | 3 => return { msg with measuredHashrate := f.value }
  | _ => return msg

def DifficultyAdjust.decode (mem : Memory) (fuel : ℕ) (data len : UInt64)
    (msg : DifficultyAdjust) : Option (Except ReadError DifficultyAdjust) :=
  decodeLoop mem (plainBody (DifficultyAdjust.field mem)) fuel (.make data len) msg

structure PongEvent where
  timestamp : Int64 := 0
  deriving DecidableEq, Repr

def PongEvent.field (msg : PongEvent) (f : WireField) : PongEvent :=
  if f.field = 1 then { msg with timestamp := f.value.toInt64 } else msg

def PongEvent.decode (mem : Memory) (fuel : ℕ) (data len : UInt64) (msg : PongEvent) :
    Option (Except ReadError PongEvent) :=
  decodeLoop mem (pureBody PongEvent.field) fuel (.make data len) msg

structure PoolError where
  code : List UInt8 := []
  message : List UInt8 := []
  fatal : Bool := false
  deriving DecidableEq, Repr

def PoolError.field (mem : Memory) (msg : PoolError) (f : WireField) :
    Except ReadError PoolError :=
  match f.field.toNat with
  | 1 => return { msg with code := ← assign mem f }
  | 2 => return { msg with message := ← assign mem f }
  | 3 => return { msg with fatal := f.value ≠ 0 }
  | _ => return msg

def PoolError.decode (mem : Memory) (fuel : ℕ) (data len : UInt64) (msg : PoolError) :
    Option (Except ReadError PoolError) :=
  decodeLoop mem (plainBody (PoolError.field mem)) fuel (.make data len) msg

structure ReconnectHint where
  waitSeconds : Int32 := 0
  reason : List UInt8 := []
  deriving DecidableEq, Repr

def ReconnectHint.field (mem : Memory) (msg : ReconnectHint) (f : WireField) :
    Except ReadError ReconnectHint :=
  match f.field.toNat with
  | 1 => return { msg with waitSeconds := f.value.toUInt32.toInt32 }
  | 2 => return { msg with reason := ← assign mem f }
  | _ => return msg

def ReconnectHint.decode (mem : Memory) (fuel : ℕ) (data len : UInt64) (msg : ReconnectHint) :
    Option (Except ReadError ReconnectHint) :=
  decodeLoop mem (plainBody (ReconnectHint.field mem)) fuel (.make data len) msg

inductive PoolEventType
  | none | job | shareResult | vardiff | pong | error | reconnect
  deriving DecidableEq, Repr

structure PoolEvent where
  seq : UInt64 := 0
  type : PoolEventType := .none
  job : JobAssignment := {}
  shareResult : ShareResult := {}
  vardiff : DifficultyAdjust := {}
  pong : PongEvent := {}
  error : PoolError := {}
  reconnect : ReconnectHint := {}
  deriving DecidableEq, Repr

/-- Fields 2 to 7 set the type and decode their slice into the matching member. -/
def PoolEvent.field (mem : Memory) (fuel : ℕ) (msg : PoolEvent) (f : WireField) :
    Option (Except ReadError PoolEvent) :=
  match f.field.toNat with
  | 1 => some (.ok { msg with seq := f.value })
  | 2 => (JobAssignment.decode mem fuel f.data f.len msg.job).map fun r =>
      r.map fun m => { msg with type := .job, job := m }
  | 3 => (ShareResult.decode mem fuel f.data f.len msg.shareResult).map fun r =>
      r.map fun m => { msg with type := .shareResult, shareResult := m }
  | 4 => (DifficultyAdjust.decode mem fuel f.data f.len msg.vardiff).map fun r =>
      r.map fun m => { msg with type := .vardiff, vardiff := m }
  | 5 => (PongEvent.decode mem fuel f.data f.len msg.pong).map fun r =>
      r.map fun m => { msg with type := .pong, pong := m }
  | 6 => (PoolError.decode mem fuel f.data f.len msg.error).map fun r =>
      r.map fun m => { msg with type := .error, error := m }
  | 7 => (ReconnectHint.decode mem fuel f.data f.len msg.reconnect).map fun r =>
      r.map fun m => { msg with type := .reconnect, reconnect := m }
  | _ => some (.ok msg)

def PoolEvent.decode (mem : Memory) (fuel : ℕ) (data len : UInt64) (msg : PoolEvent) :
    Option (Except ReadError PoolEvent) :=
  decodeLoop mem (PoolEvent.field mem fuel) fuel (.make data len) msg

end PropMiner.Proto
