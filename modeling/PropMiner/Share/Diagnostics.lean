/-!
# Share diagnostics

The reasons for which the miner gives up a share and those for which the pool rejects
one, as `share_diagnostics.h` lists them.
-/

set_option autoImplicit false

namespace PropMiner.Share

/-- `ShareDropKind`. -/
inductive ShareDropKind
  | missingSigmaContext
  | verifyFailed
  | vardiffTightened
  | noJobId
  | buildFailed
  | sendFailed
  | supersededJob
  | poolAckTimeout
  | connectionLost
  deriving DecidableEq, Repr

/-- `ShareRejectKind`. -/
inductive ShareRejectKind
  | invalidShare
  | duplicateShare
  | jobNotFound
  | lowDifficulty
  | unauthorized
  | other
  deriving DecidableEq, Repr

end PropMiner.Share
