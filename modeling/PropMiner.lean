import PropMiner.Semantics.Machine
import PropMiner.Proto.Reader
import PropMiner.Proto.Messages
import PropMiner.Proto.Safety
import PropMiner.Semantics.Ledger
import PropMiner.Share.Diagnostics
import PropMiner.Stratum.Client
import PropMiner.Worker.QueueBatch
import PropMiner.Stratum.Outcomes
import PropMiner.Orchestrator.ShareAccounting
import PropMiner.Orchestrator.ClientLifetime
import PropMiner.Jobs.Miner
import PropMiner.Jobs.Frames
import PropMiner.Jobs.Republish
import PropMiner.Jobs.Targets
import PropMiner.Jobs.Vardiff
import PropMiner.Jobs.Contexts
import PropMiner.Jobs.Residency
import PropMiner.Jobs.Release
import PropMiner.Semantics.Monitor
import PropMiner.Semantics.Ring
import PropMiner.Jobs.Pipeline
import PropMiner.Semantics.LittleEndian
import PropMiner.Share.Target
import PropMiner.Jobs.Attribution
import PropMiner.Wire.Writer
import PropMiner.Share.Types
import PropMiner.Share.ClaimedHash
import PropMiner.Share.Encoders
import PropMiner.Share.Builder
import PropMiner.Orchestrator.ShareBatch
import PropMiner.Orchestrator.Handoff
import PropMiner.Orchestrator.Transport
import PropMiner.Proto.Register
import PropMiner.Grpc.Http2
import PropMiner.Grpc.EventSeq
import PropMiner.Grpc.SendFrame
import PropMiner.Proto.Fields
import PropMiner.Proto.Events
import PropMiner.Grpc.Messages
import PropMiner.Grpc.DrainFrames
import PropMiner.Semantics.Binary64
import PropMiner.Stratum.JsonNumber
import PropMiner.Stratum.JsonParser
import PropMiner.Stratum.JsonGrammar
import PropMiner.Stratum.JsonRoundTrip
import PropMiner.Stratum.JsonContract
import PropMiner.Stratum.Rejects
import PropMiner.Stratum.Hex
import PropMiner.Stratum.Messages
import PropMiner.Stratum.JobIds
import PropMiner.Semantics.Base64
import PropMiner.Stratum.Submit
import PropMiner.Semantics.Bincode
import PropMiner.Share.PlainProof
import PropMiner.Share.Submission
import PropMiner.Semantics.BigEndian
import PropMiner.Semantics.Compact
import PropMiner.Share.Nbits
import PropMiner.Share.Difficulty
import PropMiner.Grpc.RequestHeaders
import PropMiner.Semantics.Progression
import PropMiner.Share.Pattern
import PropMiner.Share.PatternBytes
import PropMiner.Semantics.Blake3
import PropMiner.Stratum.Challenge
import PropMiner.Stratum.Solve
import PropMiner.Semantics.Lines
import PropMiner.Stratum.Lines
import PropMiner.Worker.TuneCache
import PropMiner.Semantics.Blocks
import PropMiner.Share.Noise
import PropMiner.Semantics.Slots
import PropMiner.Share.Transcript
import PropMiner.Share.Columns
import PropMiner.Semantics.Xor
import PropMiner.Share.Reference
import PropMiner.Share.Probe
import PropMiner.Worker.SignalHeader
import PropMiner.Worker.Profile
import PropMiner.Worker.CacheKeys
import PropMiner.Worker.HashrateText
import PropMiner.Worker.MineBatchCache
import PropMiner.Grpc.FlowControl
import PropMiner.Semantics.Multiples
import PropMiner.Worker.WaveAlignment
import PropMiner.Semantics.OrderedSet
import PropMiner.Worker.OpenedLeaves
import PropMiner.Semantics.Checked
import PropMiner.Share.Permutation
import PropMiner.Semantics.TreeFold
import PropMiner.Merkle.Tree
import PropMiner.Semantics.Absorb
import PropMiner.Merkle.Reference
import PropMiner.Semantics.OrderedMap
import PropMiner.Merkle.Proof
import PropMiner.Merkle.Binding
import PropMiner.Merkle.Capi
import PropMiner.Merkle.HonestShare
