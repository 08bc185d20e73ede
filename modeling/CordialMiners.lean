import CordialMiners.Core.Types
import CordialMiners.Graph.Explore
import CordialMiners.Graph.Greedy
import CordialMiners.Graph.Kahn
import CordialMiners.Core.Blocklace
import CordialMiners.Core.View
import CordialMiners.Core.AncestorIndex
import CordialMiners.Core.Wave
import CordialMiners.Core.Weights
import CordialMiners.Core.Growth
import CordialMiners.Core.Cordiality
import CordialMiners.Core.Agreement
import CordialMiners.Ordering.Xsort
import CordialMiners.Ordering.Tau
import CordialMiners.Ordering.Stability
import CordialMiners.Ordering.Cache
import CordialMiners.Pruning.Checkpoint
import CordialMiners.Pruning.Closure
import CordialMiners.Pruning.Cut
import CordialMiners.Validation.Block
import CordialMiners.Pruning.Validation
import CordialMiners.Ordering.CacheRuns
import CordialMiners.Ordering.Causality
import CordialMiners.Ordering.Suffix
import CordialMiners.Pruning.Transparency
import CordialMiners.Graph.Rooted
import CordialMiners.Core.References
import CordialMiners.Node.LiveMirror
import CordialMiners.Node.MirrorRuns
import CordialMiners.Core.PartOf
import CordialMiners.Evidence.Pool
import CordialMiners.Node.PendingBuffer
import CordialMiners.Node.SimNode
import CordialMiners.Evidence.History
import CordialMiners.Evidence.Verified
import CordialMiners.Node.Accusations
import CordialMiners.Node.Candidate
import CordialMiners.Node.SimRuns
import CordialMiners.Node.BufferRuns
import CordialMiners.Validation.Bookkeeping
import CordialMiners.Validation.Provenance
import CordialMiners.Evidence.Codec
import CordialMiners.Execution.Payload
import CordialMiners.Node.Translation
import CordialMiners.Node.LiveGrpc
import CordialMiners.Execution.DeployPool
import CordialMiners.Execution.Inclusion
import CordialMiners.Execution.Selection
import CordialMiners.Node.Proposer
import CordialMiners.Node.ChainHead
import CordialMiners.Node.ProposerRuns
import CordialMiners.Ordering.Epoch
import CordialMiners.Collections.Keyed
import CordialMiners.Reputation.Types
import CordialMiners.Reputation.Calculation
import CordialMiners.Reputation.Commitments
import CordialMiners.Reputation.Penalties
import CordialMiners.Collections.Grouped
import CordialMiners.Reputation.Audit
import CordialMiners.Reputation.Processable
import CordialMiners.Reputation.State
import CordialMiners.Codec.Writer
import CordialMiners.Reputation.Wire
import CordialMiners.Reputation.Snapshot
import CordialMiners.Reputation.StateRuns
import CordialMiners.Collections.OrderedMap
import CordialMiners.Codec.HashChain
import CordialMiners.Slashing.Window
import CordialMiners.Slashing.PrefixIdentity
import CordialMiners.Slashing.Carriers
import CordialMiners.Slashing.Policy
import CordialMiners.Slashing.Completed
import CordialMiners.Slashing.Admission
import CordialMiners.Evidence.Views
import CordialMiners.Slashing.Views
import CordialMiners.Slashing.Correlation
import CordialMiners.Slashing.Completion
import CordialMiners.Storage.Program
import CordialMiners.Storage.FileSystem
import CordialMiners.Runtime.Transition
import CordialMiners.Durable.Names
import CordialMiners.Durable.History
import CordialMiners.Durable.State
import CordialMiners.Durable.Runs
import CordialMiners.Codec.Delimited
import CordialMiners.Reputation.Preimages
import CordialMiners.Reputation.Injectivity
import CordialMiners.WeightEpoch.Record
import CordialMiners.WeightEpoch.Replay
import CordialMiners.Ratings.Interactions
import CordialMiners.Ratings.Signing
import CordialMiners.Ratings.Envelope
import CordialMiners.Ratings.Collector
import CordialMiners.Ratings.Collection
import CordialMiners.Ratings.Completeness
import CordialMiners.Collections.Matched
import CordialMiners.Collections.Redelivery
import CordialMiners.App.Runtime
import CordialMiners.App.Extraction
import CordialMiners.App.Inclusions
import CordialMiners.App.Polling
import CordialMiners.Graph.Heights
import CordialMiners.Node.BlockStore
import CordialMiners.Node.PersistentIngress
import CordialMiners.Node.Boot
import CordialMiners.Node.Restart
import CordialMiners.Output.Dispatch
import CordialMiners.Output.PastWaves
import CordialMiners.Output.Ingress
import CordialMiners.Output.Activation
import CordialMiners.Ordering.Above
import CordialMiners.Output.Incremental
import CordialMiners.Collections.Memo
import CordialMiners.Core.Memo
import CordialMiners.Core.Certificate
import CordialMiners.Collections.BitMatrix
import CordialMiners.Core.WordIndex
import CordialMiners.Ordering.Canonical
import CordialMiners.Ratings.Publication
import CordialMiners.WeightEpoch.ActivationRecord
import CordialMiners.Evidence.Exact
import CordialMiners.Graph.LongestPath
import CordialMiners.Ordering.Anchor
import CordialMiners.Output.Views
import CordialMiners.Slashing.WavePolicy
import CordialMiners.Node.CasperAdapter
import CordialMiners.Ratings.Attestation
import CordialMiners.Node.DeployTrace
import CordialMiners.Runtime.Shadow
import CordialMiners.Graph.PostOrder
import CordialMiners.Node.NativeBackfill
import CordialMiners.Node.ForkChoice
import CordialMiners.Node.RecoveryOrder
import CordialMiners.Collections.Permuted
import CordialMiners.Validation.HashPreimage
import CordialMiners.Reputation.SquareRoot
import CordialMiners.Reputation.Stages
import CordialMiners.Reputation.CarryForward
import CordialMiners.Reputation.Bounds
import CordialMiners.Reputation.InputOrder
import CordialMiners.Slashing.FirstCarriers
import CordialMiners.Runtime.PorRuntime
import CordialMiners.Runtime.RuntimeRuns
import CordialMiners.Runtime.CheckpointPaths
import CordialMiners.Network.Asynchronous
import CordialMiners.Ordering.SameBlocks
import CordialMiners.Ordering.DirectOrder
import CordialMiners.Node.AdversarialNetwork
import CordialMiners.Node.NetworkRuns
import CordialMiners.Node.SafetyChecks
import CordialMiners.Node.NetworkSafety
import CordialMiners.Node.Recovery
import CordialMiners.Node.SimNetwork
import CordialMiners.Ratings.Coordinator
import CordialMiners.Ratings.LocalRatings
import CordialMiners.Storage.Publishing
import CordialMiners.Ratings.FileExchange
import CordialMiners.Ratings.CheckpointRatings
