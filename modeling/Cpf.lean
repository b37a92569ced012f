import Cpf.Basics.Loop
import Cpf.Basics.ByteHeap
import Cpf.Basics.WordBits
import Cpf.Basics.LastMatch
import Cpf.Basics.Trans
import Cpf.Basics.Numbered
import Cpf.Executive.Shadow
import Cpf.Executive.Private
import Cpf.Executive.IterCodes
import Cpf.Executive.Marks
import Cpf.Executive.CallMarks
import Cpf.Executive.AccessSpec
import Cpf.Executive.Distill
import Cpf.Executive.DistillSpec
import Cpf.Executive.Merge
import Cpf.Executive.MergeOrder
import Cpf.Executive.CommittedFold
import Cpf.Executive.Group
import Cpf.Executive.GroupMarks
import Cpf.Executive.GroupSoundness
import Cpf.Executive.WriteWindow
import Cpf.Executive.Redux
import Cpf.Executive.DeferredIO
import Cpf.Executive.CommitIo
import Cpf.Basics.Collect
import Cpf.Basics.CollectKept
import Cpf.Executive.ReduxList
import Cpf.Executive.ReduxTeam
import Cpf.Executive.ReduxView
import Cpf.Executive.PlainMax
import Cpf.Executive.AddSum
import Cpf.Executive.Checkpoint
import Cpf.Executive.CheckpointSpec
import Cpf.Executive.EagerLazy
import Cpf.Executive.Invocation
import Cpf.Executive.InvocationMarks
import Cpf.Executive.Represents
import Cpf.Executive.InvocationLiveout
import Cpf.Executive.Machine
import Cpf.Executive.Episode
import Cpf.Executive.Ledger
import Cpf.Executive.EpisodeSteps
import Cpf.Executive.MachineInvariant
import Cpf.Executive.Join
import Cpf.Executive.Conflicts
import Cpf.Executive.Containment
import Cpf.Executive.Coverage
import Cpf.Executive.Recovery
import Cpf.Executive.Output
import Cpf.Basics.LinkedList
import Cpf.Executive.Manager
import Cpf.Executive.ManagerLists
import Cpf.Executive.Team
import Cpf.Executive.TeamControl
import Cpf.Executive.Exits
import Cpf.Executive.CommitCall
import Cpf.Executive.MemberSpec
import Cpf.Executive.TeamSteps
import Cpf.Executive.TeamInvariant
import Cpf.Executive.CheckpointOrder
import Cpf.Executive.CommitOrder
import Cpf.Executive.PendingPair
import Cpf.Executive.ErrorPath
import Cpf.Executive.HeapSteps
import Cpf.Executive.KillPrivate
import Cpf.Executive.ShareMerge
import Cpf.Executive.SharePrivate
import Cpf.Executive.ShareSteps
import Cpf.Executive.ShareLiveout
import Cpf.Basics.Blocks
import Cpf.Pipeline.Allocation
import Cpf.Basics.Channels
import Cpf.Pipeline.SwQueue
import Cpf.Pipeline.Queue
import Cpf.Pipeline.QueueRouting
import Cpf.Pipeline.QueueRuns
import Cpf.Pipeline.Strategy
import Cpf.Pipeline.Edits
import Cpf.Slamp.Hooks
import Cpf.Slamp.LinearPredictor
import Cpf.Slamp.DistanceHistogram
import Cpf.Slamp.BoundMalloc
import Cpf.Slamp.PageCounts
import Cpf.Slamp.LiveCounts
import Cpf.Slamp.History
import Cpf.Slamp.Dependences
import Cpf.Slamp.Flows
import Cpf.Basics.Iterate
import Cpf.Basics.Flow
import Cpf.Graph.EdmondsKarp
import Cpf.Graph.AugmentingPath
import Cpf.Graph.MinCut
import Cpf.Graph.Termination
import Cpf.Graph.Conflict
import Cpf.Graph.KeptWeight
import Cpf.Pipeline.GoodStage
import Cpf.Pipeline.ParallelStage
import Cpf.Pipeline.MaxParallelStage
import Cpf.Pipeline.StageBuilding
import Cpf.Pipeline.StagePartition
import Cpf.Pipeline.BalancedStages
import Cpf.Pipeline.Critic
import Cpf.Pipeline.Criticisms
import Cpf.Pipeline.Orchestrate
import Cpf.Basics.Closure
import Cpf.Planner.Compatibility
import Cpf.Planner.ActiveLoops
import Cpf.Basics.BinaryHeap
import Cpf.Basics.BoundedBuffer
import Cpf.Txio.Queue
import Cpf.Txio.Commit
import Cpf.Txio.CommitInvariant
import Cpf.Txio.CommitSteps
import Cpf.Txio.CommitProgress
import Cpf.Txio.TimeVectors
import Cpf.Txio.CommitEvents
import Cpf.Txio.CommitOrder
import Cpf.Txio.PrioQueue
import Cpf.Basics.IntervalMap
import Cpf.Basics.SwapRemove
import Cpf.Profile.Units
import Cpf.Profile.Profiler
import Cpf.Profile.Objects
import Cpf.Profile.TableInvariant
import Cpf.Profile.Constants
import Cpf.Profile.Contexts
import Cpf.Profile.ProfilerInvariant
import Cpf.Profile.ProfilerSteps
import Cpf.Profile.ProfilerExits
import Cpf.Profile.Lookups
import Cpf.Profile.Locality
import Cpf.Profile.SharedConstants
import Cpf.Smtx.AStream
import Cpf.Smtx.Token
import Cpf.Smtx.Version
import Cpf.Smtx.QueueSteps
import Cpf.Smtx.Streams
import Cpf.Smtx.Replay
import Cpf.Smtx.VersionInvariant
import Cpf.Smtx.ChannelSteps
import Cpf.Smtx.ProcessSteps
import Cpf.Smtx.WorkerSteps
import Cpf.Smtx.Validation
import Cpf.Smtx.Waiting
import Cpf.Smtx.Progress
import Cpf.Smtx.AccessMarks
import Cpf.Smtx.PagePath
import Cpf.Smtx.QueueAccess
import Cpf.Smtx.QueueFifo
import Cpf.Smtx.MallocRuns
import Cpf.Tpool.ThreadPool
import Cpf.Lamp.MemoryProfile
import Cpf.Nq.ChunkQueue
import Cpf.CodeGen.Channels
import Cpf.Executive.ArgMax
import Cpf.Executive.EarliestMax
import Cpf.Executive.ByteAutomaton
import Cpf.Executive.SizedAccess
import Cpf.Executive.ReadUnits
import Cpf.Executive.RangeReads
import Cpf.Executive.StridedReads
import Cpf.Executive.StartMessages
import Cpf.Graph.VertexCover
import Cpf.Basics.Clique
import Cpf.Graph.Ebk
import Cpf.Planner.Weights
import Cpf.Pipeline.BestSavings
import Cpf.Pipeline.ThreadBudget
import Cpf.Pipeline.ReplicatedStages
import Cpf.Profile.ContextMatching
import Cpf.Utilities.CompressedPointers
import Cpf.Utilities.LatticeInsert
import Cpf.Basics.Tally
import Cpf.Basics.Words
import Cpf.Profile.Predictions
import Cpf.Profile.ProfileLines
import Cpf.Profile.ProfileRoundTrip
