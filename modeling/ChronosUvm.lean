import ChronosUvm.Foundations.Panicking
import ChronosUvm.Foundations.Transitions
import ChronosUvm.Foundations.Tables
import ChronosUvm.Mem.Dirty
import ChronosUvm.Mem.GuardedMemory
import ChronosUvm.Mem.GuestWrites
import ChronosUvm.Foundations.HashTree
import ChronosUvm.Mem.Smt
import ChronosUvm.Foundations.RunLength
import ChronosUvm.Mem.Delta
import ChronosUvm.Mem.DeltaEngine
import ChronosUvm.Foundations.BoundedQueue
import ChronosUvm.Replicate.Ring
import ChronosUvm.Replicate.Standby
import ChronosUvm.Core.EventLog
import ChronosUvm.Core.RecordReplay
import ChronosUvm.Io.FdTable
import ChronosUvm.Io.UserData
import ChronosUvm.Core.Scheduler
import ChronosUvm.Core.Supervisor
import ChronosUvm.Core.World
import ChronosUvm.Core.Transit
import ChronosUvm.Core.Convergence
import ChronosUvm.Core.GuestProgram
import ChronosUvm.Core.Tenants
import ChronosUvm.Core.IncrementalCheckpoint
import ChronosUvm.Core.CompletionRouting
import ChronosUvm.Mem.Alike
import ChronosUvm.Core.ReplayQuantum
import ChronosUvm.Core.ReplayRun
import ChronosUvm.Foundations.HashChain
import ChronosUvm.Mem.ChainAudit
import ChronosUvm.Mem.RootBinding
import ChronosUvm.Core.Registry
import ChronosUvm.Mem.SandboxBounds
import ChronosUvm.Replicate.TickGate
import ChronosUvm.Core.Fairness
import ChronosUvm.Core.ChainStream
import ChronosUvm.Core.NonInterference
import ChronosUvm.Foundations.Histories
import ChronosUvm.Mem.DirtyRefinement
import ChronosUvm.Io.FdRun
import ChronosUvm.Foundations.CanonicalRuns
import ChronosUvm.Mem.RleCanonical
import ChronosUvm.Mem.DeltaSize
import ChronosUvm.Foundations.Reordering
import ChronosUvm.Replicate.DeltaOrder
import ChronosUvm.Core.CallHistory
import ChronosUvm.Replicate.Watermark
import ChronosUvm.Core.CheckpointCadence
import ChronosUvm.Core.Deregistration
import ChronosUvm.Core.ChainIntegrity
import ChronosUvm.Core.CrossCheck
import ChronosUvm.Io.QueueRing
import ChronosUvm.Io.IoSession
import ChronosUvm.Io.StubSubsystem
import ChronosUvm.Core.RingLoad
import ChronosUvm.Core.CheckpointAge
import ChronosUvm.Core.PageReads
import ChronosUvm.Core.CellStreams
import ChronosUvm.Core.DebugBuild
import ChronosUvm.Core.PanicFreedom
import ChronosUvm.Core.ReplayHermetic
import ChronosUvm.Core.VisitOrders
import ChronosUvm.Replicate.LossyLink
import ChronosUvm.Mem.RootCost
import ChronosUvm.Foundations.Refinement
import ChronosUvm.Replicate.RingCalls
import ChronosUvm.Core.Footprint
import ChronosUvm.Core.PendingIo
import ChronosUvm.Core.RecoveryPoint
import ChronosUvm.Core.LogRecovery
import ChronosUvm.Core.UnreliableTransport
