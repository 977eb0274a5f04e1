import CacheLab.Lib.OrderedDict
import CacheLab.Lib.Transition
import CacheLab.Lib.Trace
import CacheLab.Lib.Recency
import CacheLab.Lib.WaitFor
import CacheLab.Lib.PyFloat
import CacheLab.Lib.PyValue
import CacheLab.Concurrency.Hashing
import CacheLab.Lib.WriteBehind
import CacheLab.Lib.WriteBehindSafety
import CacheLab.Lib.WriteBehindDrain
import CacheLab.Core.Config
import CacheLab.Policies.Base
import CacheLab.Core.Shard
import CacheLab.Core.Sections
import CacheLab.Core.Slots
import CacheLab.Core.Eviction
import CacheLab.Core.Upkeep
import CacheLab.Core.Writes
import CacheLab.Core.Live
import CacheLab.Core.Registry
import CacheLab.Core.Ledger
import CacheLab.Core.Timeless
import CacheLab.Core.Rows
import CacheLab.Core.Stamps
import CacheLab.Core.Seats
import CacheLab.System.State
import CacheLab.System.Step
import CacheLab.System.Effect
import CacheLab.System.ShardSteps
import CacheLab.System.Stores
import CacheLab.System.Control
import CacheLab.System.Base
import CacheLab.System.Writes
import CacheLab.System.Moves
import CacheLab.System.Refinement
import CacheLab.System.Runs
import CacheLab.System.SyncFlush
import CacheLab.System.Closing
import CacheLab.System.Quiet
import CacheLab.System.Trace
import CacheLab.System.Flights
import CacheLab.System.DirtyFlush
import CacheLab.System.FlushBooks
import CacheLab.Concurrency.Locks
import CacheLab.Workloads.Session
import CacheLab.Workloads.Calls
import CacheLab.Workloads.Simulation
import CacheLab.Cli.Basic
import CacheLab.Cli.Load
import CacheLab.Properties.Metadata
import CacheLab.Properties.FlushSafety
import CacheLab.Properties.Capacity
import CacheLab.Properties.ReadYourWrite
import CacheLab.Properties.TimedReads
import CacheLab.Properties.WriteThrough
import CacheLab.Properties.Shutdown
import CacheLab.Properties.SingleFlight
import CacheLab.Properties.Invalidation
import CacheLab.Properties.Closed
import CacheLab.Properties.Residency
import CacheLab.Properties.Inclusion
import CacheLab.Properties.Sweeps
import CacheLab.Properties.Routing
import CacheLab.Storage.StateFile
import CacheLab.Properties.StateLock
import CacheLab.Concurrency.LockOrder
import CacheLab.Properties.WaitCycle
import CacheLab.Properties.Frequency
import CacheLab.Properties.Conservation
import CacheLab.Properties.Observers
import CacheLab.Properties.Victims
import CacheLab.System.Verdict
import CacheLab.System.SourceDict
import CacheLab.System.Split
import CacheLab.Properties.Backstop
import CacheLab.Properties.Draining
import CacheLab.Properties.ShutdownError
import CacheLab.Properties.EvictionLoop
import CacheLab.Properties.Simulation
import CacheLab.Properties.CliModes
import CacheLab.Properties.Sharding
import CacheLab.Properties.CliRoundTrip
import CacheLab.Properties.CliSessions
import CacheLab.Lib.Tour
import CacheLab.System.Tours
import CacheLab.System.Keys
import CacheLab.System.Queue
import CacheLab.Properties.FanOut
import CacheLab.Properties.Purge
import CacheLab.Properties.QueueOrder
import CacheLab.Properties.Progress
import CacheLab.Storage.SlowDict
import CacheLab.System.Failures
import CacheLab.Properties.FailureBudget
import CacheLab.Lib.Files
import CacheLab.Storage.WriteJson
import CacheLab.Storage.Saves
import CacheLab.Properties.AtomicSave
import CacheLab.Core.Counters
import CacheLab.System.Counters
import CacheLab.Observability.Snapshots
import CacheLab.Properties.StatsSnapshots
import CacheLab.System.Graves
import CacheLab.Concurrency.Closers
import CacheLab.Properties.CloseReturns
import CacheLab.Core.ConfigFile
