import TgeCore.Module.BootOrder
import TgeCore.Module.Boot
import TgeCore.Module.Restart
import TgeCore.Module.Lifecycle
import TgeCore.Module.ScheduleRules
import TgeCore.Events.System
import TgeCore.Events.Registry
import TgeCore.Events.Refinement
import TgeCore.Events.Batches
import TgeCore.Events.Progress
import TgeCore.Library.ByteMemory
import TgeCore.Library.Extents
import TgeCore.Memory.Allocation
import TgeCore.Memory.FreeList
import TgeCore.Memory.FreeListHeap
import TgeCore.Memory.FreeListSteps
import TgeCore.Memory.FreeListRuns
import TgeCore.Memory.FreeListSafety
import TgeCore.Memory.FreeListAccounts
import TgeCore.Memory.Stack
import TgeCore.Memory.Linear
import TgeCore.Memory.Requests
import TgeCore.Memory.Tracking
import TgeCore.Memory.TrackerLock
import TgeCore.Threading.MpscFifo
import TgeCore.Threading.EventLoopPosts
import TgeCore.Threading.DueTimers
import TgeCore.Library.Tally
import TgeCore.Threading.JobGroups
import TgeCore.Threading.WaitForAllJobs
import TgeCore.Threading.GroupOrder
import TgeCore.Threading.SerialCancel
import TgeCore.Threading.SerialMarks
import TgeCore.Threading.SerialStop
import TgeCore.Threading.SerialLock
import TgeCore.Net.ParseIpv4
import TgeCore.Process.CommandLine
import TgeCore.Net.Pem
import TgeCore.Exposure.Curve
import TgeCore.Logging.LogSystem
import TgeCore.Logging.Registry
import TgeCore.Logging.Delivery
import TgeCore.Logging.Listeners
import TgeCore.Library.Partition
import TgeCore.Library.Mixing
import TgeCore.Threading.ParallelFor
import TgeCore.Threading.Uncancelled
import TgeCore.Threading.JobAccounts
import TgeCore.Threading.ParallelCover
import TgeCore.Threading.ParallelReturn
import TgeCore.Library.Disk
import TgeCore.IO.WriteFileAtomically
import TgeCore.IO.WriteSteps
import TgeCore.IO.WriteSound
import TgeCore.IO.AtomicWrite
import TgeCore.Library.PathTree
import TgeCore.IO.DirectoryWatch
import TgeCore.IO.WatchEvents
import TgeCore.IO.WatchSound
import TgeCore.IO.WatchOutlook
import TgeCore.IO.WatchChanges
import TgeCore.IO.WatchCover
import TgeCore.Threading.ChunkCount
import TgeCore.Library.Box
import TgeCore.Math.Spheres
import TgeCore.Threading.ThreadPool
import TgeCore.Threading.PoolBooks
import TgeCore.Threading.PoolOrder
import TgeCore.Threading.JobObjects
import TgeCore.Threading.SerialOrder
import TgeCore.Threading.ReadyWatches
import TgeCore.Threading.WatchPasses
import TgeCore.Events.Slots
import TgeCore.Threading.PollSockets
import TgeCore.Module.Notifications
import TgeCore.Module.Cycles
import TgeCore.Memory.FreeListUsage
import TgeCore.Library.Chain
import TgeCore.Memory.Pool
import TgeCore.Memory.Alignment
import TgeCore.Memory.StdAllocator
import TgeCore.Memory.GlobalOperators
import TgeCore.Memory.TrackerBooks
import TgeCore.Library.Trim
import TgeCore.Logging.Config
import TgeCore.Logging.CallbackLock
import TgeCore.Testing.ExpectedLog
import TgeCore.Library.Balance
import TgeCore.Testing.NothingLost
import TgeCore.Logging.Relays
import TgeCore.Library.Descriptors
import TgeCore.Process.SpawnActions
import TgeCore.Library.WindowsPath
import TgeCore.Process.FindInPath
import TgeCore.Net.PemBlocks
import TgeCore.Library.LinkTree
import TgeCore.IO.LinkedWrite
import TgeCore.IO.LinkKept
import TgeCore.Library.Buffer
import TgeCore.IO.ReadWholeFile
import TgeCore.IO.Stream
import TgeCore.Library.Interpolation
import TgeCore.Exposure.Evaluate
import TgeCore.Library.Runs
import TgeCore.Command.Registry
import TgeCore.Command.Dispatch
import TgeCore.Math.Intersection
import TgeCore.IO.LinkWatch
import TgeCore.IO.LinkForget
import TgeCore.Library.Rotation
import TgeCore.Math.Transform
import TgeCore.Math.Decompose
import TgeCore.Library.MixedRadix
import TgeCore.Logging.Timestamp
import TgeCore.Library.Signals
import TgeCore.Threading.Poller
import TgeCore.Threading.PollerWait
import TgeCore.Threading.PollerReports
import TgeCore.Library.Cells
import TgeCore.Net.AddressLookup
import TgeCore.Net.LookupResults
import TgeCore.Process.ChildProcess
import TgeCore.Process.ChildExits
import TgeCore.Library.LittleEndian
import TgeCore.IO.NotifyRecords
import TgeCore.IO.NotifyWatch
import TgeCore.IO.NotifyReports
import TgeCore.Library.Since
import TgeCore.Threading.TimerRuns
import TgeCore.Threading.TimersKept
import TgeCore.Library.SharedCells
import TgeCore.Threading.GroupNesting
import TgeCore.Threading.GroupLifetime
import TgeCore.Threading.GroupSteps
import TgeCore.Threading.GroupCascade
import TgeCore.Threading.EpollWait
import TgeCore.Threading.EpollFairness
import TgeCore.Net.StreamSocket
import TgeCore.Net.ConnectTold
import TgeCore.IO.WindowsWrite
import TgeCore.IO.WindowsWriteSound
import TgeCore.IO.WindowsAtomicWrite
import TgeCore.Memory.Attribution
import TgeCore.Net.OpenSockets
import TgeCore.Net.SocketsOwned
import TgeCore.Library.Holders
import TgeCore.Net.WindowsLookup
import TgeCore.Net.WindowsLookupKept
import TgeCore.Library.Calls
