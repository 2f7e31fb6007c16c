import Pytealet.Lib.Transition
import Pytealet.Lib.WaitQueue
import Pytealet.Lib.Placement
import Pytealet.Lib.Heapq
import Pytealet.Lib.Tally
import Pytealet.Lib.Numbered
import Pytealet.Lib.Register
import Pytealet.Lib.Line
import Pytealet.Lib.Ordinal
import Pytealet.Lib.Climb
import Pytealet.Lib.Descent
import Pytealet.Lib.Names
import Pytealet.Lib.Replies
import Pytealet.Lib.UndoLog
import Pytealet.Lib.DictSum
import Pytealet.Lib.Containers
import Pytealet.Locks.Lock
import Pytealet.Locks.Semaphore
import Pytealet.Locks.Queue
import Pytealet.Locks.Barrier
import Pytealet.Locks.Condition
import Pytealet.Locks.Timeout
import Pytealet.Locks.PriorityGraph
import Pytealet.Locks.PriorityLock
import Pytealet.Locks.PriorityKeys
import Pytealet.Locks.ContextChain
import Pytealet.Locks.CrossThread
import Pytealet.Scheduler.Channel
import Pytealet.Scheduler.Runnable
import Pytealet.Scheduler.RunnableLanes
import Pytealet.Scheduler.YieldOrder
import Pytealet.Scheduler.Links
import Pytealet.Scheduler.LinkInvariant
import Pytealet.Scheduler.LinkRuns
import Pytealet.Scheduler.Timers
import Pytealet.Scheduler.TimerRuns
import Pytealet.Scheduler.FdWaits
import Pytealet.Scheduler.AsCompleted
import Pytealet.Scheduler.Gather
import Pytealet.Scheduler.GatherRuns
import Pytealet.Scheduler.CompletionOrder
import Pytealet.Scheduler.CompletionRuns
import Pytealet.Scheduler.Wakeup
import Pytealet.Tasks.DoneCallbacks
import Pytealet.TaskGroups.Model
import Pytealet.TaskGroups.Join
import Pytealet.TaskGroups.Flag
import Pytealet.TaskGroups.Abort
import Pytealet.TaskGroups.Errors
import Pytealet.TaskGroups.ErrorRuns
import Pytealet.Io.SendBuffer
import Pytealet.Io.SendStream
import Pytealet.Io.SendStreamRuns
import Pytealet.Io.SendWait
import Pytealet.Io.SendEof
import Pytealet.Io.SendClose
import Pytealet.Io.SendCloseRuns
import Pytealet.Io.RecvIterBuffer
import Pytealet.Io.RecvOrder
import Pytealet.Io.RecvSteps
import Pytealet.Io.RecvStream
import Pytealet.Io.RecvClose
import Pytealet.Io.RecvPool
import Pytealet.Io.WaitChain
import Pytealet.Io.ChainOwnership
import Pytealet.Io.ChainCancel
import Pytealet.Io.ChainRuns
import Pytealet.Io.HappyEyeballs
import Pytealet.Io.ReorderBuffer
import Pytealet.Io.CountFinalizer
import Pytealet.Io.WaitOrDispose
import Pytealet.Io.Waiter
import Pytealet.Io.PoolCache
import Pytealet.Io.PoolBooks
import Pytealet.Io.PoolForeign
import Pytealet.Io.MakeFile
import Pytealet.Io.ProactorFile
import Pytealet.Io.Interleave
import Pytealet.Tealet.Lineage
import Pytealet.Tealet.ExcInfo
import Pytealet.Tealet.PendingException
import Pytealet.Tealet.Wrappers
import Pytealet.Tealet.Linkage
import Pytealet.Tealet.ChainWalk
import Pytealet.Tealet.FrameInfo
import Pytealet.Tealet.ThreadRing
import Pytealet.Tealet.ThreadSweep
import Pytealet.Greenlet.Parents
import Pytealet.Greenlet.Delivery
import Pytealet.Uring.Ring
import Pytealet.Uring.Prepare
import Pytealet.Uring.SendAll
import Pytealet.Uring.Steps
import Pytealet.Uring.Effects
import Pytealet.Uring.Parked
import Pytealet.Uring.Changes
import Pytealet.Uring.Life
import Pytealet.Uring.Moves
import Pytealet.Uring.Orderly
import Pytealet.Uring.Atomic
import Pytealet.Uring.Ledger
import Pytealet.Uring.InFlight
import Pytealet.Uring.PendingCount
import Pytealet.Uring.Touches
import Pytealet.Uring.Pipeline
import Pytealet.Uring.Abortive
import Pytealet.Uring.FdOrder
import Pytealet.Uring.Wait
import Pytealet.Uring.Serve
import Pytealet.Uring.HandOff
import Pytealet.Uring.Handshake
import Pytealet.Uring.UserData
import Pytealet.Uring.Leases
import Pytealet.Uring.Sessions
import Pytealet.Uring.WakeUps
import Pytealet.Uring.PollMany
import Pytealet.Uring.SendLegs
import Pytealet.Uring.GroupIds
import Pytealet.Uring.FdTable
import Pytealet.Uring.PrepareCount
import Pytealet.Selector.Table
import Pytealet.Selector.Machine
import Pytealet.Selector.Calls
import Pytealet.Selector.Callbacks
import Pytealet.Selector.StreamView
import Pytealet.Selector.Streams
import Pytealet.Selector.WriteLine
import Pytealet.Selector.WriteOrder
import Pytealet.Selector.Once
import Pytealet.Selector.SubmitAtomic
import Pytealet.Streams.Listener
import Pytealet.Streams.HandlerWait
import Pytealet.Streams.Shutdown
import Pytealet.Streams.ShutdownRuns
import Pytealet.Streams.SslFlush
import Pytealet.Streams.ChunkBuffer
import Pytealet.Streams.ReaderCore
import Pytealet.Streams.SslRead
import Pytealet.Streams.LineCuts
import Pytealet.Profiler.Stacks
import Pytealet.Profiler.Separation
import Pytealet.Profiler.Billing
import Pytealet.Profiler.BillingRuns
import Pytealet.Profiler.Timings
import Pytealet.Profiler.Labels
import Pytealet.Poll.Table
import Pytealet.Poll.Stale
import Pytealet.Poll.Edges
import Pytealet.Poll.Arms
import Pytealet.Asyncio.AcceptBridge
import Pytealet.Asyncio.ForwardingSelector
