import Gbis.Library.Transition
import Gbis.Library.HostProgram
import Gbis.Library.Greedy
import Gbis.Library.Ledger
import Gbis.Library.Streams
import Gbis.Library.Schedule
import Gbis.Library.Barriers
import Gbis.Library.Ownership
import Gbis.Library.Heap
import Gbis.Library.Arithmetic
import Gbis.Library.Text
import Gbis.Library.Integers
import Gbis.Library.Rounding
import Gbis.Library.Ranks
import Gbis.Sched.Job
import Gbis.Sched.Packing
import Gbis.Sched.Selection
import Gbis.Sched.Rounds
import Gbis.Core.Call
import Gbis.Core.Buffer
import Gbis.Core.Objects
import Gbis.Core.UniqueOwner
import Gbis.Sched.ExecuteBatch
import Gbis.Sched.Scheduler
import Gbis.Sched.Footprint
import Gbis.Sched.TurnAccount
import Gbis.Sched.Threads
import Gbis.Sched.Conservation
import Gbis.Sched.DrainOrder
import Gbis.Sched.Reservation
import Gbis.Sched.Shutdown
import Gbis.Sched.TurnMemory
import Gbis.Sched.Sizes
import Gbis.Sched.Carried
import Gbis.Sched.Budget
import Gbis.Sched.LiveBudget
import Gbis.Sched.Lookahead
import Gbis.Sched.Wakeup
import Gbis.Sched.Completion
import Gbis.Sched.Counters
import Gbis.Sched.Entries
import Gbis.Sched.Oversized
import Gbis.Sched.Aging
import Gbis.Sched.Fifo
import Gbis.Sched.Results
import Gbis.Sched.Failure
import Gbis.Sched.Gpu
import Gbis.Sched.GpuBuffers
import Gbis.Sched.Allocation
import Gbis.Sched.Pipeline
import Gbis.Kernels.Gemm
import Gbis.Kernels.Tiling
import Gbis.Kernels.Launch
import Gbis.Sched.Launched
import Gbis.Sched.Progress
import Gbis.Sched.Success
import Gbis.Sched.Timeline
import Gbis.Sched.Launches
import Gbis.Sched.InOrder
import Gbis.Sched.Delivery
import Gbis.Monitor.Nvml
import Gbis.Monitor.Sampling
import Gbis.Bench.Overlap
import Gbis.Bench.Schedules
import Gbis.Bench.Products
import Gbis.Bench.Reference
import Gbis.Bench.Gemm
import Gbis.Bindings.Arguments
import Gbis.Bindings.Gemm
import Gbis.Bindings.Lifecycle
import Gbis.Bindings.Guarded
import Gbis.Bindings.Sequential
import Gbis.Kernels.Cublas
import Gbis.Kernels.Indices
import Gbis.Server.Metrics
import Gbis.Server.Percentiles
import Gbis.Daemon.Main
import Gbis.Daemon.WaitLoop
import Gbis.Daemon.Arguments
import Gbis.Daemon.Replay
import Gbis.Daemon.Workload
import Gbis.Daemon.Generator
import Gbis.Daemon.Submission
