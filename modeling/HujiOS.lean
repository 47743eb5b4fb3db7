import HujiOS.Runs
import HujiOS.Loops
import HujiOS.MachineInt
import HujiOS.RadixDigits
import HujiOS.PointerTree
import HujiOS.Pool
import HujiOS.Fifo
import HujiOS.StableQueue
import HujiOS.Words
import HujiOS.Ledger
import HujiOS.Grouping
import HujiOS.Uthreads.Scheduler
import HujiOS.Uthreads.Transitions
import HujiOS.Uthreads.Partition
import HujiOS.Uthreads.Dormancy
import HujiOS.Uthreads.Wakeups
import HujiOS.Uthreads.RoundRobin
import HujiOS.Uthreads.FairShares
import HujiOS.Uthreads.Accounting
import HujiOS.Uthreads.Resume
import HujiOS.Uthreads.EagerReference
import HujiOS.Uthreads.SpawnOrder
import HujiOS.Uthreads.Checked
import HujiOS.Uthreads.SleepDuration
import HujiOS.Uthreads.TimerTick
import HujiOS.Uthreads.Contexts
import HujiOS.Uthreads.OwnMasks
import HujiOS.Paging.PhysicalMemory
import HujiOS.Paging.VirtualMemory
import HujiOS.Paging.Frames
import HujiOS.Paging.PagePaths
import HujiOS.Paging.PageTree
import HujiOS.Paging.Searches
import HujiOS.Paging.Allocation
import HujiOS.Paging.Translation
import HujiOS.Paging.PageTables
import HujiOS.Paging.FlatArray
import HujiOS.Paging.FreeFrames
import HujiOS.Paging.EmptyTables
import HujiOS.Paging.Stability
import HujiOS.Paging.EvictionChoice
import HujiOS.Paging.WorkingSet
import HujiOS.Paging.DataIndependence
import HujiOS.MapReduce.JobState
import HujiOS.MapReduce.WordRefinement
import HujiOS.MapReduce.Workers
import HujiOS.MapReduce.Transitions
import HujiOS.MapReduce.Control
import HujiOS.MapReduce.Shuffle
import HujiOS.MapReduce.MapPhase
import HujiOS.MapReduce.ShufflePhase
import HujiOS.MapReduce.ReducePhase
import HujiOS.MapReduce.Phases
import HujiOS.MapReduce.Correctness
import HujiOS.MapReduce.SameOutput
import HujiOS.MapReduce.Progress
import HujiOS.MapReduce.Barrier
import HujiOS.MapReduce.Locks
import HujiOS.MapReduce.NeverStuck
import HujiOS.MapReduce.SpuriousWakeups
import HujiOS.MapReduce.BarrierProgress
import HujiOS.MapReduce.ShuffleRun
import HujiOS.MapReduce.Termination
import HujiOS.MapReduce.Percentage
import HujiOS.MapReduce.JobHandle
import HujiOS.MapReduce.AtomicReports
import HujiOS.MapReduce.CallsReturn
import HujiOS.MapReduce.Races
import HujiOS.MapReduce.SampleClient
import HujiOS.MapReduce.SampleMain
import HujiOS.MapReduce.SampleEnd
import HujiOS.Sockets.ReadData
import HujiOS.Sockets.Transfer
import HujiOS.Sockets.CommandLine
import HujiOS.Sockets.Server
import HujiOS.Sockets.Serving
import HujiOS.Sockets.TypedCommands
import HujiOS.Containers.Builder
import HujiOS.Containers.Meeting
import HujiOS.Containers.Endings
