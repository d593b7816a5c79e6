import SystemProgramming.Foundation.Bytes
import SystemProgramming.Foundation.Run
import SystemProgramming.Foundation.Chunks
import SystemProgramming.Foundation.Segments
import SystemProgramming.Foundation.LinkedList
import SystemProgramming.Foundation.Cycles
import SystemProgramming.Foundation.Containers
import SystemProgramming.Foundation.Streams
import SystemProgramming.Foundation.Counting
import SystemProgramming.Foundation.Simulation
import SystemProgramming.Foundation.Ownership
import SystemProgramming.Foundation.Words
import SystemProgramming.Foundation.Doubles
import SystemProgramming.Malloc.DoubleFree
import SystemProgramming.Scheduler.Content
import SystemProgramming.Scheduler.Dispatch
import SystemProgramming.Scheduler.Remaining
import SystemProgramming.Scheduler.Response
import SystemProgramming.Scheduler.Order
import SystemProgramming.Scheduler.Gthreads
import SystemProgramming.Deadlock.Allocation
import SystemProgramming.Networking.StoreConsistency
import SystemProgramming.Networking.Paths
import SystemProgramming.ParallelMake.Printing
import SystemProgramming.ParallelMake.Solve
import SystemProgramming.ParallelMake.Running
import SystemProgramming.ParallelMake.Waiting
import SystemProgramming.ParallelMake.Tricolor
import SystemProgramming.Concurrency.Rounds
import SystemProgramming.Concurrency.Fifo
import SystemProgramming.Chatroom.Broadcast
import SystemProgramming.Chatroom.Utils
import SystemProgramming.Paging.Transparency
import SystemProgramming.Paging.Privacy
import SystemProgramming.Paging.Ownership
import SystemProgramming.Paging.Writing
import SystemProgramming.Minixfs.Ownership
import SystemProgramming.Minixfs.Types
import SystemProgramming.Minixfs.Reading
import SystemProgramming.Minixfs.Writing
import SystemProgramming.Minixfs.Codec
import SystemProgramming.Minixfs.Namespace
import SystemProgramming.Minixfs.Sessions
import SystemProgramming.Shell.Reaping
import SystemProgramming.Shell.Logical
import SystemProgramming.Shell.History
import SystemProgramming.Shell.Interrupt
import SystemProgramming.Vector.Refinement
import SystemProgramming.Memcheck.Accounting
import SystemProgramming.Cracker.Hashes
import SystemProgramming.AccessPatterns.Searching
import SystemProgramming.CamelCaser.Sentences
import SystemProgramming.DeepfriedDd.Dd
import SystemProgramming.TeachingThreads.ParReduce
import SystemProgramming.MapReduce.Splitter
import SystemProgramming.Cracker.SolveTask
import SystemProgramming.Vector.Insertion
import SystemProgramming.Vector.Capacity
import SystemProgramming.Vector.Sstring
import SystemProgramming.Paging.Segments
import SystemProgramming.Paging.Lru
import SystemProgramming.Networking.RoundTrip
import SystemProgramming.MapReduce.WordCount
import SystemProgramming.MapReduce.PipelineResults
import SystemProgramming.Concurrency.Semamore
import SystemProgramming.Concurrency.Linearization
import SystemProgramming.Cracker.PoolSummary
