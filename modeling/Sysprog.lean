import Sysprog.Lib.Bytes
import Sysprog.Lib.Run
import Sysprog.Lib.KeyValue
import Sysprog.Lib.LinkedList
import Sysprog.Storage.SimpleLRU
import Sysprog.Storage.Cache
import Sysprog.Storage.Refinement
import Sysprog.Storage.Accounting
import Sysprog.Storage.Recency
import Sysprog.Storage.Eviction
import Sysprog.Storage.Surgery
import Sysprog.Storage.Deletion
import Sysprog.Execute.Command
import Sysprog.Execute.Interleaving
import Sysprog.Execute.Response
import Sysprog.Protocol.Parser
import Sysprog.Protocol.Request
import Sysprog.Protocol.Stream
import Sysprog.Protocol.Numbers
import Sysprog.Protocol.Line
import Sysprog.Protocol.Build
import Sysprog.Network.Connection
import Sysprog.Network.Chunking
import Sysprog.Network.Output
import Sysprog.Network.Framing
import Sysprog.Network.RoundTrip
import Sysprog.Network.Server
import Sysprog.Network.Ownership
import Sysprog.Execute.Contract
import Sysprog.Network.Interest
import Sysprog.Network.HalfClose
import Sysprog.Network.Isolation
import Sysprog.Network.MtBlocking
import Sysprog.Network.Oneshot
import Sysprog.Network.StNonblock
import Sysprog.Network.Lifetime
import Sysprog.Lib.Machine
import Sysprog.Coroutine.Engine
import Sysprog.Coroutine.Completion
import Sysprog.Coroutine.Alive
import Sysprog.Lib.RoundRobin
import Sysprog.Lib.Partition
import Sysprog.Sort.Task
import Sysprog.Sort.Quicksort
import Sysprog.Sort.Merge
import Sysprog.Sort.Pointers
import Sysprog.Sort.Program
import Sysprog.Sort.Bounds
import Sysprog.Sort.Interleaving
import Sysprog.Lib.Memory
import Sysprog.Shell.Parser
import Sysprog.Shell.Lexical
import Sysprog.Shell.Buffers
import Sysprog.Shell.Table
import Sysprog.Shell.Quoting
import Sysprog.Shell.Pipeline
import Sysprog.Lib.Descriptors
import Sysprog.Shell.Wiring
import Sysprog.Logging.Pattern
import Sysprog.Lib.Worklist
import Sysprog.Logging.Reopen
import Sysprog.Logging.Select
import Sysprog.FlatCombiner.Lock
import Sysprog.Lib.Chain
import Sysprog.FlatCombiner.Scan
import Sysprog.FlatCombiner.Batch
import Sysprog.Protocol.Keys
import Sysprog.Shell.Capacity
import Sysprog.Lib.Memcpy
import Sysprog.Coroutine.Stack
import Sysprog.Execute.Simulation
import Sysprog.Network.Substitution
import Sysprog.Network.Clients
import Sysprog.Network.Pointers
import Sysprog.Execute.PlainMap
import Sysprog.Network.Service
import Sysprog.Lib.Monitor
import Sysprog.Storage.ThreadSafe
import Sysprog.Storage.Destructor
import Sysprog.Lib.Census
import Sysprog.Network.Limit
import Sysprog.Lib.Progress
import Sysprog.Threads.Futex
import Sysprog.Threads.SharedMutex
import Sysprog.Shell.Session
import Sysprog.Ipc.SharedMem
import Sysprog.Ipc.MemSort
import Sysprog.Application.Process
import Sysprog.Application.Shutdown
import Sysprog.Network.Join
import Sysprog.Network.MtThreads
import Sysprog.Logging.Start
import Sysprog.Execute.Calls
import Sysprog.Execute.Concurrent
