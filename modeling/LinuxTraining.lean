import LinuxTraining.Lib.Machine
import LinuxTraining.Lib.Linearize
import LinuxTraining.Lib.Settle
import LinuxTraining.Lib.Locks
import LinuxTraining.Lib.Bytes
import LinuxTraining.Lib.CInt
import LinuxTraining.Lib.Ledger
import LinuxTraining.Lib.Publish
import LinuxTraining.Kernel
import LinuxTraining.Globalmem.Body
import LinuxTraining.Globalmem.Vfs
import LinuxTraining.Globalmem.FixedFile
import LinuxTraining.Globalmem.Single
import LinuxTraining.Globalmem.Multi
import LinuxTraining.Globalmem.Mutex
import LinuxTraining.Globalmem.Edges
import LinuxTraining.Globalmem.Settle
import LinuxTraining.VmemDisk.Disk
import LinuxTraining.VmemDisk.Transfer
import LinuxTraining.VmemDisk.Setup
import LinuxTraining.VmemDisk.Balance
import LinuxTraining.VmemDisk.Request
import LinuxTraining.VmemDisk.Guard
import LinuxTraining.VmemDisk.Geometry
import LinuxTraining.VmemDisk.Status
import LinuxTraining.VmemDisk.Concurrent
import LinuxTraining.VmemDisk.Torn
import LinuxTraining.VmemDisk.Order
import LinuxTraining.Globalfifo.Driver
import LinuxTraining.Globalfifo.Lock
import LinuxTraining.Globalfifo.Queue
import LinuxTraining.Globalfifo.Linear
import LinuxTraining.Globalfifo.Members
import LinuxTraining.Globalfifo.Discipline
import LinuxTraining.Globalfifo.Shift
import LinuxTraining.Globalfifo.Poll
import LinuxTraining.Globalfifo.Wakeup
import LinuxTraining.Globalfifo.Settle
import LinuxTraining.Globalfifo.Epoll
import LinuxTraining.Globalfifo.Stream
import LinuxTraining.Globalfifo.Platform
import LinuxTraining.Globalfifo.Notify
import LinuxTraining.Globalfifo.Versions
import LinuxTraining.Loading
import LinuxTraining.Registration
import LinuxTraining.Proc
import LinuxTraining.ThreadPool.Pool
import LinuxTraining.ThreadPool.Frame
import LinuxTraining.ThreadPool.Outline
import LinuxTraining.ThreadPool.Rules
import LinuxTraining.ThreadPool.Submit
import LinuxTraining.ThreadPool.Work
import LinuxTraining.ThreadPool.Manage
import LinuxTraining.ThreadPool.Jobs
import LinuxTraining.ThreadPool.Shrink
import LinuxTraining.ThreadPool.Limits
import LinuxTraining.ThreadPool.Settle
import LinuxTraining.ThreadPool.Growth
import LinuxTraining.ThreadPool.ProcessJob
import LinuxTraining.ThreadPool.Lookup
import LinuxTraining.ThreadPool.Tail
import LinuxTraining.ThreadPool.Calls
import LinuxTraining.ThreadPool.Close
import LinuxTraining.ThreadPool.Malloc
import LinuxTraining.ThreadPool.Mutexes
import LinuxTraining.ThreadPool.Leak
import LinuxTraining.ThreadPool.Account
import LinuxTraining.ThreadPool.Startup
import LinuxTraining.ThreadPool.Agree
import LinuxTraining.IoModels.Upper
import LinuxTraining.IoModels.Select
import LinuxTraining.IoModels.MultiProcess
import LinuxTraining.IoModels.Echo
import LinuxTraining.IoModels.Range
import LinuxTraining.IoModels.Pass
import LinuxTraining.IoModels.Service
import LinuxTraining.IoModels.Clients
import LinuxTraining.IoModels.Reads
import LinuxTraining.IoModels.Descriptors
import LinuxTraining.IoModels.Children
