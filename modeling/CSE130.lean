import CSE130.Cartman.Progress
import CSE130.Devices.PartitionScan
import CSE130.Fileman.Errors
import CSE130.Fileman.FileOps
import CSE130.Fileman.Listing
import CSE130.Fileman.WalkBounds
import CSE130.Filesys.ArchiveRoundTrip
import CSE130.Filesys.ByteFiles
import CSE130.Filesys.CacheContent
import CSE130.Filesys.FailedCreate
import CSE130.Filesys.PathArrays
import CSE130.Filesys.PathTraversal
import CSE130.Filesys.WriteLength
import CSE130.KernelLib.Arithmetic
import CSE130.Malloc.Requests
import CSE130.Manpage.Progress
import CSE130.MergeSort.IndexRange
import CSE130.MergeSort.ProcessSort
import CSE130.MergeSort.SegmentBounds
import CSE130.MergeSort.ThreadedSort
import CSE130.Pager.ClockRefinement
import CSE130.Pager.Frequency
import CSE130.Pager.RecentUse
import CSE130.Pager.Residency
import CSE130.Pager.UseCounts
import CSE130.Palloc.HeapPages
import CSE130.Pintos.AlarmClock
import CSE130.Pintos.CondvarSafety
import CSE130.Pintos.Priority
import CSE130.Pintos.SleepLevel
import CSE130.Pintos.ThreadLists
import CSE130.Scheduler.Accounting
import CSE130.Scheduler.Fifo
import CSE130.Scheduler.PriorityDispatch
import CSE130.Scheduler.Quantum
import CSE130.Scheduler.Stats
import CSE130.Userprog.ExecBounds
import CSE130.Userprog.SegmentLoad
import CSE130.Userprog.SyscallHandler
import CSE130.Userprog.Tokenizers
