import KernelCore.Word
import KernelCore.Error
import KernelCore.Config
import KernelCore.Frames.Region
import KernelCore.Frames.Allocator
import KernelCore.Bytes
import KernelCore.Heap.Header
import KernelCore.Heap.Basic
import KernelCore.Heap.Shared
import KernelCore.Paging.Entry
import KernelCore.Paging.Table
import KernelCore.Platform
import KernelCore.Paging.Walk
import KernelCore.Paging.Space
import KernelCore.Paging.Basic
import KernelCore.Process.Registers
import KernelCore.Process.Name
import KernelCore.Process.Basic
import KernelCore.Scheduler.Basic
import KernelCore.Scheduler.Dispatch
import KernelCore.Scheduler.Lifecycle
import KernelCore.Log
import KernelCore.Syscall
import KernelCore.Kernel.Basic
import KernelCore.Kernel.Processes
import KernelCore.Kernel.Timer
import KernelCore.Kernel.Calls
import KernelCore.Processor.Basic
import KernelCore.Processor.Serial
import KernelCore.Processor.Window
import KernelCore.Processor.Lock
import KernelCore.Json.Value
import KernelCore.Json.Reader
import KernelCore.Json.Record
import KernelCore.Proofs.Paging.Isolation
import KernelCore.Proofs.Paging.MapLaw
import KernelCore.Proofs.Heap.Run
import KernelCore.Proofs.Kernel.RootInUse
import KernelCore.Proofs.Paging.Conservation
import KernelCore.Proofs.Paging.Failure
import KernelCore.Proofs.Paging.UserAccess
import KernelCore.Proofs.Paging.Initial
import KernelCore.Proofs.Heap.Handles
import KernelCore.Proofs.Scheduler.Dispatching
import KernelCore.Proofs.Scheduler.Links
import KernelCore.Proofs.Scheduler.Queue
import KernelCore.Proofs.Scheduler.QueueRun
import KernelCore.Proofs.Kernel.Switching
import KernelCore.Proofs.Kernel.Resumption
import KernelCore.Proofs.Scheduler.Turns
import KernelCore.Proofs.Scheduler.Selection
import KernelCore.Proofs.Scheduler.Tidy
import KernelCore.Proofs.Kernel.Steps
import KernelCore.Proofs.Kernel.WorkConservation
import KernelCore.Proofs.Scheduler.Waiting
import KernelCore.Proofs.Kernel.Fairness
import KernelCore.Proofs.Kernel.Finality
import KernelCore.Proofs.Heap.Payloads
import KernelCore.Proofs.Frames.Counting
import KernelCore.Proofs.Frames.Faultless
import KernelCore.Proofs.Frames.FirstFit
import KernelCore.Proofs.Scheduler.Discipline
import KernelCore.Proofs.Heap.Forgery
import KernelCore.Proofs.Scheduler.Numbers
import KernelCore.Proofs.Processor.Masking
import KernelCore.Proofs.Scheduler.Sleepers
import KernelCore.Proofs.Kernel.Sleep
import KernelCore.Proofs.Kernel.Slices
import KernelCore.Proofs.Kernel.Atomicity
import KernelCore.Proofs.Resources.Accounting
import KernelCore.Proofs.Paging.PageWalk
import KernelCore.Proofs.Paging.FixedWindow
import KernelCore.Proofs.Paging.Unmapping
import KernelCore.Proofs.Paging.KernelView
import KernelCore.Proofs.Scheduler.Scan
import KernelCore.Proofs.Heap.FirstFit
import KernelCore.Proofs.Heap.ReleaseOrder
import KernelCore.Proofs.Heap.StaleHandles
import KernelCore.Proofs.Heap.Grants
import KernelCore.Proofs.Frames.Regions
import KernelCore.Proofs.Frames.Seeding
import KernelCore.Proofs.Kernel.Listing
import KernelCore.Proofs.Log.History
import KernelCore.Proofs.Log.Recent
import KernelCore.Proofs.Processor.Reach
import KernelCore.Proofs.Heap.Progress
import KernelCore.Proofs.Heap.Exposure
import KernelCore.Proofs.Process.Truncation
import KernelCore.Proofs.Scheduler.Names
import KernelCore.Proofs.Json.Records
