import KernelCore.Log
import KernelCore.Scheduler.Lifecycle

/-!
# The kernel

The kernel holds one of each part and is the only one to change them. Every change is made in a
section that no interrupt can enter.
-/
namespace KernelCore

structure Kernel where
  resources : Resources
  scheduler : Scheduler
  log : Log
  config : Config
  /-- The registers of the boot thread while a process runs. -/
  bootRegisters : Registers := {}

/-- Memory usage at a point in time. -/
structure MemoryStats where
  totalFrames : Nat
  freeFrames : Nat
  physicalFreeBytes : Nat
  physicalUsedBytes : Nat
  heapFreeBytes : Nat
  heapUsedBytes : Nat
  /-- The largest request that the heap could serve. -/
  heapLargestFree : Nat
  deriving DecidableEq, Repr

namespace Kernel

def paging (k : Kernel) : Paging := k.resources.paging

def withPaging (k : Kernel) (paging : Paging) : Kernel :=
  { k with resources := { k.resources with paging } }

def withPlatform (k : Kernel) (platform : Platform) : Kernel :=
  k.withPaging { k.paging with platform }

/-- Enters a section that no interrupt can enter. -/
def mask (k : Kernel) : Kernel := k.withPlatform k.paging.platform.mask

/-- Logs a message and puts its line out. -/
def report (k : Kernel) (level : LogLevel) (subsystem message : String) : Kernel :=
  match k.log.write level subsystem message with
  | (none, log) => { k with log }
  | (some text, log) => { k.withPlatform (k.paging.platform.emit (.line text)) with log }

/-- A kernel over the given resources; it reports how much memory it got. -/
def boot (resources : Resources) (config : Config) : Kernel :=
  let k : Kernel :=
    { resources, config
      scheduler := .ofTimeSlice config.timeSlice
      log := { level := config.logLevel } }
  let frames := resources.paging.frames
  k.report .info "pfa"
    (toString frames.total ++ " frames, " ++ toString (frames.freeBytes / 1024) ++ " KiB free")

/-- Sets up the kernel space and loads it. -/
def setUpPaging (k : Kernel) : Except Fault (Except KernelError Unit × Kernel) := do
  let k := k.mask
  match ← k.paging.setUp k.config with
  | (.ok (), paging) =>
    let root := (paging.kernelSpace.map (·.root)).getD 0
    let size := k.config.identityMapLimit / (1024 * 1024)
    return (.ok (), (k.withPaging paging).report .info "vmm"
      ("paging enabled, " ++ toString size ++ " MiB identity-mapped, root 0x" ++
        Entry.hexDigits false root))
  | (.error e, paging) =>
    return (.error (.memory e),
      (k.withPaging paging).report .error "vmm" ("paging init failed: " ++ e.message))

/-- The frames, and the heap if there is one. -/
def memoryStats (k : Kernel) : Except Fault MemoryStats := do
  let frames := k.paging.frames
  let (free, used, largest) ← match k.resources.heap.heap with
    | none => pure (0, 0, 0)
    | some h => do pure (← h.freeBytes, ← h.usedBytes, ← h.largestFree)
  return {
    totalFrames := frames.total
    freeFrames := frames.free
    physicalFreeBytes := frames.freeBytes
    physicalUsedBytes := frames.usedBytes
    heapFreeBytes := free
    heapUsedBytes := used
    heapLargestFree := largest }

def process? (k : Kernel) (pid : Pid) : Option ProcessInfo :=
  (k.scheduler.get? pid).map Process.info

def list (k : Kernel) : List ProcessInfo := k.scheduler.list

end Kernel

end KernelCore
