/-!
# Configuration

The fixed sizes of the kernel core and the settings that a boot loader chooses.
-/
namespace KernelCore

/-- Bytes of a page and of a physical frame. -/
def pageSize : Nat := 4096

/-- Entries of a page table at every level. -/
def tableEntries : Nat := 512

/-- Bytes of low memory that a kernel maps unless told otherwise. -/
def defaultMapLimit : Nat := 16 * 1024 * 1024

/-- Bytes of the heap arena of a bare machine. -/
def heapArenaSize : Nat := 16 * 1024 * 1024

/-- Heap payloads start at multiples of this and are as long as multiples of it. -/
def heapAlignment : Nat := 16

/-- Bytes of a process's kernel stack. -/
def kernelStackSize : Nat := 8 * 1024

/-- Ticks of a turn unless told otherwise. -/
def defaultTimeSlice : Nat := 10

/-- Timer ticks per second. -/
def timerFrequency : Nat := 1000

/-- Bytes of the longest process name kept. -/
def maxNameBytes : Nat := 63

/-- The name that the boot image reports. -/
def systemName : String := "Lumen OS"

/-- Severity of a log line, from the most to the least verbose. -/
inductive LogLevel where
  | debug
  | info
  | warn
  | error
  deriving DecidableEq, Repr

namespace LogLevel

def rank : LogLevel → Nat
  | debug => 0
  | info => 1
  | warn => 2
  | error => 3

def name : LogLevel → String
  | debug => "Debug"
  | info => "Info"
  | warn => "Warn"
  | error => "Error"

def all : List LogLevel := [debug, info, warn, error]

def ofName? (s : String) : Option LogLevel := all.find? (·.name == s)

theorem ofName?_name (l : LogLevel) : ofName? l.name = some l := by
  cases l <;> decide

end LogLevel

structure Config where
  /-- Ticks that a process runs before it is preempted. -/
  timeSlice : Nat := defaultTimeSlice
  /-- Bytes of low memory mapped at their own addresses. -/
  identityMapLimit : Nat := defaultMapLimit
  /-- Lines below this level are dropped. -/
  logLevel : LogLevel := .info
  /-- Whether the kernel space takes over the upper half of the tables in use at boot. -/
  inheritUpperHalf : Bool := false
  deriving DecidableEq, Repr

end KernelCore
