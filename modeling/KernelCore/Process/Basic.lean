import KernelCore.Paging.Space
import KernelCore.Process.Name
import KernelCore.Process.Registers

/-!
# Processes

A process owns an address space and a kernel stack. Its slot in the process table also holds the
link to the next process of the run queue.
-/
namespace KernelCore

/-- Process numbers have 32 bits and are never used twice. -/
abbrev Pid := Nat

inductive ProcessState where
  /-- Waits for the processor. -/
  | ready
  /-- Owns the processor. -/
  | running
  /-- Sleeps until its wake tick. -/
  | blocked
  /-- Has exited; what it owns is still there. -/
  | terminated
  deriving DecidableEq, Repr

namespace ProcessState

def name : ProcessState → String
  | ready => "Ready"
  | running => "Running"
  | blocked => "Blocked"
  | terminated => "Terminated"

def all : List ProcessState := [ready, running, blocked, terminated]

def ofName? (s : String) : Option ProcessState := all.find? (·.name == s)

theorem ofName?_name (s : ProcessState) : ofName? s.name = some s := by
  cases s <;> decide

end ProcessState

/-- A stack in a block of the heap; it grows down from `top`. -/
structure KernelStack where
  block : Nat
  top : Nat
  deriving DecidableEq, Repr

structure Process where
  pid : Pid
  name : String
  state : ProcessState := .ready
  registers : Registers
  space : AddressSpace
  stack : KernelStack
  priority : Nat := 1
  /-- Ticks left before the process is preempted. -/
  timeSlice : Nat
  /-- The tick at which a blocked process becomes ready. -/
  wakeAt : Option Nat := none
  exitStatus : Option Int := none
  /-- The slot of the next process in the run queue. -/
  next : Option Nat := none
  queued : Bool := false
  deriving DecidableEq, Repr

/-- What a listing tells about a process. -/
structure ProcessInfo where
  pid : Pid
  name : String
  state : ProcessState
  priority : Nat
  timeSlice : Nat
  wakeAt : Option Nat
  exitStatus : Option Int
  stackTop : Nat
  /-- The physical address of the root table. -/
  root : Nat
  deriving DecidableEq, Repr

namespace Process

def info (p : Process) : ProcessInfo where
  pid := p.pid
  name := p.name
  state := p.state
  priority := p.priority
  timeSlice := p.timeSlice
  wakeAt := p.wakeAt
  exitStatus := p.exitStatus
  stackTop := p.stack.top
  root := p.space.root

/-- Becomes ready if its wake tick has come. -/
def wake (now : Nat) (p : Process) : Process :=
  if p.state = .blocked ∧ p.wakeAt.any (· ≤ now) then
    { p with state := .ready, wakeAt := none }
  else p

/-- Gives up the processor; a process in another state is left alone. -/
def demote (p : Process) : Process := if p.state = .running then { p with state := .ready } else p

/-- Takes the processor for a full turn. -/
def promote (slice : Nat) (p : Process) : Process :=
  { p with state := .running, timeSlice := slice }

/-- Gives up the rest of the turn. -/
def yield (slice : Nat) (p : Process) : Process :=
  if p.state = .running then { p with state := .ready, timeSlice := slice } else p

/-- Pays for one tick of running; the last tick of a turn ends it. -/
def charge (slice : Nat) (p : Process) : Process :=
  if p.state = .running then
    if p.timeSlice ≤ 1 then { p with state := .ready, timeSlice := slice }
    else { p with timeSlice := p.timeSlice - 1 }
  else p

def sleepUntil (tick : Nat) (p : Process) : Process :=
  { p with state := .blocked, wakeAt := some tick }

def exit (status : Int) (p : Process) : Process :=
  { p with state := .terminated, exitStatus := some status }

end Process

end KernelCore
