import KernelCore.Kernel.Basic

/-!
# The timer

At every timer interrupt the kernel decides whether another thread gets the processor. The caller
then switches to it, between the register sets that the kernel names. A thread is a process or,
where there is none, the boot thread.
-/
namespace KernelCore

/-- A change of the process that has the processor; `none` is the boot thread. -/
structure ContextSwitch where
  source : Option Pid
  target : Option Pid
  deriving DecidableEq, Repr

/-- Whose registers are stored or loaded. -/
inductive Thread where
  | boot
  | process (pid : Pid)
  deriving DecidableEq, Repr

namespace Kernel

/-- The text of a side of a switch in the log. -/
def sideName : Option Pid → String
  | none => "None"
  | some pid => "Some(" ++ toString pid ++ ")"

/-- Advances the clock and chooses who runs now; the results are who ran and who runs. -/
def reschedule (s : Scheduler) : Except Fault (Option Pid × Option Pid × Scheduler) := do
  let source := s.currentPid
  let s ← s.tick
  if s.isRunning source then return (source, source, s)
  let (target, s) := s.next
  if s.isRunning target then return (source, target, s)
  return (source, none, s.idle)

/-- Loads the root table of a process, or the kernel's for the boot thread. -/
def loadSpaceOf (k : Kernel) (pid : Option Pid) : Kernel :=
  if k.paging.kernelSpace.isNone then k
  else match pid.bind k.scheduler.get? with
    | some p => k.withPaging (k.paging.switchTo p.space)
    | none => k.withPaging k.paging.switchToKernel.2

/-- The timer interrupt. The result is the switch that the caller has to make, if any. -/
def timerTick (k : Kernel) : Except Fault (Option ContextSwitch × Kernel) := do
  let k := k.mask
  let (source, target, scheduler) ← reschedule k.scheduler
  let k := { k with scheduler }
  if source = target then return (none, k)
  let k := (k.loadSpaceOf target).report .debug "sched"
    ("switch " ++ sideName source ++ " -> " ++ sideName target)
  return (some ⟨source, target⟩, k)

/-- Whose registers a switch stores and whose it loads. A source that is gone stands for the boot
thread; there is no switch to a target that is gone. -/
def contexts (k : Kernel) (c : ContextSwitch) : Option (Thread × Thread) :=
  let thread (pid : Option Pid) : Option Thread :=
    pid.bind fun pid => (k.scheduler.slotOf pid).map fun _ => .process pid
  match c.target, thread c.target with
  | some _, none => none
  | _, target => some ((thread c.source).getD .boot, target.getD .boot)

def registersOf (k : Kernel) : Thread → Registers
  | .boot => k.bootRegisters
  | .process pid => ((k.scheduler.get? pid).map (·.registers)).getD {}

def storeRegisters (k : Kernel) (registers : Registers) : Thread → Kernel
  | .boot => { k with bootRegisters := registers }
  | .process pid =>
    match k.scheduler.slotOf pid with
    | some slot => { k with scheduler := k.scheduler.update slot ({ · with registers }) }
    | none => k

end Kernel

end KernelCore
