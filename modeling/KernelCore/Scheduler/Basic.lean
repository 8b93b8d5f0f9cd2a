import KernelCore.Process.Basic

/-!
# The process table and the run queue

Processes live in numbered slots. The run queue is a list threaded through the slots: each queued
process holds the slot of the next one.
-/
namespace KernelCore

structure Scheduler where
  slots : Array (Option Process) := #[]
  /-- The slots of the first and the last process of the run queue. -/
  head : Option Nat := none
  tail : Option Nat := none
  /-- The slot of the process that has the processor. -/
  current : Option Nat := none
  nextPid : Pid := 1
  /-- Ticks since the start. -/
  ticks : Nat := 0
  /-- Ticks of a turn. -/
  timeSlice : Nat

namespace Scheduler

/-- An empty table; a turn has at least one tick. -/
def ofTimeSlice (ticks : Nat) : Scheduler := { timeSlice := max ticks 1 }

def process? (s : Scheduler) (slot : Nat) : Option Process := (s.slots[slot]?).join

def update (s : Scheduler) (slot : Nat) (f : Process → Process) : Scheduler :=
  { s with slots := s.slots.modify slot (Option.map f) }

/-- All live processes, in the order of their slots. -/
def processes (s : Scheduler) : List Process := s.slots.toList.filterMap id

def slotOf (s : Scheduler) (pid : Pid) : Option Nat :=
  s.slots.findIdx? fun slot => slot.any (·.pid == pid)

def get? (s : Scheduler) (pid : Pid) : Option Process := (s.slotOf pid).bind s.process?

def currentProcess (s : Scheduler) : Option Process := s.current.bind s.process?

def currentPid (s : Scheduler) : Option Pid := s.currentProcess.map (·.pid)

def updateCurrent (s : Scheduler) (f : Process → Process) : Scheduler :=
  match s.current with
  | some slot => s.update slot f
  | none => s

/-- The live processes in the order of their numbers. -/
def list (s : Scheduler) : List ProcessInfo :=
  (s.processes.map Process.info).mergeSort fun a b => a.pid ≤ b.pid

/-- Up to `fuel` slots along the links from `cursor` on. -/
def linksFrom (s : Scheduler) : Nat → Option Nat → List Nat
  | 0, _ => []
  | _, none => []
  | fuel + 1, some slot =>
    match s.process? slot with
    | some p => slot :: s.linksFrom fuel p.next
    | none => []

/-- The slots of the run queue in order. No slot is in it twice, so their number bounds it. -/
def order (s : Scheduler) : List Nat := s.linksFrom s.slots.size s.head

/-- The run queue. -/
def queue (s : Scheduler) : List Pid := (s.order.filterMap s.process?).map (·.pid)

/-- Puts the process of a slot at the end of the queue, unless it is in it. -/
def link (s : Scheduler) (slot : Nat) : Bool × Scheduler :=
  match s.process? slot with
  | none => (false, s)
  | some p =>
    if p.queued then (false, s)
    else
      let s := s.update slot fun p => { p with queued := true, next := none }
      let s := match s.tail.filter fun tail => (s.process? tail).isSome with
        | some tail => s.update tail fun p => { p with next := some slot }
        | none => { s with head := some slot }
      (true, { s with tail := some slot })

/-- Takes the process of a slot out of the queue, if it is in it. -/
def unlink (s : Scheduler) (slot : Nat) : Bool × Scheduler :=
  match s.process? slot with
  | none => (false, s)
  | some p =>
    if !p.queued then (false, s)
    else
      let before := (s.order.takeWhile (· != slot)).getLast?
      let s := s.update slot fun p => { p with queued := false, next := none }
      let s := match before with
        | some slot => s.update slot fun q => { q with next := p.next }
        | none => { s with head := p.next }
      (true, if s.tail = some slot then { s with tail := before } else s)

/-- Puts a process at the end of the run queue; the result tells whether it was not in it. -/
def enqueue (s : Scheduler) (pid : Pid) : Bool × Scheduler :=
  match s.slotOf pid with
  | some slot => s.link slot
  | none => (false, s)

/-- Takes a process out of the run queue; the result tells whether it was in it. -/
def dequeue (s : Scheduler) (pid : Pid) : Bool × Scheduler :=
  match s.slotOf pid with
  | some slot => s.unlink slot
  | none => (false, s)

theorem process?_update (s : Scheduler) (slot other : Nat) (f : Process → Process) :
    (s.update slot f).process? other =
      if slot = other then (s.process? other).map f else s.process? other := by
  unfold process? update
  rw [Array.getElem?_modify]
  split
  · cases s.slots[other]? with
    | none => rfl
    | some p => cases p <;> rfl
  · rfl

end Scheduler

end KernelCore
