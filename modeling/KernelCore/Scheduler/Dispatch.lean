import KernelCore.Error
import KernelCore.Scheduler.Basic

/-!
# Dispatching

Time advances by ticks. Ready processes take turns in the order of the run queue; whoever has the
processor may sleep, exit or give up its turn.
-/
namespace KernelCore.Scheduler

/-- One tick: sleepers in the queue wake when their time has come, and the current process pays
for the tick. The tick counter is a word. -/
def tick (s : Scheduler) : Except Fault Scheduler :=
  match Word.add? s.ticks 1 with
  | none => .error .overflow
  | some now =>
    let s := { s with ticks := now }
    let s := s.order.foldl (fun s slot => s.update slot (·.wake now)) s
    .ok (s.updateCurrent (·.charge s.timeSlice))

/-- The first slot with a ready process along the links from `slot` on, going on at the head of
the queue after its end, until the search is back at `start`. -/
def firstReady (s : Scheduler) (head start : Nat) : Nat → Nat → Option Nat
  | 0, _ => none
  | fuel + 1, slot =>
    match s.process? slot with
    | none => none
    | some p =>
      if p.state = .ready then some slot
      else
        let following := p.next.getD head
        if following = start then none else s.firstReady head start fuel following

/-- Where the search for the next process starts: behind the current process, if it is queued and
has a successor, and at the head of the queue otherwise. -/
def scanStart (s : Scheduler) (head : Nat) : Nat :=
  ((s.currentProcess.filter (·.queued)).bind (·.next)).getD head

/-- Makes the process of a slot the current one, for a full turn. -/
def promote (s : Scheduler) (slot : Nat) : Scheduler :=
  let s := match s.current with
    | some before => if before = slot then s else s.update before (·.demote)
    | none => s
  { s with current := some slot }.update slot (·.promote s.timeSlice)

/-- Picks the process that runs next. Without a ready one the current process is the result and
nothing changes. -/
def next (s : Scheduler) : Option Pid × Scheduler :=
  match s.head with
  | none => (none, s)
  | some head =>
    let start := s.scanStart head
    match s.firstReady head start s.slots.size start with
    | some slot =>
      let s := s.promote slot
      (s.currentPid, s)
    | none => (s.currentPid, s)

/-- No process has the processor afterwards. -/
def idle (s : Scheduler) : Scheduler := { s.updateCurrent (·.demote) with current := none }

/-- Blocks the current process for a number of ticks. -/
def sleep (s : Scheduler) (ticks : Nat) : Scheduler :=
  s.updateCurrent (·.sleepUntil (Word.saturatingAdd s.ticks ticks))

/-- The current process has ended. What it owns stays until it is reaped. -/
def exit (s : Scheduler) (status : Int) : Scheduler := s.updateCurrent (·.exit status)

/-- The current process gives up the rest of its turn. -/
def yield (s : Scheduler) : Scheduler := s.updateCurrent (·.yield s.timeSlice)

def isRunning (s : Scheduler) (pid : Option Pid) : Bool :=
  (pid.bind s.get?).any (·.state == .running)

end KernelCore.Scheduler
