import KernelCore.Heap.Shared
import KernelCore.Paging.Basic
import KernelCore.Scheduler.Dispatch

/-!
# Creating and destroying processes

A process takes a kernel stack from the heap and an address space from the paging state. Whatever
was taken is given back when a later step fails, and when the process is destroyed.
-/
namespace KernelCore

/-- What processes draw on. -/
structure Resources where
  paging : Paging
  heap : SharedHeap

namespace Resources

/-- A stack and a space with the kernel's mappings, or neither. -/
def take (r : Resources) :
    Except Fault (Except MemoryError (KernelStack × AddressSpace) × Resources) := do
  match ← r.heap.allocate kernelStackSize with
  | (.error e, heap) => return (.error e, { r with heap })
  | (.ok none, heap) => return (.error .heapExhausted, { r with heap })
  | (.ok (some block), heap) =>
    match heap.addressOf block with
    | none => return (.error .heapExhausted, { r with heap := ← heap.free block })
    | some base =>
      match r.paging.create with
      | (.error e, paging) => return (.error e, { paging, heap := ← heap.free block })
      | (.ok space, paging) =>
        match paging.share space with
        | (.error e, paging) =>
          return (.error e, { paging := paging.destroy space, heap := ← heap.free block })
        | (.ok space, paging) =>
          return (.ok (⟨block, base + kernelStackSize⟩, space), { paging, heap })

/-- Gives back what a process owns. -/
def release (r : Resources) (p : Process) : Except Fault Resources := do
  return { paging := r.paging.destroy p.space, heap := ← r.heap.free p.stack.block }

end Resources

namespace Scheduler

/-- The largest number of a process; no process gets it, so that the next number always exists. -/
def lastPid : Pid := 0xFFFFFFFF

/-- The first empty slot, at the end of the table if there is none. -/
def reserveSlot (s : Scheduler) : Nat × Scheduler :=
  match s.slots.findIdx? (·.isNone) with
  | some slot => (slot, s)
  | none => (s.slots.size, { s with slots := s.slots.push none })

/-- Creates a ready process that starts at `entry`. It is not queued. -/
def create (s : Scheduler) (r : Resources) (name : String) (entry : Nat) :
    Except Fault (Except KernelError Pid × Scheduler × Resources) := do
  if lastPid ≤ s.nextPid then return (.error .processTableFull, s, r)
  let (slot, s) := s.reserveSlot
  match ← r.take with
  | (.error e, r) => return (.error (.memory e), s, r)
  | (.ok (stack, space), r) =>
    let pid := s.nextPid
    let p : Process :=
      { pid, space, stack
        name := truncateName name maxNameBytes
        registers := .atEntry entry stack.top space.root
        timeSlice := s.timeSlice }
    return (.ok pid, { s with slots := s.slots.setIfInBounds slot (some p), nextPid := pid + 1 }, r)

/-- Releases a process, whatever its state; the result tells whether there was one. -/
def destroy (s : Scheduler) (r : Resources) (pid : Pid) :
    Except Fault (Bool × Scheduler × Resources) := do
  match s.slotOf pid with
  | none => return (false, s, r)
  | some slot =>
    let (_, s) := s.unlink slot
    let s := if s.current = some slot then { s with current := none } else s
    match s.process? slot with
    | none => return (false, s, r)
    | some p => return (true, { s with slots := s.slots.setIfInBounds slot none }, ← r.release p)

def destroyAll (s : Scheduler) (r : Resources) : List Pid → Except Fault (Scheduler × Resources)
  | [] => .ok (s, r)
  | pid :: pids => do
    let (_, s, r) ← s.destroy r pid
    s.destroyAll r pids

/-- The terminated processes other than the current one, in the order of their slots. -/
def reapable (s : Scheduler) : List Pid :=
  (s.slots.toList.zipIdx.filterMap fun (p, slot) =>
    if s.current = some slot then none else p.filter (·.state == .terminated)).map (·.pid)

/-- Destroys the terminated processes other than the current one and counts them. -/
def reap (s : Scheduler) (r : Resources) : Except Fault (Nat × Scheduler × Resources) := do
  let doomed := s.reapable
  return (doomed.length, ← s.destroyAll r doomed)

end Scheduler

end KernelCore
