import KernelCore.Processor.Basic

/-!
# Locks that mask interrupts

Whoever takes the lock first masks interrupts, so no handler waits for a lock that the interrupted
code holds. Giving the lock back restores the interrupts as taking it found them.
-/
namespace KernelCore

structure InterruptLock (α : Type) where
  value : α
  /-- While the lock is held: whether giving it back has to enable interrupts. -/
  guard : Option Bool := none
  deriving DecidableEq, Repr

namespace InterruptLock

variable {α : Type}

def isLocked (l : InterruptLock α) : Bool := l.guard.isSome

/-- Takes a free lock. -/
def acquire (l : InterruptLock α) (p : Processor) : InterruptLock α × Processor :=
  let (restore, p) := p.enter
  ({ l with guard := some restore }, p)

/-- Gives a lock back; the result tells whether it was held. -/
def release (l : InterruptLock α) (p : Processor) : Bool × InterruptLock α × Processor :=
  match l.guard with
  | none => (false, l, p)
  | some restore => (true, { l with guard := none }, .leave restore p)

end InterruptLock

end KernelCore
