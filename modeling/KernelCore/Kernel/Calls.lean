import KernelCore.Kernel.Basic
import KernelCore.Syscall

/-!
# System calls of the kernel

A call acts on the current process and takes effect at once; the processor changes hands at the
next timer interrupt.
-/
namespace KernelCore.Kernel

def perform (s : Scheduler) : Syscall → Nat × Scheduler
  | .exit status => (0, s.exit status)
  | .getPid => (s.currentPid.getD 0, s)
  | .sleep ticks => (0, s.sleep ticks)
  | .yield => (0, s.yield)

/-- The call of the current process; an unknown one fails. -/
def handleSyscall (k : Kernel) (number argument : Nat) : Nat × Kernel :=
  match Syscall.decode? number argument with
  | none => (Syscall.failure, k.report .warn "syscall" ("unknown syscall " ++ toString number))
  | some call =>
    let k := k.mask
    let (result, scheduler) := perform k.scheduler call
    (result, { k with scheduler })

end KernelCore.Kernel
