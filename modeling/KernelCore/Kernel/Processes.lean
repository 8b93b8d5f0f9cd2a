import KernelCore.Kernel.Basic

/-!
# Processes of the kernel

Starting, killing and reaping processes. A process is only started once paging is set up, and the
tables in use are never those of a process that is being killed.
-/
namespace KernelCore.Kernel

/-- Creates a process and puts it at the end of the run queue. -/
def spawn (k : Kernel) (name : String) (entry : Nat) :
    Except Fault (Except KernelError Pid × Kernel) := do
  if k.paging.kernelSpace.isNone then return (.error .pagingNotReady, k)
  let k := k.mask
  match ← k.scheduler.create k.resources name entry with
  | (.error e, scheduler, resources) =>
    return (.error e, { k with scheduler, resources }.report .error "sched"
      ("failed to create " ++ name ++ ": " ++ e.message))
  | (.ok pid, scheduler, resources) =>
    let k := { k with scheduler := (scheduler.enqueue pid).2, resources }
    return (.ok pid, k.report .info "sched" ("created " ++ name ++ " (PID " ++ toString pid ++ ")"))

/-- Destroys a process, whatever its state. If its root table is in use, the kernel's is loaded
first. -/
def kill (k : Kernel) (pid : Pid) : Except Fault (Except KernelError Unit × Kernel) := do
  match k.scheduler.get? pid with
  | none => return (.error .processNotFound, k)
  | some p =>
    let k := k.mask
    let k := if k.paging.active = some p.space.root then k.withPaging k.paging.switchToKernel.2
      else k
    let (_, scheduler, resources) ← k.scheduler.destroy k.resources pid
    return (.ok (), { k with scheduler, resources }.report .info "sched"
      ("killed PID " ++ toString pid))

/-- Destroys the terminated processes other than the current one and counts them. -/
def reap (k : Kernel) : Except Fault (Nat × Kernel) := do
  let k := k.mask
  let (n, scheduler, resources) ← k.scheduler.reap k.resources
  let k := { k with scheduler, resources }
  if n = 0 then return (n, k)
  return (n, k.report .debug "sched" ("reaped " ++ toString n ++ " process(es)"))

end KernelCore.Kernel
