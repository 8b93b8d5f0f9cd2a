import Mathlib
import KernelCore.Proofs.Kernel.Consistency

/-!
# The root table in use

Once paging is set up, the root in use after every call is that of the current process, or that of
the kernel space if there is none, and its frame is allocated.
-/
namespace KernelCore.Kernel

variable {k k' k₁ k₂ : Kernel}

/-- The calls that reach the kernel. -/
inductive Call where
  | setUpPaging
  | spawn (name : String) (entry : Nat)
  | kill (pid : Pid)
  | reap
  | syscall (number argument : Nat)
  | timerTick

/-- The kernel after a call. -/
def handle (k : Kernel) : Call → Except Fault Kernel
  | .setUpPaging => return (← k.setUpPaging).2
  | .spawn name entry => return (← k.spawn name entry).2
  | .kill pid => return (← k.kill pid).2
  | .reap => return (← k.reap).2
  | .syscall number argument => return (k.handleSyscall number argument).2
  | .timerTick => return (← k.timerTick).2

def run (k : Kernel) (calls : List Call) : Except Fault Kernel := calls.foldlM handle k

/-- The root in use is that of the current process, or else that of the kernel space, and its frame
is allocated. -/
structure RootInUse (k : Kernel) : Prop where
  active : k.paging.active = some k.paging.platform.root
  owner : ∃ kernel, k.paging.kernelSpace = some kernel ∧
    k.paging.platform.root = (k.scheduler.currentProcess.map (·.space.root)).getD kernel.root
  allocated : k.paging.frames.isAllocated k.paging.platform.root = true

/-- Every call keeps the kernel consistent and the kernel space. -/
theorem Consistent.handle {call : Call} (h : k.Consistent) (hs : k.handle call = .ok k') :
    k'.Consistent ∧ (k.paging.kernelSpace.isSome = true → k'.paging.kernelSpace.isSome = true) := by
  cases call with
  | setUpPaging =>
    obtain ⟨⟨_, _⟩, hr, hs⟩ := Fault.of_bind_eq_ok hs
    cases hs
    obtain ⟨hc, hk⟩ := h.setUpPaging hr
    exact ⟨hc, fun hsome => hk (.inr hsome)⟩
  | spawn name entry =>
    obtain ⟨⟨_, _⟩, hr, hs⟩ := Fault.of_bind_eq_ok hs
    cases hs
    obtain ⟨hc, hk⟩ := h.spawn hr
    exact ⟨hc, fun hsome => hk ▸ hsome⟩
  | kill pid =>
    obtain ⟨⟨_, _⟩, hr, hs⟩ := Fault.of_bind_eq_ok hs
    cases hs
    obtain ⟨hc, hk⟩ := h.kill hr
    exact ⟨hc, fun hsome => hk ▸ hsome⟩
  | reap =>
    obtain ⟨⟨_, _⟩, hr, hs⟩ := Fault.of_bind_eq_ok hs
    cases hs
    obtain ⟨hc, hk⟩ := h.reap hr
    exact ⟨hc, fun hsome => hk ▸ hsome⟩
  | syscall number argument =>
    obtain ⟨hc, hk⟩ := h.handleSyscall number argument
    cases hs
    exact ⟨hc, fun hsome => hk ▸ hsome⟩
  | timerTick =>
    obtain ⟨⟨_, _⟩, hr, hs⟩ := Fault.of_bind_eq_ok hs
    cases hs
    obtain ⟨hc, hk⟩ := h.timerTick hr
    exact ⟨hc, fun hsome => hk ▸ hsome⟩

theorem run_cons (k : Kernel) (call : Call) (calls : List Call) :
    k.run (call :: calls) = k.handle call >>= (·.run calls) := List.foldlM_cons ..

theorem Consistent.run {calls : List Call} (h : k.Consistent) (hr : k.run calls = .ok k') :
    k'.Consistent ∧ (k.paging.kernelSpace.isSome = true → k'.paging.kernelSpace.isSome = true) := by
  induction calls generalizing k with
  | nil =>
    cases hr
    exact ⟨h, id⟩
  | cons call calls ih =>
    rw [run_cons] at hr
    obtain ⟨k₁, hs, hr⟩ := Fault.of_bind_eq_ok hr
    obtain ⟨hc, hk⟩ := h.handle hs
    obtain ⟨hc', hk'⟩ := ih hc hr
    exact ⟨hc', hk' ∘ hk⟩

theorem consistent_boot (m : Platform) (a : FrameAllocator) (heap : SharedHeap) (config : Config) :
    (boot ⟨{ platform := m, frames := a }, heap⟩ config).Consistent := by
  have hc : Kernel.Consistent
      { resources := ⟨{ platform := m, frames := a }, heap⟩, config
        scheduler := .ofTimeSlice config.timeSlice, log := { level := config.logLevel } } :=
    Coherent.initial config.timeSlice m a
  exact hc.report _ _ _

theorem Consistent.rootInUse (h : k.Consistent) (hk : k.paging.kernelSpace.isSome = true) :
    k.RootInUse := by
  obtain ⟨kernel, hkernel⟩ := Option.isSome_iff_exists.mp hk
  obtain ⟨hactive, hroot⟩ := h.loaded kernel hkernel
  refine ⟨hactive.trans (congrArg some hroot.symm), ⟨kernel, hkernel, ?_⟩, ?_⟩
  · rw [hroot, Scheduler.ownRoot, Scheduler.currentTenant_eq, Option.map_map]
    rfl
  · rw [hroot]
    exact h.isAllocated hkernel

theorem exists_of_setUpPaging (k : Kernel) (calls : List Call) (check : Kernel → Bool)
    (h : (k.setUpPaging.toOption.any fun r =>
      r.1.isOk && (r.2.run calls).toOption.any check) = true) :
    ∃ k₁ k₂, k.setUpPaging = .ok (.ok (), k₁) ∧ k₁.run calls = .ok k₂ ∧ check k₂ = true := by
  obtain ⟨⟨result, k₁⟩, hs, hboth⟩ := Fault.exists_of_any h
  obtain ⟨hok, hrun⟩ := Bool.and_eq_true_iff.mp hboth
  obtain ⟨k₂, hr, hc⟩ := Fault.exists_of_any hrun
  cases result with
  | error e => cases hok
  | ok _ => exact ⟨k₁, k₂, hs, hr, hc⟩

/-- After every run of calls that follows a successful setup, the right root is in use. -/
theorem rootInUse_of_run {m : Platform} {a : FrameAllocator} {heap : SharedHeap} {config : Config}
    (before after : List Call)
    (hb : (boot ⟨{ platform := m, frames := a }, heap⟩ config).run before = .ok k₁)
    (hs : k₁.setUpPaging = .ok (.ok (), k₂)) (ha : k₂.run after = .ok k) : k.RootInUse := by
  obtain ⟨hc₁, -⟩ := (consistent_boot m a heap config).run hb
  obtain ⟨hc₂, hk₂⟩ := hc₁.setUpPaging hs
  obtain ⟨hc, hk⟩ := hc₂.run ha
  exact hc.rootInUse (hk (hk₂ (.inl rfl)))

/-- The process that runs is killed. -/
theorem rootInUse_after_kill : ∃ k₁ k₂ : Kernel,
    (boot ⟨{ platform := .ofFrames 12, frames := .ofFrames 12 },
      ⟨some (.ofArena 0 (Array.replicate 8256 0))⟩⟩ { identityMapLimit := pageSize }).setUpPaging =
        .ok (.ok (), k₁) ∧
      k₁.run [.spawn "init" 0, .timerTick, .kill 1] = .ok k₂ ∧ k₂.RootInUse := by
  obtain ⟨k₁, k₂, hs, hr, -⟩ := exists_of_setUpPaging
    (boot ⟨{ platform := .ofFrames 12, frames := .ofFrames 12 },
      ⟨some (.ofArena 0 (Array.replicate 8256 0))⟩⟩ { identityMapLimit := pageSize })
    [.spawn "init" 0, .timerTick, .kill 1] (fun _ => true) (by decide +kernel)
  exact ⟨k₁, k₂, hs, hr, rootInUse_of_run [] _ rfl hs hr⟩

end KernelCore.Kernel
