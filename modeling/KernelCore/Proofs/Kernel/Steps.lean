import Mathlib
import KernelCore.Proofs.Kernel.Switching
import KernelCore.Proofs.Scheduler.Choice

/-!
# What the calls do to the scheduler

Each call changes the scheduler in one of a few ways. Whatever a run of calls keeps of the scheduler
follows from a look at these.
-/
namespace KernelCore

namespace Kernel

open Scheduler

/-- What a call can do to the scheduler. -/
inductive Step (s : Scheduler) : Call → Scheduler → Prop
  | setUpPaging : Step s .setUpPaging s
  | refused {name : String} {entry : Nat} : Step s (.spawn name entry) s
  | failed {name : String} {entry : Nat} {r r' : Resources} {e : KernelError} {s' : Scheduler}
      (create : s.create r name entry = .ok (.error e, s', r')) : Step s (.spawn name entry) s'
  | spawned {name : String} {entry : Nat} {r r' : Resources} {pid : Pid} {s' : Scheduler}
      (create : s.create r name entry = .ok (.ok pid, s', r')) :
      Step s (.spawn name entry) (s'.enqueue pid).2
  | missing {pid : Pid} (missing : s.get? pid = none) : Step s (.kill pid) s
  | killed {pid : Pid} {r r' : Resources} {found : Bool} {s' : Scheduler}
      (destroy : s.destroy r pid = .ok (found, s', r')) : Step s (.kill pid) s'
  | reaped {r r' : Resources} {s' : Scheduler}
      (destroy : s.destroyAll r s.reapable = .ok (s', r')) : Step s .reap s'
  | unknown {number argument : Nat} (unknown : Syscall.decode? number argument = none) :
      Step s (.syscall number argument) s
  | served {number argument : Nat} {call : Syscall}
      (known : Syscall.decode? number argument = some call) :
      Step s (.syscall number argument) (perform s call).2
  | ticked {source target : Option Pid} {s' : Scheduler}
      (reschedule : reschedule s = .ok (source, target, s')) : Step s .timerTick s'

variable {k k' : Kernel} {call : Call} {s s' : Scheduler}

theorem scheduler_report (k : Kernel) (level : LogLevel) (subsystem message : String) :
    (k.report level subsystem message).scheduler = k.scheduler := (k.report_threads ..).1

theorem step_spawn {name : String} {entry : Nat} {result : Except KernelError Pid}
    (h : k.spawn name entry = .ok (result, k')) :
    Step k.scheduler (.spawn name entry) k'.scheduler := by
  unfold spawn at h
  split at h
  · cases h
    exact .refused
  · obtain ⟨⟨created, s', r'⟩, hc, h⟩ := Fault.of_bind_eq_ok h
    cases created with
    | error e =>
      cases h
      rw [scheduler_report]
      exact .failed hc
    | ok pid =>
      cases h
      rw [scheduler_report]
      exact .spawned hc

theorem step_kill {pid : Pid} {result : Except KernelError Unit}
    (h : k.kill pid = .ok (result, k')) : Step k.scheduler (.kill pid) k'.scheduler := by
  unfold kill at h
  split at h
  · next hnone =>
    cases h
    exact .missing hnone
  · next p _ =>
    obtain ⟨⟨found, s', r'⟩, hd, h⟩ := Fault.of_bind_eq_ok h
    cases h
    rw [scheduler_report]
    have hsame : (if k.mask.paging.active = some p.space.root then
        k.mask.withPaging k.mask.paging.switchToKernel.2 else k.mask).scheduler =
        k.scheduler := by
      split <;> rfl
    rw [hsame] at hd
    exact .killed hd

theorem step_reap {n : Nat} (h : k.reap = .ok (n, k')) : Step k.scheduler .reap k'.scheduler := by
  unfold reap Scheduler.reap at h
  obtain ⟨x, hreap, h⟩ := Fault.of_bind_eq_ok h
  obtain ⟨⟨s', r'⟩, hd, hx⟩ := Fault.of_bind_eq_ok hreap
  cases hx
  dsimp only at h
  split at h
  · cases h
    exact .reaped hd
  · cases h
    rw [scheduler_report]
    exact .reaped hd

theorem step_handleSyscall (k : Kernel) (number argument : Nat) :
    Step k.scheduler (.syscall number argument) (k.handleSyscall number argument).2.scheduler := by
  unfold handleSyscall
  split
  · next hunknown =>
    rw [scheduler_report]
    exact .unknown hunknown
  · next call hknown => exact .served hknown

theorem step_timerTick {result : Option ContextSwitch} (h : k.timerTick = .ok (result, k')) :
    Step k.scheduler .timerTick k'.scheduler := by
  unfold timerTick at h
  obtain ⟨⟨source, target, s'⟩, hr, h⟩ := Fault.of_bind_eq_ok h
  dsimp only at h
  split at h
  · cases h
    exact .ticked hr
  · cases h
    rw [scheduler_report, (loadSpaceOf_threads _ _).1]
    exact .ticked hr

theorem step_of_handle (h : k.handle call = .ok k') : Step k.scheduler call k'.scheduler := by
  cases call with
  | setUpPaging =>
    obtain ⟨⟨result, k'⟩, hs, h⟩ := Fault.of_bind_eq_ok h
    cases h
    obtain ⟨⟨result, paging⟩, -, hs⟩ := Fault.of_bind_eq_ok hs
    cases result <;> cases hs <;> rw [scheduler_report] <;> exact .setUpPaging
  | spawn name entry =>
    obtain ⟨⟨_, _⟩, hs, h⟩ := Fault.of_bind_eq_ok h
    cases h
    exact step_spawn hs
  | kill pid =>
    obtain ⟨⟨_, _⟩, hs, h⟩ := Fault.of_bind_eq_ok h
    cases h
    exact step_kill hs
  | reap =>
    obtain ⟨⟨_, _⟩, hs, h⟩ := Fault.of_bind_eq_ok h
    cases h
    exact step_reap hs
  | syscall number argument =>
    cases h
    exact step_handleSyscall k number argument
  | timerTick =>
    obtain ⟨⟨_, _⟩, hs, h⟩ := Fault.of_bind_eq_ok h
    cases h
    exact step_timerTick hs

theorem tidy_perform (h : s.Tidy) (call : Syscall) : (perform s call).2.Tidy := by
  cases call with
  | exit status => exact h.updateCurrent (Process.core_exit status)
  | getPid => exact h
  | sleep ticks => exact h.updateCurrent (Process.core_sleepUntil _)
  | «yield» => exact h.updateCurrent (Process.core_yield _)

theorem Step.tidy (h : Step s call s') (ht : s.Tidy) : s'.Tidy := by
  cases h with
  | setUpPaging => exact ht
  | refused => exact ht
  | failed hc => exact (ht.create_error hc).1
  | spawned hc =>
    obtain ⟨ho, hs, hb⟩ := ht.boarded_enqueue hc
    exact ht.of_boarded ho hs hb
  | missing => exact ht
  | killed hd => exact (ht.destroy hd).1
  | reaped hd => exact ht.destroyAll hd
  | unknown => exact ht
  | served => exact tidy_perform ht _
  | ticked hr =>
    obtain ⟨s₁, htick, hc, -⟩ := ht.choice_of_reschedule hr
    exact (ht.tick htick).choice hc

theorem tidy_run {calls : List Call} (h : k.scheduler.Tidy) (hr : k.run calls = .ok k') :
    k'.scheduler.Tidy := by
  induction calls generalizing k with
  | nil =>
    cases hr
    exact h
  | cons call calls ih =>
    rw [run_cons] at hr
    obtain ⟨k₁, hs, hr⟩ := Fault.of_bind_eq_ok hr
    exact ih ((step_of_handle hs).tidy h) hr

theorem tidy_boot (r : Resources) (config : Config) : (boot r config).scheduler.Tidy := by
  have hs : (boot r config).scheduler = .ofTimeSlice config.timeSlice := scheduler_report ..
  rw [hs]
  exact tidy_ofTimeSlice _

theorem ready_of_run {m : Platform} {a : FrameAllocator} {heap : SharedHeap} {config : Config}
    {k₁ k₂ : Kernel} {before after : List Call}
    (hb : (boot ⟨{ platform := m, frames := a }, heap⟩ config).run before = .ok k₁)
    (hs : k₁.setUpPaging = .ok (.ok (), k₂)) (ha : k₂.run after = .ok k) :
    k.Consistent ∧ k.paging.kernelSpace.isSome = true ∧ k.scheduler.Tidy := by
  obtain ⟨hc₁, -⟩ := (consistent_boot m a heap config).run hb
  obtain ⟨hc₂, hk₂⟩ := hc₁.setUpPaging hs
  obtain ⟨hc, hk⟩ := hc₂.run ha
  have ht₁ := tidy_run (tidy_boot ..) hb
  have hstep : k₁.handle .setUpPaging = .ok k₂ := by rw [handle, hs]; rfl
  exact ⟨hc, hk (hk₂ (.inl rfl)), tidy_run ((step_of_handle hstep).tidy ht₁) ha⟩

end Kernel

end KernelCore
