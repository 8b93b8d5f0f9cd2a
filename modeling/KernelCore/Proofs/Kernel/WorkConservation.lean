import Mathlib
import KernelCore.Proofs.Kernel.Stretches

/-!
# Work conservation

Whenever a timer interrupt is over, the processor is with a running process, or no process could use
it. The interrupt asks for a switch exactly if another thread gets the processor, and a process that
has ended never keeps it.
-/
namespace KernelCore

namespace Scheduler

variable {s : Scheduler} {i : Nat} {pid : Pid} {p : Process}

theorem mem_reapable (hp : s.process? i = some p) (hc : s.current ≠ some i)
    (hended : p.state = .terminated) : p.pid ∈ s.reapable :=
  mem_reapable_iff.mpr ⟨i, p, hp, hc, hended, rfl⟩

theorem Engaged.state_current (h : s.Engaged) (hc : s.current = some i)
    (hp : s.process? i = some p) : p.state = .running := by
  obtain ⟨slot, q, hslot, hq, hr, -⟩ | ⟨hnone, -⟩ := h
  · obtain rfl := Option.some.inj (hc.symm.trans hslot)
    obtain rfl := Option.some.inj (hp.symm.trans hq)
    exact hr
  · rw [hnone] at hc
    cases hc

end Scheduler

namespace Kernel

open Scheduler

/-- What a timer interrupt comes to. -/
structure Interrupted (k : Kernel) (result : Option ContextSwitch) (k' : Kernel) : Prop where
  engaged : k'.scheduler.Engaged
  switch : result = if k.scheduler.currentPid = k'.scheduler.currentPid then none
    else some ⟨k.scheduler.currentPid, k'.scheduler.currentPid⟩
  rootInUse : k'.RootInUse
  ended : ∀ pid p, k.scheduler.get? pid = some p → p.state = .terminated →
    k'.scheduler.currentPid ≠ some pid ∧ pid ∈ k'.scheduler.reapable ∧
      ∀ n k'', k'.reap = .ok (n, k'') → ¬ k''.scheduler.Lives pid

variable {k k' k₁ k₂ : Kernel}

theorem exists_timerTick (h : k.scheduler.Tidy) (ht : k.scheduler.ticks < Word.maximum) :
    ∃ s₁ k', k.scheduler.tick = .ok s₁ ∧ s₁.Choice k'.scheduler ∧
      k.timerTick = .ok (if k.scheduler.currentPid = k'.scheduler.currentPid then none
        else some ⟨k.scheduler.currentPid, k'.scheduler.currentPid⟩, k') := by
  obtain ⟨s₁, hs₁⟩ := exists_tick ht
  obtain ⟨s', hr, hc⟩ := h.reschedule hs₁
  have hr : reschedule k.mask.scheduler = .ok (k.scheduler.currentPid, s'.currentPid, s') := hr
  have hload := fun k : Kernel => (k.loadSpaceOf_threads s'.currentPid).1
  rw [timerTick, hr]
  by_cases hsame : k.scheduler.currentPid = s'.currentPid
  · refine ⟨s₁, { k.mask with scheduler := s' }, hs₁, hc, ?_⟩
    rw [if_pos hsame]
    exact if_pos hsame
  · refine ⟨s₁, ({ k.mask with scheduler := s' }.loadSpaceOf s'.currentPid).report .debug "sched"
      ("switch " ++ sideName k.scheduler.currentPid ++ " -> " ++ sideName s'.currentPid), hs₁, ?_⟩
    rw [scheduler_report, hload, if_neg hsame]
    exact ⟨hc, if_neg hsame⟩

theorem not_lives_reap {n : Nat} {pid : Pid} (h : k.scheduler.Tidy)
    (hmem : pid ∈ k.scheduler.reapable) (hr : k.reap = .ok (n, k')) : ¬ k'.scheduler.Lives pid := by
  have hstep := step_reap hr
  cases hstep with
  | reaped hd =>
    obtain ⟨-, hlives, -⟩ := h.toOrderly.destroyAll hd
    exact fun hl => ((hlives pid).mp hl).2 hmem

/-- In every state after a setup in which the clock is not at its end, a timer interrupt leaves the
processor with the only running process, or with nobody if no process is running or ready. It tells
who had the processor and who has it, unless that is the same, and whoever had ended can be
reaped. -/
theorem timerTick_conserves_work {m : Platform} {a : FrameAllocator} {heap : SharedHeap}
    {config : Config} (before after : List Call)
    (hb : (boot ⟨{ platform := m, frames := a }, heap⟩ config).run before = .ok k₁)
    (hs : k₁.setUpPaging = .ok (.ok (), k₂)) (ha : k₂.run after = .ok k)
    (ht : k.scheduler.ticks < Word.maximum) :
    ∃ result k', k.timerTick = .ok (result, k') ∧ Interrupted k result k' := by
  obtain ⟨hconsistent, hspace, htidy⟩ := ready_of_run hb hs ha
  obtain ⟨s₁, k', hs₁, hc, htick⟩ := exists_timerTick htidy ht
  obtain ⟨hconsistent', hkernel⟩ := hconsistent.timerTick htick
  have htidy₁ := htidy.tick hs₁
  have htidy' := htidy₁.choice hc
  have hengaged := htidy₁.engaged hc
  refine ⟨_, k', htick, hengaged, rfl, hconsistent'.rootInUse (hkernel ▸ hspace),
    fun pid p hp hended => ?_⟩
  obtain ⟨i, hi, rfl⟩ := htidy.numbered.process?_of_get? hp
  have hkept : s₁.process? i = some p := by
    rw [(ticked hs₁).process?, hi, Option.map_some,
      afterTick_of_ne (by simp [hended]) (by simp [hended])]
  have hi' := hc.process?_of_terminated hkept hended
  have hnot : k'.scheduler.current ≠ some i := fun hcurrent => by
    rw [hengaged.state_current hcurrent hi'] at hended
    cases hended
  have hmem := mem_reapable hi' hnot hended
  exact ⟨ne_of_mem_reapable htidy'.numbered hmem, hmem, fun n k'' hr =>
    not_lives_reap htidy' hmem hr⟩

/-- The only process has exited. -/
theorem timerTick_after_exit : ∃ k₁ k₂, forOneProcess.setUpPaging = .ok (.ok (), k₁) ∧
    k₁.run [.spawn "init" 0, .timerTick, .syscall 0 0] = .ok k₂ ∧
      k₂.scheduler.ticks < Word.maximum ∧
      ∃ result k', k₂.timerTick = .ok (result, k') ∧ Interrupted k₂ result k' := by
  obtain ⟨k₁, k₂, hs, hr, hc⟩ := exists_of_setUpPaging forOneProcess
    [.spawn "init" 0, .timerTick, .syscall 0 0]
    (fun k => decide (k.scheduler.ticks < Word.maximum)) (by decide +kernel)
  have ht := of_decide_eq_true hc
  exact ⟨k₁, k₂, hs, hr, ht, timerTick_conserves_work [] _ rfl hs hr ht⟩

end Kernel

end KernelCore
