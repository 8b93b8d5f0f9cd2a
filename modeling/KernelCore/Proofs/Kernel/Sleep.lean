import Mathlib
import KernelCore.Proofs.Kernel.WorkConservation
import KernelCore.Proofs.Scheduler.Sleepers

/-!
# Sleep

A process that asks for sleep is blocked until the tick it asked for, and at least until the next
one. That tick wakes it, whatever the other processes do in the meantime.
-/
namespace KernelCore

namespace Scheduler

variable {s s' : Scheduler} {pid : Pid} {P : Process → Prop}

theorem Engaged.currentPid_ne (h : s.Engaged) (hn : s.Numbered) (hhas : s.Has pid P)
    (hP : ∀ p, P p → p.state ≠ .running) : s.currentPid ≠ some pid := by
  intro hc
  obtain ⟨slot, t, hcurrent, hseat, rfl⟩ := exists_of_currentPid hc
  obtain ⟨p, hp, rfl⟩ := Option.map_eq_some_iff.mp hseat
  obtain ⟨q, hq, hholds⟩ := hn.get?_of_has hhas
  obtain rfl := Option.some.inj (hq.symm.trans (hn.get?_pid hp))
  exact hP q hholds (h.state_current hcurrent hp)

theorem Has.not_mem_reapable (h : s.Has pid P) (hn : s.Numbered)
    (hP : ∀ p, P p → p.state ≠ .terminated) : pid ∉ s.reapable := by
  intro hm
  obtain ⟨slot, p, hp, -, hended, rfl⟩ := mem_reapable_iff.mp hm
  obtain ⟨q, hq, hholds⟩ := hn.get?_of_has h
  obtain rfl := Option.some.inj (hq.symm.trans (hn.get?_pid hp))
  exact hP q hholds hended

theorem Has.updateCurrent (h : s.Has pid P) {f : Process → Process}
    (hf : ∀ p, (f p).core = p.core) (hne : s.currentPid ≠ some pid) :
    (s.updateCurrent f).Has pid P := by
  refine h.changed (changed_updateCurrent hf s) fun i p hp hpid hholds => ?_
  have hi : s.current ≠ some i := by
    intro hc
    refine hne ?_
    rw [currentPid, currentProcess, hc, Option.bind_some, hp, Option.map_some, hpid]
  rwa [if_neg hi]

end Scheduler

namespace Kernel

open Scheduler

variable {k k' : Kernel} {call : Call} {calls : List Call} {s s' : Scheduler} {pid : Pid}
variable {since wakeTick : Nat}

theorem Step.ticks (h : Step s call s') (ht : s.Tidy) : s'.ticks = s.ticks + call.isTick.toNat := by
  cases h with
  | setUpPaging => rfl
  | refused => rfl
  | failed hc => exact ticks_create hc
  | spawned hc => exact (ticks_enqueue _ _).trans (ticks_create hc)
  | missing => rfl
  | killed hd => exact ticks_destroy hd
  | reaped hd => exact ticks_destroyAll hd
  | unknown => rfl
  | @served _ _ asked =>
    cases asked with
    | getPid => rfl
    | exit | sleep | «yield» => exact s.ticks_updateCurrent _
  | ticked hr =>
    obtain ⟨s₁, htick, hc, -⟩ := ht.choice_of_reschedule hr
    exact hc.ticks.trans (Scheduler.ticked htick).ticks

/-- A process sleeps that asked for it in a given tick; after that tick it has lost the
processor. -/
structure Sleeps (pid : Pid) (since wakeTick : Nat) (s : Scheduler) : Prop where
  asleep : s.Has pid (·.Asleep wakeTick)
  since_le : since ≤ s.ticks
  away : since < s.ticks → s.currentPid ≠ some pid

/-- Nobody kills the process, and it makes no further call in the tick in which it asked for
sleep. -/
def Undisturbed (pid : Pid) (since : Nat) (k : Kernel) : Call → Prop
  | .kill q => q ≠ pid
  | .syscall .. => k.scheduler.ticks ≠ since
  | _ => True

instance (pid : Pid) (since : Nat) (k : Kernel) : ∀ call, Decidable (Undisturbed pid since k call)
  | .kill q => inferInstanceAs (Decidable (q ≠ pid))
  | .syscall .. => inferInstanceAs (Decidable (k.scheduler.ticks ≠ since))
  | .setUpPaging | .spawn .. | .reap | .timerTick => isTrue trivial

theorem sleeps_perform {asked : Syscall} (h : s.Has pid (·.Asleep wakeTick))
    (hne : s.currentPid ≠ some pid) : (perform s asked).2.Has pid (·.Asleep wakeTick) := by
  cases asked with
  | exit status => exact h.updateCurrent (Process.core_exit status) hne
  | getPid => exact h
  | sleep ticks => exact h.updateCurrent (Process.core_sleepUntil _) hne
  | «yield» => exact h.updateCurrent (Process.core_yield _) hne

theorem Sleeps.of_currentPid (h : Sleeps pid since wakeTick s)
    (hhas : s'.Has pid (·.Asleep wakeTick)) (hticks : s'.ticks = s.ticks)
    (hc : s'.currentPid = s.currentPid) : Sleeps pid since wakeTick s' :=
  ⟨hhas, hticks ▸ h.since_le, fun hlt => hc ▸ h.away (hticks ▸ hlt)⟩

/-- Every call but the tick that wakes it lets a process sleep on. -/
theorem Sleeps.step (h : Sleeps pid since wakeTick k.scheduler) (ht : k.scheduler.Tidy)
    (hs : Step k.scheduler call s') (hallowed : Undisturbed pid since k call)
    (hlt : s'.ticks < max wakeTick (since + 1)) : Sleeps pid since wakeTick s' := by
  have hticks := hs.ticks ht
  have hunhooked (p p' : Process) : p'.unhooked = p.unhooked → p.Asleep wakeTick →
      p'.Asleep wakeTick := Process.Asleep.of_unhooked
  cases hs with
  | setUpPaging => exact h
  | refused => exact h
  | failed hc =>
    refine h.of_currentPid (h.asleep.create hc) hticks ?_
    rw [currentPid_eq, currentPid_eq, (ht.create_error hc).2.1.currentTenant]
  | spawned hc =>
    have hcurrent := (ht.boarded_enqueue hc).2.2.currentPid
    exact h.of_currentPid ((h.asleep.create hc).rehung (rehung_enqueue ..) hunhooked) hticks
      hcurrent
  | missing => exact h
  | killed hd =>
    have hcurrent := (destroy_pids ht.numbered hd).2.1
    refine ⟨h.asleep.destroy (Ne.symm hallowed) hd hunhooked, hticks ▸ h.since_le, fun hlt => ?_⟩
    rw [hcurrent]
    split
    · exact nofun
    · exact h.away (hlt.trans_eq hticks)
  | reaped hd =>
    have hnot := h.asleep.not_mem_reapable ht.numbered fun p hp => by simp [hp.1]
    refine h.of_currentPid (h.asleep.destroyAll hnot hd hunhooked) hticks ?_
    exact (destroyAll_pids ht.numbered (fun q hq => ne_of_mem_reapable ht.numbered hq) hd).2
  | unknown => exact h
  | @served _ _ asked known =>
    have haway := h.away (lt_of_le_of_ne h.since_le (Ne.symm hallowed))
    refine h.of_currentPid (sleeps_perform h.asleep haway) hticks ?_
    rw [currentPid_eq, currentPid_eq, (stays_perform _ asked).settled.currentTenant]
  | ticked hr =>
    obtain ⟨s₁, htick, hc, -⟩ := ht.choice_of_reschedule hr
    have ht₁ := ht.tick htick
    have hnow : k.scheduler.ticks + 1 < max wakeTick (since + 1) := hticks ▸ hlt
    have hearly : k.scheduler.ticks + 1 < wakeTick := by
      have := h.since_le
      omega
    have hhas := (h.asleep.tick_of_lt htick hearly).choice_of_asleep hc
    refine ⟨hhas, hticks ▸ Nat.le_succ_of_le h.since_le, fun _ => ?_⟩
    exact (ht₁.engaged hc).currentPid_ne (ht₁.choice hc).numbered hhas fun p hp => by simp [hp.1]

/-- What a process that asked for sleep in a given tick comes to: it sleeps until it is woken. -/
theorem Throughout.sleeps (hstretch : k.Throughout (Undisturbed pid since) calls)
    (ht : k.scheduler.Tidy) (h : Sleeps pid since wakeTick k.scheduler)
    (hr : k.run calls = .ok k') : k'.scheduler.Tidy ∧ since ≤ k'.scheduler.ticks ∧
      (k'.scheduler.ticks < max wakeTick (since + 1) → Sleeps pid since wakeTick k'.scheduler) := by
  refine hstretch.run (fun k => k.scheduler.Tidy ∧ since ≤ k.scheduler.ticks ∧
    (k.scheduler.ticks < max wakeTick (since + 1) → Sleeps pid since wakeTick k.scheduler)) ?_
    ⟨ht, h.since_le, fun _ => h⟩ hr
  intro k call k' ⟨ht, hle, hsleeps⟩ hallowed hs
  have hstep := step_of_handle hs
  have hticks := hstep.ticks ht
  refine ⟨hstep.tidy ht, by omega, fun hlt => ?_⟩
  exact (hsleeps (by omega)).step ht hstep hallowed hlt

theorem Sleeps.timerTick (h : Sleeps pid since wakeTick k.scheduler) (ht : k.scheduler.Tidy)
    (hdue : k.scheduler.ticks + 1 = max wakeTick (since + 1))
    (hmax : k.scheduler.ticks < Word.maximum) :
    ∃ switch k', k.timerTick = .ok (switch, k') ∧
      k'.scheduler.ticks = k.scheduler.ticks + 1 ∧
      ∃ p, k'.scheduler.get? pid = some p ∧ p.Awake := by
  obtain ⟨s₁, k', htick, hc, hresult⟩ := exists_timerTick ht hmax
  have ht₁ := ht.tick htick
  have hready := h.asleep.tick_of_le ht htick (hdue ▸ Nat.le_max_left ..)
  exact ⟨_, k', hresult, hc.ticks.trans (Scheduler.ticked htick).ticks,
    (ht₁.choice hc).numbered.get?_of_has (hready.choice_of_ready hc)⟩

/-- The current process asks for sleep in some tick, makes no further call in that tick and is not
killed, while anything else may happen. It is blocked until the tick it asked for, and at least
until the next one, and the timer interrupt of that tick leaves it ready or running, with no wake
tick. -/
theorem sleep_ends_on_time {r : Resources} {config : Config} {before stretch : List Call}
    {ticks : Nat} (hb : (boot r config).run before = .ok k)
    (hc : k.scheduler.currentPid = some pid)
    (hstretch : (k.handleSyscall 9 ticks).2.Throughout (Undisturbed pid k.scheduler.ticks) stretch)
    (hr : (k.handleSyscall 9 ticks).2.run stretch = .ok k') :
    (k'.scheduler.ticks <
        max (Word.saturatingAdd k.scheduler.ticks ticks) (k.scheduler.ticks + 1) →
      ∃ p, k'.scheduler.get? pid = some p ∧ p.state = .blocked) ∧
    (k'.scheduler.ticks + 1 =
        max (Word.saturatingAdd k.scheduler.ticks ticks) (k.scheduler.ticks + 1) →
      k'.scheduler.ticks < Word.maximum →
      ∃ switch k'', k'.timerTick = .ok (switch, k'') ∧
        k''.scheduler.ticks = k'.scheduler.ticks + 1 ∧
        ∃ p, k''.scheduler.get? pid = some p ∧ (p.state = .ready ∨ p.state = .running) ∧
          p.wakeAt = none) := by
  have ht := tidy_run (tidy_boot r config) hb
  have hstep := step_handleSyscall k 9 ticks
  have hasleep : Sleeps pid k.scheduler.ticks (Word.saturatingAdd k.scheduler.ticks ticks)
      (k.handleSyscall 9 ticks).2.scheduler :=
    ⟨asleep_sleep hc ticks, (hstep.ticks ht).ge, fun hlt => absurd hlt (hstep.ticks ht).not_gt⟩
  obtain ⟨ht', hle, hsleeps⟩ := hstretch.sleeps (hstep.tidy ht) hasleep hr
  constructor
  · intro hlt
    obtain ⟨p, hp, hblocked, -⟩ := ht'.numbered.get?_of_has (hsleeps hlt).asleep
    exact ⟨p, hp, hblocked⟩
  · intro hdue hmax
    exact (hsleeps (by omega)).timerTick ht' hdue hmax

/-- The only process sleeps for two ticks; one of them passes. -/
theorem sleep_for_two_ticks : ∃ k k',
    forOneProcess.run [.setUpPaging, .spawn "a" 0, .timerTick] = .ok k ∧
      k.scheduler.currentPid = some 1 ∧
      (k.handleSyscall 9 2).2.Throughout (Undisturbed 1 k.scheduler.ticks)
        [.spawn "b" 0, .timerTick, .syscall 8 0] ∧
      (k.handleSyscall 9 2).2.run [.spawn "b" 0, .timerTick, .syscall 8 0] = .ok k' ∧
      (∃ p, k'.scheduler.get? 1 = some p ∧ p.state = .blocked) ∧
      ∃ switch k'', k'.timerTick = .ok (switch, k'') ∧
        k''.scheduler.ticks = k'.scheduler.ticks + 1 ∧
        ∃ p, k''.scheduler.get? 1 = some p ∧ (p.state = .ready ∨ p.state = .running) ∧
          p.wakeAt = none := by
  obtain ⟨k, k', hb, hr, hcheck⟩ := exists_of_stretch forOneProcess
    [.setUpPaging, .spawn "a" 0, .timerTick]
    [.syscall 9 2, .spawn "b" 0, .timerTick, .syscall 8 0]
    (fun k k' => decide (k.scheduler.currentPid = some 1 ∧
      (k.handleSyscall 9 2).2.Throughout (Undisturbed 1 k.scheduler.ticks)
        [.spawn "b" 0, .timerTick, .syscall 8 0] ∧
      k.scheduler.ticks = 1 ∧ k'.scheduler.ticks = 2)) (by decide +kernel)
  obtain ⟨hc, hstretch, hsince, hnow⟩ := of_decide_eq_true hcheck
  obtain ⟨hblocked, hwoken⟩ := sleep_ends_on_time hb hc hstretch hr
  exact ⟨k, k', hb, hc, hstretch, hr, hblocked (by rw [hsince, hnow]; decide),
    hwoken (by rw [hsince, hnow]; decide) (by rw [hnow]; decide)⟩

end Kernel

end KernelCore
