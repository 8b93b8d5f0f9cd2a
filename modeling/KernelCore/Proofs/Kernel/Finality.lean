import Mathlib
import KernelCore.Proofs.Kernel.Stretches

/-!
# The end of a process

A process that has ended stays as it is until it is gone. It keeps the processor up to the next
timer interrupt, though, and until then it can still ask for sleep, or exit once more.
-/
namespace KernelCore

namespace Scheduler

variable {s s' : Scheduler} {pid : Pid} {status : Option Int}

/-- A process is gone, or it has ended with a status; nobody gets its number again. -/
structure Ended (s : Scheduler) (pid : Pid) (status : Option Int) : Prop where
  old : pid < s.nextPid
  final : ∀ i p, s.process? i = some p → p.pid = pid →
    p.state = .terminated ∧ p.exitStatus = status

theorem Numbered.ended_of_get? (h : s.Numbered) {p : Process} (hp : s.get? pid = some p)
    (hended : p.state = .terminated) : s.Ended pid p.exitStatus := by
  obtain ⟨i, hi, rfl⟩ := h.process?_of_get? hp
  refine ⟨h.below i p.tenant (seat_of_process? hi), fun j q hq hpid => ?_⟩
  obtain rfl := Option.some.inj (hp.symm.trans (hpid ▸ h.get?_pid hq))
  exact ⟨hended, rfl⟩

theorem Ended.thinned (h : s.Ended pid status) (ht : Thinned s s') (hn : s'.nextPid = s.nextPid) :
    s'.Ended pid status := by
  refine ⟨hn ▸ h.old, fun i p' hp' hpid => ?_⟩
  obtain ⟨p, hp, hsame⟩ := ht i p' hp'
  obtain ⟨hpid', hstate, hstatus⟩ := state_of_unhooked hsame
  rw [hstate, hstatus]
  exact h.final i p hp (hpid'.symm.trans hpid)

theorem Ended.boarded {new : Pid} (h : s.Ended pid status) (hb : Boarded s s' new) :
    s'.Ended pid status := by
  refine ⟨by rw [hb.nextPid]; exact Nat.lt_succ_of_lt h.old, fun i p' hp' hpid => ?_⟩
  obtain ⟨hnew, -⟩ | ⟨p, hp, hsame⟩ := hb.process? i p' hp'
  · have hlt := h.old
    rw [← hpid, hnew, hb.fresh] at hlt
    exact absurd hlt (Nat.lt_irrefl _)
  · obtain ⟨hpid', hstate, hstatus⟩ := state_of_unhooked hsame
    rw [hstate, hstatus]
    exact h.final i p hp (hpid'.symm.trans hpid)

theorem Ended.changed {f : Nat → Process → Process} (h : s.Ended pid status)
    (hc : Changed f s s') (hn : s'.nextPid = s.nextPid)
    (hf : ∀ i p, s.process? i = some p → p.pid = pid → p.state = .terminated →
      p.exitStatus = status → (f i p).state = .terminated ∧ (f i p).exitStatus = status) :
    s'.Ended pid status := by
  refine ⟨hn ▸ h.old, fun i p' hp' hpid => ?_⟩
  obtain ⟨p, hp, rfl⟩ := hc.exists_of_process? hp'
  have hpid' := (hc.pid i p).symm.trans hpid
  obtain ⟨hstate, hstatus⟩ := h.final i p hp hpid'
  exact hf i p hp hpid' hstate hstatus

theorem Ended.tick (h : s.Ended pid status) (ht : s.tick = .ok s') : s'.Ended pid status := by
  refine h.changed (ticked ht).toChanged (dispatched_tick ht).nextPid
    fun i p _ _ hstate hstatus => ?_
  rw [afterTick_of_ne (by simp [hstate]) (by simp [hstate])]
  exact ⟨hstate, hstatus⟩

theorem Ended.choice (h : s.Ended pid status) (hc : Choice s s') : s'.Ended pid status := by
  have hkeeps := hc.dispatched.keeps
  refine ⟨hkeeps.nextPid ▸ h.old, fun i p' hp' hpid => ?_⟩
  have hseat := hkeeps.pidAt i
  rw [pidAt, hp', Option.map_some, pidAt] at hseat
  obtain ⟨p, hp, hsame⟩ := Option.map_eq_some_iff.mp hseat.symm
  obtain ⟨hstate, hstatus⟩ := h.final i p hp (hsame.trans hpid)
  have hkept := hc.process?_of_terminated hp hstate
  obtain rfl := Option.some.inj (hp'.symm.trans hkept)
  exact ⟨hstate, hstatus⟩

end Scheduler

/-- A call that changes nothing about a process that has ended with a status. -/
def Syscall.Harmless (status : Option Int) : Syscall → Prop
  | .exit again => some again = status
  | .sleep _ => False
  | .getPid | .yield => True

instance (status : Option Int) : ∀ call : Syscall, Decidable (call.Harmless status)
  | .exit again => inferInstanceAs (Decidable (some again = status))
  | .sleep _ => isFalse id
  | .getPid | .yield => isTrue trivial

namespace Kernel

open Scheduler

variable {k k' : Kernel} {call : Call} {calls : List Call} {s s' : Scheduler} {pid : Pid}
variable {status : Option Int}

/-- What a call asks for on behalf of the current process. -/
def Call.asked? : Call → Option Syscall
  | .syscall number argument => Syscall.decode? number argument
  | _ => none

/-- As long as a process is the current one, it asks for nothing that is not harmless. -/
def Rests (pid : Pid) (status : Option Int) (k : Kernel) (call : Call) : Prop :=
  k.scheduler.currentPid = some pid → ∀ asked ∈ call.asked?, asked.Harmless status

instance (pid : Pid) (status : Option Int) (k : Kernel) (call : Call) :
    Decidable (Rests pid status k call) :=
  inferInstanceAs (Decidable (_ → _))

theorem ended_perform {asked : Syscall} (h : s.Ended pid status)
    (hrests : s.currentPid = some pid → asked.Harmless status) :
    (perform s asked).2.Ended pid status := by
  have hcurrent : ∀ i p, s.process? i = some p → p.pid = pid → s.current = some i →
      asked.Harmless status := by
    intro i p hp hpid hc
    refine hrests ?_
    rw [currentPid, currentProcess, hc, Option.bind_some, hp, Option.map_some, hpid]
  cases asked with
  | exit again =>
    refine h.changed (changed_updateCurrent (Process.core_exit again) s)
      (s.dispatched_exit again).nextPid fun i p hp hpid hstate hstatus => ?_
    split
    · next hc => exact ⟨rfl, hcurrent i p hp hpid hc⟩
    · exact ⟨hstate, hstatus⟩
  | getPid => exact h
  | sleep ticks =>
    refine h.changed (changed_updateCurrent (Process.core_sleepUntil _) s)
      (s.dispatched_sleep ticks).nextPid fun i p hp hpid hstate hstatus => ?_
    split
    · next hc => exact (hcurrent i p hp hpid hc).elim
    · exact ⟨hstate, hstatus⟩
  | «yield» =>
    refine h.changed (changed_updateCurrent (Process.core_yield _) s)
      s.dispatched_yield.nextPid fun i p hp hpid hstate hstatus => ?_
    rw [Process.yield_of_ne (by simp [hstate]), ite_self]
    exact ⟨hstate, hstatus⟩

/-- No call brings a process back that has ended and rests. -/
theorem Step.ended (hs : Step s call s') (ht : s.Tidy) (h : s.Ended pid status)
    (hrests : s.currentPid = some pid → ∀ asked ∈ call.asked?, asked.Harmless status) :
    s'.Ended pid status := by
  cases hs with
  | setUpPaging => exact h
  | refused => exact h
  | failed hc =>
    obtain ⟨-, hsettled, -, hproc⟩ := ht.create_error hc
    refine h.thinned (fun i p hp => ⟨p, ?_, rfl⟩) hsettled.nextPid
    rwa [← hproc]
  | spawned hc => exact h.boarded (ht.boarded_enqueue hc).2.2
  | missing => exact h
  | killed hd => exact h.thinned (thinned_destroy hd) (destroy_pids ht.numbered hd).1
  | reaped hd =>
    have hnot := fun doomed (hm : doomed ∈ s.reapable) => ne_of_mem_reapable ht.numbered hm
    exact h.thinned (thinned_destroyAll hd) (destroyAll_pids ht.numbered hnot hd).1
  | unknown => exact h
  | served known => exact ended_perform h fun hc => hrests hc _ known
  | ticked hr =>
    obtain ⟨s₁, htick, hc, -⟩ := ht.choice_of_reschedule hr
    exact (h.tick htick).choice hc

/-- A process that has ended is gone later on, or it is still ended with the same status, whatever
is asked of the kernel. The only exceptions are sleep and an exit with another status that it asks
for itself while it still has the processor. -/
theorem ended_is_final {r : Resources} {config : Config} {before stretch : List Call} {p : Process}
    (hb : (boot r config).run before = .ok k) (hp : k.scheduler.get? pid = some p)
    (hended : p.state = .terminated)
    (hrests : k.Throughout (Rests pid p.exitStatus) stretch) (hr : k.run stretch = .ok k') :
    k'.scheduler.get? pid = none ∨ ∃ p', k'.scheduler.get? pid = some p' ∧
      p'.state = .terminated ∧ p'.exitStatus = p.exitStatus := by
  have ht := tidy_run (tidy_boot r config) hb
  have hboth : k'.scheduler.Tidy ∧ k'.scheduler.Ended pid p.exitStatus := by
    refine hrests.run (fun k => k.scheduler.Tidy ∧ k.scheduler.Ended pid p.exitStatus) ?_
      ⟨ht, ht.numbered.ended_of_get? hp hended⟩ hr
    intro k call k' ⟨ht, he⟩ ha hs
    have hstep := step_of_handle hs
    exact ⟨hstep.tidy ht, hstep.ended ht he ha⟩
  cases hget : k'.scheduler.get? pid with
  | none => exact .inl rfl
  | some p' =>
    obtain ⟨i, hi, hpid⟩ := hboth.1.numbered.process?_of_get? hget
    exact .inr ⟨p', rfl, hboth.2.final i p' hi hpid⟩

/-- A process yields and exits once more with the same status before the timer takes the processor
away. -/
theorem ended_after_second_exit : ∃ k k' p,
    forOneProcess.run [.setUpPaging, .spawn "a" 0, .timerTick, .syscall 0 7] = .ok k ∧
      k.scheduler.get? 1 = some p ∧ p.state = .terminated ∧
      k.Throughout (Rests 1 p.exitStatus) [.syscall 10 0, .syscall 0 7, .timerTick] ∧
      k.run [.syscall 10 0, .syscall 0 7, .timerTick] = .ok k' ∧
      (k'.scheduler.get? 1 = none ∨ ∃ p', k'.scheduler.get? 1 = some p' ∧
        p'.state = .terminated ∧ p'.exitStatus = p.exitStatus) := by
  obtain ⟨k, k', hb, hr, hcheck⟩ := exists_of_stretch forOneProcess
    [.setUpPaging, .spawn "a" 0, .timerTick, .syscall 0 7]
    [.syscall 10 0, .syscall 0 7, .timerTick]
    (fun k _ => (k.scheduler.get? 1).any fun p : Process => decide (p.state = .terminated ∧
      k.Throughout (Rests 1 p.exitStatus) [.syscall 10 0, .syscall 0 7, .timerTick]))
    (by decide +kernel)
  obtain ⟨p, hp, hdecided⟩ := (Option.any_eq_true _ _).mp hcheck
  obtain ⟨hended, hrests⟩ := of_decide_eq_true hdecided
  exact ⟨k, k', p, hb, hp, hended, hrests, hr, ended_is_final hb hp hended hrests hr⟩

/-- A process that has ended falls asleep. -/
theorem ended_asleep : ∃ k k' p p',
    forOneProcess.run [.setUpPaging, .spawn "a" 0, .timerTick, .syscall 0 7] = .ok k ∧
      k.scheduler.get? 1 = some p ∧ p.state = .terminated ∧ k.run [.syscall 9 5] = .ok k' ∧
      k'.scheduler.get? 1 = some p' ∧ p'.state = .blocked := by
  obtain ⟨k, k', hb, hr, hcheck⟩ := exists_of_stretch forOneProcess
    [.setUpPaging, .spawn "a" 0, .timerTick, .syscall 0 7] [.syscall 9 5]
    (fun k k' => (k.scheduler.get? 1).any (·.state == .terminated) &&
      (k'.scheduler.get? 1).any (·.state == .blocked)) (by decide +kernel)
  obtain ⟨hbefore, hafter⟩ := Bool.and_eq_true_iff.mp hcheck
  obtain ⟨p, hp, hended⟩ := (Option.any_eq_true _ _).mp hbefore
  obtain ⟨p', hp', hblocked⟩ := (Option.any_eq_true _ _).mp hafter
  exact ⟨k, k', p, p', hb, hp, eq_of_beq hended, hr, hp', eq_of_beq hblocked⟩

end Kernel

end KernelCore
