import Mathlib
import KernelCore.Proofs.Kernel.Stretches
import KernelCore.Proofs.Scheduler.Waiting

/-!
# Fairness of the turns

While a process waits for its turn, no other process gets a second one, and the processor is never
idle after a timer interrupt.
-/
namespace KernelCore

namespace Scheduler

variable {s s' : Scheduler} {pid : Pid}

/-- Nobody but a newcomer has come before a process. -/
structure Behind (s s' : Scheduler) (pid : Pid) : Prop where
  nextPid : s.nextPid ≤ s'.nextPid
  ahead : ∀ q, q < s.nextPid → q ∈ s'.ahead pid → q ∈ s.ahead pid

theorem behind_of_same (hn : s'.nextPid = s.nextPid) (hq : s'.queue = s.queue)
    (hc : s'.currentPid = s.currentPid) : Behind s s' pid := by
  refine ⟨hn.ge, fun q _ hmem => ?_⟩
  rwa [Scheduler.ahead, hq, hc] at hmem

theorem behind_of_filter {keep : Pid → Bool} (hn : s'.nextPid = s.nextPid)
    (hq : s'.queue = s.queue.filter keep) (hc : s'.currentPid = s.currentPid)
    (hcurrent : ∀ c, s.currentPid = some c → keep c = true) (hpid : pid ∈ s'.queue) :
    Behind s s' pid := by
  rw [hq] at hpid
  refine ⟨hn.ge, fun q _ hmem => ?_⟩
  rw [Scheduler.ahead, hq, hc, earlier_filter _ hcurrent (List.mem_filter.mp hpid).2] at hmem
  exact (List.mem_filter.mp hmem).1

theorem Boarded.behind {new : Pid} (hb : Boarded s s' new) (h : s.Tidy) (hpid : pid ∈ s.queue) :
    Behind s s' pid := by
  have hnew : new ∉ s.queue := by
    rw [hb.fresh]
    exact h.nextPid_not_mem
  have hcurrent : s.currentPid ≠ some new := by
    intro hc
    obtain ⟨slot, t, -, hseat, rfl⟩ := exists_of_currentPid hc
    exact Nat.ne_of_lt (h.numbered.below slot t hseat) hb.fresh
  refine ⟨by rw [hb.nextPid]; exact Nat.le_succ _, fun q hlt hmem => ?_⟩
  rw [Scheduler.ahead, hb.queue, hb.currentPid] at hmem
  refine (mem_earlier_of_append hnew hcurrent (ne_of_mem_of_not_mem hpid hnew) hmem).resolve_left ?_
  rw [hb.fresh]
  exact Nat.ne_of_lt hlt

end Scheduler

namespace Kernel

open Scheduler

def Call.victim? : Call → Option Pid
  | .kill pid => some pid
  | _ => none

/-- A process waits, and the call does not kill the current one. -/
def Waits (pid : Pid) (k : Kernel) (call : Call) : Prop :=
  k.scheduler.isReady pid = true ∧ ∀ victim ∈ call.victim?, k.scheduler.currentPid ≠ some victim

instance (pid : Pid) (k : Kernel) (call : Call) : Decidable (Waits pid k call) :=
  inferInstanceAs (Decidable (_ ∧ _))

/-- Whether a timer interrupt has given a process the processor: the process was not running once
the tick had passed, and it is running now. -/
def givesTurn (pid : Pid) (k k' : Kernel) : Bool :=
  k.scheduler.tick.toOption.any fun s =>
    !s.isRunning (some pid) && k'.scheduler.isRunning (some pid)

def goesIdle (_ k' : Kernel) : Bool := k'.scheduler.currentPid.isNone

variable {k k' k₁ : Kernel} {call : Call} {calls : List Call} {s s' s₁ : Scheduler} {pid q : Pid}

theorem ahead_tick (h : s.Tidy) (ht : s.tick = .ok s₁) : s₁.ahead pid = s.ahead pid := by
  have hd := dispatched_tick ht
  have hcurrent := (stays_tick ht).settled.currentTenant
  rw [ahead, ahead, (h.toOrderly.dispatched hd).2, currentPid_eq, currentPid_eq, hcurrent]

theorem isReady_tick (h : s.Tidy) (ht : s.tick = .ok s₁) (hr : s.isReady pid = true) :
    s₁.isReady pid = true := by
  obtain ⟨i, p, hp, hpid, hready⟩ := h.numbered.isReady_iff.mp hr
  refine (h.tick ht).numbered.isReady_iff.mpr ⟨i, p, ?_, hpid, hready⟩
  rw [(ticked ht).process?, hp, Option.map_some,
    afterTick_of_ne (by simp [hready]) (by simp [hready])]

theorem Step.behind (hs : Step s call s') (h : s.Tidy) (hr : s.isReady pid = true)
    (hr' : s'.isReady pid = true) (hkill : ∀ victim ∈ call.victim?, s.currentPid ≠ some victim) :
    Behind s s' pid := by
  have hmem := h.mem_queue.mpr (h.numbered.lives_of_isReady hr)
  have h' := hs.tidy h
  have hmem' := h'.mem_queue.mpr (h'.numbered.lives_of_isReady hr')
  cases hs with
  | setUpPaging => exact behind_of_same rfl rfl rfl
  | refused => exact behind_of_same rfl rfl rfl
  | failed hc =>
    obtain ⟨-, hsettled, hq, -⟩ := h.create_error hc
    refine behind_of_same hsettled.nextPid hq ?_
    rw [currentPid_eq, currentPid_eq, hsettled.currentTenant]
  | spawned hc =>
    obtain ⟨-, -, hb⟩ := h.boarded_enqueue hc
    exact hb.behind h hmem
  | missing => exact behind_of_same rfl rfl rfl
  | @killed victim _ _ _ _ hd =>
    obtain ⟨hn, hc, -⟩ := destroy_pids h.numbered hd
    have hne := hkill victim rfl
    rw [if_neg hne] at hc
    refine behind_of_filter hn (h.destroy hd).2 hc (fun c hcur => ?_) hmem'
    have hcv : c ≠ victim := by
      rintro rfl
      exact hne hcur
    simpa using hcv
  | reaped hd =>
    have hnot := fun doomed (hm : doomed ∈ s.reapable) => ne_of_mem_reapable h.numbered hm
    obtain ⟨hn, hc⟩ := destroyAll_pids h.numbered hnot hd
    refine behind_of_filter hn (h.toOrderly.destroyAll hd).2.2 hc (fun c hcur => ?_) hmem'
    have hcv : c ∉ s.reapable := fun hm => hnot c hm hcur
    simpa using hcv
  | unknown => exact behind_of_same rfl rfl rfl
  | @served _ _ call _ =>
    have hd := dispatched_perform s call
    refine behind_of_same hd.nextPid (h.toOrderly.dispatched hd).2 ?_
    rw [currentPid_eq, currentPid_eq, (stays_perform s call).settled.currentTenant]
  | ticked hres =>
    obtain ⟨s₁, ht, hc, -, -⟩ := h.choice_of_reschedule hres
    obtain ⟨-, hsub, -⟩ := (h.tick ht).ahead_choice hc (isReady_tick h ht hr) hr'
    refine ⟨?_, fun q _ hq => ?_⟩
    · exact ((dispatched_tick ht).trans hc.dispatched).nextPid.ge
    · rw [← ahead_tick h ht]
      exact hsub hq

/-- A process has had its turn, as far as one that waits is concerned. -/
def Passed (s : Scheduler) (pid q : Pid) : Prop := q < s.nextPid ∧ q ∉ s.ahead pid

/-- A timer interrupt does not idle while a process waits, and the turn that it gives is the last
one before that process. -/
theorem turn_of_timerTick (h : k.scheduler.Tidy) (hs : k.handle .timerTick = .ok k')
    (hr : k.scheduler.isReady pid = true) (hr' : k'.scheduler.isReady pid = true) :
    goesIdle k k' = false ∧ (givesTurn q k k' = true →
      q ∈ k.scheduler.ahead pid ∧ Passed k'.scheduler pid q) := by
  have hstep := step_of_handle hs
  cases hstep with
  | ticked hres =>
    obtain ⟨s₁, ht, hc, -, -⟩ := h.choice_of_reschedule hres
    obtain ⟨hcurrent, -, hturn⟩ := (h.tick ht).ahead_choice hc (isReady_tick h ht hr) hr'
    rw [ahead_tick h ht] at hturn
    have hsome := Option.isSome_iff_ne_none.mpr hcurrent
    refine ⟨Option.isNone_eq_false_iff.mpr hsome, fun hgives => ?_⟩
    rw [givesTurn, ht] at hgives
    obtain ⟨hno, hyes⟩ := Bool.and_eq_true_iff.mp hgives
    obtain ⟨hbefore, hafter⟩ := hturn q (by simpa using hno) hyes
    refine ⟨hbefore, ?_, hafter⟩
    obtain ⟨p, hp, -⟩ := (Option.any_eq_true _ _).mp hyes
    obtain ⟨i, hi, rfl⟩ := ((h.tick ht).choice hc).numbered.process?_of_get? hp
    exact ((h.tick ht).choice hc).numbered.below i p.tenant (seat_of_process? hi)

theorem waits_cons (hw : k.Throughout (Waits pid) (call :: calls)) (hs : k.handle call = .ok k₁)
    (hr : k₁.run calls = .ok k') (hready : k'.scheduler.isReady pid = true) :
    k.scheduler.isReady pid = true ∧ k₁.scheduler.isReady pid = true ∧
      k₁.Throughout (Waits pid) calls := by
  obtain ⟨⟨hwait, -⟩, hrest⟩ := hw
  refine ⟨hwait, ?_, hrest k₁ hs⟩
  cases calls with
  | nil =>
    cases hr
    exact hready
  | cons => exact (hrest k₁ hs).1.1

theorem countTicks_of_passed (h : k.scheduler.Tidy) (hw : k.Throughout (Waits pid) calls)
    (hr : k.run calls = .ok k') (hready : k'.scheduler.isReady pid = true)
    (hq : Passed k.scheduler pid q) : k.countTicks (givesTurn q) calls = 0 := by
  induction calls generalizing k with
  | nil => rfl
  | cons call calls ih =>
    rw [run_cons] at hr
    obtain ⟨k₁, hs, hr⟩ := Fault.of_bind_eq_ok hr
    obtain ⟨hready₀, hready₁, hrest⟩ := waits_cons hw hs hr hready
    have hstep := step_of_handle hs
    obtain ⟨hn, hahead⟩ := hstep.behind h hready₀ hready₁ hw.1.2
    have hq₁ : Passed k₁.scheduler pid q :=
      ⟨hq.1.trans_le hn, fun hmem => hq.2 (hahead q hq.1 hmem)⟩
    rw [countTicks_cons _ hs, ih (hstep.tidy h) hrest hr hq₁, Nat.add_zero]
    have hno : (call.isTick && givesTurn q k k₁) = false := by
      cases call with
      | timerTick =>
        rw [← Bool.not_eq_true, Call.isTick, Bool.true_and]
        exact fun hgives => hq.2 ((turn_of_timerTick h hs hready₀ hready₁).2 hgives).1
      | _ => rfl
    rw [hno]
    rfl

theorem countTicks_of_waits (h : k.scheduler.Tidy) (hw : k.Throughout (Waits pid) calls)
    (hr : k.run calls = .ok k') (hready : k'.scheduler.isReady pid = true) :
    k.countTicks (givesTurn q) calls ≤ 1 ∧ k.countTicks goesIdle calls = 0 := by
  induction calls generalizing k with
  | nil => exact ⟨Nat.zero_le _, rfl⟩
  | cons call calls ih =>
    rw [run_cons] at hr
    obtain ⟨k₁, hs, hrun⟩ := Fault.of_bind_eq_ok hr
    obtain ⟨hready₀, hready₁, hrest⟩ := waits_cons hw hs hrun hready
    have h₁ := (step_of_handle hs).tidy h
    obtain ⟨hone, hidle⟩ := ih h₁ hrest hrun
    rw [countTicks_cons _ hs, countTicks_cons _ hs, hidle, Nat.add_zero]
    cases call with
    | timerTick =>
      obtain ⟨hbusy, hturn⟩ := turn_of_timerTick h hs hready₀ hready₁
      rw [hbusy]
      refine ⟨?_, rfl⟩
      cases hgives : givesTurn q k k₁ with
      | true =>
        rw [countTicks_of_passed h₁ hrest hrun hready (hturn hgives).2]
        exact Nat.le_refl 1
      | false => simpa [Call.isTick] using hone
    | _ => exact ⟨by simpa [Call.isTick] using hone, rfl⟩

/-- While a process is ready at every call of a stretch and behind the last one, and the current
process is never killed, no other process gets the processor from the timer more than once, and the
timer never leaves the processor idle. The calls before the stretch may be any. -/
theorem turns_while_waiting {r : Resources} {config : Config} {before stretch : List Call}
    (hb : (boot r config).run before = .ok k) (hw : k.Throughout (Waits pid) stretch)
    (hr : k.run stretch = .ok k') (hready : k'.scheduler.isReady pid = true) :
    (∀ q, k.countTicks (givesTurn q) stretch ≤ 1) ∧ k.countTicks goesIdle stretch = 0 := by
  have h := tidy_run (tidy_boot r config) hb
  have hstretch := fun q => countTicks_of_waits (q := q) h hw hr hready
  exact ⟨fun q => (hstretch q).1, (hstretch pid).2⟩

/-- A turn that is given up, one that is not, and one tick more. -/
def handover : List Call := [.timerTick, .syscall 10 0, .timerTick, .timerTick]

/-- The third process waits while the first one has its turn, gives it up and the second one has its
own. -/
theorem turns_before_the_third : ∃ k k',
    (forProcesses 3 {}).run [.setUpPaging, .spawn "a" 0, .spawn "b" 0, .spawn "c" 0] = .ok k ∧
      k.Throughout (Waits 3) handover ∧ k.run handover = .ok k' ∧
      k'.scheduler.isReady 3 = true ∧ k.countTicks (givesTurn 1) handover = 1 ∧
      k.countTicks (givesTurn 2) handover = 1 ∧
      (∀ q, k.countTicks (givesTurn q) handover ≤ 1) ∧ k.countTicks goesIdle handover = 0 := by
  obtain ⟨k, k', hb, hr, hcheck⟩ := exists_of_stretch (forProcesses 3 {})
    [.setUpPaging, .spawn "a" 0, .spawn "b" 0, .spawn "c" 0] handover
    (fun k k' => decide (k.Throughout (Waits 3) handover ∧ k'.scheduler.isReady 3 = true ∧
      k.countTicks (givesTurn 1) handover = 1 ∧ k.countTicks (givesTurn 2) handover = 1))
    (by decide +kernel)
  obtain ⟨hw, hready, hfirst, hsecond⟩ := of_decide_eq_true hcheck
  exact ⟨k, k', hb, hw, hr, hready, hfirst, hsecond, turns_while_waiting hb hw hr hready⟩

end Kernel

end KernelCore
