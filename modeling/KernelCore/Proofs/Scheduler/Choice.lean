import Mathlib
import KernelCore.Proofs.Scheduler.Tidy

/-!
# The choice of who runs

Once a tick has passed, the current process goes on, or the first ready one in the order of turns
gets the processor, or nobody does because nobody is ready.
-/
namespace KernelCore

namespace Scheduler

/-- The choice that is made once a tick has passed: the current process goes on, or the first ready
one gets its turn, or nobody is ready. -/
inductive Choice (s : Scheduler) : Scheduler → Prop
  | stays {slot : Nat} {p : Process} (current : s.current = some slot)
      (here : s.process? slot = some p) (running : p.state = .running) : Choice s s
  | turns {slot : Nat} (vacant : ∀ i p, s.process? i = some p → p.state ≠ .running)
      (found : (turnOrder s.order s.current).find? s.readyAt = some slot) :
      Choice s (s.promote slot)
  | idles (vacant : ∀ i p, s.process? i = some p → p.state ≠ .running)
      (found : (turnOrder s.order s.current).find? s.readyAt = none) : Choice s s.idle

variable {s s' s₁ : Scheduler} {source target : Option Pid} {slot : Nat} {p : Process}

theorem currentProcess_promote (s : Scheduler) (slot : Nat) :
    (s.promote slot).currentProcess = (s.process? slot).map (·.promote s.timeSlice) := by
  rw [currentProcess, show (s.promote slot).current = some slot from rfl, Option.bind_some,
    process?_promote]
  congr 1
  funext p
  rw [afterTurn, if_pos rfl]

theorem currentPid_promote (hp : s.process? slot = some p) :
    (s.promote slot).currentPid = some p.pid := by
  rw [currentPid, currentProcess_promote, hp]
  rfl

theorem Tidy.isRunning_promote (h : s.Tidy) (hp : s.process? slot = some p) :
    (s.promote slot).isRunning (some p.pid) = true := by
  have h' := h.promote (show (s.process? slot).isSome by rw [hp]; rfl)
  rw [← currentPid_promote hp, h'.numbered.isRunning_currentPid, currentProcess_promote, hp]
  rfl

theorem Tidy.not_running (h : s.Tidy)
    (hr : s.currentProcess.any (·.state = .running) = false) {i : Nat} {p : Process}
    (hp : s.process? i = some p) : p.state ≠ .running := by
  intro hrun
  rw [currentProcess, h.sole i p hp hrun, Option.bind_some, hp] at hr
  simp [hrun] at hr

/-- After a tick the kernel makes its choice; the results are who ran and who runs. -/
theorem Tidy.reschedule (h : s.Tidy) (ht : s.tick = .ok s₁) :
    ∃ s', Kernel.reschedule s = .ok (s.currentPid, s'.currentPid, s') ∧ Choice s₁ s' := by
  have h₁ := h.tick ht
  have hpid : s₁.currentPid = s.currentPid := by
    rw [currentPid_eq, currentPid_eq, (stays_tick ht).settled.currentTenant]
  have hrunning := h₁.numbered.isRunning_currentPid
  have hsource : Kernel.reschedule s =
      if s₁.isRunning s₁.currentPid then .ok (s.currentPid, s₁.currentPid, s₁)
      else if s₁.next.2.isRunning s₁.next.1 then .ok (s.currentPid, s₁.next.1, s₁.next.2)
      else .ok (s.currentPid, none, s₁.next.2.idle) := by
    rw [hpid, Kernel.reschedule, ht]
    rfl
  cases hr : s₁.currentProcess.any (·.state = .running) with
  | true =>
    obtain ⟨p, hp, hstate⟩ := (Option.any_eq_true _ _).mp hr
    obtain ⟨slot, hc, hp⟩ := Option.bind_eq_some_iff.mp hp
    rw [hrunning, hr, if_pos rfl] at hsource
    exact ⟨s₁, hsource, .stays hc hp (of_decide_eq_true hstate)⟩
  | false =>
    have hvacant : ∀ i p, s₁.process? i = some p → p.state ≠ .running :=
      fun i p hp => h₁.not_running hr hp
    rw [hrunning, hr, if_neg Bool.false_ne_true] at hsource
    obtain ⟨l, hl⟩ := h₁.threaded
    have hnext := hl.next_turn
    rw [← hl.order_eq] at hnext
    cases hfound : (turnOrder s₁.order s₁.current).find? s₁.readyAt with
    | some slot =>
      rw [hfound] at hnext
      obtain ⟨p, hp, -⟩ := exists_of_readyAt (List.find?_some hfound)
      have hpromoted := h₁.isRunning_promote hp
      rw [← currentPid_promote hp] at hpromoted
      rw [hnext] at hsource
      dsimp only at hsource
      rw [hpromoted, if_pos rfl] at hsource
      exact ⟨s₁.promote slot, hsource, .turns hvacant hfound⟩
    | none =>
      rw [hfound] at hnext
      have hstill : s₁.isRunning (if s₁.order = [] then none else s₁.currentPid) = false := by
        split
        · rfl
        · rw [hrunning, hr]
      rw [hnext] at hsource
      dsimp only at hsource
      rw [hstill, if_neg Bool.false_ne_true] at hsource
      exact ⟨s₁.idle, hsource, .idles hvacant hfound⟩

theorem Choice.dispatched (h : Choice s s') : s.Dispatched s' := by
  cases h with
  | stays => exact .refl s
  | turns => exact s.dispatched_promote _
  | idles => exact s.dispatched_idle

theorem Tidy.choice_of_reschedule (h : s.Tidy)
    (hr : Kernel.reschedule s = .ok (source, target, s')) :
    ∃ s₁, s.tick = .ok s₁ ∧ Choice s₁ s' ∧ source = s.currentPid ∧ target = s'.currentPid := by
  obtain ⟨s₁, ht, -⟩ := Fault.of_bind_eq_ok hr
  obtain ⟨s₂, hs₂, hc⟩ := h.reschedule ht
  rw [hr] at hs₂
  cases hs₂
  exact ⟨s₁, ht, hc, rfl, rfl⟩

theorem Tidy.choice (h : s.Tidy) (hc : Choice s s') : s'.Tidy := by
  cases hc with
  | stays => exact h
  | turns _ found =>
    obtain ⟨p, hp, -⟩ := exists_of_readyAt (List.find?_some found)
    exact h.promote (by rw [hp]; rfl)
  | idles => exact h.idle

/-- Whoever has the processor uses it: the current process is running, and no other is. Or there is
none, and no process is running or ready. -/
def Engaged (s : Scheduler) : Prop :=
  (∃ slot p, s.current = some slot ∧ s.process? slot = some p ∧ p.state = .running ∧
      ∀ i q, s.process? i = some q → q.state = .running → i = slot) ∨
    s.current = none ∧ ∀ i q, s.process? i = some q → q.state ≠ .running ∧ q.state ≠ .ready

theorem Tidy.engaged (h : s.Tidy) (hc : Choice s s') : s'.Engaged := by
  have h' := h.choice hc
  have honly : ∀ slot, s'.current = some slot →
      ∀ i q, s'.process? i = some q → q.state = .running → i = slot :=
    fun slot hslot i q hq hr => Option.some.inj ((h'.sole i q hq hr).symm.trans hslot)
  cases hc with
  | stays current here running => exact .inl ⟨_, _, current, here, running, honly _ current⟩
  | @turns slot _ found =>
    obtain ⟨p, hp, -⟩ := exists_of_readyAt (List.find?_some found)
    refine .inl ⟨slot, p.promote s.timeSlice, rfl, ?_, rfl, honly slot rfl⟩
    rw [process?_promote, hp, Option.map_some, afterTurn, if_pos rfl]
  | idles vacant found =>
    refine .inr ⟨rfl, fun i q hq => ?_⟩
    obtain ⟨p, hp, rfl⟩ := s.changed_idle.exists_of_process? hq
    have hsame : (if s.current = some i then p.demote else p) = p := by
      rw [Process.demote_of_ne (vacant i p hp), ite_self]
    rw [hsame]
    refine ⟨vacant i p hp, fun hready => ?_⟩
    have hnot := List.find?_eq_none.mp found i ((turnOrder_perm _ _).mem_iff.mpr (h.mem_order hp))
    exact hnot (by rw [readyAt, hp, Option.any_some, decide_eq_true hready])

theorem Choice.process?_of_ne (h : Choice s s') {i : Nat} (hp : s.process? i = some p)
    (hrun : p.state ≠ .running) (hready : p.state ≠ .ready) : s'.process? i = some p := by
  cases h with
  | stays => exact hp
  | @turns slot _ found =>
    obtain ⟨q, hq, hchosen⟩ := exists_of_readyAt (List.find?_some found)
    have hi : i ≠ slot := by
      rintro rfl
      obtain rfl := Option.some.inj (hp.symm.trans hq)
      exact hready hchosen
    rw [process?_promote, hp, Option.map_some, afterTurn, if_neg hi, Process.demote_of_ne hrun,
      ite_self]
  | idles =>
    rw [s.changed_idle.process?, hp, Option.map_some, Process.demote_of_ne hrun, ite_self]

theorem Choice.process?_of_terminated (h : Choice s s') {i : Nat} (hp : s.process? i = some p)
    (hended : p.state = .terminated) : s'.process? i = some p :=
  h.process?_of_ne hp (by simp [hended]) (by simp [hended])

end Scheduler

end KernelCore
