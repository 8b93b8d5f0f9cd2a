import Mathlib
import KernelCore.Proofs.Kernel.Fairness
import KernelCore.Proofs.Kernel.Sleep

/-!
# Time slices

A process that the timer gives the processor has it for a whole slice of ticks, whatever happens to
the other processes. The last tick of the slice takes the processor away if another process is ready
then, and starts the next slice otherwise.
-/
namespace KernelCore

namespace Process

variable {p : Process} {slice left : Nat}

/-- The process is running, with a number of ticks left. -/
def Running (left : Nat) (p : Process) : Prop := p.state = .running ∧ p.timeSlice = left

theorem Running.of_unhooked {p' : Process} (hsame : p'.unhooked = p.unhooked)
    (h : p.Running left) : p'.Running left := by
  have hstate : p'.unhooked.state = p.unhooked.state := by rw [hsame]
  have hslice : p'.unhooked.timeSlice = p.unhooked.timeSlice := by rw [hsame]
  exact ⟨hstate.trans h.1, hslice.trans h.2⟩

theorem Running.charge_of_lt (h : p.Running left) (hlt : 1 < left) :
    (p.charge slice).Running (left - 1) := by
  rw [charge, if_pos h.1, if_neg (by rw [h.2]; omega)]
  exact ⟨h.1, by rw [h.2]⟩

theorem Running.charge_of_le (h : p.Running left) (hle : left ≤ 1) :
    (p.charge slice).state = .ready := by
  rw [charge, if_pos h.1, if_pos (by rw [h.2]; exact hle)]

end Process

namespace Scheduler

variable {s s' s₁ : Scheduler} {pid : Pid} {left : Nat} {P Q : Process → Prop}

/-- A process has the processor, with a number of ticks left. -/
structure Runs (s : Scheduler) (pid : Pid) (left : Nat) : Prop where
  current : s.currentPid = some pid
  running : s.Has pid (·.Running left)

theorem Numbered.eq_of_pid (h : s.Numbered) {i j : Nat} {p q : Process}
    (hp : s.process? i = some p) (hq : s.process? j = some q) (hpid : p.pid = q.pid) : i = j := by
  have hi : s.pidAt i = some q.pid := by rw [pidAt, hp, Option.map_some, hpid]
  have hj : s.pidAt j = some q.pid := by rw [pidAt, hq, Option.map_some]
  exact h.pidAt_inj hj hi

theorem Has.current (h : s.Has pid P) (hn : s.Numbered) (hc : s.currentPid = some pid) :
    ∃ i p, s.current = some i ∧ s.process? i = some p ∧ p.pid = pid ∧ P p := by
  obtain ⟨i, p, hp, rfl, hholds⟩ := h
  obtain ⟨slot, t, hcurrent, hseat, hpid⟩ := exists_of_currentPid hc
  obtain ⟨q, hq, rfl⟩ := Option.map_eq_some_iff.mp hseat
  obtain rfl := hn.eq_of_pid hq hp hpid
  exact ⟨_, p, hcurrent, hp, rfl, hholds⟩

theorem currentPid_tick (ht : s.tick = .ok s₁) : s₁.currentPid = s.currentPid := by
  rw [currentPid_eq, currentPid_eq, (stays_tick ht).settled.currentTenant]

theorem Runs.tick (h : s.Runs pid left) (hs : s.Tidy) (ht : s.tick = .ok s₁)
    (hcharge : ∀ p : Process, p.Running left → Q (p.charge s.timeSlice)) : s₁.Has pid Q := by
  obtain ⟨i, p, hcurrent, hp, rfl, hrunning⟩ := h.running.current hs.numbered h.current
  refine ⟨i, s.afterTick i p, ?_, (ticked ht).pid i p, ?_⟩
  · rw [(ticked ht).process?, hp, Option.map_some]
  · rw [afterTick, if_pos hcurrent, Process.wake_of_ne (by simp [hrunning.1]), ite_self]
    exact hcharge p hrunning

theorem Runs.choice (h : s.Runs pid left) (hn : s.Numbered) (hc : Choice s s') : s' = s := by
  obtain ⟨i, p, -, hp, -, hrunning⟩ := h.running.current hn h.current
  cases hc with
  | stays => rfl
  | turns vacant => exact absurd hrunning.1 (vacant i p hp)
  | idles vacant => exact absurd hrunning.1 (vacant i p hp)

theorem Tidy.runs_of_turn (h : s.Tidy) (hc : Choice s s') (hno : s.isRunning (some pid) = false)
    (hyes : s'.isRunning (some pid) = true) : s'.Runs pid s.timeSlice := by
  have hcurrent := (h.choice hc).currentPid_of_isRunning hyes
  cases hc with
  | stays =>
    rw [hno] at hyes
    cases hyes
  | @turns slot _ found =>
    obtain ⟨p, hp, -⟩ := exists_of_readyAt (List.find?_some found)
    refine ⟨hcurrent, slot, p.promote s.timeSlice, ?_, ?_, rfl, rfl⟩
    · rw [process?_promote, hp, Option.map_some, afterTurn, if_pos rfl]
    · rw [currentPid_promote hp] at hcurrent
      exact Option.some.inj hcurrent
  | idles => cases hcurrent

theorem Tidy.find_current (h : s.Tidy) {slot i : Nat} {p : Process} (hc : s.current = some slot)
    (hfound : (turnOrder s.order s.current).find? s.readyAt = some slot)
    (hp : s.process? i = some p) (hready : p.state = .ready) : i = slot := by
  obtain ⟨l, hl⟩ := h.threaded
  have hnodup := hl.nodup
  rw [← hl.order_eq] at hnodup
  obtain ⟨xs, ys, ho, hxs⟩ := List.eq_append_cons_of_mem (h.mem_order_of_current hc)
  have hi := h.mem_order hp
  rw [ho] at hi hnodup
  have hys : slot ∉ ys := (List.nodup_cons.mp (List.nodup_append'.mp hnodup).2.1).1
  rw [hc, ho, turnOrder_split hxs, ← List.append_assoc, List.find?_append] at hfound
  have hnone : (ys ++ xs).find? s.readyAt = none := by
    by_contra hsome
    obtain ⟨j, hj⟩ := Option.ne_none_iff_exists'.mp hsome
    rw [hj, Option.some_or] at hfound
    obtain rfl := Option.some.inj hfound
    have hmem := List.mem_of_find?_eq_some hj
    simp [hys, hxs] at hmem
  by_contra hne
  have hnot := List.find?_eq_none.mp hnone i (by simpa [hne, or_comm] using hi)
  exact hnot (by rw [readyAt, hp, Option.any_some, decide_eq_true hready])

/-- What a choice comes to if the current process is ready: another one gets its turn if any other
is ready, and the current one otherwise. -/
theorem Tidy.choice_of_ready (h : s.Tidy) (hc : Choice s s') (hcurrent : s.currentPid = some pid)
    (hready : s.isReady pid = true) :
    ∃ q, s'.Runs q s.timeSlice ∧ ((∃ other, other ≠ pid ∧ s.isReady other = true) ↔ q ≠ pid) := by
  obtain ⟨i, p, hp, hpid, hpready⟩ := h.numbered.isReady_iff.mp hready
  have hhas : s.Has pid fun p => p.state = .ready := ⟨i, p, hp, hpid, hpready⟩
  obtain ⟨c, p, hslot, hp, hpid, hpready⟩ := hhas.current h.numbered hcurrent
  cases hc with
  | @stays slot q current here running =>
    obtain rfl := Option.some.inj (current.symm.trans hslot)
    obtain rfl := Option.some.inj (here.symm.trans hp)
    rw [hpready] at running
    cases running
  | @turns slot vacant found =>
    obtain ⟨q, hq, hqready⟩ := exists_of_readyAt (List.find?_some found)
    refine ⟨q.pid, ⟨currentPid_promote hq, slot, q.promote s.timeSlice, ?_, rfl, rfl, rfl⟩, ?_⟩
    · rw [process?_promote, hq, Option.map_some, afterTurn, if_pos rfl]
    · constructor
      · rintro ⟨other, hne, hother⟩ rfl
        obtain rfl := h.numbered.eq_of_pid hp hq hpid
        obtain ⟨j, o, ho, rfl, hoready⟩ := h.numbered.isReady_iff.mp hother
        obtain rfl := h.find_current hslot found ho hoready
        obtain rfl := Option.some.inj (ho.symm.trans hq)
        exact hne rfl
      · exact fun hne => ⟨q.pid, hne, h.numbered.isReady_iff.mpr ⟨slot, q, hq, rfl, hqready⟩⟩
  | idles vacant found =>
    have hnot := List.find?_eq_none.mp found c ((turnOrder_perm _ _).mem_iff.mpr (h.mem_order hp))
    exact absurd (by rw [readyAt, hp, Option.any_some, decide_eq_true hpready]) hnot

end Scheduler

namespace Kernel

open Scheduler

variable {k k' k₀ k₁ : Kernel} {call : Call} {calls : List Call} {s s' : Scheduler}
variable {pid : Pid} {left n : Nat}

/-- The call is no system call, and it does not kill a process. -/
def Call.Spares (pid : Pid) : Call → Prop
  | .kill q => q ≠ pid
  | .syscall .. => False
  | _ => True

instance (pid : Pid) : ∀ call : Call, Decidable (call.Spares pid)
  | .kill q => inferInstanceAs (Decidable (q ≠ pid))
  | .syscall .. => isFalse id
  | .setUpPaging | .spawn .. | .reap | .timerTick => isTrue trivial

theorem Step.timeSlice (h : Step s call s') (ht : s.Tidy) : s'.timeSlice = s.timeSlice := by
  cases h with
  | setUpPaging => rfl
  | refused => rfl
  | failed hc => exact timeSlice_create hc
  | spawned hc =>
    refine Eq.trans ?_ (timeSlice_create hc)
    unfold enqueue
    split
    · exact timeSlice_link ..
    · rfl
  | missing => rfl
  | killed hd => exact timeSlice_destroy hd
  | reaped hd => exact timeSlice_destroyAll hd
  | unknown => rfl
  | @served _ _ asked =>
    cases asked with
    | getPid => rfl
    | exit | sleep | «yield» => exact s.timeSlice_updateCurrent _
  | ticked hr =>
    obtain ⟨s₁, htick, hc, -⟩ := ht.choice_of_reschedule hr
    refine Eq.trans ?_ (Scheduler.ticked htick).timeSlice
    cases hc with
    | stays => rfl
    | turns => exact s₁.timeSlice_promote _
    | idles => exact s₁.timeSlice_updateCurrent _

theorem timeSlice_run (h : k.scheduler.Tidy) (hr : k.run calls = .ok k') :
    k'.scheduler.timeSlice = k.scheduler.timeSlice := by
  induction calls generalizing k with
  | nil =>
    cases hr
    rfl
  | cons call calls ih =>
    rw [run_cons] at hr
    obtain ⟨k₁, hs, hr⟩ := Fault.of_bind_eq_ok hr
    have hstep := step_of_handle hs
    exact (ih (hstep.tidy h) hr).trans (hstep.timeSlice h)

/-- A call that is nothing to the process that runs lets it run on; a timer interrupt takes one tick
of its slice. -/
theorem Step.runs (hs : Step s call s') (ht : s.Tidy) (hspares : call.Spares pid)
    (h : s.Runs pid left) (hlt : call.isTick.toNat < left) :
    s'.Runs pid (left - call.isTick.toNat) := by
  have hunhooked (p p' : Process) : p'.unhooked = p.unhooked → p.Running left →
      p'.Running left := Process.Running.of_unhooked
  cases hs with
  | setUpPaging => exact h
  | refused => exact h
  | failed hc =>
    refine ⟨?_, h.running.create hc⟩
    rw [currentPid_eq, (ht.create_error hc).2.1.currentTenant, ← currentPid_eq, h.current]
  | spawned hc =>
    refine ⟨(ht.boarded_enqueue hc).2.2.currentPid.trans h.current, ?_⟩
    exact (h.running.create hc).rehung (rehung_enqueue ..) hunhooked
  | missing => exact h
  | killed hd =>
    refine ⟨?_, h.running.destroy (Ne.symm hspares) hd hunhooked⟩
    rw [(destroy_pids ht.numbered hd).2.1, if_neg, h.current]
    rw [h.current]
    exact fun heq => hspares (Option.some.inj heq).symm
  | reaped hd =>
    have hnot := h.running.not_mem_reapable ht.numbered fun p hp => by simp [hp.1]
    refine ⟨?_, h.running.destroyAll hnot hd hunhooked⟩
    rw [(destroyAll_pids ht.numbered (fun q hq => ne_of_mem_reapable ht.numbered hq) hd).2,
      h.current]
  | unknown => exact hspares.elim
  | served => exact hspares.elim
  | ticked hr =>
    obtain ⟨s₁, htick, hc, -⟩ := ht.choice_of_reschedule hr
    have hcharged := h.tick ht htick (Q := (·.Running (left - 1))) fun p hp => hp.charge_of_lt hlt
    have hruns : s₁.Runs pid (left - 1) := ⟨(currentPid_tick htick).trans h.current, hcharged⟩
    rw [hruns.choice (ht.tick htick).numbered hc]
    exact hruns

theorem runs_run (ht : k.scheduler.Tidy) (h : k.scheduler.Runs pid left)
    (hspares : ∀ call ∈ calls, call.Spares pid) (hlt : calls.countP Call.isTick < left)
    (hr : k.run calls = .ok k') :
    k'.scheduler.Runs pid (left - calls.countP Call.isTick) := by
  induction calls generalizing k left with
  | nil =>
    cases hr
    exact h
  | cons call calls ih =>
    rw [run_cons] at hr
    obtain ⟨k₁, hs, hr⟩ := Fault.of_bind_eq_ok hr
    obtain ⟨hcall, hcalls⟩ := List.forall_mem_cons.mp hspares
    have hcount : (call :: calls).countP Call.isTick =
        call.isTick.toNat + calls.countP Call.isTick := by
      cases hcase : call.isTick <;> simp [hcase, Nat.add_comm]
    have hstep := step_of_handle hs
    rw [hcount] at hlt ⊢
    rw [Nat.sub_add_eq]
    exact ih (hstep.tidy ht) (hstep.runs ht hcall h (by omega)) hcalls (by omega) hr

/-- What the timer interrupt comes to that finds a process running, with the scheduler as the clock
leaves it to the choice: the process goes on unless its slice is over; then another process gets the
processor if any is ready, and the process gets its next slice otherwise. -/
structure Charged (pid : Pid) (slice left : Nat) (s : Scheduler) (switch : Option ContextSwitch)
    (s' : Scheduler) : Prop where
  within : 1 < left → switch = none ∧ s'.Runs pid (left - 1)
  switches : left = 1 → ((∃ q, q ≠ pid ∧ s.isReady q = true) ↔
    ∃ q, q ≠ pid ∧ switch = some ⟨some pid, some q⟩ ∧ s'.Runs q slice)
  renews : left = 1 → (¬ ∃ q, q ≠ pid ∧ s.isReady q = true) → switch = none ∧ s'.Runs pid slice

theorem charged_timerTick (ht : k.scheduler.Tidy) (h : k.scheduler.Runs pid left)
    (hmax : k.scheduler.ticks < Word.maximum) :
    ∃ s switch k', k.scheduler.tick = .ok s ∧ k.timerTick = .ok (switch, k') ∧
      Charged pid k.scheduler.timeSlice left s switch k'.scheduler := by
  obtain ⟨s, k', hs, hc, htick⟩ := exists_timerTick ht hmax
  have hcurrent : s.currentPid = some pid := (currentPid_tick hs).trans h.current
  refine ⟨s, _, k', hs, htick, ?_⟩
  rw [h.current]
  constructor
  · intro hlt
    have hcharged := h.tick ht hs (Q := (·.Running (left - 1))) fun p hp => hp.charge_of_lt hlt
    have hruns : s.Runs pid (left - 1) := ⟨hcurrent, hcharged⟩
    rw [hruns.choice (ht.tick hs).numbered hc, hcurrent, if_pos rfl]
    exact ⟨rfl, hruns⟩
  all_goals
    intro hlast
    have hhas := h.tick ht hs (Q := (·.state = .ready)) fun p hp => hp.charge_of_le hlast.le
    have hready := (ht.tick hs).numbered.isReady_iff.mpr hhas
    obtain ⟨q, hruns, hother⟩ := (ht.tick hs).choice_of_ready hc hcurrent hready
    rw [(ticked hs).timeSlice] at hruns
    rw [hruns.current, hother]
  · constructor
    · intro hne
      exact ⟨q, hne, if_neg fun heq => hne (Option.some.inj heq).symm, hruns⟩
    · rintro ⟨q', hne, hswitch, hruns'⟩
      rwa [Option.some.inj (hruns.current.symm.trans hruns'.current)]
  · intro hnone
    obtain rfl := not_not.mp hnone
    exact ⟨if_pos rfl, hruns⟩

/-- A timer interrupt gives a process the processor. Any calls follow that are no system calls and
do not kill it, fewer timer interrupts than the slice has ticks among them: the process is running,
with the rest of its slice. If it is at its last tick, the next timer interrupt switches to another
process exactly if one is ready once that tick has woken the sleepers, and renews the slice
otherwise; before that it asks for no switch. -/
theorem slice_is_exact {r : Resources} {config : Config} {before stretch : List Call}
    (hb : (boot r config).run before = .ok k₀) (hs : k₀.handle .timerTick = .ok k₁)
    (hturn : givesTurn pid k₀ k₁ = true) (hspares : ∀ call ∈ stretch, call.Spares pid)
    (hr : k₁.run stretch = .ok k) (hn : stretch.countP Call.isTick = n)
    (hlt : n < max 1 config.timeSlice) (hmax : k.scheduler.ticks < Word.maximum) :
    k.scheduler.Runs pid (max 1 config.timeSlice - n) ∧
      ∃ s switch k', k.scheduler.tick = .ok s ∧ k.timerTick = .ok (switch, k') ∧
        Charged pid (max 1 config.timeSlice) (max 1 config.timeSlice - n) s switch
          k'.scheduler := by
  have ht₀ := tidy_run (tidy_boot r config) hb
  have hslice : (boot r config).scheduler.timeSlice = max 1 config.timeSlice := by
    rw [boot, scheduler_report]
    exact Nat.max_comm ..
  have hslice₀ := (timeSlice_run (tidy_boot r config) hb).trans hslice
  have hstep := step_of_handle hs
  have ht₁ := hstep.tidy ht₀
  have hslice₁ := (hstep.timeSlice ht₀).trans hslice₀
  have hruns₁ : k₁.scheduler.Runs pid (max 1 config.timeSlice) := by
    cases hstep with
    | ticked hres =>
      obtain ⟨s, htick, hc, -⟩ := ht₀.choice_of_reschedule hres
      rw [givesTurn, htick] at hturn
      obtain ⟨hno, hyes⟩ := Bool.and_eq_true_iff.mp hturn
      rw [← hslice₀, ← (Scheduler.ticked htick).timeSlice]
      exact (ht₀.tick htick).runs_of_turn hc (by simpa using hno) hyes
  have hruns := runs_run ht₁ hruns₁ hspares (hn ▸ hlt) hr
  rw [hn] at hruns
  have ht := tidy_run ht₁ hr
  have hcharged := charged_timerTick ht hruns hmax
  rw [(timeSlice_run ht₁ hr).trans hslice₁] at hcharged
  exact ⟨hruns, hcharged⟩

/-- The first of two processes is at the second tick of a slice of two; the next interrupt switches
to the other one. -/
theorem slice_of_first : ∃ k₀ k₁ k,
    (forProcesses 2 { timeSlice := 2 }).run [.setUpPaging, .spawn "a" 0, .spawn "b" 0] = .ok k₀ ∧
      k₀.handle .timerTick = .ok k₁ ∧ givesTurn 1 k₀ k₁ = true ∧
      k₁.run [.spawn "c" 0, .timerTick, .reap] = .ok k ∧
      k.scheduler.ticks < Word.maximum ∧ k.scheduler.Runs 1 1 ∧
      ∃ s switch k', k.scheduler.tick = .ok s ∧ k.timerTick = .ok (switch, k') ∧
        switch = some ⟨some 1, some 2⟩ ∧ Charged 1 2 1 s switch k'.scheduler := by
  obtain ⟨k₀, k₁, hb, hr₁, hcheck⟩ := exists_of_stretch (forProcesses 2 { timeSlice := 2 })
    [.setUpPaging, .spawn "a" 0, .spawn "b" 0] [.timerTick]
    (fun k₀ k₁ => givesTurn 1 k₀ k₁ &&
      (k₁.run [.spawn "c" 0, .timerTick, .reap]).toOption.any fun k =>
        decide (k.scheduler.ticks < Word.maximum) &&
          k.timerTick.toOption.any fun x => decide (x.1 = some ⟨some 1, some 2⟩))
    (by decide +kernel)
  rw [run_cons] at hr₁
  obtain ⟨_, hs, hr₁⟩ := Fault.of_bind_eq_ok hr₁
  cases hr₁
  obtain ⟨hturn, hcheck⟩ := Bool.and_eq_true_iff.mp hcheck
  obtain ⟨k, hr, hcheck⟩ := Fault.exists_of_any hcheck
  obtain ⟨hmax, hswitch⟩ := Bool.and_eq_true_iff.mp hcheck
  have hmax := of_decide_eq_true hmax
  obtain ⟨hruns, s, switch, k', htick, htimer, hcharged⟩ :=
    slice_is_exact hb hs hturn (by decide) hr rfl (by decide) hmax
  rw [htimer] at hswitch
  exact ⟨k₀, k₁, k, hb, hs, hturn, hr, hmax, hruns, s, switch, k', htick, htimer,
    of_decide_eq_true hswitch, hcharged⟩

end Kernel

end KernelCore
