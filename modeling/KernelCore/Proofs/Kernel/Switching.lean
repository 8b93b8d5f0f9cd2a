import Mathlib
import KernelCore.Proofs.Kernel.RootInUse
import KernelCore.Proofs.Scheduler.Slots

/-!
# Registers that the kernel keeps

What each call does to the registers that the kernel keeps for the threads and to the choice of the
current process, and whose registers a switch stores and loads.
-/
namespace KernelCore

/-- The thread that a side of a switch stands for. -/
def Thread.ofSide : Option Pid → Thread
  | none => .boot
  | some pid => .process pid

theorem Thread.ofSide_inj {x y : Option Pid} (h : ofSide x = ofSide y) : x = y := by
  cases x <;> cases y <;> cases h <;> rfl

namespace Kernel

/-- No registers were changed and the same process is current; other processes may be gone. -/
structure Quiet (k k' : Kernel) : Prop where
  retains : k.scheduler.Retains k'.scheduler
  nextPid : k'.scheduler.nextPid = k.scheduler.nextPid
  currentPid : k'.scheduler.currentPid = k.scheduler.currentPid
  bootRegisters : k'.bootRegisters = k.bootRegisters

/-- A new process starts at its entry, and nothing happened to the others. -/
structure Spawned (k k' : Kernel) (pid : Pid) (entry : Nat) : Prop where
  fresh : pid = k.scheduler.nextPid
  nextPid : k'.scheduler.nextPid = k.scheduler.nextPid + 1
  currentPid : k'.scheduler.currentPid = k.scheduler.currentPid
  bootRegisters : k'.bootRegisters = k.bootRegisters
  process? : ∀ i p', k'.scheduler.process? i = some p' →
    (p'.pid = pid ∧ p'.registers = .atEntry entry p'.stack.top p'.space.root) ∨
      ∃ p, k.scheduler.process? i = some p ∧ p'.pid = p.pid ∧ p'.registers = p.registers

/-- The current process was killed. -/
structure Killed (k k' : Kernel) (pid : Pid) : Prop where
  retains : k.scheduler.Retains k'.scheduler
  nextPid : k'.scheduler.nextPid = k.scheduler.nextPid
  before : k.scheduler.currentPid = some pid
  after : k'.scheduler.currentPid = none
  bootRegisters : k'.bootRegisters = k.bootRegisters
  gone : ∀ i p, k'.scheduler.process? i = some p → p.pid ≠ pid

/-- The timer chose another thread. -/
structure Chosen (k k' : Kernel) (c : ContextSwitch) : Prop where
  source : c.source = k.scheduler.currentPid
  target : c.target = k'.scheduler.currentPid
  differ : c.source ≠ c.target
  keeps : k.scheduler.Keeps k'.scheduler
  retains : k.scheduler.Retains k'.scheduler
  bootRegisters : k'.bootRegisters = k.bootRegisters

variable {k k' k'' : Kernel} {pid : Pid} {c : ContextSwitch}

theorem Quiet.trans (h : Quiet k k') (h' : Quiet k' k'') : Quiet k k'' :=
  ⟨h.retains.trans h'.retains, h'.nextPid.trans h.nextPid, h'.currentPid.trans h.currentPid,
    h'.bootRegisters.trans h.bootRegisters⟩

theorem quiet_of_same (hs : k'.scheduler = k.scheduler) (hb : k'.bootRegisters = k.bootRegisters) :
    Quiet k k' := by
  refine ⟨?_, ?_, ?_, hb⟩ <;> rw [hs]
  exact .refl _

theorem Spawned.trans {entry : Nat} (h : Spawned k k' pid entry) (h' : Quiet k' k'') :
    Spawned k k'' pid entry := by
  refine ⟨h.fresh, h'.nextPid.trans h.nextPid, h'.currentPid.trans h.currentPid,
    h'.bootRegisters.trans h.bootRegisters, fun i p'' hp'' => ?_⟩
  obtain ⟨p', hp', htenant, hregisters⟩ := h'.retains i p'' hp''
  have hpid : p''.pid = p'.pid := congrArg Tenant.pid htenant
  have hspace : p''.space = p'.space := congrArg Tenant.space htenant
  have hstack : p''.stack = p'.stack := congrArg Tenant.stack htenant
  obtain ⟨hnew, hentry⟩ | ⟨p, hp, hold, hsame⟩ := h.process? i p' hp'
  · left
    rw [hpid, hregisters, hspace, hstack]
    exact ⟨hnew, hentry⟩
  · exact .inr ⟨p, hp, hpid.trans hold, hregisters.trans hsame⟩

theorem Killed.trans (h : Killed k k' pid) (h' : Quiet k' k'') : Killed k k'' pid := by
  refine ⟨h.retains.trans h'.retains, h'.nextPid.trans h.nextPid, h.before,
    h'.currentPid.trans h.after, h'.bootRegisters.trans h.bootRegisters, fun i p'' hp'' => ?_⟩
  obtain ⟨p', hp', htenant, -⟩ := h'.retains i p'' hp''
  rw [show p''.pid = p'.pid from congrArg Tenant.pid htenant]
  exact h.gone i p' hp'

theorem Chosen.congr (h : Chosen k k' c) (hs : k''.scheduler = k'.scheduler)
    (hb : k''.bootRegisters = k'.bootRegisters) : Chosen k k'' c := by
  obtain ⟨hsource, htarget, hdiffer, hkeeps, hretains, hboot⟩ := h
  rw [← hs] at htarget hkeeps hretains
  exact ⟨hsource, htarget, hdiffer, hkeeps, hretains, hb.trans hboot⟩

theorem report_threads (k : Kernel) (level : LogLevel) (subsystem message : String) :
    (k.report level subsystem message).scheduler = k.scheduler ∧
      (k.report level subsystem message).bootRegisters = k.bootRegisters := by
  unfold report
  split <;> exact ⟨rfl, rfl⟩

theorem loadSpaceOf_threads (k : Kernel) (pid : Option Pid) :
    (k.loadSpaceOf pid).scheduler = k.scheduler ∧
      (k.loadSpaceOf pid).bootRegisters = k.bootRegisters := by
  unfold loadSpaceOf
  split
  · exact ⟨rfl, rfl⟩
  · split <;> exact ⟨rfl, rfl⟩

theorem quiet_report (k : Kernel) (level : LogLevel) (subsystem message : String) :
    Quiet k (k.report level subsystem message) :=
  quiet_of_same (k.report_threads ..).1 (k.report_threads ..).2

theorem quiet_setUpPaging {result : Except KernelError Unit}
    (hs : k.setUpPaging = .ok (result, k')) : Quiet k k' := by
  unfold setUpPaging at hs
  obtain ⟨⟨result, paging⟩, -, hs⟩ := Fault.of_bind_eq_ok hs
  have hq : Quiet k (k.mask.withPaging paging) := quiet_of_same rfl rfl
  cases result with
  | error e =>
    cases hs
    exact hq.trans (quiet_report _ _ _ _)
  | ok _ =>
    cases hs
    exact hq.trans (quiet_report _ _ _ _)

theorem dispatched_perform (s : Scheduler) (call : Syscall) :
    s.Dispatched (perform s call).2 := by
  cases call with
  | exit status => exact s.dispatched_exit status
  | getPid => exact .refl s
  | sleep ticks => exact s.dispatched_sleep ticks
  | «yield» => exact s.dispatched_yield

theorem quiet_handleSyscall (k : Kernel) (number argument : Nat) :
    Quiet k (k.handleSyscall number argument).2 := by
  unfold handleSyscall
  split
  · exact quiet_report _ _ _ _
  · next call _ =>
    have hstays := stays_perform k.scheduler call
    refine ⟨(dispatched_perform k.scheduler call).retains, hstays.nextPid, ?_, rfl⟩
    rw [Scheduler.currentPid_eq, Scheduler.currentPid_eq, ← hstays.settled.currentTenant]
    rfl

theorem quiet_reap {n : Nat} (h : k.Consistent) (hs : k.reap = .ok (n, k')) : Quiet k k' := by
  unfold reap Scheduler.reap at hs
  obtain ⟨x, hreap, hs⟩ := Fault.of_bind_eq_ok hs
  obtain ⟨⟨scheduler, resources⟩, hd, hx⟩ := Fault.of_bind_eq_ok hreap
  cases hx
  obtain ⟨hnext, hcurrent⟩ := Scheduler.destroyAll_pids (s := k.scheduler) h.numbered
    (fun pid hp => ne_of_mem_reapable h.numbered hp) hd
  have hq : Quiet k { k.mask with scheduler, resources } :=
    ⟨(Scheduler.thinned_destroyAll (s := k.scheduler) hd).retains, hnext, hcurrent, rfl⟩
  dsimp only at hs
  split at hs
  · cases hs
    exact hq
  · cases hs
    exact hq.trans (quiet_report _ _ _ _)

/-- Starting a process succeeds with a new one, or it fails and the threads stay as they are. -/
theorem spawn_spec {name : String} {entry : Nat} {result : Except KernelError Pid}
    (h : k.Consistent) (hs : k.spawn name entry = .ok (result, k')) :
    (∃ pid, result = .ok pid ∧ Spawned k k' pid entry) ∨
      (∃ e, result = .error e) ∧ Quiet k k' := by
  unfold spawn at hs
  split at hs
  · cases hs
    exact .inr ⟨⟨_, rfl⟩, quiet_of_same rfl rfl⟩
  · obtain ⟨⟨result, scheduler, resources⟩, hcreate, hs⟩ := Fault.of_bind_eq_ok hs
    have hcreate : k.scheduler.create k.mask.resources name entry =
      .ok (result, scheduler, resources) := hcreate
    obtain ⟨-, hslots⟩ := Scheduler.create_slots hcreate
    have hspec := Scheduler.create_spec hcreate
    cases result with
    | error e =>
      cases hs
      obtain ⟨_, _, _, _, hbad, -⟩ | ⟨-, hproc⟩ := hslots
      · cases hbad
      obtain ⟨_, _, hbad, -⟩ | ⟨-, hsettled, -⟩ := hspec
      · cases hbad
      have hq : Quiet k { k.mask with scheduler, resources } := by
        refine ⟨fun i p hp => ⟨p, (hproc i).symm.trans hp, rfl, rfl⟩, hsettled.nextPid, ?_, rfl⟩
        rw [Scheduler.currentPid_eq, Scheduler.currentPid_eq, ← hsettled.currentTenant]
      exact .inr ⟨⟨e, rfl⟩, hq.trans (quiet_report _ _ _ _)⟩
    | ok pid =>
      cases hs
      obtain ⟨slot, p, -, hproc, hpid, -, -, -, hentry, -⟩ | ⟨⟨_, hbad⟩, -⟩ := hslots
      swap
      · cases hbad
      obtain ⟨slot', t, hpid', ha, -⟩ | ⟨⟨_, hbad⟩, -⟩ := hspec
      swap
      · cases hbad
      cases hpid
      have hadmitted : Spawned k { k.mask with scheduler, resources } p.pid entry := by
        refine ⟨(Except.ok.inj hpid').trans ha.pid, ha.nextPid, ?_, rfl, fun i p' hp' => ?_⟩
        · rw [Scheduler.currentPid_eq, Scheduler.currentPid_eq, ← ha.currentTenant h.seated]
        · have hp' : scheduler.process? i = some p' := hp'
          rw [hproc] at hp'
          split at hp'
          · cases hp'
            exact .inl ⟨rfl, hentry⟩
          · exact .inr ⟨p', hp', rfl, rfl⟩
      have hstays := (scheduler.rehung_enqueue p.pid).stays
      have henqueued : Quiet { k.mask with scheduler, resources }
          { k.mask with scheduler := (scheduler.enqueue p.pid).2, resources } := by
        refine ⟨(scheduler.rehung_enqueue p.pid).retains, hstays.nextPid, ?_, rfl⟩
        rw [Scheduler.currentPid_eq, Scheduler.currentPid_eq, ← hstays.settled.currentTenant]
      exact .inl ⟨p.pid, rfl, (hadmitted.trans henqueued).trans (quiet_report _ _ _ _)⟩

/-- Killing a process is quiet unless it is the current one. -/
theorem kill_spec {result : Except KernelError Unit} (h : k.Consistent)
    (hs : k.kill pid = .ok (result, k')) :
    (k.scheduler.currentPid ≠ some pid ∧ Quiet k k') ∨ Killed k k' pid := by
  unfold kill at hs
  split at hs
  · next hnone =>
    cases hs
    refine .inl ⟨fun hpid => ?_, quiet_of_same rfl rfl⟩
    obtain ⟨slot, t, -, hseat, rfl⟩ := Scheduler.exists_of_currentPid hpid
    rw [Scheduler.get?, h.numbered.slotOf hseat, Option.bind_some] at hnone
    rw [Scheduler.seat, hnone] at hseat
    cases hseat
  · next p _ =>
    obtain ⟨⟨found, scheduler, resources⟩, hdestroy, hs⟩ := Fault.of_bind_eq_ok hs
    cases hs
    generalize hk₁ : (if k.mask.paging.active = some p.space.root then
      k.mask.withPaging k.mask.paging.switchToKernel.2 else k.mask) = k₁ at hdestroy ⊢
    have hsame : k₁.scheduler = k.scheduler ∧ k₁.bootRegisters = k.bootRegisters := by
      rw [← hk₁]
      split <;> exact ⟨rfl, rfl⟩
    rw [hsame.1] at hdestroy
    obtain ⟨hnext, hcurrent, hgone⟩ := Scheduler.destroy_pids h.numbered hdestroy
    have hretains := (Scheduler.thinned_destroy hdestroy).retains
    by_cases hpid : k.scheduler.currentPid = some pid
    · rw [if_pos hpid] at hcurrent
      have hkilled : Killed k { k₁ with scheduler, resources } pid :=
        ⟨hretains, hnext, hpid, hcurrent, hsame.2, hgone⟩
      exact .inr (hkilled.trans (quiet_report _ _ _ _))
    · rw [if_neg hpid] at hcurrent
      have hquiet : Quiet k { k₁ with scheduler, resources } :=
        ⟨hretains, hnext, hcurrent, hsame.2⟩
      exact .inl ⟨hpid, hquiet.trans (quiet_report _ _ _ _)⟩

/-- A tick of the timer is quiet unless it asks for a switch. -/
theorem timerTick_spec {result : Option ContextSwitch} (h : k.Consistent)
    (hs : k.timerTick = .ok (result, k')) :
    (result = none ∧ Quiet k k') ∨ ∃ c, result = some c ∧ Chosen k k' c := by
  unfold timerTick at hs
  obtain ⟨⟨source, target, scheduler⟩, hr, hs⟩ := Fault.of_bind_eq_ok hs
  obtain ⟨hkeeps, -, hsource, htarget⟩ := reschedule_spec hr h.seated
  have hretains := (dispatched_reschedule hr).retains
  dsimp only at hs
  split at hs
  · next hsame =>
    cases hs
    refine .inl ⟨rfl, hretains, hkeeps.nextPid, ?_, rfl⟩
    exact htarget.symm.trans (hsame.symm.trans hsource)
  · next hdiffer =>
    cases hs
    have hchosen : Chosen k { k.mask with scheduler } ⟨source, target⟩ :=
      ⟨hsource, htarget, hdiffer, hkeeps, hretains, rfl⟩
    obtain ⟨hs₁, hb₁⟩ := loadSpaceOf_threads { k.mask with scheduler } target
    obtain ⟨hs₂, hb₂⟩ := report_threads ({ k.mask with scheduler }.loadSpaceOf target) .debug "sched"
      ("switch " ++ sideName source ++ " -> " ++ sideName target)
    exact .inr ⟨_, rfl, hchosen.congr (hs₂.trans hs₁) (hb₂.trans hb₁)⟩

theorem exists_slotOf_currentPid {s : Scheduler} (hn : s.Numbered) (h : s.currentPid = some pid) :
    ∃ slot, s.slotOf pid = some slot := by
  obtain ⟨slot, t, -, hseat, rfl⟩ := Scheduler.exists_of_currentPid h
  exact ⟨slot, hn.slotOf hseat⟩

theorem Chosen.contexts (h : Chosen k k' c) (hn : k.scheduler.Numbered) :
    k'.contexts c = some (.ofSide c.source, .ofSide c.target) := by
  have hsource : ∀ pid, c.source = some pid → ∃ slot, k'.scheduler.slotOf pid = some slot := by
    intro pid hpid
    rw [h.keeps.slotOf]
    exact exists_slotOf_currentPid hn (h.source.symm.trans hpid)
  have htarget : ∀ pid, c.target = some pid → ∃ slot, k'.scheduler.slotOf pid = some slot :=
    fun pid hpid => exists_slotOf_currentPid (hn.keeps h.keeps) (h.target.symm.trans hpid)
  rw [Kernel.contexts]
  cases hs : c.source with
  | none =>
    cases ht : c.target with
    | none => rfl
    | some pid =>
      obtain ⟨slot, hslot⟩ := htarget pid ht
      simp only [Option.bind_some, Option.bind_none, hslot, Option.map_some]
      rfl
  | some pid =>
    obtain ⟨slot, hslot⟩ := hsource pid hs
    cases ht : c.target with
    | none =>
      simp only [Option.bind_some, Option.bind_none, hslot, Option.map_some]
      rfl
    | some pid' =>
      obtain ⟨slot', hslot'⟩ := htarget pid' ht
      simp only [Option.bind_some, hslot, hslot', Option.map_some]
      rfl

theorem stays_storeRegisters (k : Kernel) (registers : Registers) (thread : Thread) :
    k.scheduler.Stays (k.storeRegisters registers thread).scheduler := by
  cases thread with
  | boot => exact .refl _
  | process pid =>
    unfold storeRegisters
    dsimp only
    split
    · exact Scheduler.stays_update (f := fun p => { p with registers }) (fun _ => rfl) _ _
    · exact .refl _

theorem paging_storeRegisters (k : Kernel) (registers : Registers) (thread : Thread) :
    (k.storeRegisters registers thread).paging = k.paging := by
  cases thread with
  | boot => rfl
  | process pid =>
    unfold storeRegisters
    dsimp only
    split <;> rfl

theorem Consistent.storeRegisters (h : k.Consistent) (registers : Registers) (thread : Thread) :
    (k.storeRegisters registers thread).Consistent := by
  rw [Consistent, paging_storeRegisters]
  exact Coherent.spared h (stays_storeRegisters k registers thread).settled (.refl _)

theorem storeRegisters_process (hn : k.scheduler.Numbered) (registers : Registers) {i : Nat}
    {p' : Process}
    (hp' : (k.storeRegisters registers (.process pid)).scheduler.process? i = some p') :
    ∃ p, k.scheduler.process? i = some p ∧ p'.pid = p.pid ∧
      p'.registers = if p.pid = pid then registers else p.registers := by
  unfold storeRegisters at hp'
  dsimp only at hp'
  split at hp'
  · next slot hslot =>
    obtain ⟨t, ht, hpid⟩ := Scheduler.slotOf_seat hslot
    rw [Scheduler.process?_update] at hp'
    split at hp'
    · next hi =>
      subst hi
      obtain ⟨p, hp, rfl⟩ := Option.map_eq_some_iff.mp hp'
      rw [Scheduler.seat, hp] at ht
      obtain rfl := Option.some.inj ht
      exact ⟨p, hp, rfl, (if_pos hpid).symm⟩
    · next hi =>
      refine ⟨p', hp', rfl, (if_neg fun heq => hi ?_).symm⟩
      have hseat : k.scheduler.seat i = some p'.tenant := Scheduler.seat_of_process? hp'
      exact hn.distinct slot i t p'.tenant ht hseat (hpid.trans heq.symm)
  · next hnone =>
    refine ⟨p', hp', rfl, ?_⟩
    rw [if_neg (hn.pid_ne_of_slotOf hnone hp')]

theorem bootRegisters_storeRegisters (k : Kernel) (registers : Registers) (pid : Pid) :
    (k.storeRegisters registers (.process pid)).bootRegisters = k.bootRegisters := by
  unfold storeRegisters
  dsimp only
  split <;> rfl

theorem registersOf_process (hn : k.scheduler.Numbered) {i : Nat} {p : Process}
    (hp : k.scheduler.process? i = some p) : k.registersOf (.process p.pid) = p.registers := by
  rw [registersOf, hn.get?_pid hp]
  rfl

end Kernel

end KernelCore
