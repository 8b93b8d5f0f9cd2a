import Mathlib
import KernelCore.Kernel.Calls
import KernelCore.Kernel.Processes
import KernelCore.Proofs.Kernel.Coherence
import KernelCore.Proofs.Scheduler.Slots

/-!
# The calls of the kernel

Each call leaves scheduler and paging coherent, and none takes the kernel space away.
-/
namespace KernelCore.Kernel

variable {k k' : Kernel}

/-- The parts of the kernel agree. -/
def Consistent (k : Kernel) : Prop := Coherent k.scheduler k.paging

theorem report_frame (k : Kernel) (level : LogLevel) (subsystem message : String) :
    (k.report level subsystem message).scheduler = k.scheduler ∧
      k.paging.SameRoots (k.report level subsystem message).paging ∧
      (k.report level subsystem message).paging.frames = k.paging.frames := by
  unfold report
  split
  · exact ⟨rfl, .refl _, rfl⟩
  · exact ⟨rfl, ⟨rfl, rfl, rfl⟩, rfl⟩

theorem Consistent.report (h : k.Consistent) (level : LogLevel) (subsystem message : String) :
    (k.report level subsystem message).Consistent := by
  obtain ⟨hs, hr, hf⟩ := k.report_frame level subsystem message
  rw [Consistent, hs]
  exact h.congr hr hf

theorem kernelSpace_report (k : Kernel) (level : LogLevel) (subsystem message : String) :
    (k.report level subsystem message).paging.kernelSpace = k.paging.kernelSpace :=
  (k.report_frame level subsystem message).2.1.kernelSpace

theorem Consistent.mask (h : k.Consistent) : k.mask.Consistent :=
  h.congr ⟨rfl, rfl, rfl⟩ rfl

theorem Consistent.setUpPaging {result : Except KernelError Unit} (h : k.Consistent)
    (hs : k.setUpPaging = .ok (result, k')) :
    k'.Consistent ∧ (result = .ok () ∨ k.paging.kernelSpace.isSome = true →
      k'.paging.kernelSpace.isSome = true) := by
  unfold Kernel.setUpPaging at hs
  obtain ⟨r, hsetup, hs⟩ := Fault.of_bind_eq_ok hs
  have hm := h.mask
  have hkm : k.mask.paging.kernelSpace = k.paging.kernelSpace := rfl
  rw [← hkm]
  generalize k.mask = k at hs hm hsetup
  split at hs
  · next paging =>
    cases hs
    obtain ⟨hc, hsome⟩ := Coherent.setUp_ok hm hsetup
    have hc : (k.withPaging paging).Consistent := hc
    exact ⟨hc.report _ _ _, fun _ => by rw [kernelSpace_report]; exact hsome⟩
  · next paging =>
    cases hs
    obtain ⟨hc, hnone⟩ := Coherent.setUp_error hm hsetup
    have hc : (k.withPaging paging).Consistent := hc
    refine ⟨hc.report _ _ _, ?_⟩
    rintro (hbad | hbad)
    · cases hbad
    · rw [hnone] at hbad
      cases hbad

theorem Consistent.spawn {name : String} {entry : Nat} {result : Except KernelError Pid}
    (h : k.Consistent) (hs : k.spawn name entry = .ok (result, k')) :
    k'.Consistent ∧ k'.paging.kernelSpace = k.paging.kernelSpace := by
  unfold Kernel.spawn at hs
  split at hs
  · cases hs
    exact ⟨h, rfl⟩
  · next hready =>
    rw [Option.isNone_iff_eq_none] at hready
    obtain ⟨r, hcreate, hs⟩ := Fault.of_bind_eq_ok hs
    have hm := h.mask
    have hkm : k.mask.paging.kernelSpace = k.paging.kernelSpace := rfl
    rw [← hkm] at hready ⊢
    generalize k.mask = k at hs hm hready hcreate
    split at hs
    · next scheduler resources =>
      cases hs
      rcases Scheduler.create_spec hcreate with ⟨_, _, hbad, -⟩ | ⟨-, hsettled, hp⟩
      · cases hbad
      · have hco : ({ k with scheduler, resources } : Kernel).Consistent :=
          Coherent.spared hm hsettled hp
        exact ⟨hco.report _ _ _, (kernelSpace_report _ _ _ _).trans hp.kernelSpace⟩
    · next pid scheduler resources =>
      cases hs
      rcases Scheduler.create_spec hcreate with ⟨slot, t, -, ha, hg⟩ | ⟨⟨_, hbad⟩, -⟩
      · have hstays := (Scheduler.rehung_enqueue scheduler pid).stays
        have hco : ({ k with scheduler := (scheduler.enqueue pid).2, resources } :
            Kernel).Consistent :=
          (Coherent.admitted hm hready ha hg).spared hstays.settled (.refl _)
        exact ⟨hco.report _ _ _, (kernelSpace_report _ _ _ _).trans hg.kernelSpace⟩
      · cases hbad

theorem Consistent.kill {pid : Pid} {result : Except KernelError Unit} (h : k.Consistent)
    (hs : k.kill pid = .ok (result, k')) :
    k'.Consistent ∧ k'.paging.kernelSpace = k.paging.kernelSpace := by
  unfold Kernel.kill at hs
  split at hs
  · cases hs
    exact ⟨h, rfl⟩
  · next p hget =>
    have hm := h.mask
    have hkm : k.mask.paging.kernelSpace = k.paging.kernelSpace := rfl
    have hget : k.mask.scheduler.get? pid = some p := hget
    rw [← hkm]
    obtain ⟨⟨found, scheduler, resources⟩, hdestroy, hs⟩ := Fault.of_bind_eq_ok hs
    generalize k.mask = k at hs hm hget hdestroy
    cases hs
    generalize hk₁ : (if k.paging.active = some p.space.root then
      k.withPaging k.paging.switchToKernel.2 else k) = k₁ at hdestroy ⊢
    have hscheduler : k₁.scheduler = k.scheduler := by
      rw [← hk₁]
      split <;> rfl
    have hpaging : k₁.paging = if k.paging.active = some p.space.root then
        k.paging.switchToKernel.2 else k.paging := by
      rw [← hk₁]
      split <;> rfl
    rw [hscheduler] at hdestroy
    rcases Scheduler.destroy_spec hdestroy with ⟨slot, t, hslot, -, he, hr⟩ | ⟨hnone, -⟩
    · rw [Scheduler.get?, hslot, Option.bind_some] at hget
      have ht := he.taken
      rw [Scheduler.seat, hget] at ht
      obtain rfl := Option.some.inj ht
      obtain ⟨hc, hsame⟩ := Coherent.kill hm he hpaging
      have hco : ({ k₁ with scheduler, resources } : Kernel).Consistent := by
        rw [Consistent, Kernel.paging, hr]
        exact hc
      refine ⟨hco.report _ _ _, (kernelSpace_report _ _ _ _).trans ?_⟩
      rw [Kernel.paging, hr]
      exact hsame
    · rw [Scheduler.get?, hnone] at hget
      cases hget

theorem coherent_destroyAll {s s' : Scheduler} {r r' : Resources} {pids : List Pid}
    (h : Coherent s r.paging) (hpids : ∀ pid ∈ pids, s.currentPid ≠ some pid)
    (hs : s.destroyAll r pids = .ok (s', r')) :
    Coherent s' r'.paging ∧ r'.paging.kernelSpace = r.paging.kernelSpace := by
  induction pids generalizing s r with
  | nil =>
    cases hs
    exact ⟨h, rfl⟩
  | cons pid pids ih =>
    rw [Scheduler.destroyAll] at hs
    obtain ⟨⟨found, s₁, r₁⟩, hdestroy, hrest⟩ := Fault.of_bind_eq_ok hs
    rcases Scheduler.destroy_spec hdestroy with ⟨slot, t, -, hpid, he, hr⟩ | ⟨-, rfl, rfl⟩
    · have hne : s.current ≠ some slot := by
        intro hc
        refine hpids pid (List.mem_cons_self ..) ?_
        rw [s.currentPid_eq, Scheduler.currentTenant_eq_some.mpr ⟨slot, hc, he.taken⟩, ← hpid]
        rfl
      have hct := he.currentTenant
      rw [if_neg hne] at hct
      have hc := h.evicted_other he hne
      rw [← hr] at hc
      obtain ⟨hc', hk⟩ := ih hc (fun pid hm => by
        rw [s₁.currentPid_eq, hct, ← s.currentPid_eq]
        exact hpids pid (List.mem_cons_of_mem _ hm)) hrest
      refine ⟨hc', hk.trans ?_⟩
      rw [hr]
      rfl
    · exact ih h (fun pid hm => hpids pid (List.mem_cons_of_mem _ hm)) hrest

theorem ne_of_mem_reapable {s : Scheduler} {pid : Pid} (h : s.Numbered) (hm : pid ∈ s.reapable) :
    s.currentPid ≠ some pid := by
  obtain ⟨slot, p, hp, hne, -, rfl⟩ := Scheduler.mem_reapable_iff.mp hm
  exact fun hpid => hne ((h.currentPid_eq_iff (Scheduler.seat_of_process? hp)).mp hpid)

theorem Consistent.reap {n : Nat} (h : k.Consistent) (hs : k.reap = .ok (n, k')) :
    k'.Consistent ∧ k'.paging.kernelSpace = k.paging.kernelSpace := by
  unfold Kernel.reap Scheduler.reap at hs
  have hm := h.mask
  have hkm : k.mask.paging.kernelSpace = k.paging.kernelSpace := rfl
  rw [← hkm]
  obtain ⟨x, hreap, hs⟩ := Fault.of_bind_eq_ok hs
  obtain ⟨⟨scheduler, resources⟩, hd, hx⟩ := Fault.of_bind_eq_ok hreap
  cases hx
  generalize k.mask = k at hs hm hd
  obtain ⟨hc, hkernel⟩ := coherent_destroyAll hm
    (fun pid hp => ne_of_mem_reapable hm.numbered hp) hd
  have hco : ({ k with scheduler, resources } : Kernel).Consistent := hc
  dsimp only at hs
  split at hs
  · cases hs
    exact ⟨hco, hkernel⟩
  · cases hs
    exact ⟨hco.report _ _ _, (kernelSpace_report _ _ _ _).trans hkernel⟩

theorem stays_perform (s : Scheduler) (call : Syscall) : s.Stays (perform s call).2 := by
  cases call with
  | exit status => exact Scheduler.stays_exit s status
  | getPid => exact .refl s
  | sleep ticks => exact Scheduler.stays_sleep s ticks
  | «yield» => exact Scheduler.stays_yield s

theorem Consistent.handleSyscall (h : k.Consistent) (number argument : Nat) :
    (k.handleSyscall number argument).2.Consistent ∧
      (k.handleSyscall number argument).2.paging.kernelSpace = k.paging.kernelSpace := by
  unfold Kernel.handleSyscall
  split
  · exact ⟨h.report _ _ _, kernelSpace_report _ _ _ _⟩
  · next call _ =>
    have hc : ({ k.mask with scheduler := (perform k.mask.scheduler call).2 } :
        Kernel).Consistent := Coherent.spared h.mask (stays_perform _ call).settled (.refl _)
    exact ⟨hc, rfl⟩

theorem Consistent.loadSpaceOf {s : Scheduler} (h : Coherent s k.paging)
    (hk : s.Keeps k.scheduler) (hs : k.scheduler.Seated) :
    (k.loadSpaceOf k.scheduler.currentPid).Consistent ∧
      (k.loadSpaceOf k.scheduler.currentPid).paging.kernelSpace = k.paging.kernelSpace := by
  have hnumbered := h.numbered.keeps hk
  have hget := hnumbered.get?_currentPid
  unfold Kernel.loadSpaceOf
  split
  · next hn =>
    rw [Option.isNone_iff_eq_none] at hn
    refine ⟨h.reload hk hs rfl rfl fun kernel hkm => ?_, rfl⟩
    rw [hn] at hkm
    cases hkm
  · next hn =>
    split
    · next p hp =>
      rw [hp, Option.map_some] at hget
      refine ⟨h.reload hk hs rfl rfl fun kernel hkm => ?_, rfl⟩
      have hown : k.scheduler.ownRoot kernel = p.space.root := by
        rw [Scheduler.ownRoot, ← hget]
        rfl
      exact ⟨congrArg some hown.symm, hown.symm⟩
    · next hp =>
      rw [hp, Option.map_none] at hget
      obtain ⟨kernel, hkernel⟩ : ∃ kernel, k.paging.kernelSpace = some kernel :=
        Option.ne_none_iff_exists'.mp (by simpa using hn)
      have hsw : k.paging.switchToKernel.2 = k.paging.switchTo kernel := by
        rw [Paging.switchToKernel, hkernel]
      rw [hsw]
      refine ⟨h.reload hk hs rfl rfl fun kernel' hkm => ?_, rfl⟩
      obtain rfl := Option.some.inj (hkernel.symm.trans hkm)
      have hown : k.scheduler.ownRoot kernel = kernel.root := by
        rw [Scheduler.ownRoot, ← hget]
        rfl
      exact ⟨congrArg some hown.symm, hown.symm⟩

theorem Consistent.timerTick {result : Option ContextSwitch} (h : k.Consistent)
    (hs : k.timerTick = .ok (result, k')) :
    k'.Consistent ∧ k'.paging.kernelSpace = k.paging.kernelSpace := by
  unfold Kernel.timerTick at hs
  have hm := h.mask
  have hkm : k.mask.paging.kernelSpace = k.paging.kernelSpace := rfl
  rw [← hkm]
  obtain ⟨⟨source, target, scheduler⟩, hr, hs⟩ := Fault.of_bind_eq_ok hs
  generalize k.mask = k at hs hm hr
  obtain ⟨hk, hseated, rfl, rfl⟩ := reschedule_spec hr hm.seated
  dsimp only at hs
  split at hs
  · next hsame =>
    cases hs
    refine ⟨Coherent.reload hm hk hseated rfl rfl fun kernel hkernel => ?_, rfl⟩
    rw [Scheduler.ownRoot_congr (hm.numbered.currentTenant_eq hk hsame.symm)]
    exact hm.loaded kernel hkernel
  · cases hs
    obtain ⟨hc, hkernel⟩ := Consistent.loadSpaceOf (k := { k with scheduler }) hm hk hseated
    exact ⟨hc.report _ _ _, (kernelSpace_report _ _ _ _).trans hkernel⟩

end KernelCore.Kernel
