import Mathlib
import KernelCore.Proofs.Kernel.Switching

/-!
# Threads resume with their own registers

The processor has one set of registers, which the running thread changes as it likes. Every switch
that the timer asks for is made between the registers that the kernel names. Each process then
resumes with the registers that it had when it was switched out, and so does the boot thread unless
the process that ran in its place was killed.
-/
namespace KernelCore

/-- The kernel and the processor. What runs and what the threads left is recorded beside them. -/
structure Machine where
  kernel : Kernel
  cpu : Registers
  /-- The thread that was switched to last. -/
  running : Thread := .boot
  /-- The registers that a thread had when it was last switched out, or that it starts with. -/
  left : Thread → Registers := fun _ => {}
  /-- Whether a process was killed while it ran since the boot thread was last switched out. -/
  killed : Bool := false

namespace Machine

/-- What happens next: the running thread computes, or a call reaches the kernel. -/
inductive Act where
  | compute (registers : Registers)
  | call (call : Kernel.Call)

/-- Makes a switch that the kernel asked for. -/
def switch (m : Machine) (k : Kernel) (c : ContextSwitch) : Machine :=
  match k.contexts c with
  | none => { m with kernel := k }
  | some (save, load) =>
    let k := k.storeRegisters m.cpu save
    { kernel := k
      cpu := k.registersOf load
      running := .ofSide c.target
      left := Function.update m.left m.running m.cpu
      killed := m.killed && m.running ≠ .boot }

/-- The registers that a process starts with. -/
def initial (k : Kernel) (pid : Pid) (entry : Nat) : Registers :=
  ((k.scheduler.get? pid).map fun p => .atEntry entry p.stack.top p.space.root).getD {}

def perform (m : Machine) : Act → Except Fault Machine
  | .compute registers => return { m with cpu := registers }
  | .call .timerTick => do
    match ← m.kernel.timerTick with
    | (none, k) => return { m with kernel := k }
    | (some c, k) => return m.switch k c
  | .call (.spawn name entry) => do
    match ← m.kernel.spawn name entry with
    | (.error _, k) => return { m with kernel := k }
    | (.ok pid, k) =>
      return { m with
        kernel := k
        left := Function.update m.left (.process pid) (initial k pid entry) }
  | .call (.kill pid) => do
    let (_, k) ← m.kernel.kill pid
    return { m with kernel := k, killed := m.killed || m.running = .process pid }
  | .call c => return { m with kernel := ← m.kernel.handle c }

def run (m : Machine) (acts : List Act) : Except Fault Machine := acts.foldlM perform m

/-- The process that runs was killed. -/
structure Orphaned (m : Machine) (pid : Pid) : Prop where
  running : m.running = .process pid
  currentPid : m.kernel.scheduler.currentPid = none
  old : pid < m.kernel.scheduler.nextPid
  gone : ∀ i p, m.kernel.scheduler.process? i = some p → p.pid ≠ pid
  killed : m.killed = true

/-- The kernel keeps what every thread left but for the one that runs. -/
structure Sound (m : Machine) : Prop where
  consistent : m.kernel.Consistent
  running : m.running = .ofSide m.kernel.scheduler.currentPid ∨ ∃ pid, m.Orphaned pid
  saved : ∀ i p, m.kernel.scheduler.process? i = some p → m.running ≠ .process p.pid →
    p.registers = m.left (.process p.pid)
  boot : m.killed = false → m.running ≠ .boot → m.kernel.bootRegisters = m.left .boot

variable {m m' : Machine} {k : Kernel} {c : ContextSwitch} {pid : Pid} {entry : Nat}

theorem Sound.running_of_some (h : m.Sound) (hc : m.kernel.scheduler.currentPid = some pid) :
    m.running = .process pid := by
  rcases h.running with hr | ⟨old, ho⟩
  · rw [hr, hc]
    rfl
  · have hnone := ho.currentPid
    rw [hc] at hnone
    cases hnone

theorem Sound.running_of_none (h : m.Sound) (hc : m.kernel.scheduler.currentPid = none) :
    m.running = .boot ∨ ∃ pid, m.Orphaned pid := by
  rcases h.running with hr | ho
  · rw [hc] at hr
    exact .inl hr
  · exact .inr ho

theorem Sound.quiet (h : m.Sound) (hc : k.Consistent) (hq : m.kernel.Quiet k) :
    Sound { m with kernel := k } := by
  refine ⟨hc, ?_, fun i p' hp' hne => ?_, fun hk hr => hq.bootRegisters.trans (h.boot hk hr)⟩
  · rcases h.running with hr | ⟨pid, ho⟩
    · exact .inl (hr.trans (congrArg Thread.ofSide hq.currentPid.symm))
    · refine .inr ⟨pid, ho.running, hq.currentPid.trans ho.currentPid, ?_, fun i p' hp' => ?_,
        ho.killed⟩
      · show pid < k.scheduler.nextPid
        rw [hq.nextPid]
        exact ho.old
      · obtain ⟨p, hp, htenant, -⟩ := hq.retains i p' hp'
        rw [show p'.pid = p.pid from congrArg Tenant.pid htenant]
        exact ho.gone i p hp
  · obtain ⟨p, hp, htenant, hregisters⟩ := hq.retains i p' hp'
    have hpid : p'.pid = p.pid := congrArg Tenant.pid htenant
    rw [hpid] at hne ⊢
    exact hregisters.trans (h.saved i p hp hne)

theorem Sound.spawned (h : m.Sound) (hc : k.Consistent) (hs : m.kernel.Spawned k pid entry) :
    Sound { m with
      kernel := k, left := Function.update m.left (.process pid) (initial k pid entry) } := by
  have hfresh : ∀ i p, m.kernel.scheduler.process? i = some p → p.pid ≠ pid := by
    intro i p hp
    have hlt := h.consistent.numbered.below i p.tenant (Scheduler.seat_of_process? hp)
    rw [hs.fresh]
    exact Nat.ne_of_lt hlt
  refine ⟨hc, ?_, fun i p' hp' hne => ?_, fun hk hr => ?_⟩
  · rcases h.running with hr | ⟨old, ho⟩
    · exact .inl (hr.trans (congrArg Thread.ofSide hs.currentPid.symm))
    · refine .inr ⟨old, ho.running, hs.currentPid.trans ho.currentPid, ?_, fun i p' hp' => ?_,
        ho.killed⟩
      · show old < k.scheduler.nextPid
        rw [hs.nextPid]
        exact Nat.lt_succ_of_lt ho.old
      · obtain ⟨hnew, -⟩ | ⟨p, hp, hpid, -⟩ := hs.process? i p' hp'
        · rw [hnew, hs.fresh]
          exact ho.old.ne'
        · rw [hpid]
          exact ho.gone i p hp
  · dsimp only at hp' hne ⊢
    obtain ⟨hnew, hentry⟩ | ⟨p, hp, hpid, hregisters⟩ := hs.process? i p' hp'
    · rw [hnew, Function.update_self, initial, ← hnew, hc.numbered.get?_pid hp']
      exact hentry
    · have hne' : Thread.process p'.pid ≠ .process pid := fun heq =>
        hfresh i p hp (hpid.symm.trans (Thread.process.inj heq))
      rw [Function.update_of_ne hne', hregisters, hpid]
      rw [hpid] at hne
      exact h.saved i p hp hne
  · dsimp only
    rw [Function.update_of_ne (by simp)]
    exact hs.bootRegisters.trans (h.boot hk hr)

theorem Sound.orphaned (h : m.Sound) (hc : k.Consistent) (hk : m.kernel.Killed k pid) :
    m.running = .process pid ∧ Sound { m with kernel := k, killed := true } := by
  have hrunning := h.running_of_some hk.before
  refine ⟨hrunning, hc, .inr ⟨pid, hrunning, hk.after, ?_, hk.gone, rfl⟩,
    fun i p' hp' hne => ?_, fun hkilled => by cases hkilled⟩
  · obtain ⟨slot, t, -, hseat, rfl⟩ := Scheduler.exists_of_currentPid hk.before
    show t.pid < k.scheduler.nextPid
    rw [hk.nextPid]
    exact h.consistent.numbered.below slot t hseat
  · obtain ⟨p, hp, htenant, hregisters⟩ := hk.retains i p' hp'
    have hpid : p'.pid = p.pid := congrArg Tenant.pid htenant
    rw [hpid] at hne ⊢
    exact hregisters.trans (h.saved i p hp hne)

theorem Sound.stored (h : m.Sound) (hs : m.kernel.Chosen k c) :
    (∀ i p', (k.storeRegisters m.cpu (.ofSide c.source)).scheduler.process? i = some p' →
      (∃ p, m.kernel.scheduler.process? i = some p ∧ p'.pid = p.pid) ∧
        p'.registers = Function.update m.left m.running m.cpu (.process p'.pid)) ∧
      (m.killed = false ∨ m.running = .boot →
        (k.storeRegisters m.cpu (.ofSide c.source)).bootRegisters =
          Function.update m.left m.running m.cpu .boot) := by
  have hn := h.consistent.numbered.keeps hs.keeps
  have hsource := hs.source
  cases hc : c.source with
  | none =>
    rw [hc] at hsource
    have hrunning := h.running_of_none hsource.symm
    refine ⟨fun i p' hp' => ?_, fun hk => ?_⟩
    · obtain ⟨p, hp, htenant, hregisters⟩ := hs.retains i p' hp'
      have hpid : p'.pid = p.pid := congrArg Tenant.pid htenant
      have hne : m.running ≠ .process p.pid := by
        rcases hrunning with hr | ⟨old, ho⟩
        · simp [hr]
        · rw [ho.running]
          exact fun heq => ho.gone i p hp (Thread.process.inj heq).symm
      refine ⟨⟨p, hp, hpid⟩, ?_⟩
      rw [hpid, Function.update_of_ne hne.symm, hregisters]
      exact h.saved i p hp hne
    · have hr : m.running = .boot := by
        rcases hrunning with hr | ⟨old, ho⟩
        · exact hr
        · rcases hk with hk | hr
          · rw [ho.killed] at hk
            cases hk
          · exact hr
      rw [hr, Function.update_self]
      rfl
  | some source =>
    rw [hc] at hsource
    have hrunning := h.running_of_some hsource.symm
    refine ⟨fun i p' hp' => ?_, fun hk => ?_⟩
    · obtain ⟨p₁, hp₁, hpid, hregisters⟩ := k.storeRegisters_process hn m.cpu hp'
      obtain ⟨p, hp, htenant, hsame⟩ := hs.retains i p₁ hp₁
      have hpid₁ : p₁.pid = p.pid := congrArg Tenant.pid htenant
      refine ⟨⟨p, hp, hpid.trans hpid₁⟩, hregisters.trans ?_⟩
      rw [hpid, hrunning]
      split
      · next heq => rw [heq, Function.update_self]
      · next hne =>
        have hne' : Thread.process p₁.pid ≠ .process source := fun heq =>
          hne (Thread.process.inj heq)
        rw [Function.update_of_ne hne', hsame, hpid₁]
        refine h.saved i p hp ?_
        rw [hrunning, ← hpid₁]
        exact hne'.symm
    · have hne : m.running ≠ .boot := by simp [hrunning]
      rw [Thread.ofSide, k.bootRegisters_storeRegisters, Function.update_of_ne hne.symm]
      exact hs.bootRegisters.trans (h.boot (hk.resolve_right hne) hne)

theorem Sound.switched (h : m.Sound) (hc : k.Consistent) (hs : m.kernel.Chosen k c) :
    Sound (m.switch k c) ∧ (c.target ≠ none ∨ m.killed = false →
      (m.switch k c).cpu = m.left (.ofSide c.target)) := by
  obtain ⟨hsaved, hboot⟩ := h.stored hs
  have hstays := k.stays_storeRegisters m.cpu (.ofSide c.source)
  have hstored := hc.storeRegisters m.cpu (.ofSide c.source)
  have hswitch : m.switch k c =
      { kernel := k.storeRegisters m.cpu (.ofSide c.source)
        cpu := (k.storeRegisters m.cpu (.ofSide c.source)).registersOf (.ofSide c.target)
        running := .ofSide c.target
        left := Function.update m.left m.running m.cpu
        killed := m.killed && m.running ≠ .boot } := by
    rw [switch, hs.contexts h.consistent.numbered]
  rw [hswitch]
  generalize k.storeRegisters m.cpu (.ofSide c.source) = k₁ at *
  have hcurrent : k₁.scheduler.currentPid = c.target := by
    rw [hs.target, Scheduler.currentPid_eq, Scheduler.currentPid_eq, hstays.settled.currentTenant]
  have hlive : ∀ pid, c.target = some pid → ∃ i p', k₁.scheduler.process? i = some p' ∧
      p'.pid = pid := by
    intro pid hpid
    obtain ⟨i, t, -, hseat, rfl⟩ := Scheduler.exists_of_currentPid (hcurrent.trans hpid)
    obtain ⟨p', hp', rfl⟩ := Option.map_eq_some_iff.mp hseat
    exact ⟨i, p', hp', rfl⟩
  refine ⟨⟨hstored, .inl (congrArg Thread.ofSide hcurrent.symm),
    fun i p' hp' _ => (hsaved i p' hp').2, fun hk _ => hboot ?_⟩, fun htarget => ?_⟩
  · simpa using Bool.and_eq_false_iff.mp hk
  · -- the thread that is loaded is not the one that ran
    have hne : Thread.ofSide c.target ≠ m.running := by
      intro heq
      rcases h.running with hr | ⟨old, ho⟩
      · rw [hr, ← hs.source] at heq
        exact hs.differ (Thread.ofSide_inj heq).symm
      · rw [ho.running] at heq
        have hold : c.target = some old := Thread.ofSide_inj heq
        obtain ⟨i, p', hp', hpid⟩ := hlive old hold
        obtain ⟨⟨p, hp, hsame⟩, -⟩ := hsaved i p' hp'
        exact ho.gone i p hp (hsame.symm.trans hpid)
    rw [← Function.update_of_ne hne m.cpu m.left]
    cases ht : c.target with
    | none => exact hboot (.inl (htarget.resolve_left (not_not.mpr ht)))
    | some pid =>
      obtain ⟨i, p', hp', rfl⟩ := hlive pid ht
      exact (Kernel.registersOf_process hstored.numbered hp').trans (hsaved i p' hp').2

theorem Sound.perform {act : Act} (h : m.Sound) (hp : m.perform act = .ok m') : m'.Sound := by
  cases act with
  | compute registers =>
    cases hp
    exact ⟨h.consistent, h.running.imp_right fun ⟨pid, ho⟩ =>
      ⟨pid, ho.running, ho.currentPid, ho.old, ho.gone, ho.killed⟩, h.saved, h.boot⟩
  | call call =>
    cases call with
    | setUpPaging =>
      obtain ⟨k, hk, hp⟩ := Fault.of_bind_eq_ok hp
      obtain ⟨⟨_, _⟩, hr, hk⟩ := Fault.of_bind_eq_ok hk
      cases hk
      cases hp
      exact h.quiet (h.consistent.setUpPaging hr).1 (Kernel.quiet_setUpPaging hr)
    | spawn name entry =>
      obtain ⟨⟨result, k⟩, hr, hp⟩ := Fault.of_bind_eq_ok hp
      have hc := (h.consistent.spawn hr).1
      obtain ⟨pid, rfl, hs⟩ | ⟨⟨e, rfl⟩, hq⟩ := Kernel.spawn_spec h.consistent hr
      · cases hp
        exact h.spawned hc hs
      · cases hp
        exact h.quiet hc hq
    | kill pid =>
      obtain ⟨⟨result, k⟩, hr, hp⟩ := Fault.of_bind_eq_ok hp
      cases hp
      have hc := (h.consistent.kill hr).1
      obtain ⟨hother, hq⟩ | hk := Kernel.kill_spec h.consistent hr
      · have hsame : (m.killed || m.running = .process pid) = m.killed := by
          rcases h.running with hrunning | ⟨old, ho⟩
          · have hne : m.running ≠ .process pid := fun heq =>
              hother (Thread.ofSide_inj (y := some pid) (hrunning.symm.trans heq))
            simp [hne]
          · simp [ho.killed]
        rw [hsame]
        exact h.quiet hc hq
      · obtain ⟨hrunning, hs⟩ := h.orphaned hc hk
        simpa [hrunning] using hs
    | reap =>
      obtain ⟨k, hk, hp⟩ := Fault.of_bind_eq_ok hp
      obtain ⟨⟨_, _⟩, hr, hk⟩ := Fault.of_bind_eq_ok hk
      cases hk
      cases hp
      exact h.quiet (h.consistent.reap hr).1 (Kernel.quiet_reap h.consistent hr)
    | syscall number argument =>
      cases hp
      exact h.quiet (h.consistent.handleSyscall number argument).1
        (Kernel.quiet_handleSyscall _ number argument)
    | timerTick =>
      obtain ⟨⟨result, k⟩, hr, hp⟩ := Fault.of_bind_eq_ok hp
      have hc := (h.consistent.timerTick hr).1
      obtain ⟨rfl, hq⟩ | ⟨c, rfl, hs⟩ := Kernel.timerTick_spec h.consistent hr
      · cases hp
        exact h.quiet hc hq
      · cases hp
        exact (h.switched hc hs).1

theorem Sound.run {acts : List Act} (h : m.Sound) (hr : m.run acts = .ok m') : m'.Sound := by
  induction acts generalizing m with
  | nil =>
    cases hr
    exact h
  | cons act acts ih =>
    rw [Machine.run, List.foldlM_cons] at hr
    obtain ⟨m₁, hs, hr⟩ := Fault.of_bind_eq_ok hr
    exact ih (h.perform hs) hr

/-- A machine on which the boot thread runs a new kernel. -/
def boot (resources : Resources) (config : Config) (cpu : Registers) : Machine :=
  { kernel := .boot resources config, cpu }

theorem sound_boot (p : Platform) (a : FrameAllocator) (heap : SharedHeap) (config : Config)
    (cpu : Registers) : (boot ⟨{ platform := p, frames := a }, heap⟩ config cpu).Sound := by
  have hs : (boot ⟨{ platform := p, frames := a }, heap⟩ config cpu).kernel.scheduler =
      .ofTimeSlice config.timeSlice := (Kernel.report_threads ..).1
  refine ⟨Kernel.consistent_boot p a heap config, ?_, fun i p' hp' _ => ?_,
    fun _ hne => absurd rfl hne⟩
  · rw [hs]
    exact .inl rfl
  · rw [hs] at hp'
    cases hp'

/-- Every switch that the timer asks for can be made, and the registers that it loads are those that
the thread left or, for a new process, those that it starts with. For the boot thread this holds
unless the process that ran in its place was killed. -/
theorem cpu_of_switch {p : Platform} {a : FrameAllocator} {heap : SharedHeap} {config : Config}
    {cpu : Registers} {acts : List Act}
    (hr : (boot ⟨{ platform := p, frames := a }, heap⟩ config cpu).run acts = .ok m)
    (ht : m.kernel.timerTick = .ok (some c, k)) :
    (k.contexts c).isSome = true ∧ (c.target ≠ none ∨ m.killed = false →
      (m.switch k c).cpu = m.left (.ofSide c.target)) := by
  have h := (sound_boot p a heap config cpu).run hr
  have hc := (h.consistent.timerTick ht).1
  obtain ⟨hnone, -⟩ | ⟨_, hsome, hs⟩ := Kernel.timerTick_spec h.consistent ht
  · cases hnone
  · cases hsome
    refine ⟨?_, (h.switched hc hs).2⟩
    rw [hs.contexts h.consistent.numbered]
    rfl

theorem exists_of_run (m : Machine) (acts : List Act) (c : ContextSwitch)
    (check : Machine → Kernel → Bool)
    (h : ((m.run acts).toOption.any fun m =>
      m.kernel.timerTick.toOption.any fun r => r.1 == some c && check m r.2) = true) :
    ∃ m' k, m.run acts = .ok m' ∧ m'.kernel.timerTick = .ok (some c, k) ∧ check m' k = true := by
  obtain ⟨m', hr, h⟩ := Fault.exists_of_any h
  obtain ⟨⟨result, k⟩, ht, h⟩ := Fault.exists_of_any h
  obtain ⟨hc, hcheck⟩ := Bool.and_eq_true_iff.mp h
  have hc : result = some c := eq_of_beq hc
  rw [hc] at ht
  exact ⟨m', k, hr, ht, hcheck⟩

/-- A machine with resources for a kernel space and one process at a time. -/
def small : Machine :=
  boot ⟨{ platform := .ofFrames 12, frames := .ofFrames 12 },
    ⟨some (.ofArena 0 (Array.replicate 8256 0))⟩⟩ { identityMapLimit := pageSize } {}

/-- The boot thread resumes after a process has exited. -/
theorem cpu_after_exit : ∃ m k,
    small.run [.call .setUpPaging, .call (.spawn "init" 0), .compute { rbx := 111 },
      .call .timerTick, .compute { rbx := 222 }, .call (.syscall 0 0)] = .ok m ∧
      m.kernel.timerTick = .ok (some ⟨some 1, none⟩, k) ∧ m.left .boot = { rbx := 111 } ∧
      (m.switch k ⟨some 1, none⟩).cpu = m.left .boot := by
  obtain ⟨m, k, hr, ht, hcheck⟩ := exists_of_run small
    [.call .setUpPaging, .call (.spawn "init" 0), .compute { rbx := 111 }, .call .timerTick,
      .compute { rbx := 222 }, .call (.syscall 0 0)] ⟨some 1, none⟩
    (fun m _ => decide (m.killed = false ∧ m.left .boot = { rbx := 111 })) (by decide +kernel)
  obtain ⟨hkilled, hleft⟩ := of_decide_eq_true hcheck
  exact ⟨m, k, hr, ht, hleft, (cpu_of_switch hr ht).2 (.inr hkilled)⟩

/-- The boot thread resumes with the registers of a process that was killed. -/
theorem cpu_after_kill : ∃ m k,
    small.run [.call .setUpPaging, .call (.spawn "a" 0), .compute { rbx := 111 },
      .call .timerTick, .compute { rbx := 222 }, .call (.kill 1), .call (.spawn "b" 0),
      .call .timerTick, .call (.syscall 0 0)] = .ok m ∧
      m.kernel.timerTick = .ok (some ⟨some 2, none⟩, k) ∧ m.left .boot = { rbx := 111 } ∧
      (m.switch k ⟨some 2, none⟩).cpu = { rbx := 222 } := by
  obtain ⟨m, k, hr, ht, hcheck⟩ := exists_of_run small
    [.call .setUpPaging, .call (.spawn "a" 0), .compute { rbx := 111 }, .call .timerTick,
      .compute { rbx := 222 }, .call (.kill 1), .call (.spawn "b" 0), .call .timerTick,
      .call (.syscall 0 0)] ⟨some 2, none⟩
    (fun m k => decide (m.left .boot = { rbx := 111 } ∧
      (m.switch k ⟨some 2, none⟩).cpu = { rbx := 222 })) (by decide +kernel)
  exact ⟨m, k, hr, ht, of_decide_eq_true hcheck⟩

end Machine

end KernelCore
