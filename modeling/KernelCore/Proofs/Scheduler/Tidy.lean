import Mathlib
import KernelCore.Proofs.Scheduler.Discipline

/-!
# The scheduler between two calls

Whenever the kernel is not at work, every live process is in the run queue, and a process that is
running is the current one.
-/
namespace KernelCore.Scheduler

/-- Every live process is queued, and none but the current one is running. -/
structure Tidy (s : Scheduler) : Prop extends Orderly s where
  seated : s.Seated
  boarded : ∀ pid, s.Lives pid → pid ∈ s.queue
  sole : ∀ i p, s.process? i = some p → p.state = .running → s.current = some i

variable {s s' s₁ : Scheduler} {r r' : Resources} {slot i : Nat} {pid q : Pid} {p : Process}

theorem Keeps.lives (h : Keeps s s') : s'.Lives q ↔ s.Lives q := by
  rw [Lives, Lives, get?, get?, h.slotOf]
  cases s.slotOf q with
  | none => exact Iff.rfl
  | some slot =>
    have hseat : (s'.process? slot).isSome = (s.process? slot).isSome := by
      rw [← Option.isSome_map (f := Process.tenant), ← Option.isSome_map (f := Process.tenant)]
      exact congrArg Option.isSome (h.seat slot)
    rw [Option.bind_some, Option.bind_some, hseat]

theorem Numbered.process?_of_get? (h : s.Numbered) (hp : s.get? pid = some p) :
    ∃ i, s.process? i = some p ∧ p.pid = pid := by
  obtain ⟨i, hi, hp⟩ := Option.bind_eq_some_iff.mp hp
  have hpid := h.slotOf_eq_some.mp hi
  rw [pidAt, hp] at hpid
  exact ⟨i, hp, Option.some.inj hpid⟩

theorem Numbered.isRunning_currentPid (h : s.Numbered) :
    s.isRunning s.currentPid = s.currentProcess.any (·.state = .running) := by
  have hget : s.currentPid.bind s.get? = s.currentProcess := by
    rw [currentPid]
    cases hp : s.currentProcess with
    | none => rfl
    | some p =>
      obtain ⟨slot, -, hp⟩ := Option.bind_eq_some_iff.mp hp
      exact h.get?_pid hp
  rw [isRunning, hget]
  rfl

namespace Tidy

theorem mem_queue (h : s.Tidy) : q ∈ s.queue ↔ s.Lives q := by
  obtain ⟨l, ht⟩ := h.threaded
  exact ⟨ht.lives h.numbered, h.boarded q⟩

theorem mem_order (h : s.Tidy) (hp : s.process? slot = some p) : slot ∈ s.order := by
  obtain ⟨l, ht⟩ := h.threaded
  have hpid : s.pidAt slot = some p.pid := by rw [pidAt, hp, Option.map_some]
  rw [ht.order_eq, ← ht.mem_queue h.numbered hpid, h.mem_queue, h.numbered.lives_iff]
  exact ⟨slot, hpid⟩

theorem currentPid_of_isRunning (h : s.Tidy) (hr : s.isRunning (some q) = true) :
    s.currentPid = some q := by
  obtain ⟨p, hp, hstate⟩ := (Option.any_eq_true _ _).mp hr
  obtain ⟨i, hi, rfl⟩ := h.numbered.process?_of_get? hp
  rw [currentPid, currentProcess, h.sole i p hi (eq_of_beq hstate), Option.bind_some, hi,
    Option.map_some]

theorem changed (h : s.Tidy) (hd : s.Dispatched s') (hs : s'.Seated) (hsole : s'.Sole) :
    s'.Tidy := by
  obtain ⟨ho, hq⟩ := h.toOrderly.dispatched hd
  refine ⟨ho, hs, fun q hl => ?_, hsole⟩
  rw [hq]
  exact h.boarded q (hd.keeps.lives.mp hl)

theorem updateCurrent (h : s.Tidy) {f : Process → Process} (hf : ∀ p, (f p).core = p.core) :
    (s.updateCurrent f).Tidy :=
  h.changed (dispatched_updateCurrent hf s) (seated_updateCurrent h.seated hf)
    (Sole.updateCurrent h.sole hf)

theorem tick (h : s.Tidy) (ht : s.tick = .ok s') : s'.Tidy :=
  h.changed (dispatched_tick ht) ((stays_tick ht).settled.seated h.seated) (Sole.tick h.sole ht)

theorem promote (h : s.Tidy) (hp : (s.process? slot).isSome) : (s.promote slot).Tidy :=
  h.changed (s.dispatched_promote slot) (seated_promote hp) (Sole.promote h.sole slot)

theorem idle (h : s.Tidy) : s.idle.Tidy :=
  h.changed s.dispatched_idle s.seated_idle (Sole.idle h.sole)

theorem of_left (h : s.Tidy) (ho : s'.Orderly) (hs : s'.Seated) (hsole : s'.Sole)
    (hq : ∀ q, s'.Lives q → s.Lives q ∧ (q ∈ s.queue → q ∈ s'.queue)) : s'.Tidy := by
  refine ⟨ho, hs, fun q hl => ?_, hsole⟩
  obtain ⟨hlive, hqueued⟩ := hq q hl
  exact hqueued (h.boarded q hlive)

theorem destroy {found : Bool} (h : s.Tidy) (hd : s.destroy r pid = .ok (found, s', r')) :
    s'.Tidy ∧ s'.queue = s.queue.filter (· ≠ pid) := by
  obtain ⟨l, ht⟩ := h.threaded
  obtain ⟨ht', hn', hlives, hq⟩ := ht.destroy h.numbered hd
  refine ⟨?_, hq⟩
  refine h.of_left ⟨hn', ht'⟩ (seated_destroy h.seated hd) (Sole.destroy h.sole hd) fun q hl => ?_
  obtain ⟨hlive, hne⟩ := (hlives q).mp hl
  refine ⟨hlive, fun hmem => ?_⟩
  rw [hq]
  exact List.mem_filter.mpr ⟨hmem, by simpa using hne⟩

theorem destroyAll {pids : List Pid} (h : s.Tidy) (hd : s.destroyAll r pids = .ok (s', r')) :
    s'.Tidy := by
  induction pids generalizing s r with
  | nil =>
    cases hd
    exact h
  | cons pid pids ih =>
    rw [Scheduler.destroyAll] at hd
    obtain ⟨⟨found, s₁, r₁⟩, h₁, hd⟩ := Fault.of_bind_eq_ok hd
    exact ih (h.destroy h₁).1 hd

end Tidy

/-- A new ready process is at the end of the queue, and the other processes are as they were. -/
structure Boarded (s s' : Scheduler) (pid : Pid) : Prop where
  fresh : pid = s.nextPid
  nextPid : s'.nextPid = s.nextPid + 1
  current : s'.current = s.current
  currentPid : s'.currentPid = s.currentPid
  queue : s'.queue = s.queue ++ [pid]
  process? : ∀ i p', s'.process? i = some p' →
    (p'.pid = pid ∧ p'.state = .ready) ∨
      ∃ p, s.process? i = some p ∧ p'.unhooked = p.unhooked

namespace Tidy

variable {name : String} {entry : Nat}

theorem create_error {e : KernelError} (h : s.Tidy)
    (hc : s.create r name entry = .ok (.error e, s', r')) :
    s'.Tidy ∧ Settled s s' ∧ s'.queue = s.queue ∧ ∀ i, s'.process? i = s.process? i := by
  obtain ⟨ho, hq⟩ := h.toOrderly.create hc
  obtain ⟨_, _, hbad, -⟩ | ⟨-, hs, -⟩ := create_spec hc
  · cases hbad
  obtain ⟨-, ⟨_, _, _, _, hbad, -⟩ | ⟨-, hproc⟩⟩ := create_slots hc
  · cases hbad
  refine ⟨h.of_left ho (hs.seated h.seated) (Sole.create h.sole hc) fun q hl => ?_, hs, hq, hproc⟩
  rw [ho.numbered.lives_iff] at hl
  rw [h.numbered.lives_iff, hq]
  refine ⟨?_, id⟩
  obtain ⟨i, hi⟩ := hl
  exact ⟨i, by rwa [pidAt, ← hproc i]⟩

theorem nextPid_not_mem (h : s.Tidy) : s.nextPid ∉ s.queue := by
  rw [h.mem_queue, h.numbered.lives_iff]
  rintro ⟨i, hi⟩
  rw [pidAt_eq] at hi
  obtain ⟨t, ht, heq⟩ := Option.map_eq_some_iff.mp hi
  have hlt := h.numbered.below i t ht
  rw [heq] at hlt
  exact Nat.lt_irrefl _ hlt

theorem boarded_enqueue (h : s.Tidy) (hc : s.create r name entry = .ok (.ok pid, s₁, r')) :
    (s₁.enqueue pid).2.Orderly ∧ (s₁.enqueue pid).2.Seated ∧
      Boarded s (s₁.enqueue pid).2 pid := by
  obtain ⟨ho, hq⟩ := h.toOrderly.create hc
  obtain ⟨slot, t, hpid, ha, -⟩ | ⟨⟨_, hbad⟩, -⟩ := create_spec hc
  swap
  · cases hbad
  obtain ⟨-, ⟨slot', p, hfree, hproc, hp, hready, -⟩ | ⟨⟨_, hbad⟩, -⟩⟩ := create_slots hc
  swap
  · cases hbad
  obtain rfl := Except.ok.inj hp
  have hfresh : p.pid = s.nextPid := (Except.ok.inj hpid).trans ha.pid
  have hlives : s₁.Lives p.pid := by
    refine ho.numbered.lives_iff.mpr ⟨slot', ?_⟩
    rw [pidAt, hproc, if_pos rfl, Option.map_some]
  have hnew : p.pid ∉ s₁.queue := by
    rw [hq, hfresh]
    exact h.nextPid_not_mem
  obtain ⟨l, ht⟩ := ho.threaded
  obtain ⟨ht', -, hqueue⟩ := ht.enqueue ho.numbered p.pid
  rw [if_pos ⟨hlives, hnew⟩, hq] at hqueue
  have hr := s₁.rehung_enqueue p.pid
  have hstays := hr.stays
  refine ⟨⟨ho.numbered.keeps hstays.toKeeps, ht'⟩, hstays.settled.seated (ha.seated h.seated),
    hfresh, hstays.nextPid.trans ha.nextPid, hr.current.trans ha.current, ?_, hqueue,
    fun i p' hp' => ?_⟩
  · rw [currentPid_eq, currentPid_eq, hstays.settled.currentTenant, ha.currentTenant h.seated]
  · obtain ⟨p₁, hp₁, hsame⟩ := hr.thinned i p' hp'
    rw [hproc] at hp₁
    split at hp₁
    · obtain rfl := Option.some.inj hp₁
      obtain ⟨hpid', hstate', -⟩ := state_of_unhooked hsame
      exact .inl ⟨hpid', hstate'.trans hready⟩
    · exact .inr ⟨p₁, hp₁, hsame⟩

theorem of_boarded (h : s.Tidy) (ho : s'.Orderly) (hs : s'.Seated) (hb : Boarded s s' pid) :
    s'.Tidy := by
  refine ⟨ho, hs, fun q hl => ?_, fun i p' hp' hr => ?_⟩
  · rw [hb.queue, List.mem_append, List.mem_singleton, h.mem_queue, h.numbered.lives_iff]
    obtain ⟨i, hi⟩ := ho.numbered.lives_iff.mp hl
    obtain ⟨p', hp', rfl⟩ := Option.map_eq_some_iff.mp hi
    obtain ⟨hnew, -⟩ | ⟨p, hp, hsame⟩ := hb.process? i p' hp'
    · exact .inr hnew
    · obtain ⟨hpid, -, -⟩ := state_of_unhooked hsame
      refine .inl ⟨i, ?_⟩
      rw [pidAt, hp]
      exact congrArg some hpid.symm
  · obtain ⟨-, hready⟩ | ⟨p, hp, hsame⟩ := hb.process? i p' hp'
    · rw [hready] at hr
      cases hr
    · obtain ⟨-, hstate, -⟩ := state_of_unhooked hsame
      exact hb.current.trans (h.sole i p hp (hstate.symm.trans hr))

end Tidy

theorem tidy_ofTimeSlice (ticks : Nat) : (ofTimeSlice ticks).Tidy := by
  have ho := orderly_ofTimeSlice ticks
  refine ⟨ho, ?_, fun q hl => ?_, ?_⟩
  · intro slot hc
    cases hc
  · obtain ⟨i, hi⟩ := ho.numbered.lives_iff.mp hl
    cases hi
  · intro i p hp
    cases hp

end KernelCore.Scheduler
