import Mathlib
import KernelCore.Proofs.Scheduler.Choice

/-!
# Sleepers

A process that sleeps is left alone by everything that happens to other processes. The clock wakes
it with the first tick that is not before its wake tick, and from then on it waits for its turn or
has it.
-/
namespace KernelCore

namespace Process

variable {p : Process} {now : Nat}

/-- The process sleeps until a tick. -/
def Asleep (wakeTick : Nat) (p : Process) : Prop := p.state = .blocked ∧ p.wakeAt = some wakeTick

/-- The process can use the processor, and no wake tick is left behind. -/
def Awake (p : Process) : Prop := (p.state = .ready ∨ p.state = .running) ∧ p.wakeAt = none

theorem Asleep.wake_of_lt {tick : Nat} (h : p.Asleep tick) (hlt : now < tick) :
    p.wake now = p :=
  if_neg fun hw => absurd hw.2 (by simp [h.2, hlt])

theorem Asleep.wake_of_le {tick : Nat} (h : p.Asleep tick) (hle : tick ≤ now) :
    p.wake now = { p with state := .ready, wakeAt := none } :=
  if_pos ⟨h.1, by simp [h.2, hle]⟩

theorem Asleep.of_unhooked {p' : Process} {tick : Nat} (hsame : p'.unhooked = p.unhooked)
    (h : p.Asleep tick) : p'.Asleep tick := by
  have hstate : p'.unhooked.state = p.unhooked.state := by rw [hsame]
  have hwake : p'.unhooked.wakeAt = p.unhooked.wakeAt := by rw [hsame]
  exact ⟨hstate.trans h.1, hwake.trans h.2⟩

end Process

namespace Scheduler

variable {s s' : Scheduler} {r r' : Resources} {pid : Pid} {wakeTick : Nat}

/-! ### The clock -/

theorem ticks_updateCurrent (s : Scheduler) (f : Process → Process) :
    (s.updateCurrent f).ticks = s.ticks := by
  unfold updateCurrent
  split <;> rfl

theorem ticks_promote (s : Scheduler) (slot : Nat) : (s.promote slot).ticks = s.ticks := by
  unfold promote
  dsimp only
  split
  · split <;> rfl
  · rfl

theorem ticks_link (s : Scheduler) (slot : Nat) : (s.link slot).2.ticks = s.ticks := by
  unfold link
  split
  · rfl
  · split
    · rfl
    · dsimp only
      split <;> rfl

theorem ticks_enqueue (s : Scheduler) (pid : Pid) : (s.enqueue pid).2.ticks = s.ticks := by
  unfold enqueue
  split
  · exact s.ticks_link _
  · rfl

theorem ticks_unlink (s : Scheduler) (slot : Nat) : (s.unlink slot).2.ticks = s.ticks := by
  unfold unlink
  split
  · rfl
  · split
    · rfl
    · dsimp only
      split <;> split <;> rfl

theorem ticks_create {name : String} {entry : Nat} {result : Except KernelError Pid}
    (h : s.create r name entry = .ok (result, s', r')) : s'.ticks = s.ticks := by
  have hreserve : s.reserveSlot.2.ticks = s.ticks := by
    unfold reserveSlot
    split <;> rfl
  unfold create at h
  split at h
  · cases h
    rfl
  · obtain ⟨_, -, h⟩ := Fault.of_bind_eq_ok h
    split at h <;> cases h <;> exact hreserve

theorem ticks_destroy {found : Bool} (h : s.destroy r pid = .ok (found, s', r')) :
    s'.ticks = s.ticks := by
  unfold destroy at h
  split at h
  · cases h
    rfl
  · next slot _ =>
    have hunlink := s.ticks_unlink slot
    dsimp only at h
    split at h
    · cases h
      split <;> exact hunlink
    · obtain ⟨_, -, h⟩ := Fault.of_bind_eq_ok h
      cases h
      dsimp only
      split <;> exact hunlink

theorem ticks_destroyAll {pids : List Pid} (h : s.destroyAll r pids = .ok (s', r')) :
    s'.ticks = s.ticks := by
  induction pids generalizing s r with
  | nil =>
    cases h
    rfl
  | cons pid pids ih =>
    rw [destroyAll] at h
    obtain ⟨⟨_, _, _⟩, h₁, h⟩ := Fault.of_bind_eq_ok h
    exact (ih h).trans (ticks_destroy h₁)

theorem Choice.ticks (h : Choice s s') : s'.ticks = s.ticks := by
  cases h with
  | stays => rfl
  | turns => exact s.ticks_promote _
  | idles => exact s.ticks_updateCurrent _

/-! ### A process and its slot -/

/-- A live process has a property. -/
def Has (s : Scheduler) (pid : Pid) (P : Process → Prop) : Prop :=
  ∃ i p, s.process? i = some p ∧ p.pid = pid ∧ P p

variable {P Q : Process → Prop} {q : Pid}

theorem Numbered.get?_of_has (hn : s.Numbered) (h : s.Has pid P) :
    ∃ p, s.get? pid = some p ∧ P p := by
  obtain ⟨i, p, hp, rfl, hholds⟩ := h
  exact ⟨p, hn.get?_pid hp, hholds⟩

theorem Has.changed {f : Nat → Process → Process} (h : s.Has pid P) (hc : Changed f s s')
    (hf : ∀ i p, s.process? i = some p → p.pid = pid → P p → Q (f i p)) : s'.Has pid Q := by
  obtain ⟨i, p, hp, hpid, hholds⟩ := h
  refine ⟨i, f i p, ?_, (hc.pid i p).trans hpid, hf i p hp hpid hholds⟩
  rw [hc.process?, hp, Option.map_some]

theorem Has.rehung (h : s.Has pid P) (hr : Rehung s s')
    (hP : ∀ p p' : Process, p'.unhooked = p.unhooked → P p → P p') : s'.Has pid P := by
  obtain ⟨i, p, hp, rfl, hholds⟩ := h
  have hview := hr.view i
  rw [hp, Option.map_some] at hview
  obtain ⟨p', hp', hsame⟩ := Option.map_eq_some_iff.mp hview
  exact ⟨i, p', hp', (state_of_unhooked hsame).1, hP p p' hsame hholds⟩

theorem Has.destroy {found : Bool} (h : s.Has pid P) (hne : pid ≠ q)
    (hd : s.destroy r q = .ok (found, s', r'))
    (hP : ∀ p p' : Process, p'.unhooked = p.unhooked → P p → P p') : s'.Has pid P := by
  obtain ⟨slot, hslot, -, -, hproc⟩ | ⟨-, rfl⟩ := destroy_slots hd
  · obtain ⟨i, p, hp, rfl, hholds⟩ := h.rehung (rehung_unlink s slot) hP
    have hi : i ≠ slot := by
      rintro rfl
      obtain ⟨t, ht, hpid⟩ := slotOf_seat hslot
      rw [← (rehung_unlink s i).stays.seat, seat, hp] at ht
      obtain rfl := Option.some.inj ht
      exact hne hpid
    exact ⟨i, p, by rw [hproc, if_neg hi, hp], rfl, hholds⟩
  · exact h

theorem Has.destroyAll {pids : List Pid} (h : s.Has pid P) (hne : pid ∉ pids)
    (hd : s.destroyAll r pids = .ok (s', r'))
    (hP : ∀ p p' : Process, p'.unhooked = p.unhooked → P p → P p') : s'.Has pid P := by
  induction pids generalizing s r with
  | nil =>
    cases hd
    exact h
  | cons q pids ih =>
    rw [Scheduler.destroyAll] at hd
    obtain ⟨⟨_, _, _⟩, h₁, hd⟩ := Fault.of_bind_eq_ok hd
    have hq : pid ≠ q := fun he => hne (he ▸ List.mem_cons_self ..)
    exact ih (h.destroy hq h₁ hP) (fun hm => hne (List.mem_cons_of_mem _ hm)) hd

theorem Has.create {name : String} {entry : Nat} {result : Except KernelError Pid}
    (h : s.Has pid P) (hc : s.create r name entry = .ok (result, s', r')) : s'.Has pid P := by
  obtain ⟨i, p, hp, hholds⟩ := h
  refine ⟨i, p, ?_, hholds⟩
  obtain ⟨-, ⟨slot, _, hfree, hproc, -⟩ | ⟨-, hproc⟩⟩ := create_slots hc
  · have hi : i ≠ slot := by
      rintro rfl
      rw [hfree] at hp
      cases hp
    rw [hproc, if_neg hi, hp]
  · rw [hproc, hp]

/-! ### A process that sleeps -/

theorem asleep_sleep (hc : s.currentPid = some pid) (ticks : Nat) :
    (s.sleep ticks).Has pid (·.Asleep (Word.saturatingAdd s.ticks ticks)) := by
  obtain ⟨slot, t, hcurrent, hseat, rfl⟩ := exists_of_currentPid hc
  obtain ⟨p, hp, rfl⟩ := Option.map_eq_some_iff.mp hseat
  refine ⟨slot, p.sleepUntil (Word.saturatingAdd s.ticks ticks), ?_, rfl, rfl, rfl⟩
  rw [sleep, process?_updateCurrent, hp, Option.map_some, if_pos hcurrent]

theorem Has.tick_of_lt (h : s.Has pid (·.Asleep wakeTick)) (ht : s.tick = .ok s')
    (hlt : s.ticks + 1 < wakeTick) : s'.Has pid (·.Asleep wakeTick) := by
  refine h.changed (ticked ht).toChanged fun i p _ _ hp => ?_
  have hsame : s.afterTick i p = p := by
    rw [afterTick, hp.wake_of_lt hlt, ite_self, Process.charge_of_ne (by simp [hp.1]), ite_self]
  rwa [hsame]

theorem Has.tick_of_le (h : s.Has pid (·.Asleep wakeTick)) (htidy : s.Tidy)
    (ht : s.tick = .ok s') (hle : wakeTick ≤ s.ticks + 1) :
    s'.Has pid fun p => p.state = .ready ∧ p.wakeAt = none := by
  refine h.changed (ticked ht).toChanged fun i p hi _ hp => ?_
  have hwoken : s.afterTick i p = { p with state := .ready, wakeAt := none } := by
    rw [afterTick, if_pos (htidy.mem_order hi), hp.wake_of_le hle,
      Process.charge_of_ne (by simp), ite_self]
  rw [hwoken]
  exact ⟨rfl, rfl⟩

theorem Has.choice_of_asleep (h : s.Has pid (·.Asleep wakeTick)) (hc : Choice s s') :
    s'.Has pid (·.Asleep wakeTick) := by
  obtain ⟨i, p, hp, hpid, hasleep⟩ := h
  exact ⟨i, p, hc.process?_of_ne hp (by simp [hasleep.1]) (by simp [hasleep.1]), hpid, hasleep⟩

theorem Choice.process?_of_ready {i : Nat} {p : Process} (h : Choice s s')
    (hp : s.process? i = some p) (hready : p.state = .ready) :
    s'.process? i = some p ∨ s'.process? i = some (p.promote s.timeSlice) := by
  have hdemote : p.demote = p := Process.demote_of_ne (by simp [hready])
  cases h with
  | stays => exact .inl hp
  | @turns slot =>
    rw [process?_promote, hp, Option.map_some, afterTurn, hdemote, ite_self]
    split
    · exact .inr rfl
    · exact .inl rfl
  | idles =>
    rw [s.changed_idle.process?, hp, Option.map_some, hdemote, ite_self]
    exact .inl rfl

theorem Has.choice_of_ready (h : s.Has pid fun p => p.state = .ready ∧ p.wakeAt = none)
    (hc : Choice s s') : s'.Has pid Process.Awake := by
  obtain ⟨i, p, hp, hpid, hready, hwake⟩ := h
  obtain hp' | hp' := hc.process?_of_ready hp hready
  · exact ⟨i, p, hp', hpid, .inl hready, hwake⟩
  · exact ⟨i, _, hp', hpid, .inr rfl, hwake⟩

end Scheduler

end KernelCore
