import Mathlib
import KernelCore.Kernel.Timer

/-!
# What operations leave alone

Ticks, turns, sleep and exit change states, slices, wake ticks and exit statuses only, and the
operations on the run queue change links and flags only. The rest of every process stays.
-/
namespace KernelCore

namespace Process

/-- A process without what dispatching changes. -/
def core (p : Process) : Process :=
  { p with state := .ready, timeSlice := 0, wakeAt := none, exitStatus := none }

/-- A process without what it holds for the run queue. -/
def unhooked (p : Process) : Process := { p with next := none, queued := false }

@[simp] theorem core_wake (now : Nat) (p : Process) : (p.wake now).core = p.core := by
  unfold wake
  split <;> rfl

@[simp] theorem core_demote (p : Process) : p.demote.core = p.core := by
  unfold demote
  split <;> rfl

@[simp] theorem core_promote (slice : Nat) (p : Process) : (p.promote slice).core = p.core := rfl

@[simp] theorem core_yield (slice : Nat) (p : Process) : (p.yield slice).core = p.core := by
  unfold yield
  split <;> rfl

@[simp] theorem core_charge (slice : Nat) (p : Process) : (p.charge slice).core = p.core := by
  unfold charge
  split
  · split <;> rfl
  · rfl

@[simp] theorem core_sleepUntil (tick : Nat) (p : Process) : (p.sleepUntil tick).core = p.core :=
  rfl

@[simp] theorem core_exit (status : Int) (p : Process) : (p.exit status).core = p.core := rfl

end Process

namespace Scheduler

/-- The processes in all slots look the same. -/
structure Alike {α : Type} (g : Process → α) (s s' : Scheduler) : Prop where
  size : s'.slots.size = s.slots.size
  nextPid : s'.nextPid = s.nextPid
  view : ∀ i, (s'.process? i).map g = (s.process? i).map g

/-- Nothing changed but what dispatching changes. -/
structure Dispatched (s s' : Scheduler) : Prop extends Alike Process.core s s' where
  head : s'.head = s.head
  tail : s'.tail = s.tail

/-- Nothing changed but the run queue. -/
structure Rehung (s s' : Scheduler) : Prop extends Alike Process.unhooked s s' where
  current : s'.current = s.current

variable {s s' s'' : Scheduler} {f : Process → Process}

section Alike

variable {α β : Type} {g : Process → α}

theorem Alike.refl (g : Process → α) (s : Scheduler) : Alike g s s := ⟨rfl, rfl, fun _ => rfl⟩

theorem Alike.trans (h : Alike g s s') (h' : Alike g s' s'') : Alike g s s'' :=
  ⟨h'.size.trans h.size, h'.nextPid.trans h.nextPid, fun i => (h'.view i).trans (h.view i)⟩

theorem Alike.comp (h : Alike g s s') (k : α → β) : Alike (k ∘ g) s s' := by
  refine ⟨h.size, h.nextPid, fun i => ?_⟩
  rw [← Option.map_map, h.view i, Option.map_map]

theorem alike_update (hf : ∀ p, g (f p) = g p) (s : Scheduler) (slot : Nat) :
    Alike g s (s.update slot f) := by
  refine ⟨Array.size_modify, rfl, fun i => ?_⟩
  rw [process?_update]
  split
  · rw [Option.map_map]
    congr 1
    funext p
    exact hf p
  · rfl

end Alike

theorem Dispatched.refl (s : Scheduler) : Dispatched s s := ⟨.refl _ s, rfl, rfl⟩

theorem Dispatched.trans (h : Dispatched s s') (h' : Dispatched s' s'') : Dispatched s s'' :=
  ⟨h.toAlike.trans h'.toAlike, h'.head.trans h.head, h'.tail.trans h.tail⟩

theorem dispatched_update (hf : ∀ p, (f p).core = p.core) (s : Scheduler) (slot : Nat) :
    Dispatched s (s.update slot f) := ⟨alike_update hf s slot, rfl, rfl⟩

theorem dispatched_updateCurrent (hf : ∀ p, (f p).core = p.core) (s : Scheduler) :
    Dispatched s (s.updateCurrent f) := by
  unfold updateCurrent
  split
  · exact dispatched_update hf s _
  · exact .refl s

theorem dispatched_tick (h : s.tick = .ok s') : Dispatched s s' := by
  unfold tick at h
  split at h
  · cases h
  · next now _ =>
    obtain rfl := Except.ok.inj h
    have hfold : ∀ (order : List Nat) (s : Scheduler),
        Dispatched s (order.foldl (fun s slot => s.update slot (·.wake now)) s) := by
      intro order
      induction order with
      | nil => exact fun s => .refl s
      | cons slot order ih =>
        exact fun s => (dispatched_update (Process.core_wake now) s slot).trans (ih _)
    have hnow : Dispatched s { s with ticks := now } := ⟨⟨rfl, rfl, fun _ => rfl⟩, rfl, rfl⟩
    exact (hnow.trans (hfold _ _)).trans (dispatched_updateCurrent (Process.core_charge _) _)

theorem dispatched_sleep (s : Scheduler) (ticks : Nat) : Dispatched s (s.sleep ticks) :=
  dispatched_updateCurrent (Process.core_sleepUntil _) s

theorem dispatched_exit (s : Scheduler) (status : Int) : Dispatched s (s.exit status) :=
  dispatched_updateCurrent (Process.core_exit status) s

theorem dispatched_yield (s : Scheduler) : Dispatched s s.yield :=
  dispatched_updateCurrent (Process.core_yield _) s

theorem dispatched_idle (s : Scheduler) : Dispatched s s.idle :=
  (dispatched_updateCurrent Process.core_demote s).trans ⟨⟨rfl, rfl, fun _ => rfl⟩, rfl, rfl⟩

theorem dispatched_promote (s : Scheduler) (slot : Nat) : Dispatched s (s.promote slot) := by
  have hturn : ∀ s : Scheduler,
      Dispatched s ({ s with current := some slot }.update slot (·.promote s.timeSlice)) := by
    intro s
    have hc : Dispatched s { s with current := some slot } := ⟨⟨rfl, rfl, fun _ => rfl⟩, rfl, rfl⟩
    exact hc.trans (dispatched_update (Process.core_promote _) _ slot)
  unfold promote
  dsimp only
  split
  · split
    · exact hturn s
    · exact (dispatched_update Process.core_demote s _).trans (hturn _)
  · exact hturn s

theorem dispatched_next (s : Scheduler) : Dispatched s s.next.2 := by
  unfold next
  cases s.head with
  | none => exact .refl s
  | some head =>
    dsimp only
    split
    · exact dispatched_promote s _
    · exact .refl s

theorem current_updateCurrent (s : Scheduler) (f : Process → Process) :
    (s.updateCurrent f).current = s.current := by
  unfold updateCurrent
  split <;> rfl

theorem current_tick (h : s.tick = .ok s') : s'.current = s.current := by
  unfold tick at h
  split at h
  · cases h
  · next now _ =>
    obtain rfl := Except.ok.inj h
    have hfold : ∀ (order : List Nat) (s : Scheduler),
        (order.foldl (fun s slot => s.update slot (·.wake now)) s).current = s.current := by
      intro order
      induction order with
      | nil => exact fun _ => rfl
      | cons slot order ih => exact fun s => ih _
    exact (current_updateCurrent ..).trans (hfold _ _)

theorem Rehung.refl (s : Scheduler) : Rehung s s := ⟨.refl _ s, rfl⟩

theorem Rehung.trans (h : Rehung s s') (h' : Rehung s' s'') : Rehung s s'' :=
  ⟨h.toAlike.trans h'.toAlike, h'.current.trans h.current⟩

theorem rehung_update (hf : ∀ p, (f p).unhooked = p.unhooked) (s : Scheduler) (slot : Nat) :
    Rehung s (s.update slot f) := ⟨alike_update hf s slot, rfl⟩

theorem rehung_ends (s : Scheduler) (head tail : Option Nat) :
    Rehung s { s with head, tail } := ⟨⟨rfl, rfl, fun _ => rfl⟩, rfl⟩

theorem rehung_link (s : Scheduler) (slot : Nat) : Rehung s (s.link slot).2 := by
  unfold link
  split
  · exact .refl s
  · split
    · exact .refl s
    · have hs := rehung_update (f := fun p => { p with queued := true, next := none })
        (fun _ => rfl) s slot
      have hl := rehung_update (f := fun p => { p with next := some slot }) (fun _ => rfl)
      dsimp only
      split
      · exact (hs.trans (hl _ _)).trans (rehung_ends _ _ _)
      · exact hs.trans (rehung_ends _ _ _)

theorem rehung_unlink (s : Scheduler) (slot : Nat) : Rehung s (s.unlink slot).2 := by
  unfold unlink
  split
  · exact .refl s
  · split
    · exact .refl s
    · next p _ _ =>
      have hs := rehung_update (f := fun p => { p with queued := false, next := none })
        (fun _ => rfl) s slot
      have hl := rehung_update (f := fun q => { q with next := p.next }) (fun _ => rfl)
      dsimp only
      refine hs.trans ?_
      split
      · split
        · exact (hl _ _).trans (rehung_ends _ _ _)
        · exact hl _ _
      · split <;> exact rehung_ends _ _ _

theorem rehung_enqueue (s : Scheduler) (pid : Pid) : Rehung s (s.enqueue pid).2 := by
  unfold enqueue
  split
  · exact rehung_link s _
  · exact .refl s

theorem rehung_dequeue (s : Scheduler) (pid : Pid) : Rehung s (s.dequeue pid).2 := by
  unfold dequeue
  split
  · exact rehung_unlink s _
  · exact .refl s

end Scheduler

theorem Kernel.dispatched_reschedule {s s' : Scheduler} {source target : Option Pid}
    (h : reschedule s = .ok (source, target, s')) : s.Dispatched s' := by
  unfold reschedule at h
  obtain ⟨s₁, ht, h⟩ := Fault.of_bind_eq_ok h
  have htick := Scheduler.dispatched_tick ht
  have hnext := htick.trans s₁.dispatched_next
  split at h
  · cases h
    exact htick
  · dsimp only at h
    split at h
    · cases h
      exact hnext
    · cases h
      exact hnext.trans (Scheduler.dispatched_idle _)

end KernelCore
