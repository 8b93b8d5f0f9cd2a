import Mathlib
import KernelCore.Proofs.Scheduler.Dispatching

/-!
# The roster

The roster tells who sits in each slot of the process table: the number, the space and the stack of
a process. Most operations of the scheduler change states and links only and keep the roster.
-/
namespace KernelCore

/-- What a process has for life. -/
structure Tenant where
  pid : Pid
  space : AddressSpace
  stack : KernelStack

def Process.tenant (p : Process) : Tenant := ⟨p.pid, p.space, p.stack⟩

namespace Scheduler

def roster (s : Scheduler) : List (Option Tenant) := s.slots.toList.map (Option.map Process.tenant)

/-- All tenants, in the order of their slots. -/
def tenants (s : Scheduler) : List Tenant := s.roster.filterMap id

/-- The tenant of a slot. -/
def seat (s : Scheduler) (slot : Nat) : Option Tenant := (s.process? slot).map Process.tenant

/-- The tenant that has the processor. -/
def currentTenant (s : Scheduler) : Option Tenant := s.current.bind s.seat

/-- The current slot is taken. -/
def Seated (s : Scheduler) : Prop := ∀ slot, s.current = some slot → (s.seat slot).isSome

/-- The same tenants sit in the same slots, and the next process gets the same number. -/
structure Keeps (s s' : Scheduler) : Prop where
  roster : s'.roster = s.roster
  nextPid : s'.nextPid = s.nextPid

variable {s s' s'' : Scheduler} {slot found : Nat} {pid : Pid}

theorem Keeps.refl (s : Scheduler) : Keeps s s := ⟨rfl, rfl⟩

theorem Keeps.trans (h : Keeps s s') (h' : Keeps s' s'') : Keeps s s'' :=
  ⟨h'.roster.trans h.roster, h'.nextPid.trans h.nextPid⟩

theorem Keeps.tenants (h : Keeps s s') : s'.tenants = s.tenants := by
  rw [Scheduler.tenants, Scheduler.tenants, h.roster]

theorem seat_of_process? {p : Process} (hp : s.process? slot = some p) :
    s.seat slot = some p.tenant := by
  rw [seat, hp, Option.map_some]

theorem seat_eq (s : Scheduler) (slot : Nat) : s.seat slot = (s.roster[slot]?).join := by
  rw [seat, process?, roster, List.getElem?_map, Array.getElem?_toList]
  cases s.slots[slot]? with
  | none => rfl
  | some p => rfl

theorem Keeps.seat (h : Keeps s s') (slot : Nat) : s'.seat slot = s.seat slot := by
  rw [seat_eq, seat_eq, h.roster]

theorem slotOf_eq (s : Scheduler) (pid : Pid) :
    s.slotOf pid = s.roster.findIdx? fun t => t.any (·.pid == pid) := by
  have hslots : s.slots = s.slots.toList.toArray := rfl
  rw [slotOf, roster, List.findIdx?_map, hslots, List.findIdx?_toArray]
  congr 1
  funext p
  cases p <;> rfl

theorem Keeps.slotOf (h : Keeps s s') (pid : Pid) : s'.slotOf pid = s.slotOf pid := by
  rw [slotOf_eq, slotOf_eq, h.roster]

theorem roster_eq (s : Scheduler) : s.roster = (List.range s.slots.size).map s.seat := by
  have hlen : s.roster.length = s.slots.size := by simp [roster]
  refine List.ext_getElem (by simp [hlen]) fun i hi _ => ?_
  rw [List.getElem_map, List.getElem_range, seat_eq, List.getElem?_eq_getElem hi]
  rfl

theorem Alike.keeps (h : Alike Process.tenant s s') : Keeps s s' := by
  have hseat : s'.seat = s.seat := funext h.view
  exact ⟨by rw [roster_eq, roster_eq, h.size, hseat], h.nextPid⟩

theorem Dispatched.keeps (h : Dispatched s s') : Keeps s s' :=
  Alike.keeps (h.toAlike.comp Process.tenant)

/-- The roster and the slot of the current process are the same. -/
structure Stays (s s' : Scheduler) : Prop extends Keeps s s' where
  current : s'.current = s.current

theorem Stays.refl (s : Scheduler) : Stays s s := ⟨.refl s, rfl⟩

/-- The same tenants sit in the same slots and the same one is current; empty slots may be new. -/
structure Settled (s s' : Scheduler) : Prop where
  seat : ∀ i, s'.seat i = s.seat i
  tenants : s'.tenants = s.tenants
  current : s'.current = s.current
  nextPid : s'.nextPid = s.nextPid

theorem Settled.refl (s : Scheduler) : Settled s s := ⟨fun _ => rfl, rfl, rfl, rfl⟩

theorem Stays.settled (h : Stays s s') : Settled s s' := ⟨h.seat, h.tenants, h.current, h.nextPid⟩

theorem Settled.currentTenant (h : Settled s s') : s'.currentTenant = s.currentTenant := by
  have hseat : s'.seat = s.seat := funext h.seat
  rw [Scheduler.currentTenant, Scheduler.currentTenant, h.current, hseat]

theorem Settled.seated (h : Settled s s') (hs : s.Seated) : s'.Seated := by
  intro slot hc
  rw [h.seat]
  rw [h.current] at hc
  exact hs slot hc

theorem currentTenant_eq (s : Scheduler) :
    s.currentTenant = s.currentProcess.map Process.tenant := by
  rw [currentProcess, Option.map_bind]
  rfl

theorem currentPid_eq (s : Scheduler) : s.currentPid = s.currentTenant.map Tenant.pid := by
  rw [currentPid, currentTenant_eq, Option.map_map]
  rfl

theorem stays_update {f : Process → Process} (hf : ∀ p, (f p).tenant = p.tenant)
    (s : Scheduler) (slot : Nat) : Stays s (s.update slot f) :=
  ⟨(alike_update hf s slot).keeps, rfl⟩

theorem Rehung.stays (h : Rehung s s') : Stays s s' :=
  ⟨Alike.keeps (h.toAlike.comp Process.tenant), h.current⟩

theorem stays_tick (h : s.tick = .ok s') : Stays s s' := ⟨(dispatched_tick h).keeps, current_tick h⟩

theorem stays_sleep (s : Scheduler) (ticks : Nat) : Stays s (s.sleep ticks) :=
  ⟨(s.dispatched_sleep ticks).keeps, current_updateCurrent ..⟩

theorem stays_exit (s : Scheduler) (status : Int) : Stays s (s.exit status) :=
  ⟨(s.dispatched_exit status).keeps, current_updateCurrent ..⟩

theorem stays_yield (s : Scheduler) : Stays s s.yield :=
  ⟨s.dispatched_yield.keeps, current_updateCurrent ..⟩

theorem seat_firstReady {head start fuel : Nat}
    (h : s.firstReady head start fuel slot = some found) :
    (s.seat found).isSome := by
  induction fuel generalizing slot with
  | zero => cases h
  | succ fuel ih =>
    rw [firstReady] at h
    split at h
    · cases h
    · next p hp =>
      split at h
      · obtain rfl := Option.some.inj h
        rw [seat, hp]
        rfl
      · dsimp only at h
        split at h
        · cases h
        · exact ih h

/-- Choosing the next process keeps the roster. The result is the process that is current then, or
nothing if the queue is empty. -/
theorem next_spec (s : Scheduler) (hs : s.Seated) :
    Keeps s s.next.2 ∧ s.next.2.Seated ∧ (s.next.1 = none ∨ s.next.1 = s.next.2.currentPid) := by
  unfold next
  cases s.head with
  | none => exact ⟨.refl s, hs, .inl rfl⟩
  | some head =>
    dsimp only
    split
    · next slot hfound =>
      have hk := (s.dispatched_promote slot).keeps
      refine ⟨hk, fun found hc => ?_, .inr rfl⟩
      obtain rfl : slot = found := Option.some.inj hc
      rw [hk.seat]
      exact seat_firstReady hfound
    · exact ⟨.refl s, hs, .inr rfl⟩

end Scheduler

theorem Kernel.reschedule_spec {s s' : Scheduler} {source target : Option Pid}
    (h : reschedule s = .ok (source, target, s')) (hs : s.Seated) :
    s.Keeps s' ∧ s'.Seated ∧ source = s.currentPid ∧ target = s'.currentPid := by
  unfold reschedule at h
  obtain ⟨s₁, ht, h⟩ := Fault.of_bind_eq_ok h
  have hst := Scheduler.stays_tick ht
  have hpid : s₁.currentPid = s.currentPid := by
    rw [s₁.currentPid_eq, s.currentPid_eq, hst.settled.currentTenant]
  have hsettled := hst.settled.seated hs
  obtain ⟨hk, hseated, hres⟩ := s₁.next_spec hsettled
  split at h
  · cases h
    exact ⟨hst.toKeeps, hsettled, rfl, hpid.symm⟩
  · dsimp only at h
    split at h
    · next hrun =>
      cases h
      refine ⟨hst.toKeeps.trans hk, hseated, rfl, ?_⟩
      rcases hres with hnone | hres
      · rw [hnone] at hrun
        cases hrun
      · exact hres
    · cases h
      refine ⟨(hst.toKeeps.trans hk).trans (Scheduler.dispatched_idle _).keeps, ?_, rfl, rfl⟩
      intro slot hc
      cases hc

end KernelCore
