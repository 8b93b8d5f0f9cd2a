import Mathlib
import KernelCore.Proofs.Scheduler.QueueRun

/-!
# Removal

A process that is destroyed leaves its slot, the run queue and the processor. Nobody else notices
but the process in front of it in the queue, whose link now leads past it. Reaping does this to
those that have ended and are not current.
-/
namespace KernelCore.Scheduler

/-- The first slot stands right in front of the second one in the run queue. -/
def Precedes (s : Scheduler) (i slot : Nat) : Prop := ∃ xs ys, s.order = xs ++ i :: slot :: ys

/-- The process with a number is gone, if there was one, and no other process has changed but for
the link that led to it. -/
structure Removed (s s' : Scheduler) (pid : Pid) : Prop where
  lives : ∀ q, s'.Lives q ↔ s.Lives q ∧ q ≠ pid
  gone : ∀ slot, s.slotOf pid = some slot → s'.process? slot = none
  others : ∀ i, s.slotOf pid ≠ some i → s'.process? i = s.process? i ∨
    ∃ slot p, s.slotOf pid = some slot ∧ s.process? slot = some p ∧ s.Precedes i slot ∧
      s'.process? i = (s.process? i).map (·.linkTo p.next)
  queue : s'.queue = s.queue.filter (· ≠ pid)
  current : s'.current = if s.current = s.slotOf pid then none else s.current

variable {s s' : Scheduler} {r r' : Resources} {slot i : Nat} {pid : Pid} {l : List Nat}
variable {p : Process}

theorem Threaded.unlink_others (ht : s.Threaded l) (hp : s.process? slot = some p)
    (hi : i ≠ slot) : (s.unlink slot).2.process? i = s.process? i ∨
      s.Precedes i slot ∧
        (s.unlink slot).2.process? i = (s.process? i).map (·.linkTo p.next) := by
  by_cases hmem : slot ∈ l
  · obtain ⟨xs, ys, rfl⟩ := List.append_of_mem hmem
    obtain ⟨-, -, -, hrewired⟩ := ht.unlink_spec hp
    have hslot := hrewired i
    rw [if_neg hi] at hslot
    split at hslot
    · next hlast =>
      obtain ⟨xs, rfl⟩ := List.getLast?_eq_some_iff.mp hlast
      refine .inr ⟨⟨xs, ys, ?_⟩, hslot⟩
      rw [ht.order_eq, List.append_assoc]
      rfl
    · exact .inl hslot
  · left
    rw [ht.unlink_of_not_mem hmem]

theorem Orderly.removed {found : Bool} (h : s.Orderly)
    (hd : s.destroy r pid = .ok (found, s', r')) : Removed s s' pid := by
  obtain ⟨l, ht⟩ := h.threaded
  obtain ⟨-, -, hlives, hqueue⟩ := ht.destroy h.numbered hd
  obtain ⟨slot, hslot, -, -, hproc⟩ | ⟨hslot, rfl⟩ := destroy_slots hd
  · refine ⟨hlives, fun i hi => ?_, fun i hi => ?_, hqueue, ?_⟩
    · rw [hslot] at hi
      obtain rfl := Option.some.inj hi
      rw [hproc, if_pos rfl]
    · have hne : i ≠ slot := fun heq => hi (by rw [hslot, heq])
      obtain ⟨t, hseat, -⟩ := slotOf_seat hslot
      obtain ⟨p, hp, -⟩ := Option.map_eq_some_iff.mp hseat
      rw [hproc, if_neg hne]
      exact (ht.unlink_others hp hne).imp id fun ⟨hprec, hlink⟩ =>
        ⟨slot, p, hslot, hp, hprec, hlink⟩
    · obtain ⟨slot', t, hslot', -, he, -⟩ | ⟨hnone, -⟩ := destroy_spec hd
      · rw [hslot']
        exact he.current
      · rw [hslot] at hnone
        cases hnone
  · refine ⟨hlives, fun i hi => ?_, fun i _ => .inl rfl, hqueue, ?_⟩
    · rw [hslot] at hi
      cases hi
    · rw [hslot]
      split
      · next hnone => exact hnone
      · rfl

/-- Whether a process has ended and is not the current one. -/
def reaps (s : Scheduler) (p : Process) : Bool :=
  p.state == .terminated && s.currentPid != some p.pid

theorem Numbered.mem_reapable (hn : s.Numbered) (hget : s.get? pid = some p) :
    pid ∈ s.reapable ↔ s.reaps p = true := by
  obtain ⟨slot, hslot, hp⟩ := Option.bind_eq_some_iff.mp hget
  obtain ⟨t, hseat, rfl⟩ := slotOf_seat hslot
  have htenant : p.tenant = t := by
    rw [seat, hp] at hseat
    exact Option.some.inj hseat
  have hcurrent := hn.currentPid_eq_iff hseat
  have hpid : p.pid = t.pid := congrArg Tenant.pid htenant
  rw [mem_reapable_iff]
  constructor
  · rintro ⟨i, q, hq, hne, hended, hqpid⟩
    obtain rfl := hn.distinct i slot q.tenant t (seat_of_process? hq) hseat hqpid
    cases hq.symm.trans hp
    simp [reaps, hended, hpid, hcurrent, hne]
  · intro hr
    simp only [reaps, hpid, Bool.and_eq_true, beq_iff_eq, bne_iff_ne, ne_eq, hcurrent] at hr
    exact ⟨slot, p, hp, hr.2, hr.1, hpid⟩

theorem Numbered.reapable_eq (hn : s.Numbered) :
    s.reapable = (s.processes.filter s.reaps).map (·.pid) := by
  have hslots : s.slots.toList.zipIdx.filterMap (fun x =>
      if s.current = some x.2 then none else x.1.filter (·.state == .terminated)) =
        s.slots.toList.zipIdx.filterMap ((Option.filter s.reaps) ∘ Prod.fst) := by
    refine List.filterMap_congr fun x hmem => ?_
    obtain ⟨o, slot⟩ := x
    rw [List.mem_zipIdx_iff_getElem?, Array.getElem?_toList] at hmem
    cases o with
    | none => simp
    | some p =>
      have hp : s.process? slot = some p := Option.join_eq_some_iff.mpr hmem
      have hcurrent : s.currentPid = some p.pid ↔ _ :=
        hn.currentPid_eq_iff (seat_of_process? hp)
      by_cases hc : s.current = some slot
      · simp [hc, reaps, hcurrent.mpr hc, Option.filter_some]
      · simp [hc, reaps, mt hcurrent.mp hc, Option.filter_some]
  calc s.reapable
      = (s.slots.toList.zipIdx.filterMap ((Option.filter s.reaps) ∘ Prod.fst)).map (·.pid) :=
        congrArg (List.map _) hslots
    _ = (s.processes.filter s.reaps).map (·.pid) := by
        rw [← List.filterMap_map, List.zipIdx_map_fst, processes, List.filter_filterMap]
        rfl

end KernelCore.Scheduler
