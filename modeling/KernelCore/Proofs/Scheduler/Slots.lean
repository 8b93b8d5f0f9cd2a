import Mathlib
import KernelCore.Proofs.Scheduler.Admission

/-!
# Slots that are taken and left

A new process is put into a slot that was empty, and a destroyed one is unlinked and taken out of
its slot. No other slot changes but by the unlinking.
-/
namespace KernelCore.Scheduler

variable {s s' : Scheduler} {r r' : Resources} {slot : Nat} {pid : Pid}

theorem process?_clear (s : Scheduler) (slot i : Nat) :
    ({ s with slots := s.slots.setIfInBounds slot none } : Scheduler).process? i =
      if i = slot then none else s.process? i := by
  rw [process?, process?, Array.getElem?_setIfInBounds]
  by_cases hi : slot = i
  · rw [if_pos hi, if_pos hi.symm]
    split <;> rfl
  · rw [if_neg hi, if_neg (Ne.symm hi)]

theorem process?_fill (s : Scheduler) (hlt : slot < s.slots.size) (p : Process) (i : Nat) :
    ({ s with slots := s.slots.setIfInBounds slot (some p) } : Scheduler).process? i =
      if i = slot then some p else s.process? i := by
  rw [process?, process?, Array.getElem?_setIfInBounds]
  by_cases hi : slot = i
  · rw [if_pos hi, if_pos hi.symm, if_pos hlt]
    rfl
  · rw [if_neg hi, if_neg (Ne.symm hi)]

theorem process?_reserveSlot (s : Scheduler) (i : Nat) :
    s.reserveSlot.2.process? i = s.process? i := by
  unfold reserveSlot
  split
  · rfl
  · rw [process?, process?, Array.getElem?_push]
    split
    · next hi =>
      rw [Array.getElem?_eq_none (by omega)]
      rfl
    · rfl

theorem timeSlice_reserveSlot (s : Scheduler) : s.reserveSlot.2.timeSlice = s.timeSlice := by
  unfold reserveSlot
  split <;> rfl

theorem reserveSlot_lt (s : Scheduler) : s.reserveSlot.1 < s.reserveSlot.2.slots.size := by
  have hlt := lt_length_of_getElem? s.reserveSlot_spec.2.1
  rwa [roster, List.length_map, Array.length_toList] at hlt

theorem process?_reserved (s : Scheduler) : s.process? s.reserveSlot.1 = none := by
  have hseat := s.reserveSlot_spec.2.2
  rwa [seat, Option.map_eq_none_iff] at hseat

/-- Creating a process: a slot that was empty has a ready process that starts at the entry, has a
whole turn and what is kept of the name and is not queued, or the slots stay as they are. -/
theorem create_slots {name : String} {entry : Nat} {result : Except KernelError Pid}
    (h : s.create r name entry = .ok (result, s', r')) :
    (s'.head = s.head ∧ s'.tail = s.tail) ∧
      ((∃ slot p, s.process? slot = none ∧
          (∀ i, s'.process? i = if i = slot then some p else s.process? i) ∧ result = .ok p.pid ∧
          p.state = .ready ∧ p.next = none ∧ p.queued = false ∧
          p.registers = .atEntry entry p.stack.top p.space.root ∧
          p.timeSlice = s.timeSlice ∧ p.wakeAt = none ∧
          p.name = truncateName name maxNameBytes) ∨
        (∃ e, result = .error e) ∧ ∀ i, s'.process? i = s.process? i) := by
  have hends : s.reserveSlot.2.head = s.head ∧ s.reserveSlot.2.tail = s.tail := by
    unfold reserveSlot
    split <;> exact ⟨rfl, rfl⟩
  unfold create at h
  split at h
  · cases h
    exact ⟨⟨rfl, rfl⟩, .inr ⟨⟨_, rfl⟩, fun _ => rfl⟩⟩
  · obtain ⟨_, he, h⟩ := Fault.of_bind_eq_ok h
    split at h
    · cases h
      exact ⟨hends, .inr ⟨⟨_, rfl⟩, s.process?_reserveSlot⟩⟩
    · cases h
      have hfill := fun p i => process?_fill s.reserveSlot.2 s.reserveSlot_lt p i
      simp only [process?_reserveSlot] at hfill
      exact ⟨hends, .inl ⟨s.reserveSlot.1, _, s.process?_reserved, hfill _, rfl, rfl, rfl, rfl,
        rfl, s.timeSlice_reserveSlot, rfl, rfl⟩⟩

/-- Destroying a process: its slot is unlinked and emptied, or there is none. -/
theorem destroy_slots {found : Bool} (h : s.destroy r pid = .ok (found, s', r')) :
    (∃ slot, s.slotOf pid = some slot ∧ s'.head = (s.unlink slot).2.head ∧
        s'.tail = (s.unlink slot).2.tail ∧
        ∀ i, s'.process? i = if i = slot then none else (s.unlink slot).2.process? i) ∨
      s.slotOf pid = none ∧ s' = s := by
  unfold destroy at h
  split at h
  · next hnone =>
    cases h
    exact .inr ⟨hnone, rfl⟩
  · next slot hslot =>
    dsimp only at h
    have hv : ((s.unlink slot).2.vacate slot).head = (s.unlink slot).2.head ∧
        ((s.unlink slot).2.vacate slot).tail = (s.unlink slot).2.tail ∧
        ∀ i, ((s.unlink slot).2.vacate slot).process? i = (s.unlink slot).2.process? i := by
      unfold vacate
      split <;> exact ⟨rfl, rfl, fun _ => rfl⟩
    generalize hs₂ : (if (s.unlink slot).2.current = some slot then
      { (s.unlink slot).2 with current := none } else (s.unlink slot).2) = s₂ at h
    rw [show (s.unlink slot).2.vacate slot = s₂ from hs₂] at hv
    obtain ⟨hhead, htail, hproc⟩ := hv
    refine .inl ⟨slot, hslot, ?_⟩
    split at h
    · next hnone =>
      cases h
      refine ⟨hhead, htail, fun i => ?_⟩
      split
      · next hi => rw [hi, hnone]
      · exact hproc i
    · obtain ⟨r₁, -, h⟩ := Fault.of_bind_eq_ok h
      cases h
      refine ⟨hhead, htail, fun i => ?_⟩
      rw [← hproc i]
      exact process?_clear s₂ slot i

/-- Every process was there before, with the same registers. -/
def Retains (s s' : Scheduler) : Prop :=
  ∀ i p', s'.process? i = some p' →
    ∃ p, s.process? i = some p ∧ p'.tenant = p.tenant ∧ p'.registers = p.registers

theorem Retains.refl (s : Scheduler) : Retains s s := fun _ p hp => ⟨p, hp, rfl, rfl⟩

theorem Retains.trans {s'' : Scheduler} (h : Retains s s') (h' : Retains s' s'') :
    Retains s s'' := by
  intro i p'' hp''
  obtain ⟨p', hp', htenant', hregisters'⟩ := h' i p'' hp''
  obtain ⟨p, hp, htenant, hregisters⟩ := h i p' hp'
  exact ⟨p, hp, htenant'.trans htenant, hregisters'.trans hregisters⟩

theorem Dispatched.retains (h : Dispatched s s') : Retains s s' := by
  intro i p' hp'
  have hview := (h.toAlike.comp fun p => (p.tenant, p.registers)).view i
  rw [hp', Option.map_some] at hview
  obtain ⟨p, hp, heq⟩ := Option.map_eq_some_iff.mp hview.symm
  exact ⟨p, hp, (congrArg Prod.fst heq).symm, (congrArg Prod.snd heq).symm⟩

theorem state_of_unhooked {p p' : Process} (h : p'.unhooked = p.unhooked) :
    p'.pid = p.pid ∧ p'.state = p.state ∧ p'.exitStatus = p.exitStatus := by
  have hpid : p'.unhooked.pid = p.unhooked.pid := by rw [h]
  have hstate : p'.unhooked.state = p.unhooked.state := by rw [h]
  have hstatus : p'.unhooked.exitStatus = p.unhooked.exitStatus := by rw [h]
  exact ⟨hpid, hstate, hstatus⟩

/-- Every process was there before, and nothing of it changed but what it holds for the queue. -/
def Thinned (s s' : Scheduler) : Prop :=
  ∀ i p', s'.process? i = some p' → ∃ p, s.process? i = some p ∧ p'.unhooked = p.unhooked

theorem Thinned.refl (s : Scheduler) : Thinned s s := fun _ p hp => ⟨p, hp, rfl⟩

theorem Thinned.trans {s'' : Scheduler} (h : Thinned s s') (h' : Thinned s' s'') :
    Thinned s s'' := by
  intro i p'' hp''
  obtain ⟨p', hp', hsame'⟩ := h' i p'' hp''
  obtain ⟨p, hp, hsame⟩ := h i p' hp'
  exact ⟨p, hp, hsame'.trans hsame⟩

theorem Thinned.retains (h : Thinned s s') : Retains s s' := by
  intro i p' hp'
  obtain ⟨p, hp, hsame⟩ := h i p' hp'
  have htenant : p'.unhooked.tenant = p.unhooked.tenant := by rw [hsame]
  have hregisters : p'.unhooked.registers = p.unhooked.registers := by rw [hsame]
  exact ⟨p, hp, htenant, hregisters⟩

theorem Rehung.thinned (h : Rehung s s') : Thinned s s' := by
  intro i p' hp'
  have hview := h.view i
  rw [hp', Option.map_some] at hview
  obtain ⟨p, hp, hsame⟩ := Option.map_eq_some_iff.mp hview.symm
  exact ⟨p, hp, hsame.symm⟩

theorem Rehung.retains (h : Rehung s s') : Retains s s' := h.thinned.retains

theorem thinned_destroy {found : Bool} (h : s.destroy r pid = .ok (found, s', r')) :
    Thinned s s' := by
  obtain ⟨slot, -, -, -, hproc⟩ | ⟨-, rfl⟩ := destroy_slots h
  · refine (rehung_unlink s slot).thinned.trans fun i p' hp' => ?_
    rw [hproc] at hp'
    split at hp'
    · cases hp'
    · exact ⟨p', hp', rfl⟩
  · exact .refl _

theorem thinned_destroyAll {pids : List Pid} (h : s.destroyAll r pids = .ok (s', r')) :
    Thinned s s' := by
  induction pids generalizing s r with
  | nil =>
    cases h
    exact .refl _
  | cons pid pids ih =>
    rw [destroyAll] at h
    obtain ⟨⟨_, _, _⟩, h₁, h⟩ := Fault.of_bind_eq_ok h
    exact (thinned_destroy h₁).trans (ih h)

theorem nextPid_destroy {found : Bool} (h : s.destroy r pid = .ok (found, s', r')) :
    s'.nextPid = s.nextPid := by
  obtain ⟨_, _, -, -, he, -⟩ | ⟨-, rfl, -⟩ := destroy_spec h
  · exact he.nextPid
  · rfl

theorem nextPid_destroyAll {pids : List Pid} (h : s.destroyAll r pids = .ok (s', r')) :
    s'.nextPid = s.nextPid := by
  induction pids generalizing s r with
  | nil =>
    cases h
    rfl
  | cons pid pids ih =>
    rw [destroyAll] at h
    obtain ⟨⟨_, s₁, _⟩, h₁, h⟩ := Fault.of_bind_eq_ok h
    exact (ih h).trans (nextPid_destroy h₁)

theorem Numbered.pid_ne_of_slotOf (h : s.Numbered) (hnone : s.slotOf pid = none) {p : Process}
    (hp : s.process? slot = some p) : p.pid ≠ pid := by
  rintro rfl
  have hslot := h.slotOf (seat_of_process? hp)
  rw [show p.tenant.pid = p.pid from rfl, hnone] at hslot
  cases hslot

theorem Numbered.get?_pid (h : s.Numbered) {p : Process} (hp : s.process? slot = some p) :
    s.get? p.pid = some p := by
  have hslot : s.slotOf p.pid = some slot := h.slotOf (seat_of_process? hp)
  rw [Scheduler.get?, hslot, Option.bind_some, hp]

theorem exists_of_currentPid (h : s.currentPid = some pid) :
    ∃ slot t, s.current = some slot ∧ s.seat slot = some t ∧ t.pid = pid := by
  rw [currentPid_eq, Option.map_eq_some_iff] at h
  obtain ⟨t, ht, hpid⟩ := h
  obtain ⟨slot, hc, hseat⟩ := currentTenant_eq_some.mp ht
  exact ⟨slot, t, hc, hseat, hpid⟩

theorem Numbered.currentPid_eq_iff {t : Tenant} (hn : s.Numbered) (ht : s.seat slot = some t) :
    s.currentPid = some t.pid ↔ s.current = some slot := by
  constructor
  · intro hpid
    obtain ⟨i, u, hc, hu, heq⟩ := exists_of_currentPid hpid
    rwa [← hn.distinct i slot u t hu ht heq]
  · intro hc
    rw [currentPid_eq, currentTenant_eq_some.mpr ⟨slot, hc, ht⟩, Option.map_some]

theorem destroy_pids {found : Bool} (hn : s.Numbered)
    (h : s.destroy r pid = .ok (found, s', r')) :
    s'.nextPid = s.nextPid ∧
      s'.currentPid = (if s.currentPid = some pid then none else s.currentPid) ∧
      ∀ i p, s'.process? i = some p → p.pid ≠ pid := by
  obtain ⟨slot, t, -, rfl, he, -⟩ | ⟨hnone, rfl, -⟩ := destroy_spec h
  · have hcurrent := hn.currentPid_eq_iff he.taken
    refine ⟨he.nextPid, ?_, fun i p hp hpid => ?_⟩
    · rw [currentPid_eq s', he.currentTenant]
      simp only [hcurrent]
      split
      · rfl
      · rw [currentPid_eq]
    · have hseat := seat_of_process? hp
      rw [he.seat] at hseat
      split at hseat
      · cases hseat
      · next hne => exact hne (hn.distinct i slot p.tenant t hseat he.taken hpid)
  · refine ⟨rfl, ?_, fun i p hp => hn.pid_ne_of_slotOf hnone hp⟩
    rw [if_neg]
    intro hpid
    obtain ⟨i, t, -, hseat, rfl⟩ := exists_of_currentPid hpid
    rw [hn.slotOf hseat] at hnone
    cases hnone

theorem Numbered.destroy {found : Bool} (hn : s.Numbered)
    (h : s.destroy r pid = .ok (found, s', r')) : s'.Numbered := by
  obtain ⟨_, _, -, -, he, -⟩ | ⟨-, rfl, -⟩ := destroy_spec h
  · exact hn.evicted he
  · exact hn

theorem destroyAll_pids {pids : List Pid} (hn : s.Numbered)
    (hpids : ∀ pid ∈ pids, s.currentPid ≠ some pid)
    (h : s.destroyAll r pids = .ok (s', r')) :
    s'.nextPid = s.nextPid ∧ s'.currentPid = s.currentPid := by
  induction pids generalizing s r with
  | nil =>
    cases h
    exact ⟨rfl, rfl⟩
  | cons pid pids ih =>
    rw [destroyAll] at h
    obtain ⟨⟨_, s₁, _⟩, h₁, h⟩ := Fault.of_bind_eq_ok h
    obtain ⟨hnext, hcurrent, -⟩ := destroy_pids hn h₁
    rw [if_neg (hpids pid (List.mem_cons_self ..))] at hcurrent
    obtain ⟨hnext', hcurrent'⟩ := ih (hn.destroy h₁) (fun q hq => by
      rw [hcurrent]
      exact hpids q (List.mem_cons_of_mem _ hq)) h
    exact ⟨hnext'.trans hnext, hcurrent'.trans hcurrent⟩

theorem mem_reapable_iff : pid ∈ s.reapable ↔ ∃ slot p, s.process? slot = some p ∧
    s.current ≠ some slot ∧ p.state = .terminated ∧ p.pid = pid := by
  have hslot : ∀ o slot, (o, slot) ∈ s.slots.toList.zipIdx ↔ s.slots[slot]? = some o := by
    intro o slot
    rw [List.mem_zipIdx_iff_getElem?, Array.getElem?_toList]
  constructor
  · intro h
    obtain ⟨p, hp, rfl⟩ := List.mem_map.mp h
    obtain ⟨⟨o, slot⟩, hmem, hsome⟩ := List.mem_filterMap.mp hp
    dsimp only at hsome
    split at hsome
    · cases hsome
    · next hne =>
      obtain ⟨rfl, hended⟩ := Option.filter_eq_some_iff.mp hsome
      exact ⟨slot, p, Option.join_eq_some_iff.mpr ((hslot _ _).mp hmem), hne, eq_of_beq hended,
        rfl⟩
  · rintro ⟨slot, p, hp, hne, hended, rfl⟩
    refine List.mem_map.mpr ⟨p, List.mem_filterMap.mpr ⟨(some p, slot), ?_, ?_⟩, rfl⟩
    · exact (hslot _ _).mpr (Option.join_eq_some_iff.mp hp)
    · simp [hne, hended]

end KernelCore.Scheduler
