import Mathlib
import KernelCore.Proofs.Paging.Ownership
import KernelCore.Proofs.Scheduler.Roster

/-!
# Admission

A new process takes a free seat with a number that nobody had, and a space of its own; a destroyed
one leaves its seat and gives its space back.
-/
namespace KernelCore

namespace Resources

/-- What taking resources for a process comes to: a new space, or nothing. -/
def Outcome (r : Resources) : Except MemoryError (KernelStack × AddressSpace) × Resources → Prop
  | (.ok (_, space), r') => r.paging.Gained space r'.paging
  | (.error _, r') => r.paging.Spared r'.paging

theorem take_spec {r : Resources} {result : Except MemoryError (KernelStack × AddressSpace)}
    {r' : Resources} (h : r.take = .ok (result, r')) : r.Outcome (result, r') := by
  unfold take at h
  obtain ⟨_, -, h⟩ := Fault.of_bind_eq_ok h
  split at h
  · cases h
    exact .refl _
  · cases h
    exact .refl _
  · split at h
    · obtain ⟨_, -, h⟩ := Fault.of_bind_eq_ok h
      cases h
      exact .refl _
    · split at h
      · next hc =>
        obtain ⟨_, -, h⟩ := Fault.of_bind_eq_ok h
        cases h
        obtain rfl := Paging.create_eq_error hc
        exact .refl _
      · next hc =>
        have hg := Paging.create_ok hc
        split at h
        · next hs =>
          obtain ⟨_, -, h⟩ := Fault.of_bind_eq_ok h
          cases h
          exact hg.share_error hs
        · next hs =>
          cases h
          exact hg.share hs

theorem release_paging {r r' : Resources} {p : Process} (h : r.release p = .ok r') :
    r'.paging = r.paging.destroy p.space := by
  unfold release at h
  obtain ⟨_, -, h⟩ := Fault.of_bind_eq_ok h
  cases h
  rfl

end Resources

namespace Scheduler

variable {s s' : Scheduler} {r r' : Resources} {slot : Nat} {pid : Pid} {t : Tenant}

theorem perm_take_seat {seats : List (Option Tenant)} (h : seats[slot]? = some none) (t : Tenant) :
    ((seats.set slot (some t)).filterMap id).Perm (t :: seats.filterMap id) := by
  induction seats generalizing slot with
  | nil => simp at h
  | cons o seats ih =>
    cases slot with
    | zero =>
      simp only [List.getElem?_cons_zero, Option.some.injEq] at h
      subst h
      exact .refl _
    | succ slot =>
      rw [List.getElem?_cons_succ] at h
      rw [List.set_cons_succ]
      cases o with
      | none => exact ih h
      | some u =>
        have hcons : ∀ l : List (Option Tenant), (some u :: l).filterMap id = u :: l.filterMap id :=
          fun _ => List.filterMap_cons_some rfl
        rw [hcons, hcons]
        exact ((ih h).cons u).trans (.swap t u _)

theorem perm_leave_seat {seats : List (Option Tenant)} (h : seats[slot]? = some (some t)) :
    (seats.filterMap id).Perm (t :: (seats.set slot none).filterMap id) := by
  obtain ⟨hlt, he⟩ := List.getElem?_eq_some_iff.mp h
  have hset : (seats.set slot none).set slot (some t) = seats := by
    rw [List.set_set, ← he, List.set_getElem_self]
  have hfree : (seats.set slot none)[slot]? = some none := List.getElem?_set_self hlt
  have hp := perm_take_seat hfree t
  rwa [hset] at hp

theorem roster_set (s : Scheduler) (slot : Nat) (p : Option Process) :
    ({ s with slots := s.slots.setIfInBounds slot p } : Scheduler).roster =
      s.roster.set slot (p.map Process.tenant) := by
  rw [roster, Array.toList_setIfInBounds, List.map_set, roster]

theorem reserveSlot_spec (s : Scheduler) :
    Settled s s.reserveSlot.2 ∧ s.reserveSlot.2.roster[s.reserveSlot.1]? = some none ∧
      s.seat s.reserveSlot.1 = none := by
  unfold reserveSlot
  split
  · next slot hfound =>
    obtain ⟨hlt, hnone, -⟩ := Array.findIdx?_eq_some_iff_getElem.mp hfound
    have hslot : s.slots[slot] = none := Option.isNone_iff_eq_none.mp hnone
    have hroster : s.roster[slot]? = some none := by
      rw [roster, List.getElem?_map, Array.getElem?_toList, Array.getElem?_eq_getElem hlt, hslot]
      rfl
    refine ⟨.refl s, hroster, ?_⟩
    rw [seat_eq, hroster]
    rfl
  · have hroster : ({ s with slots := s.slots.push none } : Scheduler).roster =
        s.roster ++ [none] := by
      simp [roster]
    have hlen : s.roster.length = s.slots.size := by simp [roster]
    refine ⟨⟨fun i => ?_, ?_, rfl, rfl⟩, ?_, ?_⟩
    · rw [seat_eq, seat_eq, hroster, List.getElem?_append]
      split
      · rfl
      · next hge =>
        rw [List.getElem?_eq_none (Nat.not_lt.mp hge)]
        cases i - s.roster.length with
        | zero => rfl
        | succ n => rfl
    · rw [tenants, hroster, List.filterMap_append, tenants]
      simp
    · rw [hroster, ← hlen, List.getElem?_append_right le_rfl, Nat.sub_self]
      rfl
    · rw [seat_eq, List.getElem?_eq_none (by omega)]
      rfl

/-- A process has been created in a free seat. -/
structure Admitted (s s' : Scheduler) (slot : Nat) (t : Tenant) : Prop where
  free : s.seat slot = none
  seat : ∀ i, s'.seat i = if i = slot then some t else s.seat i
  tenants : s'.tenants.Perm (t :: s.tenants)
  current : s'.current = s.current
  pid : t.pid = s.nextPid
  nextPid : s'.nextPid = s.nextPid + 1

/-- A process has been destroyed. -/
structure Evicted (s s' : Scheduler) (slot : Nat) (t : Tenant) : Prop where
  taken : s.seat slot = some t
  seat : ∀ i, s'.seat i = if i = slot then none else s.seat i
  tenants : s.tenants.Perm (t :: s'.tenants)
  current : s'.current = if s.current = some slot then none else s.current
  nextPid : s'.nextPid = s.nextPid

theorem seat_set (s : Scheduler) {slot : Nat} (hlt : slot < s.roster.length) (p : Option Process)
    (i : Nat) : ({ s with slots := s.slots.setIfInBounds slot p } : Scheduler).seat i =
      if i = slot then p.map Process.tenant else s.seat i := by
  rw [seat_eq, roster_set, List.getElem?_set]
  by_cases hi : slot = i
  · subst hi
    simp [hlt]
  · rw [if_neg hi, if_neg (Ne.symm hi), seat_eq]

theorem lt_length_of_getElem? {o : Option Tenant} (h : s.roster[slot]? = some o) :
    slot < s.roster.length :=
  (List.getElem?_eq_some_iff.mp h).1

theorem admitted_fill (s : Scheduler) (p : Process) (hpid : p.pid = s.nextPid) :
    Admitted s { s.reserveSlot.2 with
      slots := s.reserveSlot.2.slots.setIfInBounds s.reserveSlot.1 (some p)
      nextPid := s.reserveSlot.2.nextPid + 1 } s.reserveSlot.1 p.tenant := by
  obtain ⟨hs, hnone, hfree⟩ := s.reserveSlot_spec
  have hlt := lt_length_of_getElem? hnone
  refine ⟨hfree, fun i => ?_, ?_, hs.current, hpid, congrArg (· + 1) hs.nextPid⟩
  · rw [← hs.seat i]
    exact seat_set s.reserveSlot.2 hlt (some p) i
  · have hp := perm_take_seat hnone p.tenant
    rw [← hs.tenants]
    refine (List.Perm.of_eq ?_).trans hp
    exact congrArg (List.filterMap id) (roster_set s.reserveSlot.2 _ (some p))

/-- What creating a process comes to: the numbers have run out, or it goes as taking the resources
went. -/
inductive Created (s : Scheduler) (r : Resources) :
    Except KernelError Pid × Scheduler × Resources → Prop
  | full (last : lastPid ≤ s.nextPid) : Created s r (.error .processTableFull, s, r)
  | refused {e : MemoryError} {r' : Resources} (taken : r.take = .ok (.error e, r')) :
      Created s r (.error (.memory e), s.reserveSlot.2, r')
  | admitted {slot : Nat} {t : Tenant} {s' : Scheduler} {r' : Resources}
      (taken : r.take = .ok (.ok (t.stack, t.space), r')) (admitted : Admitted s s' slot t) :
      Created s r (.ok t.pid, s', r')

theorem created_of_create {name : String} {entry : Nat}
    {x : Except KernelError Pid × Scheduler × Resources} (h : s.create r name entry = .ok x) :
    Created s r x := by
  unfold create at h
  split at h
  · next hlast =>
    cases h
    exact .full hlast
  · obtain ⟨⟨result, r'⟩, htake, h⟩ := Fault.of_bind_eq_ok h
    split at h
    · next heq =>
      cases heq
      cases h
      exact .refused htake
    · next stack space _ heq =>
      cases heq
      cases h
      have hn := s.reserveSlot_spec.1.nextPid
      exact .admitted (t := ⟨s.reserveSlot.2.nextPid, space, stack⟩) htake (admitted_fill s _ hn)

theorem exists_created {x : Except MemoryError (KernelStack × AddressSpace) × Resources}
    (h : r.take = .ok x) (name : String) (entry : Nat) :
    ∃ y, s.create r name entry = .ok y ∧ Created s r y := by
  have hrun : ∃ y, s.create r name entry = .ok y := by
    unfold create
    split
    · exact ⟨_, rfl⟩
    · simp only [h, bind, Except.bind]
      split <;> exact ⟨_, rfl⟩
  obtain ⟨y, hy⟩ := hrun
  exact ⟨y, hy, created_of_create hy⟩

/-- Creating a process: a tenant is admitted who gained a space, or nothing changes. -/
theorem create_spec {name : String} {entry : Nat} {result : Except KernelError Pid}
    (h : s.create r name entry = .ok (result, s', r')) :
    (∃ slot t, result = .ok t.pid ∧ Admitted s s' slot t ∧ r.paging.Gained t.space r'.paging) ∨
      (∃ e, result = .error e) ∧ Settled s s' ∧ r.paging.Spared r'.paging := by
  cases created_of_create h with
  | full _ => exact .inr ⟨⟨_, rfl⟩, .refl s, .refl _⟩
  | refused htake =>
    exact .inr ⟨⟨_, rfl⟩, s.reserveSlot_spec.1, Resources.take_spec htake⟩
  | admitted htake ha => exact .inl ⟨_, _, rfl, ha, Resources.take_spec htake⟩

theorem slotOf_seat (h : s.slotOf pid = some slot) : ∃ t, s.seat slot = some t ∧ t.pid = pid := by
  rw [slotOf_eq] at h
  obtain ⟨hlt, hany, -⟩ := List.findIdx?_eq_some_iff_getElem.mp h
  obtain ⟨t, ht, hp⟩ := (Option.any_eq_true _ _).mp hany
  refine ⟨t, ?_, eq_of_beq hp⟩
  rw [seat_eq, List.getElem?_eq_getElem hlt, ht]
  rfl

/-- The current slot is given up if it is the given one. -/
def vacate (s : Scheduler) (slot : Nat) : Scheduler :=
  if s.current = some slot then { s with current := none } else s

theorem keeps_vacate (s : Scheduler) (slot : Nat) : Keeps s (s.vacate slot) := by
  unfold vacate
  split
  · exact ⟨rfl, rfl⟩
  · exact .refl s

theorem current_vacate (s : Scheduler) (slot : Nat) :
    (s.vacate slot).current = if s.current = some slot then none else s.current := by
  unfold vacate
  split <;> rfl

theorem roster_seat (h : s.seat slot = some t) : s.roster[slot]? = some (some t) := by
  rw [seat_eq] at h
  exact Option.join_eq_some_iff.mp h

/-- Destroying a process: the tenant with the number is evicted and its space destroyed, or there is
none. -/
theorem destroy_spec {found : Bool} (h : s.destroy r pid = .ok (found, s', r')) :
    (∃ slot t, s.slotOf pid = some slot ∧ t.pid = pid ∧ Evicted s s' slot t ∧
        r'.paging = r.paging.destroy t.space) ∨
      s.slotOf pid = none ∧ s' = s ∧ r' = r := by
  unfold destroy at h
  split at h
  · next hnone =>
    cases h
    exact .inr ⟨hnone, rfl, rfl⟩
  · next slot hslot =>
    obtain ⟨t, ht, hpid⟩ := slotOf_seat hslot
    dsimp only at h
    have hst := (rehung_unlink s slot).stays
    have hk := hst.toKeeps.trans (keeps_vacate _ slot)
    have hc := current_vacate (s.unlink slot).2 slot
    rw [hst.current] at hc
    generalize hs₂ : (if (s.unlink slot).2.current = some slot then
      { (s.unlink slot).2 with current := none } else (s.unlink slot).2) = s₂ at h
    rw [show (s.unlink slot).2.vacate slot = s₂ from hs₂] at hk hc
    split at h
    · next hnone =>
      rw [← hk.seat, seat, hnone] at ht
      cases ht
    · next p hp =>
      obtain rfl : p.tenant = t := by
        rw [← hk.seat, seat, hp] at ht
        exact Option.some.inj ht
      obtain ⟨r₁, hr, h⟩ := Fault.of_bind_eq_ok h
      cases h
      have hroster := roster_seat (hk.seat slot ▸ ht)
      rw [hk.roster] at hroster
      have hlt : slot < s₂.roster.length := by
        rw [hk.roster]
        exact lt_length_of_getElem? hroster
      refine .inl ⟨slot, p.tenant, hslot, hpid, ⟨ht, fun i => ?_, ?_, hc, hk.nextPid⟩,
        Resources.release_paging hr⟩
      · rw [← hk.seat i]
        exact seat_set s₂ hlt none i
      · have hset : ({ s₂ with slots := s₂.slots.setIfInBounds slot none } : Scheduler).roster =
            s.roster.set slot none := by
          rw [← hk.roster]
          exact roster_set s₂ slot none
        have hp := perm_leave_seat hroster
        rwa [← hset] at hp

theorem exists_destroy (hslot : s.slotOf pid = some slot) (ht : s.seat slot = some t)
    (hr : ∀ p, p.tenant = t → r.release p = .ok r') :
    ∃ s', s.destroy r pid = .ok (true, s', r') := by
  have hk := (rehung_unlink s slot).stays.toKeeps.trans (keeps_vacate _ slot)
  obtain ⟨p, hp, htenant⟩ := Option.map_eq_some_iff.mp ((hk.seat slot).trans ht)
  unfold destroy
  rw [hslot]
  dsimp only
  generalize hs₂ : (if (s.unlink slot).2.current = some slot then
    { (s.unlink slot).2 with current := none } else (s.unlink slot).2) = s₂
  rw [show (s.unlink slot).2.vacate slot = s₂ from hs₂] at hp
  simp only [hp, hr p htenant]
  exact ⟨_, rfl⟩

/-- No two processes have the same number, and the next number is larger than all. -/
structure Numbered (s : Scheduler) : Prop where
  below : ∀ slot t, s.seat slot = some t → t.pid < s.nextPid
  distinct : ∀ i j t u, s.seat i = some t → s.seat j = some u → t.pid = u.pid → i = j

theorem Numbered.congr (h : s.Numbered) (hseat : ∀ i, s'.seat i = s.seat i)
    (hn : s'.nextPid = s.nextPid) : s'.Numbered := by
  refine ⟨fun slot t ht => ?_, fun i j t u ht hu => ?_⟩
  · rw [hseat] at ht
    rw [hn]
    exact h.below slot t ht
  · rw [hseat] at ht hu
    exact h.distinct i j t u ht hu

theorem Numbered.keeps (h : s.Numbered) (hk : Keeps s s') : s'.Numbered :=
  h.congr hk.seat hk.nextPid

theorem Numbered.admitted (h : s.Numbered) (ha : Admitted s s' slot t) : s'.Numbered := by
  have hold : ∀ {i u}, s'.seat i = some u → i ≠ slot → s.seat i = some u := by
    intro i u hu hi
    rwa [ha.seat, if_neg hi] at hu
  have hnew : ∀ {u}, s'.seat slot = some u → u.pid = s.nextPid := by
    intro u hu
    rw [ha.seat, if_pos rfl] at hu
    rw [← Option.some.inj hu, ha.pid]
  refine ⟨fun i u hu => ?_, fun i j u v hu hv he => ?_⟩
  · rw [ha.nextPid]
    by_cases hi : i = slot
    · subst hi
      rw [hnew hu]
      exact Nat.lt_succ_self _
    · exact (h.below i u (hold hu hi)).trans (Nat.lt_succ_self _)
  · by_cases hi : i = slot <;> by_cases hj : j = slot
    · rw [hi, hj]
    · have hlt := h.below j v (hold hv hj)
      subst hi
      rw [hnew hu] at he
      exact absurd he hlt.ne'
    · have hlt := h.below i u (hold hu hi)
      subst hj
      rw [hnew hv] at he
      exact absurd he hlt.ne
    · exact h.distinct i j u v (hold hu hi) (hold hv hj) he

theorem Numbered.evicted (h : s.Numbered) (he : Evicted s s' slot t) : s'.Numbered := by
  have hold : ∀ {i u}, s'.seat i = some u → s.seat i = some u := by
    intro i u hu
    rw [he.seat] at hu
    split at hu
    · cases hu
    · exact hu
  refine ⟨fun i u hu => ?_, fun i j u v hu hv => h.distinct i j u v (hold hu) (hold hv)⟩
  rw [he.nextPid]
  exact h.below i u (hold hu)

theorem mem_tenants (h : s.seat slot = some t) : t ∈ s.tenants :=
  List.mem_filterMap.mpr ⟨some t, List.mem_of_getElem? (roster_seat h), rfl⟩

theorem currentTenant_eq_some :
    s.currentTenant = some t ↔ ∃ slot, s.current = some slot ∧ s.seat slot = some t :=
  Option.bind_eq_some_iff

theorem Numbered.slotOf (h : s.Numbered) (ht : s.seat slot = some t) :
    s.slotOf t.pid = some slot := by
  cases hs : s.slotOf t.pid with
  | none =>
    rw [slotOf_eq, List.findIdx?_eq_none_iff] at hs
    have hno := hs _ (List.mem_of_getElem? (roster_seat ht))
    simp at hno
  | some found =>
    obtain ⟨u, hu, hp⟩ := slotOf_seat hs
    rw [h.distinct found slot u t hu ht hp]

theorem Numbered.get?_currentPid (h : s.Numbered) :
    (s.currentPid.bind s.get?).map Process.tenant = s.currentTenant := by
  rw [currentPid_eq]
  cases hc : s.currentTenant with
  | none => rfl
  | some t =>
    obtain ⟨slot, -, ht⟩ := currentTenant_eq_some.mp hc
    rw [Option.map_some, Option.bind_some, get?, h.slotOf ht, Option.bind_some]
    exact ht

theorem Numbered.currentTenant_eq (h : s.Numbered) (hk : Keeps s s')
    (hpid : s'.currentPid = s.currentPid) : s'.currentTenant = s.currentTenant := by
  have hget : ∀ pid, (s'.get? pid).map Process.tenant = (s.get? pid).map Process.tenant := by
    intro pid
    rw [get?, get?, hk.slotOf, Option.map_bind, Option.map_bind]
    congr 1
    funext slot
    exact hk.seat slot
  rw [← (h.keeps hk).get?_currentPid, ← h.get?_currentPid, hpid, Option.map_bind, Option.map_bind]
  congr 1
  funext pid
  exact hget pid

theorem Evicted.currentTenant (he : Evicted s s' slot t) :
    s'.currentTenant = if s.current = some slot then none else s.currentTenant := by
  rw [Scheduler.currentTenant, he.current]
  split
  · rfl
  · next hne =>
    rw [Scheduler.currentTenant]
    cases hc : s.current with
    | none => rfl
    | some i =>
      have hi : i ≠ slot := by
        rintro rfl
        exact hne hc
      rw [Option.bind_some, Option.bind_some, he.seat, if_neg hi]

theorem Evicted.seated (he : Evicted s s' slot t) (hs : s.Seated) : s'.Seated := by
  intro i hc
  rw [he.current] at hc
  split at hc
  · cases hc
  · next hne =>
    have hi : i ≠ slot := by
      rintro rfl
      exact hne hc
    rw [he.seat, if_neg hi]
    exact hs i hc

theorem Admitted.currentTenant (ha : Admitted s s' slot t) (hs : s.Seated) :
    s'.currentTenant = s.currentTenant := by
  rw [Scheduler.currentTenant, Scheduler.currentTenant, ha.current]
  cases hc : s.current with
  | none => rfl
  | some i =>
    have hi : i ≠ slot := by
      rintro rfl
      have hseat := hs i hc
      rw [ha.free] at hseat
      cases hseat
    rw [Option.bind_some, Option.bind_some, ha.seat, if_neg hi]

theorem Admitted.seated (ha : Admitted s s' slot t) (hs : s.Seated) : s'.Seated := by
  intro i hc
  rw [ha.current] at hc
  rw [ha.seat]
  split
  · rfl
  · exact hs i hc

end Scheduler

end KernelCore
