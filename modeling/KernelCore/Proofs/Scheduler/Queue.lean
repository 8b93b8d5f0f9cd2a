import Mathlib
import KernelCore.Proofs.Scheduler.Dispatching
import KernelCore.Proofs.Scheduler.Links
import KernelCore.Proofs.Scheduler.Slots

/-!
# The run queue as a list of processes

Whatever the scheduler is asked to do, its links thread the queued processes, and the operations
act on the list of their numbers: one is appended or taken out, and the others keep their order.
-/
namespace KernelCore.Scheduler

/-- The number of the process in a slot. -/
def pidAt (s : Scheduler) (slot : Nat) : Option Pid := (s.process? slot).map (·.pid)

/-- Whether a process lives. -/
def Lives (s : Scheduler) (pid : Pid) : Prop := (s.get? pid).isSome = true

instance (s : Scheduler) (pid : Pid) : Decidable (s.Lives pid) :=
  inferInstanceAs (Decidable (_ = true))

variable {s s' : Scheduler} {r r' : Resources} {slot i : Nat} {pid q : Pid} {l : List Nat}

theorem pidAt_eq (s : Scheduler) (slot : Nat) : s.pidAt slot = (s.seat slot).map Tenant.pid := by
  rw [pidAt, seat, Option.map_map]
  rfl

theorem pidAt_congr (h : ∀ i, s'.seat i = s.seat i) (i : Nat) : s'.pidAt i = s.pidAt i := by
  rw [pidAt_eq, pidAt_eq, h]

theorem Keeps.pidAt (h : Keeps s s') (i : Nat) : s'.pidAt i = s.pidAt i := pidAt_congr h.seat i

theorem Numbered.pidAt_inj (h : s.Numbered) (hs : s.pidAt slot = some pid)
    (hi : s.pidAt i = some pid) : i = slot := by
  rw [pidAt_eq] at hs hi
  obtain ⟨t, ht, rfl⟩ := Option.map_eq_some_iff.mp hs
  obtain ⟨u, hu, heq⟩ := Option.map_eq_some_iff.mp hi
  exact h.distinct i slot u t hu ht heq

theorem Numbered.slotOf_eq_some (h : s.Numbered) :
    s.slotOf pid = some slot ↔ s.pidAt slot = some pid := by
  constructor
  · intro hs
    obtain ⟨t, ht, rfl⟩ := slotOf_seat hs
    rw [pidAt_eq, ht, Option.map_some]
  · intro hs
    rw [pidAt_eq] at hs
    obtain ⟨t, ht, rfl⟩ := Option.map_eq_some_iff.mp hs
    exact h.slotOf ht

theorem Numbered.lives_iff (h : s.Numbered) : s.Lives pid ↔ ∃ i, s.pidAt i = some pid := by
  rw [Lives, get?]
  cases hs : s.slotOf pid with
  | none =>
    simp only [Option.bind_none, Option.isSome_none, Bool.false_eq_true, false_iff, not_exists]
    intro i hi
    rw [h.slotOf_eq_some.mpr hi] at hs
    cases hs
  | some slot =>
    have hp := h.slotOf_eq_some.mp hs
    obtain ⟨p, hp', -⟩ := Option.map_eq_some_iff.mp hp
    simp only [Option.bind_some, hp', Option.isSome_some, true_iff]
    exact ⟨slot, hp⟩

theorem not_lives (h : s.slotOf pid = none) : ¬ s.Lives pid := by simp [Lives, get?, h]

theorem processes_pids (s : Scheduler) :
    s.processes.map (·.pid) = (List.range s.slots.size).filterMap s.pidAt := by
  have htenants : s.processes.map (·.pid) = s.roster.filterMap (Option.map Tenant.pid) := by
    rw [processes, List.map_filterMap, roster, List.filterMap_map]
    refine List.filterMap_congr fun p _ => ?_
    cases p <;> rfl
  rw [htenants, roster_eq, List.filterMap_map]
  exact List.filterMap_congr fun i _ => (s.pidAt_eq i).symm

theorem Numbered.nodup_processes (h : s.Numbered) : (s.processes.map (·.pid)).Nodup := by
  rw [processes_pids]
  refine List.nodup_range.filterMap fun i j pid hi hj => ?_
  exact (h.pidAt_inj hj hi)

theorem Numbered.mem_processes (h : s.Numbered) : pid ∈ s.processes.map (·.pid) ↔ s.Lives pid := by
  rw [processes_pids, List.mem_filterMap, h.lives_iff]
  refine exists_congr fun i => and_iff_right_of_imp fun hi => List.mem_range.mpr ?_
  by_contra hout
  rw [pidAt, process?, Array.getElem?_eq_none (Nat.not_lt.mp hout)] at hi
  cases hi

theorem Numbered.processes_eq_nil (h : s.Numbered) (hnone : ∀ q, ¬ s.Lives q) :
    s.processes = [] :=
  List.eq_nil_iff_forall_not_mem.mpr fun p hp => hnone p.pid
    (h.mem_processes.mp (List.mem_map_of_mem hp))

theorem Admitted.lives {t : Tenant} (ha : Admitted s s' slot t) (hn : s.Numbered) :
    s'.Lives q ↔ q = t.pid ∨ s.Lives q := by
  rw [(hn.admitted ha).lives_iff, hn.lives_iff]
  constructor
  · rintro ⟨i, hi⟩
    rw [pidAt_eq, ha.seat] at hi
    split at hi
    · exact .inl (Option.some.inj hi).symm
    · exact .inr ⟨i, (s.pidAt_eq i).trans hi⟩
  · rintro (rfl | ⟨i, hi⟩)
    · exact ⟨slot, by rw [pidAt_eq, ha.seat, if_pos rfl, Option.map_some]⟩
    · have hne : i ≠ slot := by
        rintro rfl
        rw [pidAt_eq, ha.free] at hi
        cases hi
      exact ⟨i, by rw [pidAt_eq, ha.seat, if_neg hne, ← pidAt_eq, hi]⟩

namespace Threaded

theorem queue_eq (h : s.Threaded l) : s.queue = l.filterMap s.pidAt := by
  rw [queue, h.order_eq, List.map_filterMap]
  rfl

theorem queue_congr (h : s.Threaded l) (h' : s'.Threaded l)
    (hpids : ∀ i ∈ l, s'.pidAt i = s.pidAt i) : s'.queue = s.queue := by
  rw [h'.queue_eq, h.queue_eq]
  exact List.filterMap_congr hpids

theorem mem_queue (h : s.Threaded l) (hn : s.Numbered) (hp : s.pidAt slot = some pid) :
    pid ∈ s.queue ↔ slot ∈ l := by
  rw [h.queue_eq, List.mem_filterMap]
  refine ⟨fun ⟨i, hi, hpi⟩ => ?_, fun hs => ⟨slot, hs, hp⟩⟩
  rwa [← hn.pidAt_inj hp hpi]

theorem lives (h : s.Threaded l) (hn : s.Numbered) (hp : pid ∈ s.queue) : s.Lives pid := by
  rw [h.queue_eq, List.mem_filterMap] at hp
  obtain ⟨i, -, hi⟩ := hp
  exact hn.lives_iff.mpr ⟨i, hi⟩

theorem queue_filter_of_not_lives (h : s.Threaded l) (hn : s.Numbered) (hno : ¬ s.Lives pid) :
    s.queue.filter (· ≠ pid) = s.queue := by
  refine List.filter_eq_self.mpr fun q hq => ?_
  have hne : q ≠ pid := by
    rintro rfl
    exact hno (h.lives hn hq)
  simpa using hne

theorem queue_filter (h : s.Threaded l) (hn : s.Numbered) (hp : s.pidAt slot = some pid)
    (h' : s'.Threaded (l.filter (· ≠ slot))) (hpids : ∀ i, i ≠ slot → s'.pidAt i = s.pidAt i) :
    s'.queue = s.queue.filter (· ≠ pid) := by
  rw [h'.queue_eq, h.queue_eq, List.filterMap_filter, List.filter_filterMap]
  refine List.filterMap_congr fun i _ => ?_
  by_cases hi : i = slot
  · simp [hi, hp, Option.filter_some]
  · have hne : ∀ q, s.pidAt i = some q → q ≠ pid := by
      rintro q hq rfl
      exact hi (hn.pidAt_inj hp hq)
    rw [if_pos (by simpa using hi), hpids i hi]
    cases hpi : s.pidAt i with
    | none => rfl
    | some q => simp [hne q hpi, Option.filter_some]

theorem create {name : String} {entry : Nat} {result : Except KernelError Pid}
    (ht : s.Threaded l) (h : s.create r name entry = .ok (result, s', r')) :
    s'.Threaded l ∧ s'.queue = s.queue := by
  obtain ⟨⟨hhead, htail⟩, ⟨slot, p, hfree, hproc, -, -, hnext, hqueued, -⟩ | ⟨-, hproc⟩⟩ :=
    create_slots h
  · have hold : ∀ i ∈ l, s'.process? i = s.process? i := by
      intro i hi
      rw [hproc, if_neg]
      rintro rfl
      have hsome := ht.isSome hi
      rw [hfree] at hsome
      cases hsome
    have ht' : s'.Threaded l := by
      refine ht.agree hhead htail (fun i hi => congrArg _ (hold i hi)) fun i p' hp' => ?_
      by_cases hi : i ∈ l
      · exact .inl ⟨p', (hold i hi).symm.trans hp', rfl⟩
      · rw [hproc] at hp'
        split at hp'
        · cases hp'
          exact .inr ⟨hi, Prod.ext hnext hqueued⟩
        · exact .inl ⟨p', hp', rfl⟩
    exact ⟨ht', ht.queue_congr ht' fun i hi => congrArg _ (hold i hi)⟩
  · have ht' : s'.Threaded l := ht.agree hhead htail (fun i _ => congrArg _ (hproc i))
      fun i p' hp' => .inl ⟨p', (hproc i).symm.trans hp', rfl⟩
    exact ⟨ht', ht.queue_congr ht' fun i _ => congrArg _ (hproc i)⟩

theorem dispatched (ht : s.Threaded l) (h : s.Dispatched s') :
    s'.Threaded l ∧ s'.queue = s.queue := by
  have ht' : s'.Threaded l := by
    refine ht.agree h.head h.tail (fun i _ => (h.toAlike.comp Process.next).view i)
      fun i p' hp' => ?_
    have hhook := (h.toAlike.comp Process.hook).view i
    rw [hp', Option.map_some] at hhook
    obtain ⟨p, hp, heq⟩ := Option.map_eq_some_iff.mp hhook.symm
    exact .inl ⟨p, hp, heq.symm⟩
  exact ⟨ht', ht.queue_congr ht' fun i _ => (h.toAlike.comp Process.pid).view i⟩

theorem unlink_of_not_mem (ht : s.Threaded l) (hmem : slot ∉ l) : s.unlink slot = (false, s) := by
  unfold Scheduler.unlink
  split
  · rfl
  · next p hp =>
    have hq : p.queued = false := by
      rw [← Bool.not_eq_true, ht.queued slot p hp]
      exact hmem
    rw [hq]
    rfl

theorem unlink_any (ht : s.Threaded l) (slot : Nat) :
    ((s.unlink slot).1 = true ↔ slot ∈ l) ∧
      (s.unlink slot).2.Threaded (l.filter (· ≠ slot)) := by
  by_cases hmem : slot ∈ l
  · obtain ⟨p, hp⟩ := Option.isSome_iff_exists.mp (ht.isSome hmem)
    obtain ⟨xs, ys, rfl⟩ := List.append_of_mem hmem
    obtain ⟨-, hcons, hdisjoint⟩ := List.nodup_append'.mp ht.nodup
    have hfilter : (xs ++ slot :: ys).filter (· ≠ slot) = xs ++ ys := by
      have hx : xs.filter (· ≠ slot) = xs := List.filter_eq_self.mpr fun i hi => by
        simpa using ne_of_mem_of_not_mem hi fun hs => hdisjoint hs (List.mem_cons_self ..)
      have hy : ys.filter (· ≠ slot) = ys := List.filter_eq_self.mpr fun i hi => by
        simpa using ne_of_mem_of_not_mem hi (List.nodup_cons.mp hcons).1
      rw [List.filter_append, List.filter_cons, if_neg (by simp), hx, hy]
    rw [hfilter]
    exact ⟨by simp [(ht.unlink_spec hp).1], ht.unlink hp⟩
  · have hfilter : l.filter (· ≠ slot) = l := List.filter_eq_self.mpr fun i hi => by
      simpa using ne_of_mem_of_not_mem hi hmem
    rw [ht.unlink_of_not_mem hmem, hfilter]
    exact ⟨by simp [hmem], ht⟩

theorem enqueue (ht : s.Threaded l) (hn : s.Numbered) (pid : Pid) :
    (∃ l', (s.enqueue pid).2.Threaded l') ∧
      ((s.enqueue pid).1 = true ↔ s.Lives pid ∧ pid ∉ s.queue) ∧
      (s.enqueue pid).2.queue =
        if s.Lives pid ∧ pid ∉ s.queue then s.queue ++ [pid] else s.queue := by
  cases hs : s.slotOf pid with
  | none =>
    have hno := not_lives hs
    have he : s.enqueue pid = (false, s) := by rw [Scheduler.enqueue, hs]
    rw [he]
    exact ⟨⟨l, ht⟩, by simp [hno], by simp [hno]⟩
  | some slot =>
    have hpid := hn.slotOf_eq_some.mp hs
    have hlives : s.Lives pid := hn.lives_iff.mpr ⟨slot, hpid⟩
    have hmem := ht.mem_queue hn hpid
    have he : s.enqueue pid = s.link slot := by rw [Scheduler.enqueue, hs]
    obtain ⟨p, hp, -⟩ := Option.map_eq_some_iff.mp hpid
    rw [he]
    cases hq : p.queued with
    | true =>
      have hin : pid ∈ s.queue := hmem.mpr ((ht.queued slot p hp).mp hq)
      have hl : s.link slot = (false, s) := by simp [Scheduler.link, hp, hq]
      rw [hl]
      exact ⟨⟨l, ht⟩, by simp [hin], by simp [hin]⟩
    | false =>
      have hin : pid ∉ s.queue := fun h => ht.not_mem hp hq (hmem.mp h)
      have ht' := ht.link hp hq
      refine ⟨⟨_, ht'⟩, by simp [(ht.link_spec hp hq).1, hlives, hin], ?_⟩
      have hpids : (s.link slot).2.pidAt = s.pidAt :=
        funext (rehung_link s slot).stays.toKeeps.pidAt
      rw [if_pos ⟨hlives, hin⟩, ht'.queue_eq, hpids, List.filterMap_append, ← ht.queue_eq]
      simp [hpid]

theorem dequeue (ht : s.Threaded l) (hn : s.Numbered) (pid : Pid) :
    (∃ l', (s.dequeue pid).2.Threaded l') ∧ ((s.dequeue pid).1 = true ↔ pid ∈ s.queue) ∧
      (s.dequeue pid).2.queue = s.queue.filter (· ≠ pid) := by
  cases hs : s.slotOf pid with
  | none =>
    have hno : pid ∉ s.queue := fun h => not_lives hs (ht.lives hn h)
    have he : s.dequeue pid = (false, s) := by rw [Scheduler.dequeue, hs]
    rw [he]
    exact ⟨⟨l, ht⟩, by simp [hno], (ht.queue_filter_of_not_lives hn (not_lives hs)).symm⟩
  | some slot =>
    have hpid := hn.slotOf_eq_some.mp hs
    have he : s.dequeue pid = s.unlink slot := by rw [Scheduler.dequeue, hs]
    obtain ⟨hfound, ht'⟩ := ht.unlink_any slot
    rw [he]
    refine ⟨⟨_, ht'⟩, hfound.trans (ht.mem_queue hn hpid).symm, ?_⟩
    exact ht.queue_filter hn hpid ht' fun i _ => (rehung_unlink s slot).stays.toKeeps.pidAt i

theorem destroy {found : Bool} (ht : s.Threaded l) (hn : s.Numbered)
    (h : s.destroy r pid = .ok (found, s', r')) :
    (∃ l', s'.Threaded l') ∧ s'.Numbered ∧ (∀ q, s'.Lives q ↔ s.Lives q ∧ q ≠ pid) ∧
      s'.queue = s.queue.filter (· ≠ pid) := by
  obtain ⟨slot, hs, hhead, htail, hproc⟩ | ⟨hs, hsame⟩ := destroy_slots h
  · have hpid := hn.slotOf_eq_some.mp hs
    have hu := (ht.unlink_any slot).2
    have hpids : ∀ i, s'.pidAt i = if i = slot then none else s.pidAt i := fun i => by
      rw [pidAt, hproc]
      split
      · rfl
      · exact (rehung_unlink s slot).stays.toKeeps.pidAt i
    have ht' : s'.Threaded (l.filter (· ≠ slot)) := by
      refine hu.agree hhead htail (fun i hi => ?_) fun i p' hp' => ?_
      · have hne : i ≠ slot := by simpa using (List.mem_filter.mp hi).2
        rw [linkOf, hproc, if_neg hne, linkOf]
      · rw [hproc] at hp'
        split at hp'
        · cases hp'
        · exact .inl ⟨p', hp', rfl⟩
    have hn' := hn.destroy h
    refine ⟨⟨_, ht'⟩, hn', fun q => ?_, ht.queue_filter hn hpid ht' fun i hi => ?_⟩
    · rw [hn'.lives_iff, hn.lives_iff]
      constructor
      · rintro ⟨i, hi⟩
        rw [hpids] at hi
        split at hi
        · cases hi
        · next hne =>
          refine ⟨⟨i, hi⟩, ?_⟩
          rintro rfl
          exact hne (hn.pidAt_inj hpid hi)
      · rintro ⟨⟨i, hi⟩, hne⟩
        refine ⟨i, ?_⟩
        rw [hpids, if_neg, hi]
        rintro rfl
        rw [hpid] at hi
        exact hne (Option.some.inj hi).symm
    · rw [hpids, if_neg hi]
  · have hno := not_lives hs
    rw [hsame]
    refine ⟨⟨l, ht⟩, hn, fun q => ⟨fun hq => ⟨hq, ?_⟩, And.left⟩,
      (ht.queue_filter_of_not_lives hn hno).symm⟩
    rintro rfl
    exact hno hq

end Threaded

end KernelCore.Scheduler
