import Mathlib
import KernelCore.Proofs.Kernel.Stretches
import KernelCore.Proofs.Scheduler.Numbers

/-!
# The list of the processes

The list of the processes is a sorted scan of the slots, and the run queue is threaded through them.
Between two calls of the kernel both have the same numbers in the same order, which is the order in
which they were given out.
-/
namespace KernelCore

namespace Scheduler

/-- The queue keeps the order of the numbers that were given out so far, which is ascending. -/
structure Enrolled (s : Scheduler) (issued : List Pid) : Prop where
  ascending : issued.SortedLT
  below : ∀ pid ∈ issued, pid < s.nextPid
  queue : s.queue.Sublist issued

variable {s s' : Scheduler} {pid q : Pid} {issued : List Pid}

/-- A process comes with the next number, or none does; those that leave the queue leave no gap. -/
structure Enrols (s s' : Scheduler) (new : Option Pid) : Prop where
  nextPid : s'.nextPid = s.nextPid + new.toList.length
  fresh : ∀ pid ∈ new, pid = s.nextPid
  queue : s'.queue.Sublist (s.queue ++ new.toList)

theorem enrols_of_sublist (hn : s'.nextPid = s.nextPid) (hq : s'.queue.Sublist s.queue) :
    s.Enrols s' none :=
  ⟨hn, fun _ hp => (nomatch hp), hq.trans (List.sublist_append_left ..)⟩

theorem Enrols.refl (s : Scheduler) : s.Enrols s none := enrols_of_sublist rfl (.refl _)

theorem Enrolled.enrols {new : Option Pid} (h : s.Enrolled issued) (he : s.Enrols s' new) :
    s'.Enrolled (issued ++ new.toList) := by
  have hfresh : ∀ pid ∈ new.toList, pid = s.nextPid := fun pid hp =>
    he.fresh pid (Option.mem_toList.mp hp)
  refine ⟨List.Pairwise.sortedLT ?_, fun pid hp => ?_, he.queue.trans (h.queue.append_right _)⟩
  · refine List.pairwise_append.mpr ⟨h.ascending.pairwise, ?_, fun p hp q hq => ?_⟩
    · cases new <;> simp
    · rw [hfresh q hq]
      exact h.below p hp
  · rw [he.nextPid]
    obtain hold | hnew := List.mem_append.mp hp
    · exact (h.below pid hold).trans_le (Nat.le_add_right _ _)
    · rw [hfresh pid hnew]
      exact Nat.lt_add_of_pos_right (List.length_pos_of_mem hnew)

theorem Enrolled.queue_sorted (h : s.Enrolled issued) : s.queue.SortedLT :=
  (h.ascending.pairwise.sublist h.queue).sortedLT

/-- The queue is what is left of the numbers that were given out. -/
theorem Enrolled.queue_eq_filter (h : s.Enrolled issued) (ht : s.Tidy) :
    s.queue = issued.filter fun pid => decide (s.Lives pid) := by
  refine h.queue_sorted.eq_of_mem_iff (h.ascending.pairwise.filter _).sortedLT fun q => ?_
  rw [List.mem_filter, decide_eq_true_iff, ht.mem_queue]
  exact ⟨fun hl => ⟨h.queue.subset (ht.mem_queue.mpr hl), hl⟩, And.right⟩

theorem list_pids_perm (s : Scheduler) :
    (s.list.map (·.pid)).Perm (s.processes.map (·.pid)) := by
  have hperm := (List.mergeSort_perm (s.processes.map Process.info) fun a b => a.pid ≤ b.pid).map
    (·.pid)
  rwa [List.map_map] at hperm

theorem list_pids_sorted (s : Scheduler) : (s.list.map (·.pid)).SortedLE := by
  refine List.Pairwise.sortedLE (List.pairwise_map.mpr ?_)
  have hsorted := @List.pairwise_mergeSort ProcessInfo (fun a b => a.pid ≤ b.pid)
    (fun a b c hab hbc => decide_eq_true ((of_decide_eq_true hab).trans (of_decide_eq_true hbc)))
    (fun a b => by simpa using le_total a.pid b.pid) (s.processes.map Process.info)
  exact hsorted.imp of_decide_eq_true

theorem Tidy.list_pids (ht : s.Tidy) (hq : s.queue.SortedLT) : s.list.map (·.pid) = s.queue := by
  have hperm := s.list_pids_perm
  have hnodup := hperm.nodup_iff.mpr ht.numbered.nodup_processes
  refine (s.list_pids_sorted.sortedLT_of_nodup hnodup).eq_of_mem_iff hq fun q => ?_
  rw [hperm.mem_iff, ht.numbered.mem_processes, ht.mem_queue]

end Scheduler

namespace Kernel

open Scheduler

/-- The number that a call gives to a new process. -/
def newPid? (k : Kernel) : Call → Option Pid
  | .spawn name entry =>
    match k.spawn name entry with
    | .ok (.ok pid, _) => some pid
    | _ => none
  | _ => none

/-- The numbers that the calls of a run give to new processes, in the order of the calls. -/
def newPids (k : Kernel) : List Call → List Pid
  | [] => []
  | call :: calls =>
    match k.handle call with
    | .error _ => []
    | .ok k' => (k.newPid? call).toList ++ k'.newPids calls

/-- The list of the processes is ascending and agrees with the queue, in which every living process
is once, in the order in which the numbers were given out. -/
structure Listed (k : Kernel) (issued : List Pid) : Prop where
  ascending : (k.list.map (·.pid)).SortedLT
  queue : k.list.map (·.pid) = k.scheduler.queue
  once : ∀ pid, k.scheduler.queue.count pid = if k.scheduler.Lives pid then 1 else 0
  order : k.scheduler.queue = issued.filter fun pid => decide (k.scheduler.Lives pid)

variable {k k' : Kernel} {call : Call} {calls : List Call} {issued : List Pid}

theorem enrols_spawn {name : String} {entry : Nat} (h : k.scheduler.Tidy)
    (hs : k.handle (.spawn name entry) = .ok k') :
    k.scheduler.Enrols k'.scheduler (k.newPid? (.spawn name entry)) := by
  obtain ⟨⟨result, k₁⟩, hspawn, hk⟩ := Fault.of_bind_eq_ok hs
  obtain rfl : k₁ = k' := Except.ok.inj hk
  clear hs hk
  rw [newPid?, hspawn]
  unfold spawn at hspawn
  split at hspawn
  · cases hspawn
    exact .refl _
  · obtain ⟨⟨created, s', r'⟩, hc, hspawn⟩ := Fault.of_bind_eq_ok hspawn
    cases created with
    | error e =>
      cases hspawn
      obtain ⟨-, hsettled, hq, -⟩ := h.create_error hc
      rw [scheduler_report]
      exact enrols_of_sublist hsettled.nextPid (hq ▸ .refl _)
    | ok pid =>
      cases hspawn
      obtain ⟨-, -, hb⟩ := h.boarded_enqueue hc
      rw [scheduler_report]
      exact ⟨hb.nextPid, fun q hq => Option.some.inj hq ▸ hb.fresh, hb.queue ▸ .refl _⟩

theorem enrols_none (h : k.scheduler.Tidy) (hstep : Step k.scheduler call k'.scheduler)
    (hno : ∀ name entry, call ≠ .spawn name entry) :
    k.scheduler.Enrols k'.scheduler none := by
  have hdispatched : ∀ {s'}, k.scheduler.Dispatched s' → k.scheduler.Enrols s' none := fun hd =>
    enrols_of_sublist hd.nextPid ((h.toOrderly.dispatched hd).2 ▸ .refl _)
  generalize k'.scheduler = s' at hstep
  cases hstep with
  | setUpPaging => exact .refl _
  | refused => exact absurd rfl (hno _ _)
  | failed => exact absurd rfl (hno _ _)
  | spawned => exact absurd rfl (hno _ _)
  | missing => exact .refl _
  | killed hd =>
    refine enrols_of_sublist (destroy_pids h.numbered hd).1 ?_
    rw [(h.destroy hd).2]
    exact List.filter_sublist
  | reaped hd =>
    refine enrols_of_sublist (nextPid_destroyAll hd) ?_
    rw [(h.toOrderly.destroyAll hd).2.2]
    exact List.filter_sublist
  | unknown => exact .refl _
  | served => exact hdispatched (dispatched_perform _ _)
  | ticked hr => exact hdispatched (dispatched_reschedule hr)

theorem enrols_of_handle (h : k.scheduler.Tidy) (hs : k.handle call = .ok k') :
    k.scheduler.Enrols k'.scheduler (k.newPid? call) := by
  cases call with
  | spawn name entry => exact enrols_spawn h hs
  | _ => exact enrols_none h (step_of_handle hs) (fun _ _ hc => nomatch hc)

theorem enrolled_run (h : k.scheduler.Tidy) (he : k.scheduler.Enrolled issued)
    (hr : k.run calls = .ok k') : k'.scheduler.Enrolled (issued ++ k.newPids calls) := by
  induction calls generalizing k issued with
  | nil =>
    cases hr
    rwa [newPids, List.append_nil]
  | cons call calls ih =>
    rw [run_cons] at hr
    obtain ⟨k₁, hs, hr⟩ := Fault.of_bind_eq_ok hr
    rw [newPids, hs, ← List.append_assoc]
    exact ih ((step_of_handle hs).tidy h) (he.enrols (enrols_of_handle h hs)) hr

/-- In every state that a run leads to, the list of the processes and the run queue agree. -/
theorem listed_of_run {r : Resources} {config : Config} {calls : List Call}
    (hr : (boot r config).run calls = .ok k) : k.Listed ((boot r config).newPids calls) := by
  have htidy := tidy_boot r config
  have hnew : (boot r config).scheduler.Enrolled [] := by
    refine ⟨List.Pairwise.nil.sortedLT, fun _ hp => (nomatch hp), ?_⟩
    have hs : (boot r config).scheduler = .ofTimeSlice config.timeSlice := scheduler_report ..
    rw [hs]
    exact .slnil
  have he := enrolled_run htidy hnew hr
  have ht := tidy_run htidy hr
  rw [List.nil_append] at he
  have hsorted := he.queue_sorted
  have hlist : k.list.map (·.pid) = k.scheduler.queue := ht.list_pids hsorted
  refine ⟨hlist ▸ hsorted, hlist, fun pid => ?_, he.queue_eq_filter ht⟩
  simp only [hsorted.nodup.count, ht.mem_queue]

/-- Two of three processes are killed, the first one last, and two new ones take their slots; for
a sixth one the memory of `forProcesses 5` is too small. -/
def slotReuse : List Call :=
  [.setUpPaging, .spawn "a" 0, .spawn "b" 0, .spawn "c" 0, .kill 2, .kill 1, .spawn "d" 0,
    .spawn "e" 0, .spawn "f" 0]

/-- In the slots the numbers are out of order. -/
theorem listed_of_reused_slots : ∃ k,
    (forProcesses 5 {}).run slotReuse = .ok k ∧
      k.scheduler.processes.map (·.pid) = [4, 5, 3] ∧ k.list.map (·.pid) = [3, 4, 5] ∧
      k.Listed ((forProcesses 5 {}).newPids slotReuse) := by
  have hrun : (((forProcesses 5 {}).run slotReuse).toOption.any fun k =>
      decide (k.scheduler.processes.map (·.pid) = [4, 5, 3] ∧
        k.scheduler.queue = [3, 4, 5])) = true := by
    decide +kernel
  obtain ⟨k, hr, hk⟩ := Fault.exists_of_any hrun
  obtain ⟨hslots, hqueue⟩ := of_decide_eq_true hk
  have hlisted := listed_of_run hr
  exact ⟨k, hr, hslots, hlisted.queue.trans hqueue, hlisted⟩

end Kernel

end KernelCore
