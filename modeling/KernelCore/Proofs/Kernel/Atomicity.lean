import Mathlib
import KernelCore.Kernel.Processes
import KernelCore.Proofs.Kernel.Consistency
import KernelCore.Proofs.Paging.InUse
import KernelCore.Proofs.Resources.Provision
import KernelCore.Proofs.Scheduler.QueueRun

/-!
# Failed creation

A process that cannot be created leaves no trace: whichever step failed, the frames, the blocks of
the heap, the processes and their queue are what they were. So are the figures that the kernel gives
out.
-/
namespace KernelCore

/-- All that can be told of the memory and of the processes is the same; an empty slot may be new.
-/
structure Scheduler.Untouched (s s' : Scheduler) (r r' : Resources) : Prop where
  frames : r'.paging.frames = r.paging.frames
  blocks : r'.heap.heap.map Heap.blocks = r.heap.heap.map Heap.blocks
  active : r'.paging.active = r.paging.active
  slots : ∀ i, s'.process? i = s.process? i
  processes : s'.processes = s.processes
  queue : s'.queue = s.queue
  current : s'.current = s.current
  nextPid : s'.nextPid = s.nextPid

namespace Scheduler

variable {s : Scheduler} {r : Resources}

theorem Untouched.refl (s : Scheduler) (r : Resources) : Untouched s s r r :=
  ⟨rfl, rfl, rfl, fun _ => rfl, rfl, rfl, rfl, rfl⟩

theorem list_congr {s' : Scheduler} (h : s'.processes = s.processes) : s'.list = s.list := by
  rw [list, list, h]

theorem processes_reserveSlot (s : Scheduler) : s.reserveSlot.2.processes = s.processes := by
  unfold reserveSlot
  split
  · rfl
  · simp [processes]

/-- On a well-formed heap creating a process comes to an end, and a failure changes nothing as long
as the root recorded is not the one of a free frame. -/
theorem Orderly.create_untouched {taken : List Heap.Block} (ho : s.Orderly)
    (hs : r.heap.Stocked taken)
    (hactive : ∀ root, r.paging.active = some root → ¬ r.paging.frames.IsFree root)
    (name : String) (entry : Nat) :
    ∃ result s' r', s.create r name entry = .ok (result, s', r') ∧
      ∀ e, result = .error e → Untouched s s' r r' := by
  obtain ⟨x, htake, hdrawn⟩ := Resources.take_drawn hs
  obtain ⟨⟨result, s', r'⟩, hcreate, hcreated⟩ := exists_created htake name entry
  refine ⟨result, s', r', hcreate, fun e he => ?_⟩
  cases hcreated with
  | full _ => exact .refl s r
  | admitted _ _ => cases he
  | refused htake' =>
    cases htake.symm.trans htake'
    cases hdrawn with
    | refused hpaging hs' hextent =>
      have hsettled := s.reserveSlot_spec.1
      refine ⟨hpaging.frames, hs.blocks_eq hs' (.refl _) hextent, ?_, s.process?_reserveSlot,
        s.processes_reserveSlot, (ho.create hcreate).2, hsettled.current, hsettled.nextPid⟩
      obtain hsame | ⟨root, hroot, hfree⟩ := hpaging.active
      · exact hsame
      · exact absurd hfree (hactive root hroot)

end Scheduler

namespace Kernel

variable {k k' : Kernel}

theorem memoryStats_congr (hf : k'.paging.frames = k.paging.frames)
    (hb : k'.resources.heap.heap.map Heap.blocks = k.resources.heap.heap.map Heap.blocks) :
    k'.memoryStats = k.memoryStats := by
  unfold memoryStats
  rw [hf]
  cases hh : k.resources.heap.heap with
  | none =>
    rw [hh, Option.map_none, Option.map_eq_none_iff] at hb
    rw [hb]
  | some h =>
    rw [hh, Option.map_some, Option.map_eq_some_iff] at hb
    obtain ⟨h', hh', hblocks⟩ := hb
    simp only [hh', Heap.freeBytes, Heap.usedBytes, Heap.largestFree, hblocks]

theorem resources_report (k : Kernel) (level : LogLevel) (subsystem message : String) :
    (k.report level subsystem message).paging.frames = k.paging.frames ∧
      (k.report level subsystem message).resources.heap = k.resources.heap := by
  unfold report
  split <;> exact ⟨rfl, rfl⟩

/-- A failed creation is reported, and nothing else comes of it. -/
theorem spawn_untouched (hready : k.paging.kernelSpace.isNone = false) {name : String}
    {entry : Nat} {result : Except KernelError Pid} {s' : Scheduler} {r' : Resources}
    (hc : k.scheduler.create k.mask.resources name entry = .ok (result, s', r'))
    (hu : ∀ e, result = .error e → k.scheduler.Untouched s' k.mask.resources r') :
    ∃ k', k.spawn name entry = .ok (result, k') ∧ ∀ e, result = .error e →
      k'.memoryStats = k.memoryStats ∧ k'.list = k.list ∧
        k'.scheduler.queue = k.scheduler.queue := by
  have hc' : k.mask.scheduler.create k.mask.resources name entry = .ok (result, s', r') := hc
  unfold spawn
  simp only [hready, Bool.false_eq_true, if_false, hc', bind, Except.bind, pure, Except.pure]
  cases result with
  | ok pid => exact ⟨_, rfl, fun _ he => by cases he⟩
  | error e =>
    refine ⟨_, rfl, fun _ _ => ?_⟩
    have hu := hu e rfl
    obtain ⟨hframes, hheap⟩ := resources_report { k.mask with scheduler := s', resources := r' }
      .error "sched" ("failed to create " ++ name ++ ": " ++ e.message)
    have hscheduler := (report_frame { k.mask with scheduler := s', resources := r' } .error "sched"
      ("failed to create " ++ name ++ ": " ++ e.message)).1
    refine ⟨memoryStats_congr (hframes.trans hu.frames) ?_, ?_, ?_⟩
    · rw [hheap]
      exact hu.blocks
    · rw [list, hscheduler]
      exact Scheduler.list_congr hu.processes
    · rw [hscheduler]
      exact hu.queue

end Kernel

namespace Scheduler

variable {s : Scheduler} {w : Spaces} {r : Resources}

/-- The states that operations come to, whatever resources they find, while switches between the
processes store registers. -/
inductive Reached : Scheduler → Prop
  | start (slice : Nat) : Reached (ofTimeSlice slice)
  | step {s s' : Scheduler} {op : Operation} (before : Reached s)
      (performed : s.perform op = .ok s') : Reached s'
  | stored {s : Scheduler} (before : Reached s) (slot : Nat) (registers : Registers) :
      Reached (s.update slot ({ · with registers }))

theorem Reached.orderly (h : s.Reached) : s.Orderly := by
  induction h with
  | start slice => exact orderly_ofTimeSlice slice
  | step _ performed ih => exact (ih.perform performed).1
  | stored _ slot registers ih => exact ih.store slot registers

/-- Creating a process always comes to an end, and when it fails, nothing has changed. The same
holds of the figures, the processes and the run queue of every kernel with that scheduler and those
resources. -/
theorem create_atomic (hs : s.Reached) (hw : w.Reached)
    (hp : r.paging = w.paging) (hh : r.heap.WellFormed) (name : String) (entry : Nat) :
    (∃ result s' r', s.create r name entry = .ok (result, s', r') ∧
      ∀ e, result = .error e → Untouched s s' r r') ∧
    ∀ k : Kernel, k.scheduler = s → k.resources = r →
      ∃ result k', k.spawn name entry = .ok (result, k') ∧
        ∀ e, result = .error e → k'.memoryStats = k.memoryStats ∧ k'.list = k.list ∧
          k'.scheduler.queue = k.scheduler.queue := by
  have ho := hs.orderly
  obtain ⟨taken, hstocked⟩ := hh.exists_stocked
  have hactive : ∀ root, r.paging.active = some root → ¬ r.paging.frames.IsFree root := by
    rw [hp]
    exact fun root => hw.not_isFree
  refine ⟨ho.create_untouched hstocked hactive name entry, ?_⟩
  rintro k rfl rfl
  cases hready : k.paging.kernelSpace.isNone with
  | true =>
    refine ⟨.error .pagingNotReady, k, ?_, fun _ _ => ⟨rfl, rfl, rfl⟩⟩
    rw [Kernel.spawn, if_pos hready]
    rfl
  | false =>
    obtain ⟨result, s', r', hc, hu⟩ :=
      ho.create_untouched (r := k.mask.resources) hstocked hactive name entry
    obtain ⟨k', hspawn, hsame⟩ := Kernel.spawn_untouched hready hc hu
    exact ⟨result, k', hspawn, hsame⟩

/-- The window ends in front of the last free frame. The block for the stack and the frame for the
root table are given back. -/
theorem create_atomic_outside_window : ∃ w s' r',
    (Spaces.ofFrames 3).perform (.setUp { identityMapLimit := 0 }) = .ok w ∧
      (ofTimeSlice 1).create ⟨(w.onMachine { w.paging.platform with
        window := 2 * pageSize }).paging, oneProcess.heap⟩ "a" 0 =
          .ok (.error (.memory (.platform .outOfWindow)), s', r') ∧
      r'.heap.heap.map Heap.blocks = oneProcess.heap.heap.map Heap.blocks ∧
      r'.paging.frames = w.paging.frames ∧ r'.paging.active = some pageSize := by
  have hrun : (((Spaces.ofFrames 3).perform (.setUp { identityMapLimit := 0 })).toOption.any fun w =>
      ((ofTimeSlice 1).create ⟨(w.onMachine { w.paging.platform with
        window := 2 * pageSize }).paging, oneProcess.heap⟩ "a" 0).toOption.any fun x =>
          decide (x.1 = .error (.memory (.platform .outOfWindow)) ∧
            w.paging.active = some pageSize)) = true := by
    decide +kernel
  obtain ⟨w, hw, hrun⟩ := Fault.exists_of_any hrun
  obtain ⟨⟨result, s', r'⟩, hc, hrun⟩ := Fault.exists_of_any hrun
  obtain ⟨rfl, hactive⟩ := of_decide_eq_true hrun
  have hreached : w.Reached := .step (.start _ _) hw
  have hheap : oneProcess.heap.WellFormed := SharedHeap.wellFormed_ofArena 0 (by simp)
  obtain ⟨⟨result, s'', r'', hc', hu⟩, -⟩ :=
    create_atomic (r := ⟨_, oneProcess.heap⟩) (.start 1) (hreached.machine _) rfl hheap "a" 0
  cases hc.symm.trans hc'
  have hu := hu _ rfl
  exact ⟨w, s', r', hw, hc, hu.blocks, hu.frames, hu.active.trans hactive⟩

end Scheduler

end KernelCore
