import Mathlib
import KernelCore.Proofs.Scheduler.Queue

/-!
# Runs of the scheduler

The operations of the scheduler in any order, on any processes. In every state that they lead to,
the links and the flags of the run queue agree, and each operation has the effect on the queue that
it would have on a plain list of process numbers.
-/
namespace KernelCore.Scheduler

/-- An operation; those that take or give back resources find any that there may be. -/
inductive Operation where
  | create (r : Resources) (name : String) (entry : Nat)
  | destroy (r : Resources) (pid : Pid)
  | enqueue (pid : Pid)
  | dequeue (pid : Pid)
  | tick
  | next
  | idle
  | sleep (ticks : Nat)
  | exit (status : Int)
  | yield
  | reap (r : Resources)

/-- The scheduler after an operation. -/
def perform (s : Scheduler) : Operation → Except Fault Scheduler
  | .create r name entry => return (← s.create r name entry).2.1
  | .destroy r pid => return (← s.destroy r pid).2.1
  | .enqueue pid => return (s.enqueue pid).2
  | .dequeue pid => return (s.dequeue pid).2
  | .tick => s.tick
  | .next => return s.next.2
  | .idle => return s.idle
  | .sleep ticks => return s.sleep ticks
  | .exit status => return s.exit status
  | .yield => return s.yield
  | .reap r => return (← s.reap r).2.1

def run (s : Scheduler) (ops : List Operation) : Except Fault Scheduler := ops.foldlM perform s

/-- What an operation tells about the run queue and does to it. -/
def QueueEffect (s s' : Scheduler) : Operation → Prop
  | .enqueue pid =>
    ((s.enqueue pid).1 = true ↔ s.Lives pid ∧ pid ∉ s.queue) ∧
      s'.queue = if s.Lives pid ∧ pid ∉ s.queue then s.queue ++ [pid] else s.queue
  | .dequeue pid =>
    ((s.dequeue pid).1 = true ↔ pid ∈ s.queue) ∧ s'.queue = s.queue.filter (· ≠ pid)
  | .destroy _ pid =>
    (∀ q, s'.Lives q ↔ s.Lives q ∧ q ≠ pid) ∧ s'.queue = s.queue.filter (· ≠ pid)
  | .reap _ =>
    (∀ q, s'.Lives q ↔ s.Lives q ∧ q ∉ s.reapable) ∧ s'.queue = s.queue.filter (· ∉ s.reapable)
  | _ => s'.queue = s.queue

/-- The numbers are unique and the run queue is threaded. -/
structure Orderly (s : Scheduler) : Prop where
  numbered : s.Numbered
  threaded : ∃ l, s.Threaded l

variable {s s' : Scheduler} {r r' : Resources}

theorem Orderly.dispatched (h : s.Orderly) (hd : s.Dispatched s') :
    s'.Orderly ∧ s'.queue = s.queue := by
  obtain ⟨l, ht⟩ := h.threaded
  obtain ⟨ht', hq⟩ := ht.dispatched hd
  exact ⟨⟨h.numbered.keeps hd.keeps, l, ht'⟩, hq⟩

theorem Orderly.create {name : String} {entry : Nat} {result : Except KernelError Pid}
    (h : s.Orderly) (hc : s.create r name entry = .ok (result, s', r')) :
    s'.Orderly ∧ s'.queue = s.queue := by
  obtain ⟨l, ht⟩ := h.threaded
  obtain ⟨ht', hq⟩ := ht.create hc
  refine ⟨⟨?_, l, ht'⟩, hq⟩
  obtain ⟨_, _, _, ha, -⟩ | ⟨-, hs, -⟩ := create_spec hc
  · exact h.numbered.admitted ha
  · exact h.numbered.congr hs.seat hs.nextPid

theorem Orderly.destroyAll {pids : List Pid} (h : s.Orderly)
    (hd : s.destroyAll r pids = .ok (s', r')) :
    s'.Orderly ∧ (∀ q, s'.Lives q ↔ s.Lives q ∧ q ∉ pids) ∧
      s'.queue = s.queue.filter (· ∉ pids) := by
  induction pids generalizing s r with
  | nil =>
    cases hd
    exact ⟨h, by simp, by simp⟩
  | cons pid pids ih =>
    rw [Scheduler.destroyAll] at hd
    obtain ⟨⟨found, s₁, r₁⟩, h₁, hd⟩ := Fault.of_bind_eq_ok hd
    obtain ⟨l, ht⟩ := h.threaded
    obtain ⟨ht₁, hn₁, hlives₁, hq₁⟩ := ht.destroy h.numbered h₁
    obtain ⟨h', hlives, hq⟩ := ih ⟨hn₁, ht₁⟩ hd
    refine ⟨h', fun q => ?_, ?_⟩
    · rw [hlives, hlives₁, List.mem_cons, not_or, and_assoc]
    · rw [hq, hq₁, List.filter_filter]
      refine List.filter_congr fun q _ => ?_
      rw [Bool.eq_iff_iff]
      simp [and_comm]

/-- What an operation does to the processes: one is created, or none is, and of those that are still
there nothing changes but what dispatching changes, or but what they hold for the queue. -/
theorem perform_cases {op : Operation} (hp : s.perform op = .ok s') :
    (∃ r name entry result r', op = .create r name entry ∧
        s.create r name entry = .ok (result, s', r')) ∨
      Dispatched s s' ∨ Thinned s s' ∧ s'.nextPid = s.nextPid := by
  cases op with
  | create r name entry =>
    obtain ⟨⟨result, _, r'⟩, hc, hp⟩ := Fault.of_bind_eq_ok hp
    cases hp
    exact .inl ⟨r, name, entry, result, r', rfl, hc⟩
  | destroy r pid =>
    obtain ⟨⟨_, _, _⟩, hd, hp⟩ := Fault.of_bind_eq_ok hp
    cases hp
    exact .inr (.inr ⟨thinned_destroy hd, nextPid_destroy hd⟩)
  | enqueue pid =>
    cases hp
    have hr := s.rehung_enqueue pid
    exact .inr (.inr ⟨hr.thinned, hr.nextPid⟩)
  | dequeue pid =>
    cases hp
    have hr := s.rehung_dequeue pid
    exact .inr (.inr ⟨hr.thinned, hr.nextPid⟩)
  | tick => exact .inr (.inl (dispatched_tick hp))
  | next =>
    cases hp
    exact .inr (.inl s.dispatched_next)
  | idle =>
    cases hp
    exact .inr (.inl s.dispatched_idle)
  | sleep ticks =>
    cases hp
    exact .inr (.inl (s.dispatched_sleep ticks))
  | exit status =>
    cases hp
    exact .inr (.inl (s.dispatched_exit status))
  | yield =>
    cases hp
    exact .inr (.inl s.dispatched_yield)
  | reap r =>
    obtain ⟨⟨_, _⟩, hr, hp⟩ := Fault.of_bind_eq_ok hp
    cases hp
    obtain ⟨⟨_, _⟩, hd, hr⟩ := Fault.of_bind_eq_ok hr
    cases hr
    exact .inr (.inr ⟨thinned_destroyAll hd, nextPid_destroyAll hd⟩)

theorem Orderly.perform {op : Operation} (h : s.Orderly) (hp : s.perform op = .ok s') :
    s'.Orderly ∧ s.QueueEffect s' op := by
  obtain ⟨l, ht⟩ := h.threaded
  cases op with
  | create r name entry =>
    obtain ⟨⟨_, _, _⟩, hc, hp⟩ := Fault.of_bind_eq_ok hp
    cases hp
    exact h.create hc
  | destroy r pid =>
    obtain ⟨⟨_, _, _⟩, hd, hp⟩ := Fault.of_bind_eq_ok hp
    cases hp
    obtain ⟨ht', hn', heffect⟩ := ht.destroy h.numbered hd
    exact ⟨⟨hn', ht'⟩, heffect⟩
  | enqueue pid =>
    cases hp
    obtain ⟨ht', heffect⟩ := ht.enqueue h.numbered pid
    exact ⟨⟨h.numbered.keeps (rehung_enqueue s pid).stays.toKeeps, ht'⟩, heffect⟩
  | dequeue pid =>
    cases hp
    obtain ⟨ht', heffect⟩ := ht.dequeue h.numbered pid
    exact ⟨⟨h.numbered.keeps (rehung_dequeue s pid).stays.toKeeps, ht'⟩, heffect⟩
  | tick => exact h.dispatched (dispatched_tick hp)
  | next =>
    cases hp
    exact h.dispatched s.dispatched_next
  | idle =>
    cases hp
    exact h.dispatched s.dispatched_idle
  | sleep ticks =>
    cases hp
    exact h.dispatched (s.dispatched_sleep ticks)
  | exit status =>
    cases hp
    exact h.dispatched (s.dispatched_exit status)
  | yield =>
    cases hp
    exact h.dispatched s.dispatched_yield
  | reap r =>
    obtain ⟨⟨_, _, _⟩, hr, hp⟩ := Fault.of_bind_eq_ok hp
    cases hp
    obtain ⟨⟨_, _⟩, hd, hr⟩ := Fault.of_bind_eq_ok hr
    cases hr
    exact h.destroyAll hd

theorem Orderly.store (h : s.Orderly) (slot : Nat) (registers : Registers) :
    (s.update slot ({ · with registers })).Orderly := by
  obtain ⟨l, ht⟩ := h.threaded
  have hk := (stays_update (f := ({ · with registers })) (fun _ => rfl) s slot).toKeeps
  have hhook := alike_update (g := Process.hook) (f := ({ · with registers })) (fun _ => rfl) s slot
  refine ⟨h.numbered.keeps hk, l, ht.agree rfl rfl (fun i _ => ?_) fun i p' hp' => .inl ?_⟩
  · exact (hhook.comp Prod.fst).view i
  · have hview := hhook.view i
    rw [hp', Option.map_some] at hview
    obtain ⟨p, hp, heq⟩ := Option.map_eq_some_iff.mp hview.symm
    exact ⟨p, hp, heq.symm⟩

theorem orderly_ofTimeSlice (ticks : Nat) : (ofTimeSlice ticks).Orderly := by
  have hnone : ∀ i, (ofTimeSlice ticks).process? i = none := fun _ => rfl
  refine ⟨⟨fun _ _ ht => ?_, fun _ _ _ _ ht => ?_⟩, [], .nil none, .nil, rfl, ?_, ?_⟩
  · cases ht
  · cases ht
  · intro slot p hp
    rw [hnone] at hp
    cases hp
  · intro slot p hp
    rw [hnone] at hp
    cases hp

theorem Orderly.run {ops : List Operation} (h : s.Orderly) (hr : s.run ops = .ok s') :
    s'.Orderly := by
  induction ops generalizing s with
  | nil =>
    cases hr
    exact h
  | cons op ops ih =>
    rw [Scheduler.run, List.foldlM_cons] at hr
    obtain ⟨s₁, hs, hr⟩ := Fault.of_bind_eq_ok hr
    exact ih (h.perform hs).1 hr

/-- In every state that a run comes to, the links thread the queued processes from the head to the
tail, and every operation acts on the queue as on a list. -/
theorem queue_of_run {ticks : Nat} {ops : List Operation}
    (hr : (ofTimeSlice ticks).run ops = .ok s) :
    s.Threaded s.order ∧ (s.head = none ↔ s.tail = none) ∧
      ∀ op s', s.perform op = .ok s' → s.QueueEffect s' op := by
  have h := (orderly_ofTimeSlice ticks).run hr
  obtain ⟨l, ht⟩ := h.threaded
  refine ⟨?_, ?_, fun op s' hp => (h.perform hp).2⟩
  · rw [ht.order_eq]
    exact ht
  · rw [ht.links.first_eq, ht.tail, List.head?_eq_none_iff, List.getLast?_eq_none_iff]

/-- Resources for one process. -/
def oneProcess : Resources :=
  ⟨{ platform := .ofFrames 2, frames := .ofFrames 2 }, ⟨some (.ofArena 0 (Array.replicate 8224 0))⟩⟩

/-- The first of two queued processes is destroyed, and a third one takes its slot. -/
theorem queue_of_reused_slot : ∃ s,
    (ofTimeSlice 1).run [.create oneProcess "a" 0, .create oneProcess "b" 0, .enqueue 1, .enqueue 2,
      .destroy oneProcess 1, .create oneProcess "c" 0, .enqueue 3] = .ok s ∧
      s.order = [1, 0] ∧ s.queue = [2, 3] ∧ s.Threaded s.order ∧
        ∀ op s', s.perform op = .ok s' → s.QueueEffect s' op := by
  have hrun : (((ofTimeSlice 1).run [.create oneProcess "a" 0, .create oneProcess "b" 0, .enqueue 1,
      .enqueue 2, .destroy oneProcess 1, .create oneProcess "c" 0,
      .enqueue 3]).toOption.any fun s => decide (s.order = [1, 0] ∧ s.queue = [2, 3])) = true := by
    decide +kernel
  obtain ⟨s, hr, hs⟩ := Fault.exists_of_any hrun
  obtain ⟨horder, hqueue⟩ := of_decide_eq_true hs
  obtain ⟨ht, -, heffect⟩ := queue_of_run hr
  exact ⟨s, hr, horder, hqueue, ht, heffect⟩

end KernelCore.Scheduler
