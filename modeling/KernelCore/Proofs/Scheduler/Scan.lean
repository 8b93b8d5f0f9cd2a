import Mathlib
import KernelCore.Proofs.Scheduler.Waiting

/-!
# The scan for the next process

The scan sees each queued process at most once: those behind the current one, then those from the
head of the queue on. It ends at the first ready process, which gets a full turn, or has seen all
of the queue, and then nothing changes.
-/
namespace KernelCore

section Rotation

variable {α : Type} [DecidableEq α]

/-- The list rotated to start just behind a member that has a successor, and the list itself
otherwise. -/
def rotatedBehind (l : List α) : Option α → List α
  | none => l
  | some a => if l.idxOf a + 1 < l.length then l.rotate (l.idxOf a + 1) else l

theorem turnOrder_eq_rotatedBehind (l : List α) (current : Option α) :
    turnOrder l current = rotatedBehind l current := by
  cases current with
  | none => rfl
  | some c =>
    rw [rotatedBehind]
    by_cases hc : c ∈ l
    · obtain ⟨xs, ys, rfl, hxs⟩ := List.eq_append_cons_of_mem hc
      have hindex : (xs ++ c :: ys).idxOf c = xs.length := by
        rw [List.idxOf_append_of_notMem hxs, List.idxOf_cons_self, Nat.add_zero]
      rw [turnOrder_split hxs, hindex]
      split
      · have hlength : xs.length + 1 = (xs ++ [c]).length := by simp
        rw [List.append_cons xs c ys, hlength, List.rotate_append_length_eq]
      -- the last member has no successor, and going round from it is the list itself
      · next hlast =>
        obtain rfl : ys = [] := by
          rw [← List.length_eq_zero_iff]
          simp only [List.length_append, List.length_cons] at hlast
          omega
        rfl
    · have hindex := List.idxOf_eq_length_iff.mpr hc
      rw [turnOrder_of_not_mem hc, if_neg (by omega)]

end Rotation

namespace Scheduler

/-- The run queue from where the scan starts: behind the current process, if it is queued and has a
successor, and at the head otherwise. -/
def rotation (s : Scheduler) : List Pid := rotatedBehind s.queue s.currentPid

/-- The scan from one slot on, with the processes that it visits and the slot of the ready one that
it finds. It goes on along the links, at the head after the tail, until it is back at its start. -/
inductive Scan (s : Scheduler) (head start : Nat) : Nat → List Pid → Option Nat → Prop
  | vacant {slot : Nat} (here : s.process? slot = none) : Scan s head start slot [] none
  | found {slot : Nat} {p : Process} (here : s.process? slot = some p) (ready : p.state = .ready) :
      Scan s head start slot [p.pid] (some slot)
  | back {slot : Nat} {p : Process} (here : s.process? slot = some p) (passed : p.state ≠ .ready)
      (following : p.next.getD head = start) : Scan s head start slot [p.pid] none
  | on {slot next : Nat} {p : Process} {visited : List Pid} {found : Option Nat}
      (here : s.process? slot = some p) (passed : p.state ≠ .ready)
      (following : p.next.getD head = next) (unseen : next ≠ start)
      (rest : Scan s head start next visited found) :
      Scan s head start slot (p.pid :: visited) found

/-- The process in a slot gets a turn: it is current and runs, with all ticks of a turn; another
one that ran before is ready; nothing else changes. -/
structure Turn (s : Scheduler) (slot : Nat) (s' : Scheduler) : Prop where
  current : s'.current = some slot
  runs : ∀ p, s.process? slot = some p →
    s'.process? slot = some { p with state := .running, timeSlice := s.timeSlice }
  waits : ∀ i p, i ≠ slot → s.current = some i → s.process? i = some p → p.state = .running →
    s'.process? i = some { p with state := .ready }
  stays : ∀ i, i ≠ slot →
    (s.current = some i → ∀ p, s.process? i = some p → p.state ≠ .running) →
    s'.process? i = s.process? i
  rest : s' = { s with slots := s'.slots, current := s'.current }
  size : s'.slots.size = s.slots.size

variable {s : Scheduler} {head start slot : Nat} {l rest : List Nat} {visited : List Pid}
variable {found : Option Nat} {pid : Pid} {p : Process}

theorem turn_promote (s : Scheduler) (slot : Nat) : s.Turn slot (s.promote slot) where
  current := rfl
  runs p hp := by
    rw [process?_promote, hp, Option.map_some, afterTurn, if_pos rfl, Process.promote]
  waits i p hne hc hp hrun := by
    rw [process?_promote, hp, Option.map_some, afterTurn, if_neg hne, if_pos hc, Process.demote,
      if_pos hrun]
  stays i hne hno := by
    rw [process?_promote]
    cases hp : s.process? i with
    | none => rfl
    | some p =>
      rw [Option.map_some, afterTurn, if_neg hne]
      split
      · next hc => rw [Process.demote_of_ne (hno hc p hp)]
      · rfl
  rest := by
    unfold promote update
    split
    · split <;> rfl
    · rfl
  size := (s.dispatched_promote slot).size

/-- The search finds what the scan finds, if its fuel is enough for every visit. -/
theorem Scan.firstReady_eq (h : s.Scan head start slot visited found) (extra : Nat) :
    s.firstReady head start (extra + visited.length) slot = found := by
  induction h with
  | vacant here =>
    cases extra with
    | zero => rfl
    | succ extra => simp only [List.length_nil, Nat.add_zero, firstReady, here]
  | found here ready => simp only [List.length_singleton, firstReady, here, if_pos ready]
  | back here passed following =>
    simp only [List.length_singleton, firstReady, here, if_neg passed, if_pos following]
  | on here passed following unseen _ ih =>
    simp only [List.length_cons, ← Nat.add_assoc, firstReady, here, if_neg passed, following,
      if_neg unseen]
    exact ih

theorem Numbered.isReady_pid (h : s.Numbered) (hp : s.process? slot = some p) :
    s.isReady p.pid = decide (p.state = .ready) := by
  rw [isReady, h.get?_pid hp, Option.any_some]

theorem Numbered.any_pidAt (h : s.Numbered) (slot : Nat) :
    (s.pidAt slot).any s.isReady = s.readyAt slot := by
  rw [pidAt, readyAt]
  cases hp : s.process? slot with
  | none => rfl
  | some p => exact h.isReady_pid hp

/-- Along a circle of slots the scan visits each process up to the first ready one. -/
theorem Numbered.scan (h : s.Numbered)
    (hc : (slot :: rest ++ [start]).IsChain (s.Follows head)) (hstart : start ∉ rest) :
    s.Scan head start slot
      (((slot :: rest).filterMap s.pidAt).take
        (((slot :: rest).filterMap s.pidAt).findIdx s.isReady + 1))
      ((slot :: rest).find? s.readyAt) := by
  -- only behind the last slot does the scan come back to its start
  induction rest generalizing slot with
  | nil =>
    obtain ⟨p, hp, hnext⟩ := List.isChain_cons.mp hc |>.1 start rfl
    have hpid : s.pidAt slot = some p.pid := by rw [pidAt, hp, Option.map_some]
    rw [List.filterMap_cons_some hpid, List.take_succ_cons]
    by_cases hr : p.state = .ready
    · have hfound : s.Scan head start slot [p.pid] (some slot) := .found hp hr
      simpa [readyAt, hp, hr] using hfound
    · simpa [readyAt, hp, hr] using Scan.back hp hr hnext
  | cons next rest ih =>
    obtain ⟨hlink, hc⟩ := List.isChain_cons.mp hc
    obtain ⟨p, hp, hnext⟩ := hlink next rfl
    rw [List.mem_cons, not_or] at hstart
    have hpid : s.pidAt slot = some p.pid := by rw [pidAt, hp, Option.map_some]
    rw [List.filterMap_cons_some hpid, List.take_succ_cons, List.findIdx_cons, List.find?_cons,
      h.isReady_pid hp, readyAt, hp, Option.any_some]
    by_cases hr : p.state = .ready
    · have hfound : s.Scan head start slot [p.pid] (some slot) := .found hp hr
      simpa [hr] using hfound
    · simpa [hr] using Scan.on hp hr hnext (Ne.symm hstart.1) (ih hc hstart.2)

theorem rotation_perm (s : Scheduler) : s.rotation.Perm s.queue := by
  rw [rotation, ← turnOrder_eq_rotatedBehind]
  exact turnOrder_perm s.queue s.currentPid

namespace Threaded

theorem rotation_eq (h : s.Threaded l) (hn : s.Numbered) :
    s.rotation = (turnOrder l s.current).filterMap s.pidAt := by
  rw [rotation, ← turnOrder_eq_rotatedBehind, h.turnOrder_queue hn]

theorem queue_eq_nil_iff (h : s.Threaded l) : s.queue = [] ↔ l = [] := by
  rw [h.queue_eq, List.filterMap_eq_nil_iff]
  refine ⟨fun hnone => List.eq_nil_iff_forall_not_mem.mpr fun i hi => ?_, fun hl => by simp [hl]⟩
  have hsome := h.isSome hi
  rw [← Option.isSome_map (f := Process.pid), show (s.process? i).map Process.pid = none from
    hnone i hi] at hsome
  cases hsome

theorem find?_rotation (h : s.Threaded l) (hn : s.Numbered) :
    s.rotation.find? s.isReady = ((turnOrder l s.current).find? s.readyAt).bind s.pidAt := by
  rw [h.rotation_eq hn, List.find?_filterMap]
  simp only [hn.any_pidAt]

theorem scan (h : s.Threaded l) (hn : s.Numbered) (hhead : s.head = some head) :
    s.Scan head (s.scanStart head) (s.scanStart head)
      (s.rotation.take (s.rotation.findIdx s.isReady + 1))
      ((turnOrder l s.current).find? s.readyAt) := by
  obtain ⟨hchain, hfirst⟩ := h.turnOrder_round hhead
  have hnodup := (turnOrder_perm l s.current).nodup_iff.mpr h.nodup
  rw [h.rotation_eq hn]
  obtain ⟨rest, hrest⟩ := List.head?_eq_some_iff.mp hfirst
  rw [hrest] at hchain hnodup ⊢
  exact hn.scan hchain (List.nodup_cons.mp hnodup).1

end Threaded

/-- In every state that a run comes to, the first ready process of the rotated queue gets the next
turn. Without one nothing changes; the result is the current process, or nobody if the queue is
empty. The scan visits the rotated queue up to that process, and no process twice. -/
theorem next_law {ticks : Nat} {ops : List Operation}
    (hr : (ofTimeSlice ticks).run ops = .ok s) :
    (s.queue = [] → s.next = (none, s)) ∧
      (∀ pid, s.rotation.find? s.isReady = some pid →
        s.next.1 = some pid ∧ s.next.2.currentPid = some pid ∧
          ∃ slot, s.pidAt slot = some pid ∧ s.Turn slot s.next.2) ∧
      (s.queue ≠ [] → s.rotation.find? s.isReady = none → s.next = (s.currentPid, s)) ∧
      ∀ head, s.head = some head → ∃ visited found,
        s.Scan head (s.scanStart head) (s.scanStart head) visited found ∧
        visited = s.rotation.take (s.rotation.findIdx s.isReady + 1) ∧
        visited.Nodup ∧ visited ⊆ s.queue ∧
        ∀ fuel, s.queue.length ≤ fuel →
          s.firstReady head (s.scanStart head) fuel (s.scanStart head) = found := by
  obtain ⟨hn, l, ht⟩ := (orderly_ofTimeSlice ticks).run hr
  have hnext := ht.next_turn
  have hfind := ht.find?_rotation hn
  refine ⟨fun hqueue => ?_, fun pid hpid => ?_, fun hqueue hnone => ?_, fun head hhead => ?_⟩
  · obtain rfl := ht.queue_eq_nil_iff.mp hqueue
    rw [(turnOrder_perm [] s.current).eq_nil] at hnext
    exact hnext
  · rw [hfind] at hpid
    obtain ⟨slot, hslot, hpid⟩ := Option.bind_eq_some_iff.mp hpid
    rw [hslot] at hnext
    obtain ⟨p, hp, rfl⟩ := Option.map_eq_some_iff.mp hpid
    rw [hnext]
    exact ⟨currentPid_promote hp, currentPid_promote hp, slot, hpid, turn_promote s slot⟩
  · cases hslot : (turnOrder l s.current).find? s.readyAt with
    | none =>
      rw [hslot] at hnext
      rw [hnext, if_neg fun hl => hqueue (ht.queue_eq_nil_iff.mpr hl)]
    | some slot =>
      obtain ⟨p, hp, -⟩ := exists_of_readyAt (List.find?_some hslot)
      rw [hfind, hslot, Option.bind_some, pidAt, hp] at hnone
      cases hnone
  · have hscan := ht.scan hn hhead
    have hinit := List.take_prefix (s.rotation.findIdx s.isReady + 1) s.rotation
    have hnodup := s.rotation_perm.nodup_iff.mpr (ht.nodup_queue hn)
    have hlength := hinit.length_le.trans_eq s.rotation_perm.length_eq
    refine ⟨_, _, hscan, rfl, hnodup.sublist hinit.sublist,
      fun q hq => s.rotation_perm.subset (hinit.subset hq), fun fuel hfuel => ?_⟩
    rw [← Nat.sub_add_cancel (hlength.trans hfuel)]
    exact hscan.firstReady_eq _

/-- The tail has ended, the head sleeps, and the current process has given up its turn: the scan
comes round to it again. -/
theorem next_of_round : ∃ s,
    (ofTimeSlice 2).run [.create oneProcess "a" 0, .create oneProcess "b" 0,
      .create oneProcess "c" 0, .enqueue 1, .enqueue 2, .enqueue 3, .next, .next, .next, .exit 0,
      .next, .sleep 9, .next, .yield] = .ok s ∧
      s.rotation = [3, 1, 2] ∧ s.rotation.find? s.isReady = some 2 ∧ s.next.1 = some 2 ∧
        ∃ slot, s.pidAt slot = some 2 ∧ s.Turn slot s.next.2 := by
  have hrun : (((ofTimeSlice 2).run [.create oneProcess "a" 0, .create oneProcess "b" 0,
      .create oneProcess "c" 0, .enqueue 1, .enqueue 2, .enqueue 3, .next, .next, .next, .exit 0,
      .next, .sleep 9, .next, .yield]).toOption.any fun s =>
        decide (s.rotation = [3, 1, 2] ∧ s.rotation.find? s.isReady = some 2)) = true := by
    decide +kernel
  obtain ⟨s, hr, hs⟩ := Fault.exists_of_any hrun
  obtain ⟨hrotation, hfirst⟩ := of_decide_eq_true hs
  obtain ⟨-, hturn, -, -⟩ := next_law hr
  obtain ⟨hpid, -, hslot⟩ := hturn 2 hfirst
  exact ⟨s, hr, hrotation, hfirst, hpid, hslot⟩

end Scheduler

end KernelCore
