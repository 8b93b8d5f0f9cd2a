import Mathlib
import KernelCore.Proofs.Scheduler.Choice

/-!
# Waiting for a turn

Whoever waits in the run queue has a place in the order of turns. Those with an earlier turn get
fewer: newcomers line up at the end of the queue, others leave it, and a turn moves the place from
which the order starts past the one that got it.
-/
namespace KernelCore

section Earlier

variable {α : Type} [DecidableEq α] {l us vs : List α} {current : Option α} {keep : α → Bool}
variable {a x : α}

/-- Those whose turn comes before that of `x`. -/
def earlier (l : List α) (current : Option α) (x : α) : List α :=
  (turnOrder l current).takeWhile (· ≠ x)

theorem turnOrder_filter (hc : ∀ c, current = some c → keep c = true) :
    turnOrder (l.filter keep) current = (turnOrder l current).filter keep := by
  cases current with
  | none => rfl
  | some c =>
    by_cases hmem : c ∈ l
    · obtain ⟨xs, ys, rfl, hxs⟩ := List.eq_append_cons_of_mem hmem
      have hfilter : (xs ++ c :: ys).filter keep = xs.filter keep ++ c :: ys.filter keep := by
        rw [List.filter_append, List.filter_cons_of_pos (hc c rfl)]
      rw [hfilter, turnOrder_split fun h => hxs (List.mem_filter.mp h).1, turnOrder_split hxs,
        List.filter_append, List.filter_append, List.filter_cons_of_pos (hc c rfl)]
      rfl
    · rw [turnOrder_of_not_mem hmem, turnOrder_of_not_mem fun h => hmem (List.mem_filter.mp h).1]

theorem takeWhile_ne_filter (hx : keep x = true) (l : List α) :
    (l.filter keep).takeWhile (· ≠ x) = (l.takeWhile (· ≠ x)).filter keep := by
  induction l with
  | nil => rfl
  | cons y l ih =>
    by_cases hy : y = x
    · subst hy
      rw [List.filter_cons_of_pos hx, List.takeWhile_cons_of_neg (by simp),
        List.takeWhile_cons_of_neg (by simp), List.filter_nil]
    · by_cases hk : keep y = true
      · rw [List.filter_cons_of_pos hk, List.takeWhile_cons_of_pos (by simpa using hy),
          List.takeWhile_cons_of_pos (by simpa using hy), List.filter_cons_of_pos hk, ih]
      · rw [List.filter_cons_of_neg hk, List.takeWhile_cons_of_pos (by simpa using hy),
          List.filter_cons_of_neg hk, ih]

theorem takeWhile_ne_split (hx : x ∉ us) (hne : a ≠ x) :
    (us ++ a :: vs).takeWhile (· ≠ x) = us ++ a :: vs.takeWhile (· ≠ x) := by
  have hus : ∀ u ∈ us, decide (u ≠ x) = true := fun u hu => by
    simpa using ne_of_mem_of_not_mem hu hx
  rw [List.takeWhile_append_of_pos hus, List.takeWhile_cons_of_pos (by simpa using hne)]

theorem earlier_filter (l : List α) (hc : ∀ c, current = some c → keep c = true)
    (hx : keep x = true) :
    earlier (l.filter keep) current x = (earlier l current x).filter keep := by
  rw [earlier, turnOrder_filter hc, takeWhile_ne_filter hx, earlier]

theorem mem_earlier_of_append (ha : a ∉ l) (hc : current ≠ some a) (hx : x ≠ a) {y : α}
    (hy : y ∈ earlier (l ++ [a]) current x) : y = a ∨ y ∈ earlier l current x := by
  have hfilter : (l ++ [a]).filter (fun y => decide (y ≠ a)) = l := by
    have hl : l.filter (fun y => decide (y ≠ a)) = l := List.filter_eq_self.mpr fun y hy => by
      simpa using ne_of_mem_of_not_mem hy ha
    rw [List.filter_append, hl]
    simp
  have hcurrent : ∀ c, current = some c → decide (c ≠ a) = true := fun c hcur => by
    have hne : c ≠ a := by
      rintro rfl
      exact hc hcur
    simpa using hne
  have hearlier := earlier_filter (l ++ [a]) hcurrent (by simpa using hx : decide (x ≠ a) = true)
  rw [hfilter] at hearlier
  by_cases hya : y = a
  · exact .inl hya
  · rw [hearlier]
    exact .inr (List.mem_filter.mpr ⟨hy, by simpa using hya⟩)

theorem earlier_turn (hl : l.Nodup) (hx : x ∈ l) (ho : turnOrder l current = us ++ a :: vs)
    (hus : x ∉ us) (hne : a ≠ x) :
    earlier l current x = us ++ a :: earlier l (some a) x ∧ a ∉ earlier l (some a) x := by
  have hperm := turnOrder_perm l current
  have hnodup := hperm.nodup_iff.mpr hl
  rw [ho] at hperm hnodup
  have ha : a ∈ l := hperm.mem_iff.mp (by simp)
  have hxvs : x ∈ vs := by
    have hmem := hperm.mem_iff.mpr hx
    simpa [hus, hne.symm] using hmem
  obtain ⟨-, havs, hdisjoint⟩ := List.nodup_append'.mp hnodup
  have hanext : turnOrder l (some a) = vs ++ (us ++ [a]) := by
    have haus : a ∉ us := fun h => hdisjoint h (List.mem_cons_self ..)
    rw [← turnOrder_turnOrder hl ha, ho, turnOrder_split haus]
  have hlater : earlier l (some a) x = vs.takeWhile (· ≠ x) := by
    obtain ⟨ys, zs, rfl, hys⟩ := List.eq_append_cons_of_mem hxvs
    have hpos : ∀ y ∈ ys, decide (y ≠ x) = true := fun y hy => by
      simpa using ne_of_mem_of_not_mem hy hys
    have hcut : ∀ rest, (ys ++ x :: rest).takeWhile (· ≠ x) = ys := fun rest => by
      rw [List.takeWhile_append_of_pos hpos, List.takeWhile_cons_of_neg (by simp), List.append_nil]
    rw [earlier, hanext, List.append_assoc, List.cons_append, hcut, hcut]
  refine ⟨by rw [hlater, earlier, ho, takeWhile_ne_split hus hne], fun h => ?_⟩
  rw [hlater] at h
  exact (List.nodup_cons.mp havs).1 (List.takeWhile_subset _ h)

end Earlier

namespace Scheduler

variable {s s' s₁ : Scheduler} {slot : Nat} {pid q : Pid} {p : Process}

/-- Those who get a turn before a process. -/
def ahead (s : Scheduler) (pid : Pid) : List Pid := earlier s.queue s.currentPid pid

/-- Whether a process is ready. -/
def isReady (s : Scheduler) (pid : Pid) : Bool := (s.get? pid).any (·.state = .ready)

theorem Numbered.isReady_iff (h : s.Numbered) :
    s.isReady pid = true ↔ ∃ i p, s.process? i = some p ∧ p.pid = pid ∧ p.state = .ready := by
  rw [isReady, Option.any_eq_true]
  constructor
  · rintro ⟨p, hp, hr⟩
    obtain ⟨i, hi, hpid⟩ := h.process?_of_get? hp
    exact ⟨i, p, hi, hpid, of_decide_eq_true hr⟩
  · rintro ⟨i, p, hi, rfl, hr⟩
    exact ⟨p, h.get?_pid hi, decide_eq_true hr⟩

theorem Numbered.lives_of_isReady (h : s.Numbered) (hr : s.isReady pid = true) : s.Lives pid := by
  obtain ⟨i, p, hi, rfl, -⟩ := h.isReady_iff.mp hr
  rw [Lives, h.get?_pid hi]
  rfl

theorem not_isReady_of_isRunning (h : s.isRunning (some pid) = true) : s.isReady pid = false := by
  obtain ⟨p, hp, hr⟩ := (Option.any_eq_true _ _).mp h
  have hp : s.get? pid = some p := hp
  rw [isReady, hp, Option.any_some, eq_of_beq hr]
  rfl

theorem currentPid_eq_pidAt (s : Scheduler) : s.currentPid = s.current.bind s.pidAt :=
  Option.map_bind

namespace Threaded

variable {l : List Nat}

theorem turnOrder_queue (h : s.Threaded l) (hn : s.Numbered) :
    turnOrder s.queue s.currentPid = (turnOrder l s.current).filterMap s.pidAt := by
  rw [currentPid_eq_pidAt]
  cases hc : s.current with
  | none => exact h.queue_eq
  | some c =>
    rw [Option.bind_some]
    by_cases hmem : c ∈ l
    · obtain ⟨p, hp⟩ := Option.isSome_iff_exists.mp (h.isSome hmem)
      have hpid : s.pidAt c = some p.pid := by rw [pidAt, hp, Option.map_some]
      obtain ⟨xs, ys, rfl, hxs⟩ := List.eq_append_cons_of_mem hmem
      have hnot : p.pid ∉ xs.filterMap s.pidAt := by
        rw [List.mem_filterMap]
        rintro ⟨i, hi, heq⟩
        rw [hn.pidAt_inj hpid heq] at hi
        exact hxs hi
      rw [h.queue_eq, hpid, List.filterMap_append, List.filterMap_cons_some hpid,
        turnOrder_split hnot, turnOrder_split hxs, List.filterMap_append, List.filterMap_append,
        List.filterMap_cons_some hpid]
      rfl
    · rw [turnOrder_of_not_mem hmem, ← h.queue_eq]
      cases hpid : s.pidAt c with
      | none => rfl
      | some pid => exact turnOrder_of_not_mem fun hq => hmem ((h.mem_queue hn hpid).mp hq)

theorem nodup_queue (h : s.Threaded l) (hn : s.Numbered) : s.queue.Nodup := by
  rw [h.queue_eq]
  refine h.nodup.filterMap fun i j pid hi hj => ?_
  exact hn.pidAt_inj hj hi

end Threaded

namespace Tidy

theorem mem_order_of_current (h : s.Tidy) (hc : s.current = some slot) : slot ∈ s.order := by
  have hseat := h.seated slot hc
  rw [seat, Option.isSome_map] at hseat
  obtain ⟨p, hp⟩ := Option.isSome_iff_exists.mp hseat
  exact h.mem_order hp

theorem turnOrder_queue (h : s.Tidy) :
    turnOrder s.queue s.currentPid = (turnOrder s.order s.current).filterMap s.pidAt := by
  obtain ⟨l, ht⟩ := h.threaded
  rw [ht.order_eq]
  exact ht.turnOrder_queue h.numbered

theorem nodup_queue (h : s.Tidy) : s.queue.Nodup := by
  obtain ⟨l, ht⟩ := h.threaded
  exact ht.nodup_queue h.numbered

theorem turnOrder_found (h : s.Tidy) (hr : s.isReady pid = true)
    (hfound : (turnOrder s.order s.current).find? s.readyAt = some slot)
    (hp : s.process? slot = some p) :
    ∃ us vs, turnOrder s.queue s.currentPid = us ++ p.pid :: vs ∧ pid ∉ us := by
  obtain ⟨-, us, vs, ho, hus⟩ := List.find?_eq_some_iff_append.mp hfound
  have hpid : s.pidAt slot = some p.pid := by rw [pidAt, hp, Option.map_some]
  refine ⟨us.filterMap s.pidAt, vs.filterMap s.pidAt, ?_, fun hmem => ?_⟩
  · rw [h.turnOrder_queue, ho, List.filterMap_append, List.filterMap_cons_some hpid]
  · obtain ⟨i, hi, heq⟩ := List.mem_filterMap.mp hmem
    obtain ⟨j, q, hq, hqpid, hready⟩ := h.numbered.isReady_iff.mp hr
    have hj : s.pidAt j = some pid := by rw [pidAt, hq, Option.map_some, hqpid]
    have hnot := hus i hi
    rw [h.numbered.pidAt_inj hj heq, readyAt, hq] at hnot
    simp [hready] at hnot

/-- A turn goes to one of those before a process that is ready and stays so, and takes it from
among them. -/
theorem ahead_promote (h : s.Tidy) (hr : s.isReady pid = true)
    (hfound : (turnOrder s.order s.current).find? s.readyAt = some slot)
    (hp : s.process? slot = some p) (hr' : (s.promote slot).isReady pid = true) :
    ∃ us, s.ahead pid = us ++ p.pid :: (s.promote slot).ahead pid ∧
      p.pid ∉ (s.promote slot).ahead pid := by
  have hne : p.pid ≠ pid := by
    rintro rfl
    rw [not_isReady_of_isRunning (h.isRunning_promote hp)] at hr'
    cases hr'
  have hmem := h.mem_queue.mpr (h.numbered.lives_of_isReady hr)
  obtain ⟨-, hqueue⟩ := h.toOrderly.dispatched (s.dispatched_promote slot)
  obtain ⟨us, vs, ho, hus⟩ := h.turnOrder_found hr hfound hp
  rw [ahead, ahead, hqueue, currentPid_promote hp]
  exact ⟨us, earlier_turn h.nodup_queue hmem ho hus hne⟩

/-- While a process is ready the processor goes to somebody, and if this is somebody new, then from
those before the process. -/
theorem ahead_choice (h : s.Tidy) (hc : Choice s s') (hr : s.isReady pid = true)
    (hr' : s'.isReady pid = true) :
    s'.currentPid ≠ none ∧ s'.ahead pid ⊆ s.ahead pid ∧
      ∀ q, s.isRunning (some q) = false → s'.isRunning (some q) = true →
        q ∈ s.ahead pid ∧ q ∉ s'.ahead pid := by
  have h' := h.choice hc
  cases hc with
  | @stays slot p current here running =>
    refine ⟨?_, List.Subset.refl _, fun q hno hyes => ?_⟩
    · rw [currentPid, currentProcess, current, Option.bind_some, here]
      simp
    · rw [hno] at hyes
      cases hyes
  | @turns slot _ found =>
    obtain ⟨p, hp, -⟩ := exists_of_readyAt (List.find?_some found)
    obtain ⟨us, hahead, hgone⟩ := h.ahead_promote hr found hp hr'
    rw [hahead]
    refine ⟨by simp [currentPid_promote hp], fun q hq => by simp [hq], fun q _ hyes => ?_⟩
    have hcurrent := h'.currentPid_of_isRunning hyes
    rw [currentPid_promote hp] at hcurrent
    obtain rfl := Option.some.inj hcurrent
    exact ⟨by simp, hgone⟩
  | idles vacant found =>
    exfalso
    obtain ⟨i, p, hp, -, hready⟩ := h.numbered.isReady_iff.mp hr
    have hnot := List.find?_eq_none.mp found i ((turnOrder_perm _ _).mem_iff.mpr (h.mem_order hp))
    exact hnot (by rw [readyAt, hp, Option.any_some, decide_eq_true hready])

end Tidy

end Scheduler

end KernelCore
