import Mathlib
import KernelCore.Proofs.Scheduler.Dispatching

/-!
# Ticks and turns, slot by slot

What the clock, a turn and a system call do to the process in each slot. They change it in its
place: no process comes or goes, and none moves to another slot.
-/
namespace KernelCore

namespace Process

variable {p : Process} {now slice : Nat}

theorem wake_of_ne (h : p.state ≠ .blocked) : p.wake now = p := if_neg fun hb => h hb.1

theorem charge_of_ne (h : p.state ≠ .running) : p.charge slice = p := if_neg h

theorem demote_of_ne (h : p.state ≠ .running) : p.demote = p := if_neg h

theorem yield_of_ne (h : p.state ≠ .running) : p.yield slice = p := if_neg h

theorem wake_wake : (p.wake now).wake now = p.wake now := by
  by_cases hb : p.state = .blocked ∧ p.wakeAt.any (· ≤ now)
  · have hready : (p.wake now).state = .ready := by rw [wake, if_pos hb]
    exact wake_of_ne (by simp [hready])
  · have hsame : p.wake now = p := if_neg hb
    rw [hsame, hsame]

theorem running_of_wake (h : (p.wake now).state = .running) : p.state = .running := by
  unfold wake at h
  split at h
  · cases h
  · exact h

theorem running_of_charge (h : (p.charge slice).state = .running) : p.state = .running := by
  by_contra hne
  rw [charge_of_ne hne] at h
  exact hne h

theorem state_demote_ne : p.demote.state ≠ .running := by
  unfold demote
  split
  · simp
  · next h => exact h

end Process

namespace Scheduler

variable {s s' : Scheduler} {slot i : Nat} {p : Process}

/-- Every process was changed in its slot, and it is still the same process. -/
structure Changed (f : Nat → Process → Process) (s s' : Scheduler) : Prop where
  process? : ∀ i, s'.process? i = (s.process? i).map (f i)
  core : ∀ i p, (f i p).core = p.core

theorem Changed.pid {f : Nat → Process → Process} (h : Changed f s s') (i : Nat) (p : Process) :
    (f i p).pid = p.pid := by
  have hpid := congrArg Process.pid (h.core i p)
  exact hpid

theorem Changed.exists_of_process? {f : Nat → Process → Process} {p' : Process}
    (h : Changed f s s') (hp' : s'.process? i = some p') :
    ∃ p, s.process? i = some p ∧ p' = f i p := by
  rw [h.process?] at hp'
  obtain ⟨p, hp, rfl⟩ := Option.map_eq_some_iff.mp hp'
  exact ⟨p, hp, rfl⟩

theorem process?_updateCurrent (s : Scheduler) (f : Process → Process) (i : Nat) :
    (s.updateCurrent f).process? i =
      (s.process? i).map fun p => if s.current = some i then f p else p := by
  unfold updateCurrent
  split
  · next slot hc =>
    rw [process?_update, hc]
    simp only [Option.some.injEq]
    split
    · rfl
    · exact Option.map_id'.symm
  · next hc =>
    rw [hc]
    exact Option.map_id'.symm

theorem changed_updateCurrent {f : Process → Process} (hf : ∀ p, (f p).core = p.core)
    (s : Scheduler) :
    Changed (fun i p => if s.current = some i then f p else p) s (s.updateCurrent f) := by
  refine ⟨process?_updateCurrent s f, fun i p => ?_⟩
  split
  · exact hf p
  · rfl

/-- Changing the processes of several slots; a slot may be listed twice if the second change does
nothing. -/
theorem process?_foldl_update {f : Process → Process} (hf : ∀ p, f (f p) = f p) (l : List Nat)
    (s : Scheduler) (i : Nat) : (l.foldl (fun s slot => s.update slot f) s).process? i =
      (s.process? i).map fun p => if i ∈ l then f p else p := by
  induction l generalizing s with
  | nil => exact Option.map_id'.symm
  | cons slot l ih =>
    rw [List.foldl_cons, ih, process?_update]
    by_cases hi : slot = i
    · rw [if_pos hi, Option.map_map]
      congr 1
      funext p
      simp [hi, hf]
    · simp [hi, Ne.symm hi]

theorem foldl_update_eq (f : Process → Process) (l : List Nat) (s : Scheduler) :
    ∃ slots, l.foldl (fun s slot => s.update slot f) s = { s with slots } := by
  induction l generalizing s with
  | nil => exact ⟨s.slots, rfl⟩
  | cons slot l ih => exact ih (s.update slot f)

theorem linksFrom_congr (hslots : s'.slots = s.slots) (fuel : Nat) (cursor : Option Nat) :
    s'.linksFrom fuel cursor = s.linksFrom fuel cursor := by
  induction fuel generalizing cursor with
  | zero => rfl
  | succ fuel ih =>
    cases cursor with
    | none => rfl
    | some slot => simp only [linksFrom, process?, hslots, ih]

/-- What a tick does to the process in a slot. -/
def afterTick (s : Scheduler) (i : Nat) (p : Process) : Process :=
  let woken := if i ∈ s.order then p.wake (s.ticks + 1) else p
  if s.current = some i then woken.charge s.timeSlice else woken

/-- What a turn for the process in one slot does to the process in another. -/
def afterTurn (s : Scheduler) (slot i : Nat) (p : Process) : Process :=
  if i = slot then p.promote s.timeSlice else if s.current = some i then p.demote else p

/-- A tick has passed. -/
structure Ticked (s s' : Scheduler) : Prop extends Changed s.afterTick s s' where
  ticks : s'.ticks = s.ticks + 1
  timeSlice : s'.timeSlice = s.timeSlice

theorem core_afterTick (s : Scheduler) (i : Nat) (p : Process) :
    (s.afterTick i p).core = p.core := by
  unfold afterTick
  dsimp only
  split <;> split <;> simp

theorem ticked (h : s.tick = .ok s') : Ticked s s' := by
  unfold tick at h
  split at h
  · cases h
  · next now hnow =>
    obtain rfl := Except.ok.inj h
    obtain ⟨-, rfl⟩ := Word.add?_eq_some.mp hnow
    have horder : ({ s with ticks := s.ticks + 1 } : Scheduler).order = s.order := by
      refine linksFrom_congr ?_ _ _
      rfl
    have hwoken := process?_foldl_update (f := (·.wake (s.ticks + 1))) (fun _ => Process.wake_wake)
      s.order { s with ticks := s.ticks + 1 }
    obtain ⟨slots, hfold⟩ :=
      foldl_update_eq (·.wake (s.ticks + 1)) s.order { s with ticks := s.ticks + 1 }
    rw [horder, hfold]
    rw [hfold] at hwoken
    refine ⟨⟨fun i => ?_, s.core_afterTick⟩, ?_, ?_⟩
    · rw [process?_updateCurrent, hwoken, Option.map_map]
      rfl
    · unfold updateCurrent
      split <;> rfl
    · unfold updateCurrent
      split <;> rfl

/-- Only the last tick that a word can count has no successor. -/
theorem exists_tick (h : s.ticks < Word.maximum) : ∃ s', s.tick = .ok s' := by
  have hadd : Word.add? s.ticks 1 = some (s.ticks + 1) := Word.add?_eq_some.mpr ⟨h, rfl⟩
  exact ⟨_, by rw [tick, hadd]⟩

theorem afterTick_of_ne (hb : p.state ≠ .blocked) (hr : p.state ≠ .running) :
    s.afterTick i p = p := by
  have hwake : (if i ∈ s.order then p.wake (s.ticks + 1) else p) = p := by
    rw [Process.wake_of_ne hb, ite_self]
  rw [afterTick, hwake, Process.charge_of_ne hr]
  exact ite_self p

theorem running_of_afterTick (h : (s.afterTick i p).state = .running) : p.state = .running := by
  unfold afterTick at h
  dsimp only at h
  split at h
  · split at h
    · exact Process.running_of_wake (Process.running_of_charge h)
    · exact Process.running_of_charge h
  · split at h
    · exact Process.running_of_wake h
    · exact h

theorem process?_promote (s : Scheduler) (slot i : Nat) :
    (s.promote slot).process? i = (s.process? i).map (s.afterTurn slot i) := by
  -- the promotion itself, once the process that ran before has been demoted
  have hturn : ∀ s₁ : Scheduler, s₁.timeSlice = s.timeSlice →
      (s₁.process? i = (s.process? i).map fun p =>
        if i ≠ slot ∧ s.current = some i then p.demote else p) →
      ({ s₁ with current := some slot }.update slot (·.promote s₁.timeSlice)).process? i =
        (s.process? i).map (s.afterTurn slot i) := by
    intro s₁ hslice hdemoted
    rw [process?_update, show ({ s₁ with current := some slot } : Scheduler).process? i =
      s₁.process? i from rfl, hdemoted, hslice]
    unfold afterTurn
    by_cases hi : slot = i
    · simp [hi]
    · simp [hi, Ne.symm hi]
  have hkept : ¬ (i ≠ slot ∧ s.current = some i) → s.process? i =
      (s.process? i).map fun p => if i ≠ slot ∧ s.current = some i then p.demote else p := by
    intro hno
    simp only [if_neg hno, Option.map_id']
  unfold promote
  dsimp only
  split
  · next before hc =>
    split
    · next heq =>
      exact hturn s rfl (hkept fun ⟨hi, hs⟩ => hi ((Option.some.inj (hs.symm.trans hc)).trans heq))
    · next hne =>
      refine hturn (s.update before (·.demote)) rfl ?_
      rw [process?_update, hc]
      by_cases hi : before = i
      · simp [← hi, hne]
      · simp [hi]
  · next hc => exact hturn s rfl (hkept fun ⟨_, hs⟩ => nomatch hc.symm.trans hs)

theorem changed_promote (s : Scheduler) (slot : Nat) :
    Changed (s.afterTurn slot) s (s.promote slot) := by
  refine ⟨s.process?_promote slot, fun i p => ?_⟩
  unfold afterTurn
  split
  · rfl
  · split
    · exact Process.core_demote p
    · rfl

theorem changed_idle (s : Scheduler) :
    Changed (fun i p => if s.current = some i then p.demote else p) s s.idle := by
  have hc := changed_updateCurrent Process.core_demote s
  exact ⟨hc.process?, hc.core⟩

end Scheduler

end KernelCore
