import Mathlib.Logic.Function.Basic
import Mathlib.Data.List.Nodup
import KernelCore.Processor.Lock

/-!
# Masked interrupts and overlapping locks

Any number of locks on one processor, taken one after the other and given back in any order. Each
guard remembers the interrupt flag that it found, so at most one guard alive has to enable
interrupts, and the flag is as before the first lock as soon as all guards are gone. While guards
are alive interrupts stay masked exactly if the guard taken first is always the last one to go.
-/
namespace KernelCore

/-- A processor and the locks in use on it, each around a value of its own type. -/
structure Locks (ι : Type) (α : ι → Type) where
  processor : Processor
  lock : (i : ι) → InterruptLock (α i)

namespace Locks

/-- What may happen on the processor. -/
inductive Step (ι : Type) (α : ι → Type) where
  | take (i : ι)
  /-- The guard of a lock is dropped. -/
  | give (i : ι)
  /-- The holder of a lock writes the value in it. -/
  | write (i : ι) (value : α i)
  /-- Other code, which leaves the interrupt flag alone, leaves the processor as given. -/
  | work (p : Processor)

variable {ι : Type} {α : ι → Type} {l l' : Locks ι α} {i j : ι}

def guard (l : Locks ι α) (i : ι) : Option Bool := (l.lock i).guard

def Held (l : Locks ι α) (i : ι) : Prop := (l.lock i).isLocked

instance (l : Locks ι α) (i : ι) : Decidable (l.Held i) :=
  inferInstanceAs (Decidable ((l.lock i).isLocked = true))

/-- No interrupt comes in while a guard is alive. -/
def Masked (l : Locks ι α) : Prop := ∀ i, l.Held i → l.processor.interrupts = false

theorem held_iff : l.Held i ↔ l.guard i ≠ none := by
  simp [Held, guard, InterruptLock.isLocked, Option.isSome_iff_ne_none]

section Runs

variable [DecidableEq ι] {steps : List (Step ι α)} {held : List ι}

/-- The locks after a step. Taking a lock that is held never ends, and nobody gives back or writes
what is not held. -/
def step (l : Locks ι α) : Step ι α → Option (Locks ι α)
  | .take i =>
    if l.Held i then none
    else
      let r := (l.lock i).acquire l.processor
      some ⟨r.2, Function.update l.lock i r.1⟩
  | .give i =>
    if l.Held i then
      let r := (l.lock i).release l.processor
      some ⟨r.2.2, Function.update l.lock i r.2.1⟩
    else none
  | .write i value =>
    if l.Held i then some { l with lock := Function.update l.lock i { l.lock i with value } }
    else none
  | .work p =>
    if p.interrupts = l.processor.interrupts then some { l with processor := p } else none

def run (l : Locks ι α) (steps : List (Step ι α)) : Option (Locks ι α) := steps.foldlM step l

/-- The locks held after a step, the one taken first in front. -/
def Step.order (held : List ι) : Step ι α → List ι
  | .take i => held ++ [i]
  | .give i => held.erase i
  | _ => held

/-- A step does not give back the lock taken first while others are held. -/
def Step.SparesFirst (held : List ι) : Step ι α → Prop
  | .give i => held.head? = some i → held = [i]
  | _ => True

instance (held : List ι) : (step : Step ι α) → Decidable (step.SparesFirst held)
  | .give i => inferInstanceAs (Decidable (held.head? = some i → held = [i]))
  | .take _ | .write _ _ | .work _ => isTrue trivial

/-- The lock taken first is given back only when no other is held. -/
def KeepsFirst (held : List ι) : List (Step ι α) → Prop
  | [] => True
  | step :: steps => step.SparesFirst held ∧ KeepsFirst (step.order held) steps

instance decidableKeepsFirst :
    ∀ (held : List ι) (steps : List (Step ι α)), Decidable (KeepsFirst held steps)
  | _, [] => isTrue trivial
  | held, step :: steps =>
    have := decidableKeepsFirst (step.order held) steps
    inferInstanceAs (Decidable (_ ∧ _))

/-! ### The effect of a step -/

theorem guard_update (p : Processor) (lock : InterruptLock (α i)) :
    (⟨p, Function.update l.lock i lock⟩ : Locks ι α).guard =
      Function.update l.guard i lock.guard := by
  funext j
  by_cases h : j = i
  · subst h; simp [guard]
  · simp [guard, h]

theorem step_take (h : l.step (.take i) = some l') :
    l.guard i = none ∧ l'.guard = Function.update l.guard i (some l.processor.interrupts) ∧
      l'.processor.interrupts = false := by
  obtain ⟨hfree, h⟩ := Option.ite_none_left_eq_some.mp h
  cases h
  refine ⟨by_contra fun hg => hfree (held_iff.mpr hg), ?_, Processor.interrupts_enter _⟩
  rw [guard_update]
  cases hp : l.processor.interrupts <;> simp [InterruptLock.acquire, Processor.enter, hp]

theorem step_give (h : l.step (.give i) = some l') :
    ∃ restore, l.guard i = some restore ∧ l'.guard = Function.update l.guard i none ∧
      l'.processor.interrupts = (restore || l.processor.interrupts) := by
  obtain ⟨hheld, h⟩ := Option.ite_none_right_eq_some.mp h
  obtain ⟨restore, hg⟩ := Option.ne_none_iff_exists'.mp (held_iff.mp hheld)
  have hlock : (l.lock i).guard = some restore := hg
  cases h
  refine ⟨restore, hg, ?_, ?_⟩
  · rw [guard_update]
    simp [InterruptLock.release, hlock]
  · cases restore <;> simp [InterruptLock.release, hlock, Processor.leave, Processor.enable]

theorem step_write {value : α i} (h : l.step (.write i value) = some l') :
    l'.guard = l.guard ∧ l'.processor.interrupts = l.processor.interrupts := by
  obtain ⟨-, h⟩ := Option.ite_none_right_eq_some.mp h
  cases h
  exact ⟨by rw [guard_update]; exact Function.update_eq_self i l.guard, rfl⟩

theorem step_work {p : Processor} (h : l.step (.work p) = some l') :
    l'.guard = l.guard ∧ l'.processor.interrupts = l.processor.interrupts := by
  obtain ⟨hp, h⟩ := Option.ite_none_right_eq_some.mp h
  cases h
  exact ⟨rfl, hp⟩

/-! ### Guards given back in any order -/

/-- One guard at most has to enable interrupts, the owner's; while there is an owner interrupts are
masked, and else the flag is as at the start. -/
structure Owned (start : Bool) (owner : Option ι) (l : Locks ι α) : Prop where
  restores : ∀ i, l.guard i = some true ↔ owner = some i
  flag : l.processor.interrupts = (start && owner.isNone)
  found : owner.isSome → start = true

variable {start : Bool} {owner : Option ι}

omit [DecidableEq ι] in
theorem Owned.congr (h : Owned start owner l) (hg : l'.guard = l.guard)
    (hp : l'.processor.interrupts = l.processor.interrupts) : Owned start owner l' :=
  ⟨by rw [hg]; exact h.restores, hp.trans h.flag, h.found⟩

theorem Owned.take (h : Owned start owner l) (ht : l.step (.take i) = some l') :
    Owned start (if l.processor.interrupts then some i else owner) l' := by
  obtain ⟨hfree, hg, hp⟩ := step_take ht
  have hother : owner ≠ some i := fun ho => by
    rw [(h.restores i).mpr ho] at hfree
    cases hfree
  have hflag := h.flag
  cases he : l.processor.interrupts with
  | true =>
    rw [he] at hflag
    obtain ⟨rfl, hnone⟩ := Bool.and_eq_true_iff.mp hflag.symm
    obtain rfl := Option.isNone_iff_eq_none.mp hnone
    refine ⟨fun j => ?_, by simp [hp], fun _ => rfl⟩
    have hj := h.restores j
    by_cases hij : j = i
    · simp [hg, hij, he]
    · simp [hg, hij, hj, Ne.symm hij]
  | false =>
    rw [he] at hflag
    refine ⟨fun j => ?_, by simp [hp, ← hflag], by simpa using h.found⟩
    by_cases hij : j = i
    · simp [hg, hij, he, hother]
    · simpa [hg, hij] using h.restores j

theorem Owned.give (h : Owned start owner l) (hd : l.step (.give i) = some l') :
    Owned start (if owner = some i then none else owner) l' := by
  obtain ⟨restore, hi, hg, hp⟩ := step_give hd
  by_cases ho : owner = some i
  · subst ho
    have hstart := h.found rfl
    obtain rfl : restore = true := by simpa [hi] using (h.restores i).mpr rfl
    refine ⟨fun j => ?_, by simp [hp, hstart], by simp⟩
    have hj := h.restores j
    by_cases hij : j = i
    · simp [hg, hij]
    · simpa [hg, hij, Ne.symm hij] using hj
  · obtain rfl : restore = false := by
      have := mt (h.restores i).mp ho
      simpa [hi] using this
    rw [if_neg ho]
    refine ⟨fun j => ?_, by simpa [hp] using h.flag, h.found⟩
    by_cases hij : j = i
    · simp [hg, hij, ho]
    · simpa [hg, hij] using h.restores j

theorem Owned.step {step : Step ι α} (h : Owned start owner l) (hs : l.step step = some l') :
    ∃ owner', Owned start owner' l' := by
  cases step with
  | take i => exact ⟨_, h.take hs⟩
  | give i => exact ⟨_, h.give hs⟩
  | write i value =>
    obtain ⟨hg, hp⟩ := step_write hs
    exact ⟨_, h.congr hg hp⟩
  | work p =>
    obtain ⟨hg, hp⟩ := step_work hs
    exact ⟨_, h.congr hg hp⟩

theorem Owned.run (h : Owned start owner l) (hr : l.run steps = some l') :
    ∃ owner', Owned start owner' l' := by
  induction steps generalizing l owner with
  | nil =>
    cases hr
    exact ⟨_, h⟩
  | cons step steps ih =>
    rw [Locks.run, List.foldlM_cons] at hr
    obtain ⟨m, hs, hr⟩ := Option.bind_eq_some_iff.mp hr
    obtain ⟨_, hm⟩ := h.step hs
    exact ih hm hr

/-! ### Guards of which the first one is dropped last -/

/-- The locks held, in the order in which they were taken, all behind the guard that has to enable
interrupts. -/
structure Nested (held : List ι) (l : Locks ι α) : Prop where
  owned : Owned true held.head? l
  holds : ∀ i, i ∈ held ↔ l.guard i ≠ none
  nodup : held.Nodup

omit [DecidableEq ι] in
theorem Nested.masked (h : Nested held l) : l.Masked := fun i hi => by
  have hmem := (h.holds i).mpr (held_iff.mp hi)
  obtain ⟨first, rest, rfl⟩ := List.exists_cons_of_ne_nil (List.ne_nil_of_mem hmem)
  exact h.owned.flag

theorem Nested.take (h : Nested held l) (ht : l.step (.take i) = some l') :
    Nested (held ++ [i]) l' := by
  obtain ⟨hfree, hg, -⟩ := step_take ht
  have hout : i ∉ held := fun hi => (h.holds i).mp hi hfree
  have hflag := h.owned.flag
  refine ⟨?_, fun j => ?_, List.nodup_append.mpr ⟨h.nodup, List.nodup_singleton i, ?_⟩⟩
  · have hown := h.owned.take ht
    cases held with
    | nil => simpa [hflag] using hown
    | cons first rest => simpa [hflag] using hown
  · by_cases hij : j = i
    · simp [hg, hij]
    · simpa [hg, hij] using h.holds j
  · rintro j hj k hk rfl
    exact hout (List.mem_singleton.mp hk ▸ hj)

theorem Nested.give (h : Nested held l) (hd : l.step (.give i) = some l')
    (hlast : held.head? = some i → held = [i]) : Nested (held.erase i) l' := by
  obtain ⟨-, -, hg, -⟩ := step_give hd
  refine ⟨?_, fun j => ?_, h.nodup.erase i⟩
  · have hown := h.owned.give hd
    by_cases hi : held.head? = some i
    · rw [if_pos hi] at hown
      simpa [hlast hi] using hown
    · rw [if_neg hi] at hown
      cases held with
      | nil => exact hown
      | cons first rest =>
        have hne : first ≠ i := fun e => hi (congrArg some e)
        simpa [List.erase_cons_tail, hne] using hown
  · rw [h.nodup.mem_erase_iff]
    by_cases hij : j = i
    · simp [hg, hij]
    · simpa [hg, hij] using h.holds j

omit [DecidableEq ι] in
theorem Nested.congr (h : Nested held l) (hg : l'.guard = l.guard)
    (hp : l'.processor.interrupts = l.processor.interrupts) : Nested held l' :=
  ⟨h.owned.congr hg hp, by rw [hg]; exact h.holds, h.nodup⟩

theorem Nested.step {step : Step ι α} (h : Nested held l) (hs : l.step step = some l')
    (hfirst : step.SparesFirst held) : Nested (step.order held) l' := by
  cases step with
  | take i => exact h.take hs
  | give i => exact h.give hs hfirst
  | write i value =>
    obtain ⟨hg, hp⟩ := step_write hs
    exact h.congr hg hp
  | work p =>
    obtain ⟨hg, hp⟩ := step_work hs
    exact h.congr hg hp

/-- Interrupts come in as soon as the guard taken first is dropped before another one. -/
theorem Nested.not_masked {step : Step ι α} (h : Nested held l) (hs : l.step step = some l')
    (hfirst : ¬ step.SparesFirst held) : ¬ l'.Masked := by
  cases step with
  | give i =>
    obtain ⟨hi, hmore⟩ := Classical.not_imp.mp hfirst
    obtain ⟨rest, rfl⟩ := List.head?_eq_some_iff.mp hi
    obtain ⟨j, rest, rfl⟩ : ∃ j rest', rest = j :: rest' :=
      List.exists_cons_of_ne_nil fun e => hmore (by rw [e])
    obtain ⟨_, -, hg, -⟩ := step_give hs
    have hij : j ≠ i := fun e => by simpa [e] using h.nodup
    have hj : l'.Held j := by
      rw [held_iff, hg, Function.update_of_ne hij]
      exact (h.holds j).mp (by simp)
    intro hmasked
    simpa [hmasked j hj] using (h.owned.give hs).flag
  | take i => exact absurd trivial hfirst
  | write i value => exact absurd trivial hfirst
  | work p => exact absurd trivial hfirst

/-- No interrupt comes in while a guard is alive, neither at the start nor after any of the
steps. -/
def MaskedThroughout (l : Locks ι α) (steps : List (Step ι α)) : Prop :=
  ∀ before after m, steps = before ++ after → l.run before = some m → m.Masked

theorem maskedThroughout_cons {step : Step ι α} :
    l.MaskedThroughout (step :: steps) ↔
      l.Masked ∧ ∀ m, l.step step = some m → m.MaskedThroughout steps := by
  refine ⟨fun h => ⟨h [] _ l rfl rfl, fun m hm before after m' he hr => ?_⟩, ?_⟩
  · refine h (step :: before) after m' (by rw [he, List.cons_append]) ?_
    rw [run, List.foldlM_cons, hm]
    exact hr
  · rintro ⟨hl, hrest⟩ (_ | ⟨_, before⟩) after m he hr
    · cases hr
      exact hl
    · obtain ⟨rfl, htail⟩ := List.cons_eq_cons.mp (he.trans List.cons_append)
      obtain ⟨m', hm, hr⟩ := Option.bind_eq_some_iff.mp hr
      exact hrest m' hm before after m htail hr

theorem Nested.run (h : Nested held l) (hr : l.run steps = some l') :
    l.MaskedThroughout steps ↔ KeepsFirst held steps := by
  induction steps generalizing l held with
  | nil =>
    refine ⟨fun _ => trivial, fun _ before after m he hm => ?_⟩
    obtain ⟨rfl, rfl⟩ := List.append_eq_nil_iff.mp he.symm
    cases hm
    exact h.masked
  | cons step steps ih =>
    rw [Locks.run, List.foldlM_cons] at hr
    obtain ⟨m, hs, hr⟩ := Option.bind_eq_some_iff.mp hr
    rw [maskedThroughout_cons, KeepsFirst]
    by_cases hfirst : step.SparesFirst held
    · have hm := ih (h.step hs hfirst) hr
      simp [hs, hm, hfirst, h.masked]
    · refine iff_of_false (fun hall => ?_) fun hkeeps => hfirst hkeeps.1
      exact h.not_masked hs hfirst (hall.2 m hs [] steps m rfl rfl)

/-- From a state without guards, whatever locks are taken and given back in whatever order: the
interrupt flag is as at the start whenever no guard is alive; and while guards are alive it is off
all the time exactly if it was off at the start or the guard taken first always goes last. -/
theorem interrupts_of_run (free : ∀ i, ¬ l.Held i) (h : l.run steps = some l') :
    ((∀ i, ¬ l'.Held i) → l'.processor.interrupts = l.processor.interrupts) ∧
      (l.MaskedThroughout steps ↔ l.processor.interrupts = false ∨ KeepsFirst [] steps) := by
  have unguarded i : l.guard i = none := by_contra fun hg => free i (held_iff.mpr hg)
  have owned : Owned l.processor.interrupts none l := by constructor <;> simp [unguarded]
  refine ⟨fun hfree => ?_, ?_⟩
  · obtain ⟨owner, h'⟩ := owned.run h
    cases owner with
    | none => simpa using h'.flag
    | some i =>
      have hi := (h'.restores i).mpr rfl
      exact absurd (held_iff.mpr (by simp [hi])) (hfree i)
  · cases hstart : l.processor.interrupts with
    | false =>
      rw [hstart] at owned
      refine iff_of_true (fun before after m _ hm i _ => ?_) (.inl rfl)
      obtain ⟨_, hm⟩ := owned.run hm
      simpa using hm.flag
    | true =>
      rw [hstart] at owned
      have nested : Nested [] l := ⟨owned, by simp [unguarded], List.nodup_nil⟩
      simpa using nested.run h

theorem exists_of_run {P : Locks ι α → Prop} [DecidablePred P]
    (h : (l.run steps).any (decide <| P ·) = true) : ∃ l', l.run steps = some l' ∧ P l' := by
  obtain ⟨l', hr, hp⟩ := (Option.any_eq_true _ _).mp h
  exact ⟨l', hr, of_decide_eq_true hp⟩

end Runs

/-- Two free locks while interrupts are enabled. -/
def pair : Locks (Fin 2) fun _ => Nat := ⟨{ interrupts := true }, fun _ => ⟨0, none⟩⟩

/-- One critical section inside another. -/
theorem interrupts_of_inner_first :
    (∀ i, ¬ pair.Held i) ∧
      ∃ l', pair.run [.take 0, .take 1, .write 1 7, .give 1, .give 0] = some l' ∧
        l'.processor.interrupts = true ∧
        pair.MaskedThroughout [.take 0, .take 1, .write 1 7, .give 1, .give 0] := by
  have free : ∀ i, ¬ pair.Held i := by decide
  have ⟨l', h, hfree⟩ : ∃ l', pair.run [.take 0, .take 1, .write 1 7, .give 1, .give 0] = some l' ∧
      ∀ i, ¬ l'.Held i := exists_of_run (by decide +kernel)
  obtain ⟨hflag, hmasked⟩ := interrupts_of_run free h
  exact ⟨free, l', h, hflag hfree, hmasked.mpr (.inr (by decide))⟩

/-- The first of two guards is dropped while the second is alive: interrupts come in although the
second lock is held. -/
theorem interrupts_while_held :
    (∀ i, ¬ pair.Held i) ∧ ∃ l', pair.run [.take 0, .take 1, .give 0] = some l' ∧
      l'.Held 1 ∧ l'.processor.interrupts = true :=
  ⟨by decide, exists_of_run (by decide +kernel)⟩

end Locks

end KernelCore
