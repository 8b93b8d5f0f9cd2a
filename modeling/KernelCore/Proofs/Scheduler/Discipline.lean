import Mathlib
import KernelCore.Proofs.Scheduler.QueueRun
import KernelCore.Proofs.Scheduler.Selection

/-!
# Discipline

Whatever the scheduler is asked to do, what it keeps of its processes agrees: only the current one
runs, nobody has more than a turn left, and sleep goes with a wake tick.
-/
namespace KernelCore

/-- Part of a turn is left, a sleeper has a wake tick, and one who is not asleep has none. A process
that has ended may keep the tick of its last sleep. -/
structure Process.Lawful (slice : Nat) (p : Process) : Prop where
  pos : 1 ≤ p.timeSlice
  le : p.timeSlice ≤ slice
  asleep : p.state = .blocked → p.wakeAt.isSome
  awake : p.state = .ready ∨ p.state = .running → p.wakeAt = none

namespace Process.Lawful

variable {slice : Nat} {p p' : Process}

theorem turn (h : p.Lawful slice) : 1 ≤ slice := h.pos.trans h.le

theorem of_unhooked (h : p.Lawful slice) (hsame : p'.unhooked = p.unhooked) : p'.Lawful slice := by
  have hslice : p'.timeSlice = p.timeSlice := congrArg (·.timeSlice) hsame
  have hstate : p'.state = p.state := congrArg (·.state) hsame
  have hwake : p'.wakeAt = p.wakeAt := congrArg (·.wakeAt) hsame
  constructor
  · exact hslice ▸ h.pos
  · exact hslice ▸ h.le
  · rw [hstate, hwake]
    exact h.asleep
  · rw [hstate, hwake]
    exact h.awake

theorem wake (h : p.Lawful slice) (now : Nat) : (p.wake now).Lawful slice := by
  unfold Process.wake
  split
  · exact ⟨h.pos, h.le, by simp, by simp⟩
  · exact h

theorem demote (h : p.Lawful slice) : p.demote.Lawful slice := by
  unfold Process.demote
  split
  · next hr => exact ⟨h.pos, h.le, by simp, fun _ => h.awake (.inr hr)⟩
  · exact h

theorem promote (h : p.Lawful slice) (hready : p.state = .ready) :
    (p.promote slice).Lawful slice :=
  ⟨h.turn, le_rfl, by simp [Process.promote], fun _ => h.awake (.inl hready)⟩

theorem yield (h : p.Lawful slice) : (p.yield slice).Lawful slice := by
  unfold Process.yield
  split
  · next hr => exact ⟨h.turn, le_rfl, by simp, fun _ => h.awake (.inr hr)⟩
  · exact h

theorem charge (h : p.Lawful slice) : (p.charge slice).Lawful slice := by
  unfold Process.charge
  split
  · next hr =>
    split
    · exact ⟨h.turn, le_rfl, by simp, fun _ => h.awake (.inr hr)⟩
    · next hleft =>
      have hle := h.le
      exact ⟨by simp only; omega, by simp only; omega, by simp [hr], fun _ => h.awake (.inr hr)⟩
  · exact h

theorem sleepUntil (h : p.Lawful slice) (tick : Nat) : (p.sleepUntil tick).Lawful slice :=
  ⟨h.pos, h.le, fun _ => rfl, by simp [Process.sleepUntil]⟩

theorem exit (h : p.Lawful slice) (status : Int) : (p.exit status).Lawful slice :=
  ⟨h.pos, h.le, by simp [Process.exit], by simp [Process.exit]⟩

end Process.Lawful

namespace Scheduler

/-- A process that is running is the current one. -/
def Sole (s : Scheduler) : Prop :=
  ∀ i p, s.process? i = some p → p.state = .running → s.current = some i

/-- The current slot is taken, the running process is the current one, and every process is
lawful. -/
structure Disciplined (s : Scheduler) : Prop extends Orderly s where
  seated : s.Seated
  sole : s.Sole
  lawful : ∀ i p, s.process? i = some p → p.Lawful s.timeSlice

variable {s s' s'' : Scheduler} {r r' : Resources} {slot i : Nat} {pid q : Pid} {p : Process}
variable {op : Operation} {ops : List Operation} {name : String} {entry : Nat}

/-! ### The length of a turn -/

theorem timeSlice_updateCurrent (s : Scheduler) (f : Process → Process) :
    (s.updateCurrent f).timeSlice = s.timeSlice := by
  unfold updateCurrent
  split <;> rfl

theorem timeSlice_promote (s : Scheduler) (slot : Nat) :
    (s.promote slot).timeSlice = s.timeSlice := by
  unfold promote
  dsimp only
  split
  · split <;> rfl
  · rfl

theorem timeSlice_link (s : Scheduler) (slot : Nat) : (s.link slot).2.timeSlice = s.timeSlice := by
  unfold link
  split
  · rfl
  · split
    · rfl
    · dsimp only
      split <;> rfl

theorem timeSlice_unlink (s : Scheduler) (slot : Nat) :
    (s.unlink slot).2.timeSlice = s.timeSlice := by
  unfold unlink
  split
  · rfl
  · split
    · rfl
    · dsimp only
      split <;> split <;> rfl

theorem timeSlice_create {result : Except KernelError Pid}
    (h : s.create r name entry = .ok (result, s', r')) : s'.timeSlice = s.timeSlice := by
  unfold create at h
  split at h
  · cases h
    rfl
  · obtain ⟨_, -, h⟩ := Fault.of_bind_eq_ok h
    split at h <;> cases h <;> exact s.timeSlice_reserveSlot

theorem timeSlice_destroy {found : Bool} (h : s.destroy r pid = .ok (found, s', r')) :
    s'.timeSlice = s.timeSlice := by
  unfold destroy at h
  split at h
  · cases h
    rfl
  · next slot _ =>
    have hunlink := s.timeSlice_unlink slot
    dsimp only at h
    split at h
    · cases h
      split <;> exact hunlink
    · obtain ⟨_, -, h⟩ := Fault.of_bind_eq_ok h
      cases h
      dsimp only
      split <;> exact hunlink

theorem timeSlice_destroyAll {pids : List Pid} (h : s.destroyAll r pids = .ok (s', r')) :
    s'.timeSlice = s.timeSlice := by
  induction pids generalizing s r with
  | nil =>
    cases h
    rfl
  | cons pid pids ih =>
    rw [destroyAll] at h
    obtain ⟨⟨_, _, _⟩, h₁, h⟩ := Fault.of_bind_eq_ok h
    exact (ih h).trans (timeSlice_destroy h₁)

/-! ### One runs at most -/

theorem sole_of_changed {f : Nat → Process → Process} (hc : Changed f s s')
    (hrun : ∀ i p, s.process? i = some p → (f i p).state = .running → s'.current = some i) :
    s'.Sole := by
  intro i p' hp' hr
  obtain ⟨p, hp, rfl⟩ := hc.exists_of_process? hp'
  exact hrun i p hp hr

namespace Sole

theorem updateCurrent (h : s.Sole) {f : Process → Process} (hf : ∀ p, (f p).core = p.core) :
    (s.updateCurrent f).Sole := by
  refine sole_of_changed (changed_updateCurrent hf s) fun i p hp hr => ?_
  rw [current_updateCurrent]
  split at hr
  · next hi => exact hi
  · exact h i p hp hr

theorem tick (h : s.Sole) (ht : s.tick = .ok s') : s'.Sole := by
  refine sole_of_changed (ticked ht).toChanged fun i p hp hr => ?_
  rw [current_tick ht]
  exact h i p hp (running_of_afterTick hr)

theorem promote (h : s.Sole) (slot : Nat) : (s.promote slot).Sole := by
  refine sole_of_changed (s.changed_promote slot) fun i p hp hr => ?_
  unfold afterTurn at hr
  split at hr
  · next heq => exact congrArg some heq.symm
  · split at hr
    · exact absurd hr Process.state_demote_ne
    · next hne => exact absurd (h i p hp hr) hne

theorem idle (h : s.Sole) : s.idle.Sole := by
  refine sole_of_changed s.changed_idle fun i p hp hr => ?_
  split at hr
  · exact absurd hr Process.state_demote_ne
  · next hne => exact absurd (h i p hp hr) hne

theorem thinned (h : s.Sole) (ht : Thinned s s')
    (hc : ∀ i, s.current = some i → (s'.process? i).isSome → s'.current = some i) : s'.Sole := by
  intro i p' hp' hr
  obtain ⟨p, hp, hsame⟩ := ht i p' hp'
  obtain ⟨-, hstate, -⟩ := state_of_unhooked hsame
  exact hc i (h i p hp (hstate.symm.trans hr)) (by rw [hp']; rfl)

theorem rehung (h : s.Sole) (hr : Rehung s s') : s'.Sole :=
  h.thinned hr.thinned fun _ hi _ => hr.current.trans hi

theorem destroy {found : Bool} (h : s.Sole) (hd : s.destroy r pid = .ok (found, s', r')) :
    s'.Sole := by
  obtain ⟨slot, t, -, -, he, -⟩ | ⟨-, rfl, -⟩ := destroy_spec hd
  · refine h.thinned (thinned_destroy hd) fun i hi hsome => ?_
    have hne : s.current ≠ some slot := by
      intro heq
      obtain rfl : i = slot := Option.some.inj (hi.symm.trans heq)
      have hseat := he.seat i
      rw [if_pos rfl, seat, Option.map_eq_none_iff] at hseat
      rw [hseat] at hsome
      cases hsome
    rw [he.current, if_neg hne, hi]
  · exact h

theorem create {result : Except KernelError Pid} (h : s.Sole)
    (hc : s.create r name entry = .ok (result, s', r')) : s'.Sole := by
  have hcurrent : s'.current = s.current := by
    obtain ⟨_, _, _, ha, -⟩ | ⟨-, hs, -⟩ := create_spec hc
    · exact ha.current
    · exact hs.current
  intro i p' hp' hr
  rw [hcurrent]
  obtain ⟨-, ⟨slot, p, -, hproc, -, hready, -⟩ | ⟨-, hproc⟩⟩ := create_slots hc <;>
    rw [hproc] at hp'
  · split at hp'
    · cases hp'
      rw [hready] at hr
      cases hr
    · exact h i p' hp' hr
  · exact h i p' hp' hr

end Sole

/-! ### All clauses together -/

theorem seated_destroy {found : Bool} (h : s.Seated)
    (hd : s.destroy r pid = .ok (found, s', r')) : s'.Seated := by
  obtain ⟨_, _, -, -, he, -⟩ | ⟨-, rfl, -⟩ := destroy_spec hd
  · exact he.seated h
  · exact h

theorem seated_updateCurrent {f : Process → Process} (h : s.Seated)
    (hf : ∀ p, (f p).core = p.core) : (s.updateCurrent f).Seated := by
  intro i hi
  rw [(dispatched_updateCurrent hf s).keeps.seat]
  exact h i ((s.current_updateCurrent f).symm.trans hi)

theorem seated_idle (s : Scheduler) : s.idle.Seated := fun _ hi => nomatch hi

theorem seated_promote (hp : (s.process? slot).isSome) : (s.promote slot).Seated := by
  intro i hi
  obtain rfl : slot = i := Option.some.inj hi
  rw [(s.dispatched_promote slot).keeps.seat, seat, Option.isSome_map]
  exact hp

namespace Disciplined

theorem changed {f : Nat → Process → Process} (h : s.Disciplined) (hd : Dispatched s s')
    (hc : Changed f s s') (hslice : s'.timeSlice = s.timeSlice) (hseated : s'.Seated)
    (hsole : s'.Sole) (hf : ∀ i p, s.process? i = some p → (f i p).Lawful s.timeSlice) :
    s'.Disciplined := by
  refine ⟨(h.toOrderly.dispatched hd).1, hseated, hsole, fun i p' hp' => ?_⟩
  obtain ⟨p, hp, rfl⟩ := hc.exists_of_process? hp'
  rw [hslice]
  exact hf i p hp

theorem thinned (h : s.Disciplined) (ht : Thinned s s') (hslice : s'.timeSlice = s.timeSlice)
    (ho : s'.Orderly) (hseated : s'.Seated) (hsole : s'.Sole) : s'.Disciplined := by
  refine ⟨ho, hseated, hsole, fun i p' hp' => ?_⟩
  obtain ⟨p, hp, hsame⟩ := ht i p' hp'
  rw [hslice]
  exact (h.lawful i p hp).of_unhooked hsame

theorem updateCurrent (h : s.Disciplined) {f : Process → Process} (hf : ∀ p, (f p).core = p.core)
    (hlawful : ∀ p, p.Lawful s.timeSlice → (f p).Lawful s.timeSlice) :
    (s.updateCurrent f).Disciplined := by
  refine h.changed (dispatched_updateCurrent hf s) (changed_updateCurrent hf s)
    (s.timeSlice_updateCurrent f) (seated_updateCurrent h.seated hf) (h.sole.updateCurrent hf)
    fun i p hp => ?_
  split
  · exact hlawful p (h.lawful i p hp)
  · exact h.lawful i p hp

theorem tick (h : s.Disciplined) (ht : s.tick = .ok s') : s'.Disciplined := by
  have hticked := ticked ht
  refine h.changed (dispatched_tick ht) hticked.toChanged hticked.timeSlice
    ((stays_tick ht).settled.seated h.seated) (h.sole.tick ht) fun i p hp => ?_
  have hp := h.lawful i p hp
  have hwoken : (if i ∈ s.order then p.wake (s.ticks + 1) else p).Lawful s.timeSlice := by
    split
    · exact hp.wake _
    · exact hp
  unfold afterTick
  dsimp only
  split
  · exact hwoken.charge
  · exact hwoken

theorem promote (h : s.Disciplined) (hp : s.process? slot = some p) (hready : p.state = .ready) :
    (s.promote slot).Disciplined := by
  refine h.changed (s.dispatched_promote slot) (s.changed_promote slot) (s.timeSlice_promote slot)
    (seated_promote (by rw [hp]; rfl)) (h.sole.promote slot) fun i q hq => ?_
  have hlawful := h.lawful i q hq
  unfold afterTurn
  split
  · next hi =>
    subst hi
    obtain rfl : p = q := Option.some.inj (hp.symm.trans hq)
    exact hlawful.promote hready
  · split
    · exact hlawful.demote
    · exact hlawful

theorem next (h : s.Disciplined) : s.next.2.Disciplined := by
  obtain ⟨l, ht⟩ := h.threaded
  rw [ht.next_turn]
  split
  · next slot hfound =>
    obtain ⟨p, hp, hready⟩ := exists_of_readyAt (List.find?_some hfound)
    exact h.promote hp hready
  · exact h

theorem idle (h : s.Disciplined) : s.idle.Disciplined := by
  refine h.changed s.dispatched_idle s.changed_idle (s.timeSlice_updateCurrent _) s.seated_idle
    h.sole.idle fun i p hp => ?_
  split
  · exact (h.lawful i p hp).demote
  · exact h.lawful i p hp

theorem destroy {found : Bool} (h : s.Disciplined)
    (hd : s.destroy r pid = .ok (found, s', r')) : s'.Disciplined := by
  obtain ⟨l, ht⟩ := h.threaded
  obtain ⟨ht', hn', -⟩ := ht.destroy h.numbered hd
  exact h.thinned (thinned_destroy hd) (timeSlice_destroy hd) ⟨hn', ht'⟩
    (seated_destroy h.seated hd) (h.sole.destroy hd)

theorem destroyAll {pids : List Pid} (h : s.Disciplined)
    (hd : s.destroyAll r pids = .ok (s', r')) : s'.Disciplined := by
  induction pids generalizing s r with
  | nil =>
    cases hd
    exact h
  | cons pid pids ih =>
    rw [Scheduler.destroyAll] at hd
    obtain ⟨⟨_, _, _⟩, h₁, hd⟩ := Fault.of_bind_eq_ok hd
    exact ih (h.destroy h₁) hd

theorem create {result : Except KernelError Pid} (h : s.Disciplined) (hturn : 1 ≤ s.timeSlice)
    (hc : s.create r name entry = .ok (result, s', r')) : s'.Disciplined := by
  have hseated : s'.Seated := by
    obtain ⟨_, _, _, ha, -⟩ | ⟨-, hs, -⟩ := create_spec hc
    · exact ha.seated h.seated
    · exact hs.seated h.seated
  refine ⟨(h.toOrderly.create hc).1, hseated, h.sole.create hc, fun i p' hp' => ?_⟩
  rw [timeSlice_create hc]
  obtain ⟨-, ⟨slot, p, -, hproc, -, hready, -, -, -, hslice, hwake, -⟩ | ⟨-, hproc⟩⟩ :=
    create_slots hc <;> rw [hproc] at hp'
  · split at hp'
    · cases hp'
      exact ⟨hslice ▸ hturn, hslice.le, by simp [hready], fun _ => hwake⟩
    · exact h.lawful i p' hp'
  · exact h.lawful i p' hp'

theorem rehung (h : s.Disciplined) (hr : Rehung s s') (hslice : s'.timeSlice = s.timeSlice)
    (ho : s'.Orderly) : s'.Disciplined :=
  h.thinned hr.thinned hslice ho (hr.stays.settled.seated h.seated) (h.sole.rehung hr)

end Disciplined

theorem timeSlice_perform (h : s.Orderly) (hp : s.perform op = .ok s') :
    s'.timeSlice = s.timeSlice := by
  cases op with
  | create r name entry =>
    obtain ⟨⟨_, _, _⟩, hc, hp⟩ := Fault.of_bind_eq_ok hp
    cases hp
    exact timeSlice_create hc
  | destroy r pid =>
    obtain ⟨⟨_, _, _⟩, hd, hp⟩ := Fault.of_bind_eq_ok hp
    cases hp
    exact timeSlice_destroy hd
  | enqueue pid =>
    cases hp
    unfold enqueue
    split
    · exact s.timeSlice_link _
    · rfl
  | dequeue pid =>
    cases hp
    unfold dequeue
    split
    · exact s.timeSlice_unlink _
    · rfl
  | tick => exact (ticked hp).timeSlice
  | next =>
    cases hp
    obtain ⟨l, ht⟩ := h.threaded
    rw [ht.next_turn]
    split
    · exact s.timeSlice_promote _
    · rfl
  | idle | sleep | exit | yield =>
    cases hp
    exact s.timeSlice_updateCurrent _
  | reap r =>
    obtain ⟨⟨_, _, _⟩, hr, hp⟩ := Fault.of_bind_eq_ok hp
    cases hp
    obtain ⟨⟨_, _⟩, hd, hr⟩ := Fault.of_bind_eq_ok hr
    cases hr
    exact timeSlice_destroyAll hd

theorem Disciplined.perform (h : s.Disciplined) (hturn : 1 ≤ s.timeSlice)
    (hp : s.perform op = .ok s') : s'.Disciplined := by
  have ho := (h.toOrderly.perform hp).1
  have hslice := timeSlice_perform h.toOrderly hp
  cases op with
  | create r name entry =>
    obtain ⟨⟨_, _, _⟩, hc, hp⟩ := Fault.of_bind_eq_ok hp
    cases hp
    exact h.create hturn hc
  | destroy r pid =>
    obtain ⟨⟨_, _, _⟩, hd, hp⟩ := Fault.of_bind_eq_ok hp
    cases hp
    exact h.destroy hd
  | enqueue pid =>
    cases hp
    exact h.rehung (s.rehung_enqueue pid) hslice ho
  | dequeue pid =>
    cases hp
    exact h.rehung (s.rehung_dequeue pid) hslice ho
  | tick => exact h.tick hp
  | next =>
    cases hp
    exact h.next
  | idle =>
    cases hp
    exact h.idle
  | sleep ticks =>
    cases hp
    exact h.updateCurrent (Process.core_sleepUntil _) fun _ hl => hl.sleepUntil _
  | exit status =>
    cases hp
    exact h.updateCurrent (Process.core_exit status) fun _ hl => hl.exit status
  | yield =>
    cases hp
    exact h.updateCurrent (Process.core_yield _) fun _ hl => hl.yield
  | reap r =>
    obtain ⟨⟨_, _, _⟩, hr, hp⟩ := Fault.of_bind_eq_ok hp
    cases hp
    obtain ⟨⟨_, _⟩, hd, hr⟩ := Fault.of_bind_eq_ok hr
    cases hr
    exact h.destroyAll hd

theorem Disciplined.run (h : s.Disciplined) (hturn : 1 ≤ s.timeSlice) (hr : s.run ops = .ok s') :
    s'.Disciplined ∧ s'.timeSlice = s.timeSlice := by
  induction ops generalizing s with
  | nil =>
    cases hr
    exact ⟨h, rfl⟩
  | cons op ops ih =>
    rw [Scheduler.run, List.foldlM_cons] at hr
    obtain ⟨s₁, hs, hr⟩ := Fault.of_bind_eq_ok hr
    have hslice := timeSlice_perform h.toOrderly hs
    obtain ⟨h', hslice'⟩ := ih (h.perform hturn hs) (hturn.trans_eq hslice.symm) hr
    exact ⟨h', hslice'.trans hslice⟩

theorem disciplined_ofTimeSlice (ticks : Nat) : (ofTimeSlice ticks).Disciplined := by
  refine ⟨orderly_ofTimeSlice ticks, fun i hi => ?_, fun i p hp => ?_, fun i p hp => ?_⟩
  · cases hi
  · cases hp
  · cases hp

end Scheduler

end KernelCore
