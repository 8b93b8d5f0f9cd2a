import Mathlib
import KernelCore.Proofs.Scheduler.Discipline

/-!
# Numbers for life

Numbers are given out in ascending order, so that the number of a process that is gone is never
given to another. With the discipline of the processes this makes a table regular.
-/
namespace KernelCore.Scheduler

variable {s s' s'' : Scheduler} {r r' : Resources} {pid : Pid} {op : Operation}
variable {ops : List Operation} {name : String} {entry : Nat}

/-- Numbers are not taken back, and a process comes to life with a new one only. -/
structure Issues (s s' : Scheduler) : Prop where
  le : s.nextPid ≤ s'.nextPid
  born : ∀ q, s'.Lives q → s.Lives q ∨ s.nextPid ≤ q

theorem Issues.refl (s : Scheduler) : Issues s s := ⟨le_rfl, fun _ => .inl⟩

theorem Issues.trans (h : Issues s s') (h' : Issues s' s'') : Issues s s'' := by
  refine ⟨h.le.trans h'.le, fun q hl => ?_⟩
  obtain hl' | hnew := h'.born q hl
  · exact h.born q hl'
  · exact .inr (h.le.trans hnew)

theorem issues_of_retains (ho : s.Orderly) (ho' : s'.Orderly) (hk : Retains s s')
    (hn : s'.nextPid = s.nextPid) : Issues s s' := by
  refine ⟨hn.ge, fun q hl => .inl ?_⟩
  obtain ⟨i, hi⟩ := ho'.numbered.lives_iff.mp hl
  obtain ⟨p', hp', rfl⟩ := Option.map_eq_some_iff.mp hi
  obtain ⟨p, hp, htenant, -⟩ := hk i p' hp'
  have hpid : p'.pid = p.pid := congrArg Tenant.pid htenant
  exact ho.numbered.lives_iff.mpr ⟨i, by rw [pidAt, hp, Option.map_some, hpid]⟩

theorem issues_create {result : Except KernelError Pid} (ho : s.Orderly)
    (hc : s.create r name entry = .ok (result, s', r')) : Issues s s' := by
  have ho' := (ho.create hc).1
  obtain ⟨slot, t, -, ha, -⟩ | ⟨-, hs, -⟩ := create_spec hc
  · refine ⟨ha.nextPid.ge.trans' (Nat.le_succ _), fun q hl => ?_⟩
    obtain ⟨i, hi⟩ := ho'.numbered.lives_iff.mp hl
    rw [pidAt_eq, ha.seat] at hi
    split at hi
    · obtain rfl := Option.some.inj hi
      exact .inr ha.pid.ge
    · exact .inl (ho.numbered.lives_iff.mpr ⟨i, by rw [pidAt_eq, hi]⟩)
  · refine ⟨hs.nextPid.ge, fun q hl => .inl ?_⟩
    obtain ⟨i, hi⟩ := ho'.numbered.lives_iff.mp hl
    rw [pidAt_congr hs.seat] at hi
    exact ho.numbered.lives_iff.mpr ⟨i, hi⟩

theorem Orderly.issues (h : s.Orderly) (hp : s.perform op = .ok s') : Issues s s' := by
  have ho := (h.perform hp).1
  obtain ⟨_, _, _, _, _, -, hc⟩ | hd | ⟨ht, hn⟩ := perform_cases hp
  · exact issues_create h hc
  · exact issues_of_retains h ho hd.retains hd.nextPid
  · exact issues_of_retains h ho ht.retains hn

theorem Orderly.issues_run (h : s.Orderly) (hr : s.run ops = .ok s') : Issues s s' := by
  induction ops generalizing s with
  | nil =>
    cases hr
    exact .refl _
  | cons op ops ih =>
    rw [Scheduler.run, List.foldlM_cons] at hr
    obtain ⟨s₁, hs, hr⟩ := Fault.of_bind_eq_ok hr
    exact (h.issues hs).trans (ih (h.perform hs).1 hr)

theorem Orderly.gone (h : s.Orderly) (hlt : pid < s.nextPid) (hnone : s.get? pid = none)
    (hr : s.run ops = .ok s') : s'.get? pid = none := by
  by_contra hsome
  obtain hl | hnew := (h.issues_run hr).born pid (Option.isSome_iff_ne_none.mpr hsome)
  · rw [Lives, hnone] at hl
    cases hl
  · exact absurd hlt (Nat.not_lt.mpr hnew)

theorem Numbered.lt_nextPid (h : s.Numbered) (hl : s.Lives pid) : pid < s.nextPid := by
  obtain ⟨i, hi⟩ := h.lives_iff.mp hl
  rw [pidAt_eq] at hi
  obtain ⟨t, ht, rfl⟩ := Option.map_eq_some_iff.mp hi
  exact h.below i t ht

theorem Orderly.gone_of_left (h : s.Orderly) (hl : s.Lives pid) (hp : s.perform op = .ok s'')
    (hno : ¬ s''.Lives pid) (hr : s''.run ops = .ok s') : s'.get? pid = none := by
  have hlt := (h.numbered.lt_nextPid hl).trans_le (h.issues hp).le
  exact (h.perform hp).1.gone hlt (by simpa [Lives] using hno) hr

/-- The states, the slices, the wake ticks and the numbers agree, for turns of `slice` ticks. -/
structure Regular (slice : Nat) (s : Scheduler) : Prop where
  /-- Two processes are never running at once. -/
  one : ∀ i j p q, s.process? i = some p → s.process? j = some q → p.state = .running →
    q.state = .running → i = j
  current : ∀ i p, s.process? i = some p → p.state = .running → s.current = some i
  occupied : ∀ i, s.current = some i → (s.process? i).isSome
  lawful : ∀ i p, s.process? i = some p → p.Lawful slice
  distinct : ∀ i j p q, s.process? i = some p → s.process? j = some q → p.pid = q.pid → i = j
  below : ∀ i p, s.process? i = some p → p.pid < s.nextPid
  /-- A new process has the next number, which is larger than all those before. -/
  issued : ∀ r name entry pid s' r', s.create r name entry = .ok (.ok pid, s', r') →
    pid = s.nextPid ∧ s'.nextPid = pid + 1
  /-- Who is destroyed is gone, however the run goes on. -/
  destroyed : ∀ r pid s₁ ops s', s.Lives pid → s.perform (.destroy r pid) = .ok s₁ →
    s₁.run ops = .ok s' → s'.get? pid = none
  /-- So is who is reaped, -/
  reaped : ∀ r pid s₁ ops s', s.Lives pid → pid ∈ s.reapable → s.perform (.reap r) = .ok s₁ →
    s₁.run ops = .ok s' → s'.get? pid = none
  /-- and who had a number and is not there any more. -/
  gone : ∀ pid ops s', pid < s.nextPid → s.get? pid = none → s.run ops = .ok s' →
    s'.get? pid = none

theorem Disciplined.regular (h : s.Disciplined) : s.Regular s.timeSlice where
  one i j p q hp hq hr hr' := Option.some.inj ((h.sole i p hp hr).symm.trans (h.sole j q hq hr'))
  current := h.sole
  occupied i hi := by
    have hseat := h.seated i hi
    rwa [seat, Option.isSome_map] at hseat
  lawful := h.lawful
  distinct i j p q hp hq hpid :=
    h.numbered.distinct i j p.tenant q.tenant (seat_of_process? hp) (seat_of_process? hq) hpid
  below i p hp := h.numbered.below i p.tenant (seat_of_process? hp)
  issued r name entry pid s' r' hc := by
    obtain ⟨_, t, ht, ha, -⟩ | ⟨⟨_, hbad⟩, -⟩ := create_spec hc
    · obtain rfl := Except.ok.inj ht
      exact ⟨ha.pid, ha.nextPid.trans (congrArg (· + 1) ha.pid.symm)⟩
    · cases hbad
  destroyed r pid s₁ ops s' hl hp hr := by
    obtain ⟨hlives, -⟩ := (h.toOrderly.perform hp).2
    exact h.toOrderly.gone_of_left hl hp (fun hl' => ((hlives pid).mp hl').2 rfl) hr
  reaped r pid s₁ ops s' hl hmem hp hr := by
    obtain ⟨hlives, -⟩ := (h.toOrderly.perform hp).2
    exact h.toOrderly.gone_of_left hl hp (fun hl' => ((hlives pid).mp hl').2 hmem) hr
  gone pid ops s' hlt hnone hr := h.toOrderly.gone hlt hnone hr

/-- In every state that a run comes to, the table is regular. -/
theorem regular_of_run {ticks : Nat} (hr : (ofTimeSlice ticks).run ops = .ok s) :
    s.timeSlice = max ticks 1 ∧ s.Regular (max ticks 1) := by
  obtain ⟨h, hslice⟩ := (disciplined_ofTimeSlice ticks).run (Nat.le_max_right ticks 1) hr
  have hslice : s.timeSlice = max ticks 1 := hslice
  exact ⟨hslice, hslice ▸ h.regular⟩

/-- The current process was destroyed while it ran; the second one took its slot, ended and was put
to sleep. -/
theorem regular_of_reused_slot : ∃ s,
    (ofTimeSlice 0).run [.create oneProcess "a" 0, .enqueue 1, .next, .destroy oneProcess 1,
      .create oneProcess "b" 0, .enqueue 2, .next, .exit 7, .sleep 2, .create oneProcess "c" 0,
      .enqueue 3, .next, .tick] = .ok s ∧
      s.queue = [2, 3] ∧ s.current = some 1 ∧ s.get? 1 = none ∧ s.timeSlice = 1 ∧ s.Regular 1 := by
  have hrun : (((ofTimeSlice 0).run [.create oneProcess "a" 0, .enqueue 1, .next,
      .destroy oneProcess 1, .create oneProcess "b" 0, .enqueue 2, .next, .exit 7, .sleep 2,
      .create oneProcess "c" 0, .enqueue 3, .next, .tick]).toOption.any fun s =>
        decide (s.queue = [2, 3] ∧ s.current = some 1 ∧ s.get? 1 = none)) = true := by
    decide +kernel
  obtain ⟨s, hr, hs⟩ := Fault.exists_of_any hrun
  obtain ⟨hqueue, hcurrent, hnone⟩ := of_decide_eq_true hs
  obtain ⟨hslice, hregular⟩ := regular_of_run hr
  exact ⟨s, hr, hqueue, hcurrent, hnone, hslice, hregular⟩

end KernelCore.Scheduler
