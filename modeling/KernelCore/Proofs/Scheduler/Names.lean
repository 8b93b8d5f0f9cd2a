import Mathlib
import KernelCore.Proofs.Process.Truncation
import KernelCore.Proofs.Scheduler.QueueRun

/-!
# The names of processes

A process gets its name when it is created, and no operation changes it. So every process that a run
leads to has what is kept of a name that the run was asked to create a process under.
-/
namespace KernelCore

/-- What a process has for life. -/
def Process.label (p : Process) : Pid × String := (p.pid, p.name)

namespace Scheduler

/-- An operation of a run created the process with a number, under a name. -/
def CreatedAs (s : Scheduler) (ops : List Operation) (pid : Pid) (name : String) : Prop :=
  ∃ before after r entry s₁ s₂ r', ops = before ++ .create r name entry :: after ∧
    s.run before = .ok s₁ ∧ s₁.create r name entry = .ok (.ok pid, s₂, r')

variable {s s' : Scheduler} {r r' : Resources} {op : Operation} {ops : List Operation}
variable {name : String} {entry i : Nat} {pid : Pid} {p : Process}

theorem Dispatched.label (h : Dispatched s s') (hp : s'.process? i = some p) :
    (s.process? i).map Process.label = some p.label := by
  have hview := (h.toAlike.comp fun p => (p.pid, p.name)).view i
  rw [hp] at hview
  exact hview.symm

theorem Thinned.label (h : Thinned s s') (hp : s'.process? i = some p) :
    (s.process? i).map Process.label = some p.label := by
  obtain ⟨q, hq, hsame⟩ := h i p hp
  have hlabel : p.unhooked.label = q.unhooked.label := congrArg Process.label hsame
  rw [hq]
  exact congrArg some hlabel.symm

theorem process?_create {result : Except KernelError Pid}
    (hc : s.create r name entry = .ok (result, s', r')) (hp : s'.process? i = some p) :
    s.process? i = some p ∨ result = .ok p.pid ∧ Name.Kept name p.name := by
  obtain ⟨-, ⟨slot, q, -, hproc, hpid, -, -, -, -, -, -, hname⟩ | ⟨-, hproc⟩⟩ := create_slots hc <;>
    rw [hproc] at hp
  · split at hp
    · obtain rfl := Option.some.inj hp
      rw [hname]
      exact .inr ⟨hpid, Name.kept_truncateName name⟩
    · exact .inl hp
  · exact .inl hp

theorem Orderly.get?_create (h : s.Orderly)
    (hc : s.create r name entry = .ok (.ok pid, s', r')) :
    ∃ p, s'.get? pid = some p ∧ Name.Kept name p.name := by
  obtain ⟨-, ⟨slot, p, -, hproc, hpid, -, -, -, -, -, -, hname⟩ | ⟨⟨_, hbad⟩, -⟩⟩ := create_slots hc
  · obtain rfl := Except.ok.inj hpid
    refine ⟨p, (h.create hc).1.numbered.get?_pid ((hproc slot).trans (if_pos rfl)), ?_⟩
    rw [hname]
    exact Name.kept_truncateName name
  · cases hbad

theorem CreatedAs.append (h : CreatedAs s ops pid name) (more : List Operation) :
    CreatedAs s (ops ++ more) pid name := by
  obtain ⟨before, after, r, entry, s₁, s₂, r', rfl, hrun⟩ := h
  exact ⟨before, after ++ more, r, entry, s₁, s₂, r', by simp, hrun⟩

theorem CreatedAs.cons (h : CreatedAs s' ops pid name) (hop : s.perform op = .ok s') :
    CreatedAs s (op :: ops) pid name := by
  obtain ⟨before, after, r, entry, s₁, s₂, r', rfl, hbefore, hc⟩ := h
  refine ⟨op :: before, after, r, entry, s₁, s₂, r', rfl, ?_, hc⟩
  rw [Scheduler.run, List.foldlM_cons, hop]
  exact hbefore

theorem CreatedAs.exists_mem (h : CreatedAs s ops pid name) :
    ∃ r entry, .create r name entry ∈ ops := by
  obtain ⟨before, after, r, entry, _, _, _, rfl, -⟩ := h
  exact ⟨r, entry, List.mem_append_right _ (List.mem_cons_self ..)⟩

/-- An operation creates a process, or the process was there before with its number and name. -/
theorem label_perform (ho : s.perform op = .ok s') (hp : s'.process? i = some p) :
    (s.process? i).map Process.label = some p.label ∨
      ∃ name, CreatedAs s [op] p.pid name ∧ Name.Kept name p.name := by
  obtain ⟨r, name, entry, result, r', rfl, hc⟩ | hd | ⟨ht, -⟩ := perform_cases ho
  · obtain hold | ⟨rfl, hkept⟩ := process?_create hc hp
    · exact .inl (by rw [hold, Option.map_some])
    · exact .inr ⟨name, ⟨[], [], r, entry, s, s', r', rfl, rfl, hc⟩, hkept⟩
  · exact .inl (hd.label hp)
  · exact .inl (ht.label hp)

theorem label_run (hr : s.run ops = .ok s') (hp : s'.process? i = some p) :
    (s.process? i).map Process.label = some p.label ∨
      ∃ name, CreatedAs s ops p.pid name ∧ Name.Kept name p.name := by
  induction ops generalizing s with
  | nil =>
    cases hr
    exact .inl (by rw [hp, Option.map_some])
  | cons op ops ih =>
    rw [Scheduler.run, List.foldlM_cons] at hr
    obtain ⟨s₁, ho, hr⟩ := Fault.of_bind_eq_ok hr
    obtain hlabel | ⟨name, hcreated, hkept⟩ := ih hr
    · obtain ⟨q, hq, hlabel⟩ := Option.map_eq_some_iff.mp hlabel
      have hpid : q.pid = p.pid := congrArg Prod.fst hlabel
      have hname : q.name = p.name := congrArg Prod.snd hlabel
      have hstep := label_perform ho hq
      rw [hlabel, hpid, hname] at hstep
      obtain hold | ⟨name, hcreated, hkept⟩ := hstep
      · exact .inl hold
      · exact .inr ⟨name, hcreated.append ops, hkept⟩
    · exact .inr ⟨name, hcreated.cons ho, hkept⟩

/-- Names are cut without a fault, to the longest front that fits. In every state that a run comes
to, a process that is created has what is kept of the name that was asked for, and so have all that
were created before. -/
theorem names_of_run :
    (∀ name max, Name.cut name max = .ok (truncateName name max).toByteArray ∧
        Name.LongestFront name max (truncateName name max)) ∧
      ∀ ticks ops s, (ofTimeSlice ticks).run ops = .ok s →
        (∀ r name entry pid s' r', s.create r name entry = .ok (.ok pid, s', r') →
          ∃ p, s'.get? pid = some p ∧ Name.Kept name p.name) ∧
        ∀ i p, s.process? i = some p →
          ∃ name, CreatedAs (ofTimeSlice ticks) ops p.pid name ∧ Name.Kept name p.name := by
  refine ⟨fun name max => ?_, fun ticks ops s hr => ⟨fun r name entry pid s' r' hc => ?_, ?_⟩⟩
  · have h := Name.longest_truncateName name max
    exact ⟨h.cut_eq, h⟩
  · exact ((orderly_ofTimeSlice ticks).run hr).get?_create hc
  · exact fun i p hp => (label_run hr hp).resolve_left nofun

/-- Sixteen characters of four bytes: the last one does not fit, and three bytes stay unused. -/
theorem names_of_four_byte_characters : ∃ s p,
    (ofTimeSlice 1).run [.create oneProcess (String.ofList (List.replicate 16 '😀')) 0, .enqueue 1,
      .next, .tick, .exit 7] = .ok s ∧
      s.process? 0 = some p ∧ p.name = String.ofList (List.replicate 15 '😀') ∧
        p.name.utf8ByteSize = 60 ∧
        Name.Kept (String.ofList (List.replicate 16 '😀')) p.name := by
  have hrun : (((ofTimeSlice 1).run [.create oneProcess (String.ofList (List.replicate 16 '😀')) 0,
      .enqueue 1, .next, .tick, .exit 7]).toOption.any fun s => (s.process? 0).isSome) = true := by
    decide +kernel
  obtain ⟨s, hr, hs⟩ := Fault.exists_of_any hrun
  obtain ⟨p, hp⟩ := Option.isSome_iff_exists.mp hs
  obtain ⟨hcut, hnames⟩ := names_of_run
  obtain ⟨name, hcreated, hkept⟩ := (hnames 1 _ s hr).2 0 p hp
  obtain ⟨r, entry, hmem⟩ := hcreated.exists_mem
  obtain ⟨-, rfl, -⟩ :
      r = oneProcess ∧ name = String.ofList (List.replicate 16 '😀') ∧ entry = 0 := by
    simpa using hmem
  have hbytes := Except.ok.inj (hkept.cut.symm.trans (hcut _ _).1)
  have hname : p.name = String.ofList (List.replicate 15 '😀') := by
    rw [String.toByteArray_inj.mp hbytes, truncateName, String.toList_ofList]
    decide
  refine ⟨s, p, hr, hp, hname, ?_, hkept⟩
  rw [hname]
  decide

end Scheduler

end KernelCore
