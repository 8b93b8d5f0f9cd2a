import Mathlib
import KernelCore.Proofs.Paging.Conservation

/-!
# Changing machines

Between operations on spaces the machine may show its memory through another window and have another
root in use, others may write frames that hold no table, and they may take and give back frames that
no space holds. As long as the tables of the template belong to no space, the spaces stay separate,
seen through a window that shows every physical address.
-/
namespace KernelCore.Spaces
open Platform

/-- The states that steps come to, with the tables that count as the template's, on a machine that
may change between them. Before there is a kernel space, any tables that no space holds may be the
template's. -/
inductive Visited : Set Nat → Spaces → Prop
  | start (m : Platform) (a : FrameAllocator) (bounded : m.limit ≤ physicalBound) :
      Visited ∅ (empty m a)
  | choose {template template' : Set Nat} {w : Spaces} (before : Visited template w)
      (unready : w.paging.kernelSpace = none)
      (apart : ∀ s ∈ w.live, ∀ table ∈ template', s.owns table = false) : Visited template' w
  | step {template : Set Nat} {w w' : Spaces} {op : Operation} (before : Visited template w)
      (spares : w.SparesTemplate template physicalBound op) (performed : w.perform op = .ok w')
      (apart : ∀ s ∈ w'.all, ∀ table ∈ template, s.owns table = false) : Visited template w'
  | machine {template : Set Nat} {w : Spaces} (before : Visited template w) (m : Platform)
      (bounded : m.limit ≤ physicalBound)
      (size : m.memory.size = w.paging.platform.memory.size)
      (kept : ∀ table, (∃ s ∈ w.all, s.owns table = true) ∨ table ∈ template →
        m.memory[table / pageSize]? = w.paging.platform.memory[table / pageSize]?) :
      Visited template (w.onMachine m)
  | frames {template : Set Nat} {w : Spaces} (before : Visited template w) (a : FrameAllocator)
      (held : ∀ s ∈ w.all, ∀ f ∈ s.frames, a.isAllocated f = true) :
      Visited template { w with paging := { w.paging with frames := a } }

variable {w w' : Spaces} {template : Set Nat}

theorem Visited.bounded (h : Visited template w) : w.paging.platform.limit ≤ physicalBound := by
  induction h with
  | start m a bounded => exact bounded
  | choose _ _ _ ih => exact ih
  | step _ _ performed _ ih =>
    rw [(sameExtent_perform performed).limit]
    exact ih
  | machine _ m bounded _ _ _ => exact bounded
  | frames _ _ _ ih => exact ih

theorem Visited.within (h : Visited template w) : w.paging.platform.Within physicalBound :=
  within_physicalBound h.bounded

theorem separate_empty (m : Platform) (a : FrameAllocator) :
    ((empty m a).paging.through physicalBound).Separate ∅ (empty m a).live where
  machine := Nat.min_le_left _ _
  holds := ⟨by simp [empty, Paging.through], by simp [empty, Paging.through]⟩
  spares := by simp
  kernel := by simp [empty, Paging.through]
  rooted := by simp [empty]

theorem undisturbed_onMachine {s : AddressSpace} {m : Platform}
    (h : (w.paging.through physicalBound).Separate template w.live) (hs : s ∈ w.all)
    (size : m.memory.size = w.paging.platform.memory.size)
    (kept : ∀ table, (∃ s ∈ w.all, s.owns table = true) ∨ table ∈ template →
      m.memory[table / pageSize]? = w.paging.platform.memory[table / pageSize]?) :
    Paging.Undisturbed (w.paging.through physicalBound)
      ((w.onMachine m).paging.through physicalBound) s :=
  ⟨fun hr => readTable_congr ⟨rfl, size⟩ fun _ => kept _ (h.reached hs hr)⟩

theorem Visited.separate (h : Visited template w) :
    (w.paging.through physicalBound).Separate template w.live := by
  induction h with
  | start m a _ => exact separate_empty m a
  | choose _ unready apart ih => exact ih.choose unready apart
  | step before spares performed apart ih =>
    exact separate_perform ih before.within spares performed apart
  | machine _ m _ size kept ih =>
    exact ih.transport rfl (Nat.min_le_left _ _) ih.holds fun s hs =>
      undisturbed_onMachine ih hs size kept
  | frames _ a held ih =>
    refine ih.transport rfl ih.machine ⟨fun s hs f hf => ⟨held s hs f hf, ?_⟩, ih.holds.nodup⟩
      fun _ _ => ⟨fun _ => rfl⟩
    exact (ih.holds.allocated s hs f hf).2

/-- A run without setups from a template and without writes of others. -/
theorem visited_run {ops : List Operation} (h : Visited ∅ w)
    (hp : ∀ op ∈ ops, ∀ w, SparesTemplate w ∅ physicalBound op) (hr : w.run ops = .ok w') :
    Visited ∅ w' := by
  induction ops generalizing w with
  | nil =>
    cases hr
    exact h
  | cons op ops ih =>
    rw [run, List.foldlM_cons] at hr
    obtain ⟨w₁, hs, hr⟩ := Fault.of_bind_eq_ok hr
    refine ih (h.step (hp op (List.mem_cons_self ..) w) hs (by simp)) ?_ hr
    exact fun op hm => hp op (List.mem_cons_of_mem _ hm)

end KernelCore.Spaces
