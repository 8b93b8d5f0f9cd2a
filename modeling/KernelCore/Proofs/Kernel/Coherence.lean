import Mathlib
import KernelCore.Proofs.Scheduler.Admission

/-!
# Coherence of scheduler and paging

The processes and the kernel space hold disjoint frames, and the root in use is that of the current
process, or that of the kernel space if there is none. Every change of the two together keeps this.
-/
namespace KernelCore

/-- The root that belongs to the current process, or else to the kernel. -/
def Scheduler.ownRoot (s : Scheduler) (kernel : AddressSpace) : Nat :=
  (s.currentTenant.map (·.space.root)).getD kernel.root

theorem Scheduler.ownRoot_congr {s s' : Scheduler} (h : s'.currentTenant = s.currentTenant)
    (kernel : AddressSpace) : s'.ownRoot kernel = s.ownRoot kernel := by
  rw [ownRoot, ownRoot, h]

/-- What scheduler and paging state agree on between two calls. -/
structure Coherent (s : Scheduler) (p : Paging) : Prop where
  holds : Holds p.frames (p.kernelSpace.toList ++ s.tenants.map Tenant.space)
  numbered : s.Numbered
  seated : s.Seated
  unready : p.kernelSpace = none → s.tenants = []
  loaded : ∀ kernel ∈ p.kernelSpace,
    p.active = some (s.ownRoot kernel) ∧ p.platform.root = s.ownRoot kernel

namespace Coherent

variable {s s' : Scheduler} {p p' : Paging} {kernel : AddressSpace} {slot : Nat} {t : Tenant}

theorem initial (ticks : Nat) (m : Platform) (a : FrameAllocator) :
    Coherent (.ofTimeSlice ticks) { platform := m, frames := a } where
  holds := ⟨by simp [Scheduler.ofTimeSlice, Scheduler.tenants, Scheduler.roster],
    by simp [Scheduler.ofTimeSlice, Scheduler.tenants, Scheduler.roster]⟩
  numbered := by
    have hseat : ∀ slot, (Scheduler.ofTimeSlice ticks).seat slot = none := fun _ => rfl
    exact ⟨by simp [hseat], by simp [hseat]⟩
  seated := by simp [Scheduler.Seated, Scheduler.ofTimeSlice]
  unready := fun _ => rfl
  loaded := by simp

theorem congr (h : Coherent s p) (hr : p.SameRoots p') (hf : p'.frames = p.frames) :
    Coherent s p' where
  holds := by
    rw [hf, hr.kernelSpace]
    exact h.holds
  numbered := h.numbered
  seated := h.seated
  unready := by
    rw [hr.kernelSpace]
    exact h.unready
  loaded := by
    rw [hr.kernelSpace, hr.active, hr.root]
    exact h.loaded

theorem exists_ownRoot (s : Scheduler) (kernel : AddressSpace) :
    ∃ x ∈ kernel :: s.tenants.map Tenant.space, x.root = s.ownRoot kernel := by
  rw [Scheduler.ownRoot]
  cases hc : s.currentTenant with
  | none => exact ⟨kernel, List.mem_cons_self .., rfl⟩
  | some t =>
    obtain ⟨slot, -, ht⟩ := Scheduler.currentTenant_eq_some.mp hc
    refine ⟨t.space, List.mem_cons_of_mem _ ?_, rfl⟩
    exact List.mem_map_of_mem (Scheduler.mem_tenants ht)

theorem isAllocated (h : Coherent s p) (hk : kernel ∈ p.kernelSpace) :
    p.frames.isAllocated (s.ownRoot kernel) = true := by
  obtain ⟨x, hx, hroot⟩ := exists_ownRoot s kernel
  have hh := h.holds
  rw [show p.kernelSpace = some kernel from hk] at hh
  rw [← hroot]
  exact hh.isAllocated hx x.owns_root

theorem reload (h : Coherent s p) (hk : s.Keeps s') (hs : s'.Seated)
    (hf : p'.frames = p.frames) (hkernel : p'.kernelSpace = p.kernelSpace)
    (hl : ∀ kernel ∈ p.kernelSpace,
      p'.active = some (s'.ownRoot kernel) ∧ p'.platform.root = s'.ownRoot kernel) :
    Coherent s' p' where
  holds := by
    rw [hf, hkernel, hk.tenants]
    exact h.holds
  numbered := h.numbered.keeps hk
  seated := hs
  unready := by
    rw [hkernel, hk.tenants]
    exact h.unready
  loaded := by
    rw [hkernel]
    exact hl

/-- No process came or went, and the spaces keep their frames. -/
theorem spared (h : Coherent s p) (hs : s.Settled s') (hp : p.Spared p') : Coherent s' p' where
  holds := by
    rw [hp.kernelSpace, hs.tenants]
    exact hp.holds h.holds
  numbered := h.numbered.congr hs.seat hs.nextPid
  seated := hs.seated h.seated
  unready := by
    rw [hp.kernelSpace, hs.tenants]
    exact h.unready
  loaded := by
    intro kernel hk
    rw [hp.kernelSpace] at hk
    obtain ⟨hactive, hroot⟩ := h.loaded kernel hk
    obtain ⟨x, hx, he⟩ := exists_ownRoot s kernel
    have hh := h.holds
    rw [show p.kernelSpace = some kernel from hk] at hh
    rw [Scheduler.ownRoot_congr hs.currentTenant]
    refine ⟨(hp.active hh hx ?_).trans hactive, hp.root.trans hroot⟩
    rw [he]
    exact hactive

theorem admitted (h : Coherent s p) (hk : p.kernelSpace ≠ none) (ha : s.Admitted s' slot t)
    (hg : p.Gained t.space p') : Coherent s' p' where
  holds := by
    rw [hg.kernelSpace]
    have hperm : (t.space :: (p.kernelSpace.toList ++ s.tenants.map Tenant.space)).Perm
        (p.kernelSpace.toList ++ s'.tenants.map Tenant.space) :=
      List.perm_middle.symm.trans ((ha.tenants.symm.map Tenant.space).append_left _)
    exact (hg.holds h.holds).perm hperm
  numbered := h.numbered.admitted ha
  seated := ha.seated h.seated
  unready := fun hn => absurd (hg.kernelSpace.symm.trans hn) hk
  loaded := by
    rw [hg.kernelSpace, hg.active, hg.root]
    intro kernel hkm
    rw [Scheduler.ownRoot_congr (ha.currentTenant h.seated)]
    exact h.loaded kernel hkm

theorem holds_beside (h : Coherent s p) (he : s.Evicted s' slot t) :
    Holds p.frames (t.space :: (p.kernelSpace.toList ++ s'.tenants.map Tenant.space)) :=
  h.holds.perm (((he.tenants.map Tenant.space).append_left _).trans List.perm_middle)

theorem ownRoot_ne (h : Coherent s p) (he : s.Evicted s' slot t) (hk : kernel ∈ p.kernelSpace) :
    s'.ownRoot kernel ≠ t.space.root := by
  obtain ⟨x, hx, hroot⟩ := exists_ownRoot s' kernel
  have hh := h.holds_beside he
  rw [show p.kernelSpace = some kernel from hk] at hh
  have hn := hh.owns_eq_false hx x.owns_root
  intro hc
  rw [hroot, hc, t.space.owns_root] at hn
  cases hn

/-- A process was destroyed while the root for the others was in use. -/
theorem evicted (h : Coherent s p) (he : s.Evicted s' slot t) (hf : p'.frames = p.frames)
    (hkernel : p'.kernelSpace = p.kernelSpace)
    (hl : ∀ kernel ∈ p.kernelSpace,
      p'.active = some (s'.ownRoot kernel) ∧ p'.platform.root = s'.ownRoot kernel) :
    Coherent s' (p'.destroy t.space) where
  holds := by
    have hh := h.holds_beside he
    rw [← hf, ← hkernel] at hh
    exact hh.destroy
  numbered := h.numbered.evicted he
  seated := he.seated h.seated
  unready := by
    intro hn
    have hnone := h.unready (hkernel.symm.trans hn)
    have hp := he.tenants
    rw [hnone] at hp
    exact absurd hp.nil_eq (List.cons_ne_nil _ _).symm
  loaded := by
    intro kernel hk
    have hk : kernel ∈ p.kernelSpace := hkernel ▸ hk
    obtain ⟨hactive, hroot⟩ := hl kernel hk
    refine ⟨?_, hroot⟩
    have hne : p'.active ≠ some t.space.root := by
      rw [hactive]
      exact fun hc => h.ownRoot_ne he hk (Option.some.inj hc)
    rw [Paging.destroy, if_neg hne]
    exact hactive

theorem kill (h : Coherent s p) (he : s.Evicted s' slot t)
    (hp : p' = if p.active = some t.space.root then p.switchToKernel.2 else p) :
    Coherent s' (p'.destroy t.space) ∧ p'.kernelSpace = p.kernelSpace := by
  have hcurrent : ∀ kernel ∈ p.kernelSpace,
      p.active = some t.space.root ↔ s.current = some slot := by
    intro kernel hk
    rw [(h.loaded kernel hk).1, Option.some.injEq]
    constructor
    · intro hroot
      by_contra hne
      have hct := he.currentTenant
      rw [if_neg hne] at hct
      exact h.ownRoot_ne he hk ((Scheduler.ownRoot_congr hct kernel).trans hroot)
    · intro hc
      rw [Scheduler.ownRoot, Scheduler.currentTenant_eq_some.mpr ⟨slot, hc, he.taken⟩]
      rfl
  have hsame : p'.frames = p.frames ∧ p'.kernelSpace = p.kernelSpace := by
    rw [hp]
    split
    · unfold Paging.switchToKernel
      split <;> exact ⟨rfl, rfl⟩
    · exact ⟨rfl, rfl⟩
  refine ⟨h.evicted he hsame.1 hsame.2 fun kernel hk => ?_, hsame.2⟩
  have hct := he.currentTenant
  rw [hp]
  split
  · next hactive =>
    rw [if_pos ((hcurrent kernel hk).mp hactive)] at hct
    have hown : s'.ownRoot kernel = kernel.root := by
      rw [Scheduler.ownRoot, hct]
      rfl
    rw [Paging.switchToKernel, show p.kernelSpace = some kernel from hk, hown]
    exact ⟨rfl, rfl⟩
  · next hactive =>
    rw [if_neg fun hc => hactive ((hcurrent kernel hk).mpr hc)] at hct
    rw [Scheduler.ownRoot_congr hct]
    exact h.loaded kernel hk

theorem evicted_other (h : Coherent s p) (he : s.Evicted s' slot t) (hne : s.current ≠ some slot) :
    Coherent s' (p.destroy t.space) := by
  refine h.evicted he rfl rfl fun kernel hk => ?_
  have hct := he.currentTenant
  rw [if_neg hne] at hct
  rw [Scheduler.ownRoot_congr hct]
  exact h.loaded kernel hk

theorem currentTenant_of_unready (h : Coherent s p) (hn : p.kernelSpace = none) :
    s.currentTenant = none := by
  cases hc : s.currentTenant with
  | none => rfl
  | some t =>
    obtain ⟨slot, -, ht⟩ := Scheduler.currentTenant_eq_some.mp hc
    have hm := Scheduler.mem_tenants ht
    rw [h.unready hn] at hm
    cases hm

theorem setUp_ok {config : Config} (h : Coherent s p) (hs : p.setUp config = .ok (.ok (), p')) :
    Coherent s p' ∧ p'.kernelSpace.isSome = true := by
  cases hk : p.kernelSpace with
  | some kernel =>
    have hsame : p.setUp config = .ok (.ok (), p) := by
      rw [Paging.setUp, hk]
      rfl
    rw [hsame] at hs
    cases hs
    exact ⟨h, by rw [hk]; rfl⟩
  | none =>
    obtain ⟨kernel, hkernel, hactive, hroot, hholds⟩ := Paging.setUp_ok hs hk
    have hempty := h.unready hk
    have hown : s.ownRoot kernel = kernel.root := by
      rw [Scheduler.ownRoot, h.currentTenant_of_unready hk]
      rfl
    refine ⟨⟨?_, h.numbered, h.seated, fun _ => hempty, fun k hkm => ?_⟩, by rw [hkernel]; rfl⟩
    · have hh := h.holds
      rw [hk] at hh
      rw [hkernel]
      exact hholds hh
    · rw [hkernel] at hkm
      obtain rfl := Option.some.inj hkm
      rw [hown]
      exact ⟨hactive, hroot⟩

theorem setUp_error {config : Config} {e : MemoryError} (h : Coherent s p)
    (hs : p.setUp config = .ok (.error e, p')) : Coherent s p' ∧ p.kernelSpace = none := by
  obtain ⟨hn, hn', hholds⟩ := Paging.setUp_error hs
  refine ⟨⟨?_, h.numbered, h.seated, fun _ => h.unready hn, fun k hk => ?_⟩, hn⟩
  · have hh := h.holds
    rw [hn] at hh
    rw [hn']
    exact hholds hh
  · rw [hn'] at hk
    cases hk

end Coherent

end KernelCore
