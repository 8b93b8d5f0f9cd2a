import Mathlib
import KernelCore.Proofs.Paging.Conservation

/-!
# The root recorded as loaded

Others may take and give back frames beside the spaces, as long as they leave those alone that
spaces hold. In every state that this leads to, the root that is recorded as loaded last is the root
of a space that still holds it.
-/
namespace KernelCore

/-- The root recorded is the one of a space. -/
def Paging.Rooted (p : Paging) (spaces : List AddressSpace) : Prop :=
  ∀ root, p.active = some root → ∃ s ∈ spaces, s.root = root

theorem AddressSpace.root_of_frames {s s' : AddressSpace} (h : s'.frames = s.frames) :
    s'.root = s.root :=
  (List.cons.inj h).1

namespace Paging.Rooted

variable {p p' : Paging} {s s' : AddressSpace} {spaces spaces' : List AddressSpace}

theorem mono (h : p.Rooted spaces) (ha : p'.active = p.active)
    (hs : ∀ s ∈ spaces, ∃ s' ∈ spaces', s'.root = s.root) : p'.Rooted spaces' := by
  intro root hroot
  rw [ha] at hroot
  obtain ⟨s, hmem, rfl⟩ := h root hroot
  exact hs s hmem

theorem subset (h : p.Rooted spaces) (ha : p'.active = p.active) (hs : spaces ⊆ spaces') :
    p'.Rooted spaces' :=
  h.mono ha fun s hmem => ⟨s, hs hmem, rfl⟩

theorem replace (h : p.Rooted spaces) (ha : p'.active = p.active)
    {others : List AddressSpace} (hp : spaces.Perm (s :: others))
    (hp' : (s' :: others).Perm spaces') (hroot : s'.root = s.root) : p'.Rooted spaces' := by
  refine h.mono ha fun t ht => ?_
  rcases List.mem_cons.mp (hp.mem_iff.mp ht) with rfl | ht
  · exact ⟨s', hp'.mem_iff.mp (List.mem_cons_self ..), hroot⟩
  · exact ⟨t, hp'.mem_iff.mp (List.mem_cons_of_mem _ ht), rfl⟩

theorem destroy (h : p.Rooted spaces) (hp : spaces.Perm (s :: spaces')) :
    (p.destroy s).Rooted spaces' := by
  intro root hroot
  unfold Paging.destroy at hroot
  dsimp only at hroot
  split at hroot
  · cases hroot
  · next hne =>
    obtain ⟨t, ht, rfl⟩ := h root hroot
    rcases List.mem_cons.mp (hp.mem_iff.mp ht) with rfl | ht
    · exact absurd hroot hne
    · exact ⟨t, ht, rfl⟩

theorem setUp {config : Config} {result : Except MemoryError Unit} {live : List AddressSpace}
    (h : p.Rooted (p.kernelSpace.toList ++ live)) (hs : p.setUp config = .ok (result, p')) :
    p'.Rooted (p'.kernelSpace.toList ++ live) := by
  cases setUp_spec hs with
  | kept _ => exact h
  | refused _ hc =>
    obtain rfl := create_eq_error hc
    exact h
  | @undone _ k p₁ w hn hc _ =>
    have hg := create_ok hc
    rw [hn] at h
    have hn₁ : (p₁.adopt w).kernelSpace = none := hg.kernelSpace.trans hn
    have h₁ : (p₁.adopt w).Rooted (w.space :: live) :=
      h.subset hg.active (List.subset_cons_self ..)
    show Paging.Rooted _ ((p₁.adopt w).kernelSpace.toList ++ live)
    rw [hn₁]
    exact h₁.destroy (.refl _)
  | @done k p₁ w _ _ _ =>
    rintro root hroot
    exact ⟨w.space, List.mem_cons_self .., Option.some.inj hroot⟩

theorem create {live : List AddressSpace} (h : p.Rooted (p.kernelSpace.toList ++ live))
    (hc : p.create = (.ok s, p')) : p'.Rooted (p'.kernelSpace.toList ++ s :: live) := by
  have hg := create_ok hc
  rw [hg.kernelSpace]
  refine h.subset hg.active fun t ht => ?_
  exact List.perm_middle.mem_iff.mpr (List.mem_cons_of_mem _ ht)

theorem switchTo (p : Paging) (hs : s ∈ spaces) : (p.switchTo s).Rooted spaces := by
  rintro root hroot
  exact ⟨s, hs, Option.some.inj hroot⟩

end Paging.Rooted

theorem Paging.unmap_active (p : Paging) (s : AddressSpace) (va : Nat) :
    (p.unmap s va).active = p.active := by
  unfold unmap
  dsimp only
  split
  · rfl
  · split <;> rfl

namespace Spaces

variable {w w' : Spaces} {op : Operation}

theorem rooted_perform (h : w.paging.Rooted w.all) (hs : w.perform op = .ok w') :
    w'.paging.Rooted w'.all := by
  cases performed hs with
  | setUp he => exact h.setUp he
  | created hc => exact h.create hc
  | @shared _ s s' _ hi hc =>
    obtain ⟨hroots, -, hsame⟩ := Paging.share_frames w.paging s
    rw [hc] at hroots hsame
    rw [all, hroots.kernelSpace]
    exact h.replace hroots.active (all_perm hi) (perm_all_set hi s')
      (AddressSpace.root_of_frames (hsame s' rfl))
  | @mapped _ va pa flags s hi =>
    obtain ⟨new, ht⟩ := Mapping.takes_map (w.paging.mapping s) va pa flags
    exact h.replace rfl (all_perm hi) (perm_all_set hi _) ht.root
  | @unmapped _ va s _ =>
    rw [all, (w.paging.unmap_frames s va).2]
    exact h.subset (w.paging.unmap_active s va) (List.Subset.refl _)
  | destroyed hi => exact h.destroy (all_perm hi)
  | switched hi => exact .switchTo _ (List.mem_append_right _ (List.mem_of_getElem? hi))
  | returned hk => exact .switchTo _ (List.mem_append_left _ (Option.mem_toList.mpr hk))
  | idle | unshared | written => exact h

/-- The states that steps come to, on a machine that may turn into any other between them, while
others take and give back frames that no space holds. -/
inductive Reached : Spaces → Prop
  | start (m : Platform) (a : FrameAllocator) : Reached (empty m a)
  | step {w w' : Spaces} {op : Operation} (before : Reached w)
      (performed : w.perform op = .ok w') : Reached w'
  | machine {w : Spaces} (before : Reached w) (m : Platform) : Reached (w.onMachine m)
  | frames {w : Spaces} (before : Reached w) (a : FrameAllocator)
      (held : ∀ s ∈ w.all, ∀ f ∈ s.frames, a.isAllocated f = true) :
      Reached { w with paging := { w.paging with frames := a } }

theorem Reached.holds (h : Reached w) : Holds w.paging.frames w.all := by
  induction h with
  | start m a => exact ⟨by simp [all, empty], by simp [all, empty]⟩
  | step _ hs ih => exact (accounts_perform ⟨ih, rfl⟩ hs).toHolds
  | machine _ _ ih => exact ih
  | frames _ a held ih =>
    exact ⟨fun s hs f hf => ⟨held s hs f hf, (ih.allocated s hs f hf).2⟩, ih.nodup⟩

theorem Reached.rooted (h : Reached w) : w.paging.Rooted w.all := by
  induction h with
  | start m a => exact fun _ hroot => by cases hroot
  | step _ hs ih => exact rooted_perform ih hs
  | machine _ _ ih => exact ih
  | frames _ _ _ ih => exact ih

theorem Reached.not_isFree (h : Reached w) {root : Nat} (hroot : w.paging.active = some root) :
    ¬ w.paging.frames.IsFree root := by
  obtain ⟨s, hs, rfl⟩ := h.rooted root hroot
  exact FrameAllocator.not_isFree_of_isAllocated (h.holds.isAllocated hs s.owns_root)

end Spaces

end KernelCore
