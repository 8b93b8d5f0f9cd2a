import Mathlib
import KernelCore.Proofs.Paging.Run

/-!
# Isolation

In every state that a run comes to, mapping and unmapping pages in one live space writes frames of
that space only, so no other space sees its translations change.
-/
namespace KernelCore.Spaces
open Platform

variable {w : Spaces} {i : Nat} {s : AddressSpace} {m : Platform} {a : FrameAllocator}

/-- A change of the live space `i`, which becomes `s'`, is confined to the frames of that space. -/
structure Confined (w : Spaces) (i : Nat) (s' : AddressSpace) (p' : Paging) : Prop where
  memory : ∀ frame : Nat,
    p'.platform.memory[frame]? ≠ w.paging.platform.memory[frame]? → frame * pageSize ∈ s'.frames
  kernel : ∀ k ∈ w.paging.kernelSpace, ∀ v, p'.translate k v = w.paging.translate k v
  others : ∀ j t, j ≠ i → w.live[j]? = some t → ∀ v, p'.translate t v = w.paging.translate t v

theorem confined_of_grown (h : w.paging.Sound w.live) (hi : w.live[i]? = some s) {x : Mapping}
    {new : List Nat} (hg : Mapping.Grown new (w.paging.mapping s) x) :
    w.Confined i x.space (w.paging.adopt x) := by
  have hs := h.perm (live_perm hi)
  refine ⟨fun frame hne => ?_, fun k hk => ?_, fun j t hne hj => ?_⟩
  · by_contra hc
    exact hne (hg.memory.memory frame hc)
  · exact (hs.undisturbed_adopt hg (List.mem_append_left _ (Option.mem_toList.mpr hk))).translate
  · exact (hs.undisturbed_adopt hg (List.mem_append_right _ (mem_eraseIdx hne hj))).translate

/-- Mapping or unmapping a page in a live space is confined to that space, whether or not it
succeeds. Only memory that physical addresses can name is reached. -/
theorem confined_map_unmap (hm : m.limit ≤ physicalBound)
    (h : Reachable TablesLeftAlone (empty m a) w) (hi : w.live[i]? = some s) (va pa : Nat)
    (flags : BitVec 64) :
    w.Confined i (w.paging.map s va pa flags).2.1 (w.paging.map s va pa flags).2.2 ∧
      w.Confined i s (w.paging.unmap s va) := by
  have hw := h.sound hm
  have hs := hw.perm (live_perm hi)
  constructor
  · obtain ⟨new, hg⟩ := (hs.map va pa flags).grown
    exact confined_of_grown hw hi hg
  · obtain ⟨x, hu⟩ := hs.unmap va
    have hc := confined_of_grown hw hi hu.grown
    rwa [hu.space, ← hu.eq] at hc

/-- A space that shares the kernel's mapping of the page it maps. -/
theorem confined_in_shared_slot : ∃ w s,
    Reachable TablesLeftAlone (ofFrames 12) w ∧ w.live[0]? = some s ∧ s.shared.get 0 = true ∧
      w.Confined 0 (w.paging.map s 0 0x9000 Flag.present).2.1
        (w.paging.map s 0 0x9000 Flag.present).2.2 ∧
      w.Confined 0 s (w.paging.unmap s 0) := by
  have hrun : (((ofFrames 12).run
      [.setUp { identityMapLimit := pageSize }, .create, .share 0]).toOption.any fun w =>
        w.live[0]?.any fun s => s.shared.get 0) = true := by decide +kernel
  obtain ⟨w, s, hr, hs, hshared⟩ := exists_of_run hrun
  have hw : Reachable TablesLeftAlone (ofFrames 12) w := by
    refine reachable_run .start (fun op hop w => ?_) hr
    simp only [List.mem_cons, List.not_mem_nil, or_false] at hop
    rcases hop with rfl | rfl | rfl <;> simp [TablesLeftAlone]
  have hc := confined_map_unmap (by decide) hw hs 0 0x9000 Flag.present
  exact ⟨w, s, hw, hs, hshared, hc⟩

end KernelCore.Spaces
