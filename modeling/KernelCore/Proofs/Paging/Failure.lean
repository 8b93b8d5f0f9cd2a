import Mathlib
import KernelCore.Proofs.Paging.Windows

/-!
# Failed mappings

A page that cannot be mapped, for want of a frame, because a table is out of the window or because a
huge page is in the way, leaves tables behind that were taken or copied for it. No translation
shows them, and they are given back with the space.
-/
namespace KernelCore

namespace Mapping

variable {w w' : Mapping} {new : List Nat} {x : Nat}

theorem Taken.exists_of_isFree (h : Taken new w w') (hx : w.frames.IsFree x)
    (hx' : ¬ w'.frames.IsFree x) : ∃ f ∈ new, x / pageSize = f / pageSize := by
  have hlt : x / pageSize < w'.frames.total := by
    rw [h.total]
    exact (FrameAllocator.isFree_iff.mp hx).1
  have ha : w'.frames.isAllocated x = true := by
    by_contra hn
    exact hx' (FrameAllocator.isFree_of_not_isAllocated hlt hn)
  refine ((h.allocated x).mp ha).resolve_left fun hold => ?_
  exact FrameAllocator.not_isFree_of_isAllocated hold hx

end Mapping

theorem Paging.isFree_destroy {p : Paging} {s : AddressSpace} {w' : Mapping} {new : List Nat}
    {x : Nat} (h : Mapping.Taken new (p.mapping s) w') (hx : p.frames.IsFree x) :
    ((p.adopt w').destroy w'.space).frames.IsFree x := by
  refine FrameAllocator.isFree_of_not_isAllocated ?_ fun ha => ?_
  · rw [total_destroy h]
    exact (FrameAllocator.isFree_iff.mp hx).1
  · exact FrameAllocator.not_isFree_of_isAllocated ((isAllocated_destroy h x).mp ha).1 hx

namespace Spaces
open Platform

variable {w : Spaces} {template : Set Nat} {i : Nat} {s s' : AddressSpace} {p' : Paging}

/-- No translation shows a change of the live space `i`, which becomes `s'`, nothing was flushed,
and the frames that were taken are held by the space and come back with it. -/
structure Invisible (w : Spaces) (i : Nat) (s s' : AddressSpace) (p' : Paging) : Prop where
  own : ∀ v, p'.translate s' v = w.paging.translate s v
  kernel : ∀ k ∈ w.paging.kernelSpace, ∀ v, p'.translate k v = w.paging.translate k v
  others : ∀ j t, j ≠ i → w.live[j]? = some t → ∀ v, p'.translate t v = w.paging.translate t v
  events : p'.platform.events = w.paging.platform.events.push .masked
  recorded : ∀ x, w.paging.frames.IsFree x → ¬ p'.frames.IsFree x →
    ∃ f ∈ s'.frames, x / pageSize = f / pageSize
  returned : ∀ x, w.paging.frames.IsFree x → (p'.destroy s').frames.IsFree x

/-- A page that could not be mapped in a live space leaves nothing that can be seen, as long as the
space has not got a table of the template. -/
theorem map_error_invisible (h : Visited template w) (hi : w.live[i]? = some s) (va pa : Nat)
    (flags : BitVec 64) {e : MemoryError}
    (hmap : w.paging.map s va pa flags = (.error e, s', p'))
    (hs : ∀ table ∈ template, s'.owns table = false) : w.Invisible i s s' p' := by
  have hsep := h.separate.perm (live_perm hi)
  obtain ⟨new, htaken⟩ := Mapping.takes_map (w.paging.mapping s) va pa flags
  rw [Paging.map_eq] at hmap
  obtain ⟨hresult, rfl, rfl⟩ : _ ∧ _ ∧ _ := by simpa using hmap
  have hm := hsep.map_narrow h.within va pa flags hs
  obtain ⟨_, hg⟩ := hm.grown
  have hfailed : ¬ ((w.paging.mapping s).map va pa flags).1.isOk = true := by
    rw [hresult]
    exact Bool.false_ne_true
  have hothers := fun t ht => (hsep.undisturbed_adopt (t := t) h.within hg hs ht).translate
  refine ⟨fun v => ?_, fun k hk => ?_, fun j t hne hj => ?_, ?_, fun x hx hx' => ?_,
    fun x hx => Paging.isFree_destroy htaken hx⟩
  · have ht := hm.translate v
    rw [if_neg fun hc => hfailed hc.1] at ht
    rw [Paging.translate, hg.root]
    exact ht
  · exact hothers k (List.mem_append_left _ (Option.mem_toList.mpr hk))
  · exact hothers t (List.mem_append_right _ (mem_eraseIdx hne hj))
  · have he := hm.events
    rwa [if_neg hfailed] at he
  · obtain ⟨f, hf, he⟩ := htaken.exists_of_isFree hx hx'
    exact ⟨f, by rw [htaken.frames_eq]; exact List.mem_append_right _ hf, he⟩

/-- Of the three tables on the way to a page that the kernel mapped, two could be copied. -/
theorem map_error_invisible_halfway : ∃ w s s' p',
    Visited ∅ w ∧ w.live[0]? = some s ∧
      w.paging.map s 0 0x9000 Flag.present = (.error .outOfFrames, s', p') ∧
      s'.frameCount = 3 ∧ w.Invisible 0 s s' p' ∧ p'.translate s' 5 = .ok (some 5) := by
  have hrun : (((ofFrames 8).run
      [.setUp { identityMapLimit := pageSize }, .create, .share 0]).toOption.any fun w =>
        w.live[0]?.any fun s =>
          decide ((w.paging.map s 0 0x9000 Flag.present).1 = .error .outOfFrames ∧
            (w.paging.map s 0 0x9000 Flag.present).2.1.frameCount = 3 ∧
            w.paging.translate s 5 = .ok (some 5))) = true := by decide +kernel
  obtain ⟨w, s, hr, hs, hrun⟩ := exists_of_run hrun
  obtain ⟨herror, hcount, htranslate⟩ := of_decide_eq_true hrun
  have hw : Visited ∅ w := by
    refine visited_run (.start _ _ (by decide)) (fun op hop w => ?_) hr
    simp only [List.mem_cons, List.not_mem_nil, or_false] at hop
    rcases hop with rfl | rfl | rfl
    · exact fun _ => ⟨by simp, by simp⟩
    · trivial
    · trivial
  have hmap : w.paging.map s 0 0x9000 Flag.present = (.error .outOfFrames,
      (w.paging.map s 0 0x9000 Flag.present).2) := Prod.ext herror rfl
  have hi := map_error_invisible hw hs 0 0x9000 Flag.present hmap (by simp)
  exact ⟨w, s, _, _, hw, hs, hmap, hcount, hi, (hi.own 5).trans htranslate⟩

end Spaces

end KernelCore
