import Mathlib
import KernelCore.Proofs.Paging.Run

/-!
# Fixed windows

As long as the machine shows its memory through the same window, a live space can read every table
of its own that its walks come to: a frame is linked only after it could be read.
-/
namespace KernelCore
open Platform

namespace Paging

variable {p p' : Paging} {s s' : AddressSpace} {others : List AddressSpace} {template : Set Nat}
  {va : Nat}

/-- The space can read all tables of its own that its walks come to. -/
def Reads (p : Paging) (s : AddressSpace) : Prop :=
  ∀ path rest table, p.platform.Reaches s.root path rest table → s.owns table = true →
    p.platform.Shows table

theorem Reads.congr (hr : p.Reads s) (h : Undisturbed p p' s) : p'.Reads s := by
  intro path rest table hq ho
  have hq := h.reaches.mp hq
  rw [Shows, h.read hq]
  exact hr path rest table hq ho

theorem reads_create (hc : p.create = (.ok s, p')) : p'.Reads s := by
  obtain ⟨read, -⟩ := create_platform hc
  intro path rest table hr _
  rw [(reaches_of_empty read hr).1]
  exact ⟨_, read⟩

/-- A table that a walk comes to after a page was mapped is old, or it could be read before it was
linked. -/
theorem Separate.reads_map (h : p.Separate template (s :: others)) (hr : p.Reads s) (pa : Nat)
    (flags : BitVec 64)
    (ht : ∀ table ∈ template, (p.map s va pa flags).2.1.owns table = false) :
    (p.map s va pa flags).2.2.Reads (p.map s va pa flags).2.1 := by
  have hm := h.through_window.map_narrow (within_window _) va pa flags ht
  obtain ⟨new, hg⟩ := hm.grown
  intro path rest table hq ho
  refine hg.memory.toSameExtent.shows.mpr ?_
  rw [map_eq, hg.root] at hq
  rcases hm.shows hq with hold | hshow
  · rcases (h.rooted s (List.mem_cons_self ..)).held hold with howns | hlent
    · exact hr path rest table hold howns
    · exact absurd ((hm.sound.spares _ _ _ hlent).symm.trans ho) Bool.false_ne_true
  · exact hshow

theorem Separate.reads_unmap (h : p.Separate template (s :: others)) (hr : p.Reads s) :
    (p.unmap s va).Reads s := by
  obtain ⟨w, hu⟩ := h.through_window.unmap (within_window _) va
  rw [hu.eq]
  intro path rest table hq ho
  exact hu.grown.memory.toSameExtent.shows.mpr
    (hr path rest table (hu.reaches.mp hq) ho)

theorem Separate.reads_share (h : p.Separate template (s :: others)) (hr : p.Reads s)
    (hs : p.share s = (.ok s', p')) : p'.Reads s' := by
  rcases share_eq_ok hs with ⟨-, rfl, rfl⟩ | ⟨k, copied, merged, hk, hm, rfl, rfl⟩
  · exact hr
  · intro path rest table hq ho
    have hold := reaches_emit.mp (h.mask.reaches_of_merged hk hm ho hq)
    exact (sameMachine_writeTable p.platform.mask s.root merged).toSameExtent.shows.mpr
      (hr path rest table hold ho)

end Paging

namespace Spaces

variable {w w' : Spaces} {op : Operation} {i : Nat} {s s' : AddressSpace} {template : Set Nat}
  {m : Platform} {a : FrameAllocator} {p' : Paging}

/-- A step spares the tables of the template, and no space has got one of them afterwards. -/
def SparesThroughout (template : Set Nat) (w : Spaces) (op : Operation) : Prop :=
  w.SparesTemplate template w.paging.platform.window op ∧
    ∀ w', w.perform op = .ok w' → ∀ s ∈ w'.all, ∀ table ∈ template, s.owns table = false

theorem Reachable.separate (h : Reachable (SparesThroughout template) (empty m a) w)
    (hm : m.limit ≤ physicalBound) : w.paging.Separate template w.live := by
  induction h with
  | start => exact ⟨hm, ⟨by simp [empty], by simp [empty]⟩, by simp [empty], by simp [empty],
      by simp [empty]⟩
  | step _ hp hs ih =>
    have h := separate_perform ih.through_window (within_window _) hp.1 hs (hp.2 _ hs)
    rwa [← (sameExtent_perform hs).window] at h

theorem reads_set (hi : w.live[i]? = some s) (hs : p'.Reads s')
    (hothers : ∀ t ∈ w.live.eraseIdx i, p'.Reads t) : ∀ t ∈ w.live.set i s', p'.Reads t := by
  intro t ht
  rcases List.mem_cons.mp ((set_perm hi s').mem_iff.mpr ht) with rfl | ht
  · exact hs
  · exact hothers t ht

theorem reads_created (h : w.paging.Separate template w.live) (hr : ∀ t ∈ w.live, w.paging.Reads t)
    (hc : w.paging.create = (.ok s, p')) (hnew : ∀ table ∈ template, s.owns table = false) :
    ∀ t ∈ s :: w.live, p'.Reads t := by
  refine List.forall_mem_cons.mpr ⟨Paging.reads_create hc, fun t ht => ?_⟩
  exact (hr t ht).congr (h.undisturbed_create hc hnew (List.mem_append_right _ ht))

theorem reads_shared (h : w.paging.Separate template w.live) (hr : ∀ t ∈ w.live, w.paging.Reads t)
    (hi : w.live[i]? = some s) (hc : w.paging.share s = (.ok s', p')) :
    ∀ t ∈ w.live.set i s', p'.Reads t := by
  have hfront := h.perm (live_perm hi)
  refine reads_set hi (hfront.reads_share (hr s (List.mem_of_getElem? hi)) hc) fun t ht => ?_
  exact (hr t (List.mem_of_mem_eraseIdx ht)).congr
    (hfront.through_window.undisturbed_share (within_window _) hc (List.mem_append_right _ ht))

theorem reads_mapped (h : w.paging.Separate template w.live) (hr : ∀ t ∈ w.live, w.paging.Reads t)
    (hi : w.live[i]? = some s) (va pa : Nat) (flags : BitVec 64)
    (hnew : ∀ table ∈ template, (w.paging.map s va pa flags).2.1.owns table = false) :
    ∀ t ∈ w.live.set i (w.paging.map s va pa flags).2.1,
      (w.paging.map s va pa flags).2.2.Reads t := by
  have hfront := h.perm (live_perm hi)
  refine reads_set hi (hfront.reads_map (hr s (List.mem_of_getElem? hi)) pa flags hnew)
    fun t ht => ?_
  obtain ⟨new, hg⟩ := (hfront.through_window.map_narrow (within_window _) va pa flags hnew).grown
  exact (hr t (List.mem_of_mem_eraseIdx ht)).congr
    (hfront.through_window.undisturbed_adopt (within_window _) hg hnew (List.mem_append_right _ ht))

theorem reads_unmapped (h : w.paging.Separate template w.live)
    (hr : ∀ t ∈ w.live, w.paging.Reads t) (hi : w.live[i]? = some s) (va : Nat) :
    ∀ t ∈ w.live, (w.paging.unmap s va).Reads t := by
  have hfront := h.perm (live_perm hi)
  intro t ht
  rcases List.mem_cons.mp ((live_perm hi).mem_iff.mp ht) with rfl | hmem
  · exact hfront.reads_unmap (hr t ht)
  · obtain ⟨x, hu⟩ := hfront.through_window.unmap (within_window _) va
    have hspares : ∀ table ∈ template, x.space.owns table = false := by
      rw [hu.space]
      exact hfront.spares_head
    rw [hu.eq]
    exact (hr t ht).congr (hfront.through_window.undisturbed_adopt (within_window _) hu.grown
      hspares (List.mem_append_right _ hmem))

theorem reads_perform (h : w.paging.Separate template w.live)
    (hp : w.SparesThroughout template op) (hs : w.perform op = .ok w')
    (hr : ∀ s ∈ w.live, w.paging.Reads s) : ∀ s ∈ w'.live, w'.paging.Reads s := by
  obtain ⟨hspares, hapart⟩ := hp
  have hapart := hapart w' hs
  cases performed hs with
  | setUp he => exact fun t ht => (hr t ht).congr (h.undisturbed_setUp hspares he ht)
  | created hc =>
    exact reads_created h hr hc (hapart _ (List.mem_append_right _ (List.mem_cons_self ..)))
  | shared hi hc => exact reads_shared h hr hi hc
  | @mapped _ va pa flags _ hi =>
    exact reads_mapped h hr hi va pa flags (hapart _ (List.mem_append_right _
      ((set_perm hi _).mem_iff.mp (List.mem_cons_self ..))))
  | @unmapped _ va _ hi => exact reads_unmapped h hr hi va
  | destroyed => exact fun t ht => hr t (List.mem_of_mem_eraseIdx ht)
  | idle => exact hr
  | unshared | switched | returned => exact fun t ht => (hr t ht).congr ⟨fun _ => rfl⟩
  | @written _ t =>
    exact fun u hu => (hr u hu).congr
      (h.undisturbed_write t hspares.1 hspares.2 (List.mem_append_right _ hu))

theorem Reachable.reads (h : Reachable (SparesThroughout template) (empty m a) w)
    (hm : m.limit ≤ physicalBound) : ∀ s ∈ w.live, w.paging.Reads s := by
  induction h with
  | start => exact fun s hs => absurd hs (List.not_mem_nil)
  | step before hp hs ih => exact reads_perform (before.separate hm) hp hs ih

end Spaces

end KernelCore
