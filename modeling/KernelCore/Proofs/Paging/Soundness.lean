import Mathlib
import KernelCore.Proofs.Paging.Leaf
import KernelCore.Proofs.Paging.Ownership

/-!
# Sound paging states

The kernel space and the live spaces hold different frames, and none of the tables of the template
that the kernel space may have inherited from. The kernel space reaches its own tables and the
template's; a live space reaches its own, each at one place, or in shared slots what the kernel
space reaches there. Every operation on spaces keeps that.
-/
namespace KernelCore.Paging
open Platform

/-- The kernel's tables that a space reaches through its shared slots. -/
def lentTo (p : Paging) (s : AddressSpace) : Lending := fun path rest table =>
  s.shared.get (path 39) = true ∧
    ∃ k ∈ p.kernelSpace, p.platform.Reaches k.root path rest table

/-- The state seen through another window. -/
def through (p : Paging) (window : Nat) : Paging :=
  { p with platform := p.platform.through window }

/-- The spaces hold different frames and none of the template's tables. The kernel space reaches its
own tables and the template's, a live space its own and those that are lent to it. -/
structure Separate (p : Paging) (template : Set Nat) (live : List AddressSpace) : Prop where
  machine : p.platform.limit ≤ physicalBound
  holds : Holds p.frames (p.kernelSpace.toList ++ live)
  spares : ∀ s ∈ p.kernelSpace.toList ++ live, ∀ table ∈ template, s.owns table = false
  kernel : ∀ k ∈ p.kernelSpace, ∀ {path rest table}, p.platform.Reaches k.root path rest table →
    k.owns table = true ∨ table ∈ template
  rooted : ∀ s ∈ live, s.Rooted p.platform (p.lentTo s)

/-- What the walks of a space read is the same in both states. -/
structure Undisturbed (p p' : Paging) (s : AddressSpace) : Prop where
  read : ∀ {path rest table}, p.platform.Reaches s.root path rest table →
    p'.platform.readTable table = p.platform.readTable table

variable {p p' : Paging} {s t : AddressSpace} {live others : List AddressSpace} {path : Path}
  {rest : List Nat} {table window : Nat} {template : Set Nat}

theorem Undisturbed.reaches (h : Undisturbed p p' s) :
    p'.platform.Reaches s.root path rest table ↔ p.platform.Reaches s.root path rest table :=
  reaches_congr fun hr => h.read hr

theorem Undisturbed.translate (h : Undisturbed p p' s) (va : Nat) :
    p'.translate s va = p.translate s va :=
  translate_congr fun hr => h.read hr

theorem Undisturbed.trans {p'' : Paging} (h : Undisturbed p p' s) (h' : Undisturbed p' p'' s) :
    Undisturbed p p'' s :=
  ⟨fun hr => (h'.read (h.reaches.mpr hr)).trans (h.read hr)⟩

theorem lentTo_congr (hk : p'.kernelSpace = p.kernelSpace) (hs : t.shared = s.shared)
    (hu : ∀ k ∈ p.kernelSpace, Undisturbed p p' k) :
    p'.lentTo t = p.lentTo s := by
  funext path rest table
  rw [lentTo, lentTo, hs, hk]
  refine propext (and_congr Iff.rfl (exists_congr fun k => and_congr_right fun hkm => ?_))
  exact (hu k hkm).reaches

namespace Separate

theorem perm (h : p.Separate template live) (hp : live.Perm others) :
    p.Separate template others where
  machine := h.machine
  holds := h.holds.perm (hp.append_left _)
  spares := fun s hs => h.spares s ((hp.append_left _).mem_iff.mpr hs)
  kernel := h.kernel
  rooted := fun s hs => h.rooted s (hp.mem_iff.mpr hs)

theorem holds_cons (h : p.Separate template (s :: others)) :
    Holds p.frames (s :: (p.kernelSpace.toList ++ others)) :=
  h.holds.perm List.perm_middle

/-- Tables that the kernel space does not reach need not count as the template's. -/
theorem reachable (h : p.Separate template live) :
    p.Separate {table ∈ template | ∃ k ∈ p.kernelSpace, ∃ path rest,
      p.platform.Reaches k.root path rest table} live :=
  { h with
    spares := fun s hs table ht => h.spares s hs table ht.1
    kernel := fun k hk _ _ _ hr => (h.kernel k hk hr).imp id fun hm => ⟨hm, k, hk, _, _, hr⟩ }

theorem through_window (h : p.Separate template live) :
    (p.through p.platform.window).Separate template live := h

theorem tail (h : p.Separate template (s :: others)) : p.Separate template others where
  machine := h.machine
  holds := h.holds_cons.tail
  spares := fun t ht => h.spares t (List.perm_middle.mem_iff.mpr (List.mem_cons_of_mem _ ht))
  kernel := h.kernel
  rooted := fun t ht => h.rooted t (List.mem_cons_of_mem _ ht)

theorem cons (h : p.Separate template others)
    (hh : Holds p.frames (s :: (p.kernelSpace.toList ++ others)))
    (ht : ∀ table ∈ template, s.owns table = false) (hs : s.Rooted p.platform (p.lentTo s)) :
    p.Separate template (s :: others) where
  machine := h.machine
  holds := hh.perm List.perm_middle.symm
  spares := fun t hm =>
    (List.mem_cons.mp (List.perm_middle.mem_iff.mp hm)).elim (fun he => he ▸ ht) (h.spares t)
  kernel := h.kernel
  rooted := List.forall_mem_cons.mpr ⟨hs, h.rooted⟩

theorem kernel_apart (h : p.Separate template others)
    (hh : Holds p.frames (s :: (p.kernelSpace.toList ++ others)))
    (ht : ∀ table ∈ template, s.owns table = false) {k : AddressSpace} (hk : k ∈ p.kernelSpace)
    (hr : p.platform.Reaches k.root path rest table) : s.owns table = false := by
  rcases h.kernel k hk hr with ho | hm
  · exact hh.owns_eq_false (List.mem_append_left _ (Option.mem_toList.mpr hk)) ho
  · exact ht table hm

theorem spares_head (h : p.Separate template (s :: others)) :
    ∀ table ∈ template, s.owns table = false :=
  h.spares s (List.mem_append_right _ (List.mem_cons_self ..))

/-- What a space reaches it owns, or the kernel space owns it, or it is a table of the template. -/
theorem reached (h : p.Separate template live) (ht : t ∈ p.kernelSpace.toList ++ live)
    (hr : p.platform.Reaches t.root path rest table) :
    (∃ u ∈ p.kernelSpace.toList ++ live, u.owns table = true) ∨ table ∈ template := by
  have hkernel : ∀ k ∈ p.kernelSpace, p.platform.Reaches k.root path rest table →
      (∃ u ∈ p.kernelSpace.toList ++ live, u.owns table = true) ∨ table ∈ template :=
    fun k hk hr => (h.kernel k hk hr).imp
      (fun ho => ⟨k, List.mem_append_left _ (Option.mem_toList.mpr hk), ho⟩) id
  rcases List.mem_append.mp ht with hk | hs
  · exact hkernel t (Option.mem_toList.mp hk) hr
  · rcases (h.rooted t hs).held hr with ho | ⟨-, k, hk, hr⟩
    · exact .inl ⟨t, ht, ho⟩
    · exact hkernel k hk hr

theorem reached_apart (h : p.Separate template others)
    (hh : Holds p.frames (s :: (p.kernelSpace.toList ++ others)))
    (hs : ∀ table ∈ template, s.owns table = false)
    (ht : t ∈ p.kernelSpace.toList ++ others)
    (hr : p.platform.Reaches t.root path rest table) : s.owns table = false := by
  rcases h.reached ht hr with ⟨u, hu, ho⟩ | hm
  · exact hh.owns_eq_false hu ho
  · exact hs table hm

/-- A change that disturbs no space keeps the state as it has to be. -/
theorem transport (h : p.Separate template live) (hk : p'.kernelSpace = p.kernelSpace)
    (hm : p'.platform.limit ≤ physicalBound)
    (hh : Holds p'.frames (p.kernelSpace.toList ++ live))
    (hu : ∀ t ∈ p.kernelSpace.toList ++ live, Undisturbed p p' t) : p'.Separate template live where
  machine := hm
  holds := hk ▸ hh
  spares := hk ▸ h.spares
  kernel := by
    intro k hkm path rest table hr
    rw [hk] at hkm
    have hku := hu k (List.mem_append_left _ (Option.mem_toList.mpr hkm))
    exact h.kernel k hkm (hku.reaches.mp hr)
  rooted := by
    intro s hs
    have hsu := hu s (List.mem_append_right _ hs)
    have hl : p'.lentTo s = p.lentTo s := lentTo_congr hk rfl fun k hkm =>
      hu k (List.mem_append_left _ (Option.mem_toList.mpr hkm))
    rw [hl]
    exact (h.rooted s hs).congr hsu.reaches id

theorem mapping (h : p.Separate template (s :: others)) :
    (p.mapping s).Sound (p.lentTo s) where
  machine := h.machine
  allocated := fun f hf => (h.holds_cons.allocated s (List.mem_cons_self ..) f hf).1
  aligned := fun f hf => (h.holds_cons.allocated s (List.mem_cons_self ..) f hf).2
  rooted := h.rooted s (List.mem_cons_self ..)
  spares := fun _ _ _ ⟨_, _, hk, hr⟩ => h.tail.kernel_apart h.holds_cons h.spares_head hk hr
  closed := by
    rintro path shift rest table t ⟨hs, k, hk, hr⟩ read leads
    exact ⟨hs, k, hk, hr.link read leads⟩

section Change

variable {w : Mapping} {new : List Nat}

theorem grown_apart (h : p.Separate template (s :: others))
    (ht : Mapping.Taken new (p.mapping s) w) (hw : ∀ table ∈ template, w.space.owns table = false)
    (hu : t ∈ p.kernelSpace.toList ++ others)
    (hr : p.platform.Reaches t.root path rest table) : w.space.owns table = false := by
  rcases h.tail.reached hu hr with ⟨u, hu, ho⟩ | hm
  · rw [← Bool.not_eq_true, ht.owns]
    rintro (hs | hn)
    · exact Bool.false_ne_true ((h.holds_cons.owns_eq_false hu ho).symm.trans hs)
    · have ha := h.tail.holds.isAllocated hu ho
      exact FrameAllocator.not_isFree_of_isAllocated ha (ht.fresh table hn).1
  · exact hw table hm

/-- The way of a live space to its tables comes to nothing that the kernel space lends it. -/
theorem spares_lentTo (h : p.Separate template (s :: others))
    (ht : Mapping.Takes (p.mapping s) w) (hw : ∀ table ∈ template, w.space.owns table = false) :
    w.space.Spares (p.lentTo s) := by
  rintro path rest table ⟨-, k, hk, hr⟩
  obtain ⟨new, ht⟩ := ht
  exact h.grown_apart ht hw (List.mem_append_left _ (Option.mem_toList.mpr hk)) hr

theorem undisturbed_adopt (h : (p.through window).Separate template (s :: others))
    (hw : p.platform.Within window) (hg : Mapping.Grown new (p.mapping s) w)
    (ht : ∀ table ∈ template, w.space.owns table = false)
    (hu : t ∈ p.kernelSpace.toList ++ others) : Undisturbed p (p.adopt w) t := by
  refine ⟨fun {path rest table} hr => hg.memory.readTable fun hc => ?_⟩
  have htaken : Mapping.Taken new ((p.through window).mapping s) w := { hg.toTaken with }
  have hn := h.grown_apart htaken ht hu (hr.through hw)
  exact Bool.false_ne_true (hn.symm.trans (AddressSpace.mem_frames.mp hc))

theorem adopt (h : p.Separate template (s :: others)) (hg : Mapping.Grown new (p.mapping s) w)
    (hw : w.Sound (p.lentTo s)) (ht : ∀ table ∈ template, w.space.owns table = false) :
    (p.adopt w).Separate template (w.space :: others) := by
  have hu : ∀ t ∈ p.kernelSpace.toList ++ others, Undisturbed p (p.adopt w) t :=
    fun t => undisturbed_adopt h.through_window (within_window _) hg ht
  have hh : Holds (p.adopt w).frames (w.space :: (p.kernelSpace.toList ++ others)) :=
    h.holds_cons.grow hg.toTaken
  have htail : (p.adopt w).Separate template others := h.tail.transport rfl hw.machine hh.tail hu
  refine htail.cons hh ht ?_
  have hl : (p.adopt w).lentTo w.space = p.lentTo s := lentTo_congr rfl hg.shared fun k hk =>
    hu k (List.mem_append_left _ (Option.mem_toList.mpr hk))
  rw [hl]
  exact hw.rooted

end Change

end Separate

/-- The spaces are separate, and the tables of the template are not to be had. -/
def Sound (p : Paging) (live : List AddressSpace) : Prop :=
  ∃ template, p.Separate template live ∧
    Withheld template p.frames (p.kernelSpace.toList ++ live)

theorem Sound.perm (h : p.Sound live) (hp : live.Perm others) : p.Sound others := by
  obtain ⟨template, hsep, hheld⟩ := h
  exact ⟨template, hsep.perm hp, hheld.perm (hp.append_left _)⟩

end KernelCore.Paging
