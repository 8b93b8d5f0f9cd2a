import Mathlib
import KernelCore.Paging.Basic
import KernelCore.Proofs.Paging.Taking

/-!
# What spaces hold

The frames of several spaces are allocated, and no frame is held twice. Creating, growing and
destroying a space keep that.
-/
namespace KernelCore

/-- All frames of the spaces are allocated, and none is held twice. -/
structure Holds (a : FrameAllocator) (spaces : List AddressSpace) : Prop where
  allocated : ∀ s ∈ spaces, ∀ f ∈ s.frames, a.isAllocated f = true ∧ f % pageSize = 0
  nodup : (spaces.flatMap AddressSpace.frames).Nodup

theorem eq_of_frame_eq {a b : Nat} (ha : a % pageSize = 0) (hb : b % pageSize = 0)
    (h : a / pageSize = b / pageSize) : a = b := by
  rw [← Nat.div_add_mod a pageSize, ← Nat.div_add_mod b pageSize, ha, hb, h]

namespace FrameAllocator

/-- The state after the frames of a list were given back. -/
def releaseAll (a : FrameAllocator) (frames : List Nat) : FrameAllocator :=
  frames.foldl (fun a f => (a.release f).2) a

theorem isAllocated_releaseAll (a : FrameAllocator) (frames : List Nat) (x : Nat) :
    (a.releaseAll frames).isAllocated x = true ↔
      a.isAllocated x = true ∧ ∀ f ∈ frames, x / pageSize ≠ f / pageSize := by
  induction frames generalizing a with
  | nil => simp [releaseAll]
  | cons f frames ih =>
    have hstep : a.releaseAll (f :: frames) = (a.release f).2.releaseAll frames := rfl
    rw [hstep, ih, isAllocated_release]
    simp only [List.forall_mem_cons, and_assoc]

theorem IsFree.of_releaseAll {a : FrameAllocator} {frames : List Nat} {x : Nat}
    (h : (a.releaseAll frames).IsFree x) :
    a.IsFree x ∨ ∃ f ∈ frames, x / pageSize = f / pageSize := by
  induction frames generalizing a with
  | nil => exact .inl h
  | cons f frames ih =>
    rcases ih (a := (a.release f).2) h with h | ⟨g, hg, he⟩
    · exact h.of_release.imp id fun he => ⟨f, List.mem_cons_self .., he⟩
    · exact .inr ⟨g, List.mem_cons_of_mem _ hg, he⟩

theorem total_releaseAll (a : FrameAllocator) (frames : List Nat) :
    (a.releaseAll frames).total = a.total := by
  induction frames generalizing a with
  | nil => rfl
  | cons f frames ih => exact (ih _).trans (bit_release a f 0).1

end FrameAllocator

theorem Paging.destroy_frames (p : Paging) (s : AddressSpace) :
    (p.destroy s).frames = p.frames.releaseAll (s.tables ++ [s.root]) := by
  simp [Paging.destroy, FrameAllocator.releaseAll]

theorem Paging.isAllocated_destroy {p : Paging} {s : AddressSpace} {w' : Mapping} {new : List Nat}
    (h : Mapping.Taken new (p.mapping s) w') (x : Nat) :
    ((p.adopt w').destroy w'.space).frames.isAllocated x = true ↔
      p.frames.isAllocated x = true ∧ ∀ f ∈ s.frames, x / pageSize ≠ f / pageSize := by
  have hback : ∀ f, f ∈ w'.space.tables ++ [w'.space.root] ↔ f ∈ s.frames ∨ f ∈ new := by
    intro f
    rw [← List.mem_append, ← show w'.space.frames = s.frames ++ new from h.frames_eq]
    simp [AddressSpace.frames, or_comm]
  rw [destroy_frames, FrameAllocator.isAllocated_releaseAll]
  constructor
  · rintro ⟨ha, hkept⟩
    refine ⟨((h.allocated x).mp ha).resolve_right ?_, fun f hf => hkept f ((hback f).mpr (.inl hf))⟩
    rintro ⟨f, hf, he⟩
    exact hkept f ((hback f).mpr (.inr hf)) he
  · rintro ⟨ha, hkept⟩
    refine ⟨(h.allocated x).mpr (.inl ha), fun f hf he => ?_⟩
    rcases (hback f).mp hf with hf | hf
    · exact hkept f hf he
    · -- what was taken was free
      refine FrameAllocator.not_isFree_of_isAllocated ha ?_
      rw [FrameAllocator.IsFree, he]
      exact (h.fresh f hf).1

theorem Paging.total_destroy {p : Paging} {s : AddressSpace} {w' : Mapping} {new : List Nat}
    (h : Mapping.Taken new (p.mapping s) w') :
    ((p.adopt w').destroy w'.space).frames.total = p.frames.total := by
  rw [destroy_frames, FrameAllocator.total_releaseAll]
  exact h.total

namespace Holds

variable {a a' : FrameAllocator} {s t : AddressSpace} {spaces spaces' : List AddressSpace}
  {x : Nat}

theorem perm (h : Holds a spaces) (hp : spaces.Perm spaces') : Holds a spaces' where
  allocated := fun s hs => h.allocated s (hp.mem_iff.mpr hs)
  nodup := (hp.flatMap_right _).nodup_iff.mp h.nodup

theorem tail (h : Holds a (s :: spaces)) : Holds a spaces where
  allocated := fun t ht => h.allocated t (List.mem_cons_of_mem _ ht)
  nodup := by
    have hn := h.nodup
    rw [List.flatMap_cons, List.nodup_append] at hn
    exact hn.2.1

theorem owns_eq_false (h : Holds a (s :: spaces)) (ht : t ∈ spaces) (hx : t.owns x = true) :
    s.owns x = false := by
  have hn := h.nodup
  rw [List.flatMap_cons, List.nodup_append] at hn
  rw [← Bool.not_eq_true, ← AddressSpace.mem_frames]
  intro hs
  have hm := List.mem_flatMap.mpr ⟨t, ht, AddressSpace.mem_frames.mpr hx⟩
  exact hn.2.2 x hs x hm rfl

theorem isAllocated (h : Holds a spaces) (hs : s ∈ spaces) (hx : s.owns x = true) :
    a.isAllocated x = true :=
  (h.allocated s hs x (AddressSpace.mem_frames.mpr hx)).1

theorem congr (h : Holds a (s :: spaces)) (hf : t.frames = s.frames) :
    Holds a (t :: spaces) where
  allocated := by
    intro u hu
    rcases List.mem_cons.mp hu with rfl | hu
    · rw [hf]
      exact h.allocated s (List.mem_cons_self ..)
    · exact h.allocated u (List.mem_cons_of_mem _ hu)
  nodup := by
    have hn := h.nodup
    rw [List.flatMap_cons] at hn ⊢
    rwa [hf]

theorem grow {w w' : Mapping} {new : List Nat} (h : Holds w.frames (w.space :: spaces))
    (hg : Mapping.Taken new w w') : Holds w'.frames (w'.space :: spaces) where
  allocated := by
    have hmono : ∀ x, w.frames.isAllocated x = true → w'.frames.isAllocated x = true :=
      fun x hx => (hg.allocated x).mpr (.inl hx)
    intro t ht f hf
    rcases List.mem_cons.mp ht with rfl | ht
    · rw [hg.frames_eq, List.mem_append] at hf
      rcases hf with hf | hf
      · obtain ⟨ha, hp⟩ := h.allocated w.space (List.mem_cons_self ..) f hf
        exact ⟨hmono f ha, hp⟩
      · exact ⟨(hg.allocated f).mpr (.inr ⟨f, hf, rfl⟩), (hg.fresh f hf).2⟩
    · obtain ⟨ha, hp⟩ := h.allocated t (List.mem_cons_of_mem _ ht) f hf
      exact ⟨hmono f ha, hp⟩
  nodup := by
    have hn := h.nodup
    have hheld : ∀ t ∈ w.space :: spaces, ∀ f ∈ t.frames, f ∉ new := fun t ht f hf hnew =>
      FrameAllocator.not_isFree_of_isAllocated (h.allocated t ht f hf).1 (hg.fresh f hnew).1
    rw [List.flatMap_cons, List.nodup_append] at hn ⊢
    obtain ⟨hs, hrest, hd⟩ := hn
    refine ⟨?_, hrest, ?_⟩
    · rw [hg.frames_eq, List.nodup_append]
      refine ⟨hs, hg.nodup, ?_⟩
      rintro f hf g hnew rfl
      exact hheld w.space (List.mem_cons_self ..) f hf hnew
    · intro f hf g hgm
      rw [hg.frames_eq, List.mem_append] at hf
      rcases hf with hf | hnew
      · exact hd f hf g hgm
      · rintro rfl
        obtain ⟨t, ht, hft⟩ := List.mem_flatMap.mp hgm
        exact hheld t (List.mem_cons_of_mem _ ht) f hft hnew

theorem create {root : Nat} (h : Holds a spaces) (ha : a.allocate = some (root, a')) :
    Holds a' (({ root } : AddressSpace) :: spaces) where
  allocated := by
    obtain ⟨hp, -, -, -, -⟩ := FrameAllocator.allocate_spec ha
    intro t ht f hf
    rw [FrameAllocator.isAllocated_allocate ha]
    rcases List.mem_cons.mp ht with rfl | ht
    · simp only [AddressSpace.frames, List.mem_singleton] at hf
      subst hf
      exact ⟨.inr rfl, hp⟩
    · exact ⟨.inl (h.allocated t ht f hf).1, (h.allocated t ht f hf).2⟩
  nodup := by
    have hf := (FrameAllocator.allocate_spec ha).2.1
    rw [List.flatMap_cons, List.nodup_append]
    refine ⟨by simp [AddressSpace.frames], h.nodup, ?_⟩
    rintro f hroot g hg rfl
    simp only [AddressSpace.frames, List.mem_singleton] at hroot
    subst hroot
    obtain ⟨t, ht, hft⟩ := List.mem_flatMap.mp hg
    exact FrameAllocator.not_isFree_of_isAllocated (h.allocated t ht f hft).1 hf

theorem destroy {p : Paging} (h : Holds p.frames (s :: spaces)) :
    Holds (p.destroy s).frames spaces where
  allocated := by
    intro t ht f hf
    obtain ⟨ha, hp⟩ := h.allocated t (List.mem_cons_of_mem _ ht) f hf
    refine ⟨?_, hp⟩
    rw [Paging.destroy_frames, FrameAllocator.isAllocated_releaseAll]
    refine ⟨ha, fun g hg he => ?_⟩
    have hgs : g ∈ s.frames := by
      simp only [List.mem_append, List.mem_singleton] at hg
      simpa [AddressSpace.frames] using hg.symm
    have hgp := (h.allocated s (List.mem_cons_self ..) g hgs).2
    obtain rfl := eq_of_frame_eq hp hgp he
    have hs := h.owns_eq_false ht (AddressSpace.mem_frames.mp hf)
    rw [AddressSpace.mem_frames, hs] at hgs
    cases hgs
  nodup := h.tail.nodup

end Holds

end KernelCore
