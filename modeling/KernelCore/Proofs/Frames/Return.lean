import Mathlib
import KernelCore.Proofs.Frames.Allocation

/-!
# Frames that come back

A frame that was handed out leaves the list of free frames and comes back to it when it is given
back. At once it leaves no trace at all.
-/
namespace KernelCore.FrameAllocator

variable {a a' : FrameAllocator} {frame address i : Nat}

theorem nodup_freeFrames (a : FrameAllocator) : a.freeFrames.Nodup := List.nodup_range.filter _

/-- The free frames are listed in ascending order, so that their set determines the list. -/
theorem freeFrames_eq_of_perm (h : a.freeFrames.Perm a'.freeFrames) :
    a.freeFrames = a'.freeFrames :=
  have hsorted : ∀ a : FrameAllocator, a.freeFrames.Pairwise (· < ·) := fun _ =>
    List.pairwise_lt_range.filter _
  h.eq_of_pairwise (fun _ _ _ _ hij hji => absurd hij hji.asymm) (hsorted a) (hsorted a')

theorem freeFrames_congr (ht : a'.total = a.total)
    (ha : ∀ x, a'.isAllocated x = true ↔ a.isAllocated x = true) :
    a'.freeFrames = a.freeFrames := by
  rw [freeFrames, freeFrames, ht]
  refine List.filter_congr fun i hi => ?_
  have hlt := List.mem_range.mp hi
  have hi' := ha (i * pageSize)
  rw [isAllocated_iff, isAllocated_iff, ht, Nat.mul_div_cancel i (by decide)] at hi'
  simpa [hlt] using hi'

theorem freeFrames_perm_cons (hi : i ∉ a'.freeFrames)
    (h : ∀ j, j ∈ a.freeFrames ↔ j = i ∨ j ∈ a'.freeFrames) :
    a.freeFrames.Perm (i :: a'.freeFrames) :=
  (List.perm_ext_iff_of_nodup a.nodup_freeFrames
    (List.nodup_cons.mpr ⟨hi, a'.nodup_freeFrames⟩)).mpr fun j => by
      rw [h, List.mem_cons]

theorem freeFrames_allocate (h : a.allocate = some (frame, a')) :
    a.freeFrames.Perm (frame / pageSize :: a'.freeFrames) := by
  obtain ⟨-, hfree, htotal, -, hbit⟩ := allocate_spec h
  obtain ⟨hlt, hclear⟩ := isFree_iff.mp hfree
  refine freeFrames_perm_cons (fun hmem => ?_) fun j => ?_
  · simpa [hbit] using (mem_freeFrames.mp hmem).2
  · rw [mem_freeFrames, mem_freeFrames, htotal, hbit]
    by_cases hj : j = frame / pageSize
    · simp [hj, hlt, hclear]
    · simp [hj]

theorem freeFrames_release (h : a.isAllocated address = true) :
    (a.release address).2.freeFrames.Perm (address / pageSize :: a.freeFrames) := by
  obtain ⟨hlt, hset⟩ := isAllocated_iff.mp h
  refine freeFrames_perm_cons (fun hmem => ?_) fun j => ?_
  · rw [(mem_freeFrames.mp hmem).2] at hset
    cases hset
  · obtain ⟨htotal, hbit⟩ := bit_release a address j
    rw [mem_freeFrames, mem_freeFrames, htotal, ← Bool.not_eq_true, hbit, ← Bool.not_eq_true]
    by_cases hj : j = address / pageSize
    · simp [hj, hlt, h]
    · simp [hj]

theorem clearBit_setBit (hfree : a.free ≠ 0) (hclear : a.bit i = false) :
    (a.setBit i).clearBit i = a := by
  have hword : ∀ w : BitVec 64, w.getLsbD (i % 64) = false →
      (w ||| BitVec.twoPow 64 (i % 64)) &&& ~~~BitVec.twoPow 64 (i % 64) = w := by
    intro w hw
    refine BitVec.eq_of_getLsbD_eq fun j hj => ?_
    by_cases hij : j = i % 64
    · subst hij
      simp [hw]
    · simp [hj, hij]
  have hbitmap : ((a.setBit i).clearBit i).bitmap = a.bitmap := by
    refine Array.ext_getElem? fun j => ?_
    rw [clearBit, setBit, Array.getElem?_modify, Array.getElem?_modify]
    split
    · next hj =>
      subst hj
      rw [bit, Array.getD_eq_getD_getElem?] at hclear
      cases hget : a.bitmap[i / 64]? with
      | none => rfl
      | some w =>
        rw [hget, Option.getD_some] at hclear
        rw [Option.map_some, Option.map_some, hword w hclear]
    · rfl
  have hcount : ((a.setBit i).clearBit i).free = a.free := Nat.sub_one_add_one hfree
  cases a
  simp only [clearBit, setBit] at hbitmap hcount ⊢
  rw [hbitmap, hcount]

theorem release_of_allocate (h : a.allocate = some (frame, a')) : (a'.release frame).2 = a := by
  have hallocated := (isAllocated_allocate h frame).mpr (.inr rfl)
  rw [release, if_pos hallocated]
  unfold allocate at h
  split at h
  · cases h
  · next hfree =>
    split at h
    · next i hfirst =>
      split at h
      · cases h
        rw [Nat.mul_div_cancel i (by decide)]
        exact clearBit_setBit hfree (firstClear_spec hfirst).2
      · cases h
    · cases h

end KernelCore.FrameAllocator
