import Mathlib
import KernelCore.Proofs.Frames.Counting

/-!
# Regions byte by byte

The bounds of a region are rounded to frames, its end saturates and is cut off at the last frame. A
release so comes to freeing the frames whose bytes all lie in the region. A reservation takes the
frames that share a byte with it, and in addition the frame in which an empty region would start.
-/
namespace KernelCore.FrameAllocator

/-- The addresses of a frame. -/
def frameBytes (i : Nat) : Finset Nat := Finset.Ico (i * pageSize) ((i + 1) * pageSize)

/-- The addresses of a region. -/
def regionBytes (start size : Nat) : Finset Nat := Finset.Ico start (start + size)

/-- All bytes of a frame lie in a region. -/
def Encloses (start size i : Nat) : Prop := frameBytes i ⊆ regionBytes start size

/-- A frame and a region share a byte. -/
def Meets (start size i : Nat) : Prop := (frameBytes i ∩ regionBytes start size).Nonempty

/-- A region is empty, and it would start inside a frame. -/
def Pierces (start size i : Nat) : Prop :=
  size = 0 ∧ i * pageSize < start ∧ start < (i + 1) * pageSize

/-- The frames in another state than before. -/
def changed (a a' : FrameAllocator) : Finset Nat :=
  (Finset.range a.total).filter fun i =>
    a'.isAllocated (i * pageSize) ≠ a.isAllocated (i * pageSize)

/-- The affected frames were brought into a state, the others are in the state they were in, and the
frames that changed were counted. -/
structure Turned (a : FrameAllocator) (allocated : Bool) (affected : Nat → Prop)
    (r : Nat × FrameAllocator) : Prop where
  total : r.2.total = a.total
  turned : ∀ i < a.total, affected i → r.2.isAllocated (i * pageSize) = allocated
  kept : ∀ i < a.total, ¬ affected i →
    r.2.isAllocated (i * pageSize) = a.isAllocated (i * pageSize)
  count : r.1 = (a.changed r.2).card

variable {a a' : FrameAllocator} {i start size total memory : Nat} {frames : Finset Nat}
variable {affected : Nat → Prop} {r : Nat × FrameAllocator}

theorem isAllocated_eq_false (hi : i < a.total) :
    a.isAllocated (i * pageSize) = false ↔ i ∈ a.vacant := by
  rw [vacant, Finset.mem_filter, Finset.mem_range]
  exact (and_iff_right hi).symm

theorem isAllocated_congr (hi : i < a.total) (ht : a'.total = a.total)
    (h : i ∈ a'.vacant ↔ i ∈ a.vacant) :
    a'.isAllocated (i * pageSize) = a.isAllocated (i * pageSize) := by
  rw [← isAllocated_eq_false hi, ← isAllocated_eq_false (ht ▸ hi)] at h
  exact Bool.eq_iff_iff.mpr (by simpa using not_congr h)

theorem vacant_subset (a : FrameAllocator) : a.vacant ⊆ Finset.range a.total :=
  Finset.filter_subset _ _

theorem changed_eq (ht : a'.total = a.total) : a.changed a' = symmDiff a.vacant a'.vacant := by
  ext i
  rw [changed, Finset.mem_filter, Finset.mem_range, Finset.mem_symmDiff]
  by_cases hi : i < a.total
  · rw [← isAllocated_eq_false hi, ← isAllocated_eq_false (ht ▸ hi)]
    cases a.isAllocated (i * pageSize) <;> cases a'.isAllocated (i * pageSize) <;> simp [hi]
  · have hold : i ∉ a.vacant := fun h => hi (Finset.mem_range.mp (a.vacant_subset h))
    have hnew : i ∉ a'.vacant := fun h => hi (ht ▸ Finset.mem_range.mp (a'.vacant_subset h))
    simp [hi, hold, hnew]

theorem changed_comm (ht : a'.total = a.total) : a'.changed a = a.changed a' := by
  rw [changed_eq ht, changed_eq ht.symm, symmDiff_comm]

namespace Counted

/-- Where frames only become free, the counter goes up by the frames that changed. -/
theorem free_eq_add_changed (h : a.Counted) (h' : a'.Counted) (ht : a'.total = a.total)
    (hsub : a.vacant ⊆ a'.vacant) : a'.free = a.free + (a.changed a').card := by
  rw [changed_eq ht, symmDiff_of_le hsub, Finset.card_sdiff_of_subset hsub, h.free, h'.free]
  exact (Nat.add_sub_of_le (Finset.card_le_card hsub)).symm

theorem turned_of_released (h : a.Counted) (hr : Released a frames r)
    (hframes : ∀ i < a.total, i ∈ frames ↔ affected i) : Turned a false affected r := by
  obtain ⟨hcounted, htotal, hvacant, hcount⟩ := hr
  refine ⟨htotal, fun i hi haff => ?_, fun i hi hno => ?_, ?_⟩
  · rw [isAllocated_eq_false (htotal ▸ hi), hvacant]
    exact Finset.mem_union_right _ ((hframes i hi).mpr haff)
  · refine isAllocated_congr hi htotal ?_
    rw [hvacant, Finset.mem_union, hframes i hi]
    exact or_iff_left hno
  · have hsub : a.vacant ⊆ r.2.vacant := by
      rw [hvacant]
      exact Finset.subset_union_left
    exact Nat.add_left_cancel (hcount.symm.trans (h.free_eq_add_changed hcounted htotal hsub))

theorem turned_of_reserved (h : a.Counted) (hr : Reserved a frames r)
    (hframes : ∀ i < a.total, i ∈ frames ↔ affected i) : Turned a true affected r := by
  obtain ⟨hcounted, htotal, hvacant, hcount⟩ := hr
  refine ⟨htotal, fun i hi haff => ?_, fun i hi hno => ?_, ?_⟩
  · rw [← Bool.not_eq_false, isAllocated_eq_false (htotal ▸ hi), hvacant, Finset.mem_sdiff]
    exact fun hmem => hmem.2 ((hframes i hi).mpr haff)
  · refine isAllocated_congr hi htotal ?_
    rw [hvacant, Finset.mem_sdiff, hframes i hi]
    exact and_iff_left hno
  · have hsub : r.2.vacant ⊆ a.vacant := by
      rw [hvacant]
      exact Finset.sdiff_subset
    rw [← changed_comm htotal]
    exact Nat.add_left_cancel (hcount.trans (hcounted.free_eq_add_changed h htotal.symm hsub))

end Counted

theorem encloses_iff :
    Encloses start size i ↔ start ≤ i * pageSize ∧ (i + 1) * pageSize ≤ start + size := by
  have hne : i * pageSize < (i + 1) * pageSize := by
    rw [pageSize]
    omega
  rw [Encloses, frameBytes, regionBytes, Finset.Ico_subset_Ico_iff hne]

theorem meets_iff : Meets start size i ↔
    0 < size ∧ i * pageSize < start + size ∧ start < (i + 1) * pageSize := by
  rw [Meets, frameBytes, regionBytes, Finset.Ico_inter_Ico, Finset.nonempty_Ico]
  rw [pageSize]
  omega

/-- The rounding is inwards, and no frame reaches to where the end saturates. -/
theorem mem_framesWithin (hi : i < total) (hm : total * pageSize ≤ Word.maximum) :
    i ∈ framesWithin start size total ↔ Encloses start size i := by
  rw [encloses_iff, framesWithin, Finset.mem_Ico]
  simp only [Word.ceilDiv, Word.saturatingAdd, Word.maximum, pageSize] at hm ⊢
  omega

/-- The rounding is outwards, also where the region is empty. -/
theorem mem_framesTouching (hi : i < total) (hm : total * pageSize ≤ Word.maximum) :
    i ∈ framesTouching start size total ↔ Meets start size i ∨ Pierces start size i := by
  rw [meets_iff, Pierces, framesTouching, Finset.mem_Ico]
  simp only [Word.ceilDiv, Word.saturatingAdd, Word.maximum, pageSize] at hm ⊢
  omega

/-- In every state that a run leads to, a release frees the frames inside the region and a
reservation takes those that share a byte with the region, or in which it would start if it is
empty. -/
theorem regions_of_run (built : Built memory a) (hm : memory ≤ Word.maximum)
    (ops : List Operation) (start size : Nat) :
    Turned (a.run ops) false (Encloses start size) ((a.run ops).releaseRegion start size) ∧
      Turned (a.run ops) true (fun i => Meets start size i ∨ Pierces start size i)
        ((a.run ops).reserveRegion start size) := by
  obtain ⟨hcounted, htotal⟩ := built.counted
  obtain ⟨hcounted', htotal'⟩ := hcounted.run ops
  have hmax : (a.run ops).total * pageSize ≤ Word.maximum := by
    rw [htotal', htotal]
    exact (Nat.div_mul_le_self _ _).trans hm
  exact ⟨hcounted'.turned_of_released (hcounted'.releaseRegion start size)
      fun i hi => mem_framesWithin hi hmax,
    hcounted'.turned_of_reserved (hcounted'.reserveRegion start size)
      fun i hi => mem_framesTouching hi hmax⟩

/-- The region starts inside a frame and reaches behind the last word; the last of the three frames
is in use. -/
theorem regions_beyond_last_word : ∃ a, (ofMemory (3 * pageSize + 5)).run
    [.releaseRegion 0 (3 * pageSize - 1), .allocate] = a ∧ a.vacant = {1} ∧
      Turned a false (Encloses 1 Word.maximum) (a.releaseRegion 1 Word.maximum) ∧
      Turned a true (fun i => Meets 1 Word.maximum i ∨ Pierces 1 Word.maximum i)
        (a.reserveRegion 1 Word.maximum) := by
  refine ⟨_, rfl, by decide +kernel, ?_⟩
  exact regions_of_run .ofMemory (by decide) _ 1 Word.maximum

/-- An empty region shares no byte with the only frame, and that frame is taken all the same. -/
theorem frame_taken_by_empty_region : ∃ a,
    (ofMemory pageSize).run [.releaseRegion 0 pageSize] = a ∧ (∀ i, ¬ Meets 100 0 i) ∧
      (a.reserveRegion 100 0).1 = 1 ∧ ¬ Turned a true (Meets 100 0) (a.reserveRegion 100 0) := by
  have hno : ∀ i, ¬ Meets 100 0 i := fun i hmeets => by simpa using meets_iff.mp hmeets
  refine ⟨_, rfl, hno, by decide +kernel, fun hturned => ?_⟩
  have hkept := hturned.kept 0 (by decide +kernel) (hno 0)
  revert hkept
  decide +kernel

end KernelCore.FrameAllocator
