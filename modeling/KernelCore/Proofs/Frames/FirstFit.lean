import Mathlib
import KernelCore.Proofs.Frames.Counting

/-!
# First fit

The search through the words of the bitmap, the counter and the bits behind the last frame together
come to a plain set: the least vacant frame is handed out, and a frame that was handed out is not
vacant again before it is freed.
-/
namespace KernelCore.FrameAllocator

/-- A region reaches over the whole frame at an address. -/
def Covers (start size frame : Nat) : Prop := start ≤ frame ∧ frame + pageSize ≤ start + size

def Operation.Frees (frame : Nat) : Operation → Prop
  | .release address => address / pageSize = frame / pageSize
  | .releaseRegion start size => Covers start size frame
  | .seed regions => ∃ r ∈ regions, r.isUsable = true ∧ Covers r.start r.size frame
  | .allocate | .reserveRegion _ _ => False

variable {a a' : FrameAllocator} {i memory : Nat} {op : Operation} {ops : List Operation}

theorem covers_of_mem {start size total : Nat} (h : i ∈ framesWithin start size total) :
    Covers start size (i * pageSize) := by
  simp only [framesWithin, Word.ceilDiv, Word.saturatingAdd, pageSize, Finset.mem_Ico] at h
  simp only [Covers, pageSize]
  omega

theorem isAllocated_iff_vacant {address : Nat} : a.isAllocated address = true ↔
    address / pageSize < a.total ∧ address / pageSize ∉ a.vacant := by
  rw [isAllocated_iff, mem_vacant, not_and, Bool.not_eq_false]
  exact and_congr_right fun hlt => (imp_iff_right hlt).symm

theorem Counted.not_mem_perform (h : a.Counted) (hi : i ∉ a.vacant)
    (hop : ¬ op.Frees (i * pageSize)) : i ∉ (a.perform op).vacant := by
  cases op with
  | allocate =>
    rw [FrameAllocator.perform]
    cases hg : a.allocate with
    | none => exact hi
    | some r =>
      obtain ⟨_, -, -, -, -, hvacant⟩ := h.allocate hg
      simp [hvacant, hi]
  | release address =>
    rw [FrameAllocator.perform, FrameAllocator.release]
    split
    · next hallocated =>
      have hne : i ≠ address / pageSize := by
        rintro rfl
        exact hop (Nat.mul_div_cancel _ (by decide)).symm
      rw [vacant_clearBit (isAllocated_iff.mp hallocated).1]
      simp [hne, hi]
    · exact hi
  | releaseRegion start size =>
    rw [FrameAllocator.perform, (h.releaseRegion start size).vacant, Finset.mem_union, not_or]
    exact ⟨hi, fun hmem => hop (covers_of_mem hmem)⟩
  | reserveRegion start size =>
    rw [FrameAllocator.perform, (h.reserveRegion start size).vacant]
    exact fun hmem => hi (Finset.mem_sdiff.mp hmem).1
  | seed regions =>
    rw [FrameAllocator.perform, (h.seed regions).2.2]
    rintro ⟨hold | ⟨r, hr, husable, hmem⟩, -⟩
    · exact hi hold
    · exact hop ⟨r, hr, husable, covers_of_mem hmem⟩

theorem Counted.not_mem_run (h : a.Counted) (hi : i ∉ a.vacant)
    (hops : ∀ op ∈ ops, ¬ op.Frees (i * pageSize)) : i ∉ (a.run ops).vacant := by
  induction ops generalizing a with
  | nil => exact hi
  | cons op ops ih =>
    rw [List.forall_mem_cons] at hops
    exact ih (h.perform op).1 (h.not_mem_perform hi hops.1) hops.2

/-- What the operations on single frames do to the vacant ones. -/
structure FirstFit (a : FrameAllocator) : Prop where
  /-- The frame that is handed out is the least vacant one, and no other changes. -/
  least : ∀ frame a', a.allocate = some (frame, a') → ∃ i, IsLeast (a.vacant : Set Nat) i ∧
    frame = i * pageSize ∧ a'.total = a.total ∧ a'.vacant = a.vacant.erase i
  /-- None is handed out if none is vacant, and only then. -/
  exhausted : a.allocate = none ∧ a.perform .allocate = a ↔ a.vacant = ∅
  /-- A frame is taken back if it is in use, and no other changes. -/
  returned : ∀ address, address / pageSize < a.total ∧ address / pageSize ∉ a.vacant →
    (a.release address).1 = true ∧ (a.release address).2.total = a.total ∧
      (a.release address).2.vacant = insert (address / pageSize) a.vacant
  /-- Other frames are not taken back. -/
  ignored : ∀ address, ¬ (address / pageSize < a.total ∧ address / pageSize ∉ a.vacant) →
    a.release address = (false, a)
  /-- A frame is not handed out again before it is freed. -/
  fresh : ∀ frame a' ops frame' a'', a.allocate = some (frame, a') →
    (∀ op ∈ ops, ¬ op.Frees frame) → (a'.run ops).allocate = some (frame', a'') → frame' ≠ frame

theorem Counted.firstFit (h : a.Counted) : a.FirstFit where
  least frame a' hg := by
    obtain ⟨i, hleast, hframe, -, htotal, hvacant⟩ := h.allocate hg
    exact ⟨i, hleast, hframe, htotal, hvacant⟩
  exhausted := by
    obtain ⟨hempty, hnone⟩ | ⟨i, hleast, hsome⟩ := h.allocate_cases
    · simp [FrameAllocator.perform, hempty, hnone]
    · have hne : a.vacant ≠ ∅ := Finset.ne_empty_of_mem hleast.1
      simp [hsome, hne]
  returned address hin := by
    rw [FrameAllocator.release, if_pos (isAllocated_iff_vacant.mpr hin)]
    exact ⟨rfl, rfl, vacant_clearBit hin.1⟩
  ignored address hout := by
    rw [FrameAllocator.release, if_neg fun hin => hout (isAllocated_iff_vacant.mp hin)]
  fresh frame a' ops frame' a'' hg hops hg' := by
    obtain ⟨i, -, rfl, hcounted, -, hvacant⟩ := h.allocate hg
    obtain ⟨i', hleast', rfl, -⟩ := (hcounted.run ops).1.allocate hg'
    have hgone : i ∉ a'.vacant := by simp [hvacant]
    have hstill := hcounted.not_mem_run hgone hops
    intro heq
    obtain rfl : i' = i := Nat.eq_of_mul_eq_mul_right (by decide) heq
    exact hstill hleast'.1

/-- In every state that a run leads to, frames are handed out and taken back as from a set. -/
theorem firstFit_of_run (built : Built memory a) (ops : List Operation) : (a.run ops).FirstFit :=
  (built.counted.1.run ops).1.firstFit

/-- Frame 63 was handed out, and the vacant frames lie in a word that the memory does not fill. -/
theorem firstFit_in_partial_word : ∃ a, (ofMemory (66 * pageSize)).run
    [.releaseRegion (63 * pageSize) (9 * pageSize), .allocate] = a ∧ a.vacant = {64, 65} ∧
      a.FirstFit := by
  refine ⟨_, rfl, by decide +kernel, ?_⟩
  exact firstFit_of_run .ofMemory _

end KernelCore.FrameAllocator
