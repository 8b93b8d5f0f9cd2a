import Mathlib
import KernelCore.Proofs.Frames.Allocation

/-!
# The counter of free frames

The number of free frames is kept beside the bitmap. Whatever is taken, given back, released or
reserved, and however the regions lie, it is the number of frames that can be handed out, and the
bits behind the last frame stay set.
-/
namespace KernelCore.FrameAllocator

/-- The numbers of the frames that can be handed out. -/
def vacant (a : FrameAllocator) : Finset Nat :=
  (Finset.range a.total).filter fun i => a.isAllocated (i * pageSize) = false

/-- The numbers of the frames, out of `total`, that lie wholly in a region. -/
def framesWithin (start size total : Nat) : Finset Nat :=
  Finset.Ico (Word.ceilDiv start pageSize) (min (Word.saturatingAdd start size / pageSize) total)

/-- The numbers of the frames, out of `total`, that a region touches. -/
def framesTouching (start size total : Nat) : Finset Nat :=
  Finset.Ico (start / pageSize) (min (Word.ceilDiv (Word.saturatingAdd start size) pageSize) total)

/-- What an allocator is asked for. -/
inductive Operation where
  | allocate
  | release (address : Nat)
  | releaseRegion (start size : Nat)
  | reserveRegion (start size : Nat)
  | seed (regions : List Region)

/-- The allocator after an operation. -/
def perform (a : FrameAllocator) : Operation → FrameAllocator
  | .allocate => (a.allocate.map Prod.snd).getD a
  | .release address => (a.release address).2
  | .releaseRegion start size => (a.releaseRegion start size).2
  | .reserveRegion start size => (a.reserveRegion start size).2
  | .seed regions => a.seed regions

def run (a : FrameAllocator) (ops : List Operation) : FrameAllocator := ops.foldl perform a

/-- A new allocator over a memory, with storage of its own or in storage that was given to it. -/
inductive Built (memory : Nat) : FrameAllocator → Prop
  | ofMemory : Built memory (ofMemory memory)
  | ofStorage {storage : Array (BitVec 64)} {a : FrameAllocator}
      (stored : ofStorage storage memory = .ok a) : Built memory a

/-- The bitmap has a bit for every frame, the bits behind the last frame are set, and the counter
is the number of vacant frames. -/
structure Counted (a : FrameAllocator) : Prop where
  size : a.bitmap.size = wordsFor a.total
  tail : ∀ i, a.total ≤ i → i < 64 * a.bitmap.size → a.bit i = true
  free : a.free = a.vacant.card

/-- The frames of a set were freed, and those that were not free before were counted. -/
structure Released (a : FrameAllocator) (frames : Finset Nat) (r : Nat × FrameAllocator) :
    Prop where
  counted : r.2.Counted
  total : r.2.total = a.total
  vacant : r.2.vacant = a.vacant ∪ frames
  count : r.2.free = a.free + r.1

/-- The frames of a set were taken, and those that were free before were counted. -/
structure Reserved (a : FrameAllocator) (frames : Finset Nat) (r : Nat × FrameAllocator) :
    Prop where
  counted : r.2.Counted
  total : r.2.total = a.total
  vacant : r.2.vacant = a.vacant \ frames
  count : r.2.free + r.1 = a.free

variable {a a' : FrameAllocator} {i j n memory : Nat}

@[simp] theorem total_clearBit (a : FrameAllocator) (i : Nat) :
    (a.clearBit i).total = a.total := rfl

@[simp] theorem total_setBit (a : FrameAllocator) (i : Nat) : (a.setBit i).total = a.total := rfl

@[simp] theorem size_clearBit (a : FrameAllocator) (i : Nat) :
    (a.clearBit i).bitmap.size = a.bitmap.size := Array.size_modify

@[simp] theorem size_setBit (a : FrameAllocator) (i : Nat) :
    (a.setBit i).bitmap.size = a.bitmap.size := Array.size_modify

theorem mem_vacant : i ∈ a.vacant ↔ i < a.total ∧ a.bit i = false := by
  simp only [vacant, isAllocated, Finset.mem_filter, Finset.mem_range,
    Nat.mul_div_cancel i (show 0 < pageSize by decide), Bool.and_eq_false_iff,
    decide_eq_false_iff_not]
  exact and_congr_right fun hi => or_iff_right (not_not_intro hi)

theorem card_vacant (a : FrameAllocator) : a.vacant.card = a.freeFrames.length := by
  have hlist : a.vacant = a.freeFrames.toFinset := by
    ext i
    rw [mem_vacant, List.mem_toFinset, mem_freeFrames]
  have hnodup : a.freeFrames.Nodup := List.nodup_range.filter _
  rw [hlist, List.toFinset_card_of_nodup hnodup]

theorem le_wordsFor (n : Nat) : n ≤ 64 * wordsFor n ∧ 64 * wordsFor n < n + 64 := by
  rw [wordsFor, Word.ceilDiv]
  omega

theorem Ico_first (i n : Nat) :
    Finset.Ico i (i + (n + 1)) = insert i (Finset.Ico (i + 1) (i + 1 + n)) := by
  ext j
  simp only [Finset.mem_Ico, Finset.mem_insert]
  omega

theorem Ico_add_sub (first finish : Nat) :
    Finset.Ico first (first + (finish - first)) = Finset.Ico first finish := by
  ext j
  simp only [Finset.mem_Ico]
  omega

theorem vacant_clearBit (hi : i < a.total) : (a.clearBit i).vacant = insert i a.vacant := by
  ext j
  rw [Finset.mem_insert, mem_vacant, mem_vacant, bit_clearBit, total_clearBit]
  by_cases hj : j = i <;> simp [hj, hi]

theorem vacant_setBit (hi : i / 64 < a.bitmap.size) : (a.setBit i).vacant = a.vacant.erase i := by
  ext j
  rw [Finset.mem_erase, mem_vacant, mem_vacant, bit_setBit hi, total_setBit]
  by_cases hj : j = i <;> simp [hj]

namespace Counted

theorem word_lt (h : a.Counted) (hi : i < a.total) : i / 64 < a.bitmap.size := by
  have hwords := le_wordsFor a.total
  rw [← h.size] at hwords
  omega

theorem free_le (h : a.Counted) : a.free ≤ a.total := by
  rw [h.free]
  exact (Finset.card_filter_le _ _).trans_eq (Finset.card_range _)

theorem free_pos (h : a.Counted) (hi : i ∈ a.vacant) : 0 < a.free := by
  rw [h.free]
  exact Finset.card_pos.mpr ⟨i, hi⟩

theorem clearBit (h : a.Counted) (hi : i < a.total) (hb : a.bit i = true) :
    (a.clearBit i).Counted := by
  have hnew : i ∉ a.vacant := by simp [mem_vacant, hb]
  constructor
  · rw [size_clearBit, h.size, total_clearBit]
  · intro j hj hsize
    rw [total_clearBit] at hj
    rw [size_clearBit] at hsize
    have hne : j ≠ i := by omega
    simp [bit_clearBit, h.tail j hj hsize, hne]
  · rw [vacant_clearBit hi, Finset.card_insert_of_notMem hnew, ← h.free]
    rfl

theorem setBit (h : a.Counted) (hi : i < a.total) (hb : a.bit i = false) :
    (a.setBit i).Counted := by
  have hword := h.word_lt hi
  constructor
  · rw [size_setBit, h.size, total_setBit]
  · intro j hj hsize
    rw [total_setBit] at hj
    rw [size_setBit] at hsize
    simp [bit_setBit hword, h.tail j hj hsize]
  · rw [vacant_setBit hword, Finset.card_erase_of_mem (mem_vacant.mpr ⟨hi, hb⟩), ← h.free]
    rfl

theorem releaseFrom (h : a.Counted) (hn : ∀ j, i ≤ j → j < i + n → j < a.total) :
    Released a (Finset.Ico i (i + n)) (a.releaseFrom i n) := by
  induction n generalizing a i with
  | zero => exact ⟨h, rfl, by simp [FrameAllocator.releaseFrom], rfl⟩
  | succ n ih =>
    have hi : i < a.total := hn i (Nat.le_refl i) (by omega)
    have hrest : ∀ j, i + 1 ≤ j → j < i + 1 + n → j < a.total := by
      intro j hle hlt
      exact hn j (by omega) (by omega)
    rw [FrameAllocator.releaseFrom]
    by_cases hb : a.bit i = true
    · rw [if_pos hb]
      obtain ⟨hcounted, htotal, hvacant, hcount⟩ := ih (h.clearBit hi hb) hrest
      have hone : (a.clearBit i).free = a.free + 1 := rfl
      refine ⟨hcounted, htotal, ?_, by simp only; omega⟩
      rw [vacant_clearBit hi] at hvacant
      simp only [hvacant, Ico_first, Finset.insert_union, Finset.union_insert]
    · rw [if_neg hb]
      obtain ⟨hcounted, htotal, hvacant, hcount⟩ := ih h hrest
      have hold : i ∈ a.vacant := mem_vacant.mpr ⟨hi, by simpa using hb⟩
      refine ⟨hcounted, htotal, ?_, hcount⟩
      rw [hvacant, Ico_first, Finset.union_insert, Finset.insert_eq_self.mpr]
      exact Finset.mem_union_left _ hold

theorem reserveFrom (h : a.Counted) (hn : ∀ j, i ≤ j → j < i + n → j < a.total) :
    Reserved a (Finset.Ico i (i + n)) (a.reserveFrom i n) := by
  induction n generalizing a i with
  | zero => exact ⟨h, rfl, by simp [FrameAllocator.reserveFrom], rfl⟩
  | succ n ih =>
    have hi : i < a.total := hn i (Nat.le_refl i) (by omega)
    have hrest : ∀ j, i + 1 ≤ j → j < i + 1 + n → j < a.total := by
      intro j hle hlt
      exact hn j (by omega) (by omega)
    rw [FrameAllocator.reserveFrom]
    by_cases hb : a.bit i = true
    · rw [if_pos hb]
      obtain ⟨hcounted, htotal, hvacant, hcount⟩ := ih h hrest
      have hold : i ∉ a.vacant := by simp [mem_vacant, hb]
      refine ⟨hcounted, htotal, ?_, hcount⟩
      rw [hvacant, Ico_first, Finset.sdiff_insert, Finset.erase_eq_of_notMem]
      exact fun hmem => hold (Finset.mem_sdiff.mp hmem).1
    · rw [if_neg hb]
      have hb : a.bit i = false := by simpa using hb
      obtain ⟨hcounted, htotal, hvacant, hcount⟩ := ih (h.setBit hi hb) hrest
      have hpos := h.free_pos (mem_vacant.mpr ⟨hi, hb⟩)
      have hone : (a.setBit i).free = a.free - 1 := rfl
      refine ⟨hcounted, htotal, ?_, by simp only; omega⟩
      rw [vacant_setBit (h.word_lt hi)] at hvacant
      simp only [hvacant, Ico_first, Finset.sdiff_insert, Finset.erase_sdiff_comm]

/-- The frames that lie wholly in a region are freed. -/
theorem releaseRegion (h : a.Counted) (start size : Nat) :
    Released a (framesWithin start size a.total) (a.releaseRegion start size) := by
  rw [framesWithin, FrameAllocator.releaseRegion, ← Ico_add_sub]
  exact h.releaseFrom (by omega)

/-- The frames that a region touches are taken. -/
theorem reserveRegion (h : a.Counted) (start size : Nat) :
    Reserved a (framesTouching start size a.total) (a.reserveRegion start size) := by
  rw [framesTouching, FrameAllocator.reserveRegion, ← Ico_add_sub]
  exact h.reserveFrom (by omega)

theorem releaseRegions (h : a.Counted) (regions : List Region) :
    ∃ a', regions.foldl (fun a r => (a.releaseRegion r.start r.size).2) a = a' ∧ a'.Counted ∧
      a'.total = a.total ∧
      ∀ i, i ∈ a'.vacant ↔
        i ∈ a.vacant ∨ ∃ r ∈ regions, i ∈ framesWithin r.start r.size a.total := by
  induction regions generalizing a with
  | nil => exact ⟨a, rfl, h, rfl, by simp⟩
  | cons r regions ih =>
    obtain ⟨hcounted, htotal, hvacant, -⟩ := h.releaseRegion r.start r.size
    obtain ⟨a', hrun, hcounted', htotal', hvacant'⟩ := ih hcounted
    refine ⟨a', hrun, hcounted', htotal'.trans htotal, fun i => ?_⟩
    simp [hvacant', hvacant, htotal, or_assoc]

theorem reserveRegions (h : a.Counted) (regions : List Region) :
    ∃ a', regions.foldl (fun a r => (a.reserveRegion r.start r.size).2) a = a' ∧ a'.Counted ∧
      a'.total = a.total ∧
      ∀ i, i ∈ a'.vacant ↔
        i ∈ a.vacant ∧ ∀ r ∈ regions, i ∉ framesTouching r.start r.size a.total := by
  induction regions generalizing a with
  | nil => exact ⟨a, rfl, h, rfl, by simp⟩
  | cons r regions ih =>
    obtain ⟨hcounted, htotal, hvacant, -⟩ := h.reserveRegion r.start r.size
    obtain ⟨a', hrun, hcounted', htotal', hvacant'⟩ := ih hcounted
    refine ⟨a', hrun, hcounted', htotal'.trans htotal, fun i => ?_⟩
    simp [hvacant', hvacant, htotal, and_assoc]

/-- A memory map frees the frames that lie wholly in a usable region, unless another region touches
them. -/
theorem seed (h : a.Counted) (regions : List Region) :
    (a.seed regions).Counted ∧ (a.seed regions).total = a.total ∧
      ∀ i, i ∈ (a.seed regions).vacant ↔
        (i ∈ a.vacant ∨ ∃ r ∈ regions, r.isUsable ∧ i ∈ framesWithin r.start r.size a.total) ∧
          ∀ r ∈ regions, r.isUsable = false → i ∉ framesTouching r.start r.size a.total := by
  obtain ⟨a₁, hrun₁, hcounted₁, htotal₁, hvacant₁⟩ :=
    h.releaseRegions (regions.filter Region.isUsable)
  obtain ⟨a₂, hrun₂, hcounted₂, htotal₂, hvacant₂⟩ :=
    hcounted₁.reserveRegions (regions.filter (!·.isUsable))
  have hseed : a.seed regions = a₂ := by
    rw [FrameAllocator.seed, hrun₁]
    exact hrun₂
  rw [hseed]
  refine ⟨hcounted₂, htotal₂.trans htotal₁, fun i => ?_⟩
  simp [hvacant₂, hvacant₁, htotal₁, and_assoc]

theorem allocate_cases (h : a.Counted) :
    (a.vacant = ∅ ∧ a.allocate = none) ∨
      ∃ i, IsLeast (a.vacant : Set Nat) i ∧ a.allocate = some (i * pageSize, a.setBit i) := by
  rw [FrameAllocator.allocate]
  by_cases hfree : a.free = 0
  · left
    rw [if_pos hfree]
    exact ⟨Finset.card_eq_zero.mp (h.free.symm.trans hfree), rfl⟩
  right
  rw [if_neg hfree]
  rw [h.free] at hfree
  obtain ⟨m, hm⟩ := Finset.card_pos.mp (Nat.pos_of_ne_zero hfree)
  have hclear : ∀ j ∈ a.vacant, a.bit j ≠ true := fun j hj => by simp [(mem_vacant.mp hj).2]
  cases hc : a.firstClear with
  | none =>
    -- some bit is clear, so the search finds one
    have hword := h.word_lt (mem_vacant.mp hm).1
    exact absurd (bit_of_firstClear_eq_none hc hword) (hclear m hm)
  | some i =>
    have hle : ∀ j ∈ a.vacant, i ≤ j := by
      intro j hj
      by_contra hlt
      exact hclear j hj (bit_of_lt_firstClear hc (by omega))
    -- the bits behind the last frame are no answer, because a frame is vacant
    have hi : i < a.total := (hle m hm).trans_lt (mem_vacant.mp hm).1
    simp only [if_pos hi]
    exact ⟨i, ⟨mem_vacant.mpr ⟨hi, (firstClear_spec hc).2⟩, hle⟩, rfl⟩

theorem allocate_eq_none (h : a.Counted) : a.allocate = none ↔ a.free = 0 := by
  obtain ⟨hempty, hnone⟩ | ⟨i, hleast, hsome⟩ := h.allocate_cases
  · simp [hnone, h.free, hempty]
  · have hpos := h.free_pos hleast.1
    rw [hsome]
    exact ⟨fun hc => (nomatch hc), fun hc => absurd hc hpos.ne'⟩

theorem allocate (h : a.Counted) {frame : Nat} (hg : a.allocate = some (frame, a')) :
    ∃ i, IsLeast (a.vacant : Set Nat) i ∧ frame = i * pageSize ∧ a'.Counted ∧
      a'.total = a.total ∧ a'.vacant = a.vacant.erase i := by
  obtain ⟨-, hnone⟩ | ⟨i, hleast, hsome⟩ := h.allocate_cases
  · rw [hnone] at hg
    cases hg
  · rw [hsome] at hg
    cases hg
    obtain ⟨hi, hb⟩ := mem_vacant.mp hleast.1
    exact ⟨i, hleast, rfl, h.setBit hi hb, rfl, vacant_setBit (h.word_lt hi)⟩

theorem release (h : a.Counted) (address : Nat) :
    (a.release address).2.Counted ∧ (a.release address).2.total = a.total := by
  rw [FrameAllocator.release]
  split
  · next hallocated =>
    obtain ⟨hlt, hbit⟩ := isAllocated_iff.mp hallocated
    exact ⟨h.clearBit hlt hbit, rfl⟩
  · exact ⟨h, rfl⟩

theorem perform (h : a.Counted) (op : Operation) :
    (a.perform op).Counted ∧ (a.perform op).total = a.total := by
  cases op with
  | allocate =>
    rw [FrameAllocator.perform]
    cases hg : a.allocate with
    | none => exact ⟨h, rfl⟩
    | some r =>
      obtain ⟨-, -, -, hcounted, htotal, -⟩ := h.allocate hg
      exact ⟨hcounted, htotal⟩
  | release address => exact h.release address
  | releaseRegion start size =>
    have hr := h.releaseRegion start size
    exact ⟨hr.counted, hr.total⟩
  | reserveRegion start size =>
    have hr := h.reserveRegion start size
    exact ⟨hr.counted, hr.total⟩
  | seed regions =>
    obtain ⟨hcounted, htotal, -⟩ := h.seed regions
    exact ⟨hcounted, htotal⟩

theorem run (h : a.Counted) (ops : List Operation) :
    (a.run ops).Counted ∧ (a.run ops).total = a.total := by
  induction ops generalizing a with
  | nil => exact ⟨h, rfl⟩
  | cons op ops ih =>
    obtain ⟨hcounted, htotal⟩ := h.perform op
    obtain ⟨hcounted', htotal'⟩ := ih hcounted
    exact ⟨hcounted', htotal'.trans htotal⟩

end Counted

theorem counted_of_allOnes {bitmap : Array (BitVec 64)}
    (hones : ∀ w ∈ bitmap, w = BitVec.allOnes 64) (hsize : bitmap.size = wordsFor n) :
    (⟨bitmap, n, 0⟩ : FrameAllocator).Counted := by
  have hset : ∀ i, i < 64 * bitmap.size → (⟨bitmap, n, 0⟩ : FrameAllocator).bit i = true := by
    intro i hi
    have hword : i / 64 < bitmap.size := by omega
    exact bit_of_word hword (hones _ (Array.getElem_mem hword))
  have hwords := le_wordsFor n
  refine ⟨hsize, fun i _ hi => hset i hi, ?_⟩
  rw [eq_comm, Finset.card_eq_zero, Finset.eq_empty_iff_forall_notMem]
  intro i hi
  obtain ⟨hlt, hclear⟩ := mem_vacant.mp hi
  have hlt : i < n := hlt
  simp [hset i (by omega)] at hclear

theorem Built.counted (h : Built memory a) : a.Counted ∧ a.total = memory / pageSize := by
  cases h with
  | ofMemory =>
    exact ⟨counted_of_allOnes (fun w hw => (Array.mem_replicate.mp hw).2) Array.size_replicate, rfl⟩
  | @ofStorage storage _ stored =>
    unfold FrameAllocator.ofStorage at stored
    dsimp only at stored
    split at stored
    · cases stored
    · next henough =>
      cases stored
      refine ⟨counted_of_allOnes (fun w hw => ?_) ?_, rfl⟩
      · obtain ⟨_, -, rfl⟩ := Array.mem_map.mp hw
        rfl
      · simp only [Array.size_map, Array.take_eq_extract, Array.size_extract]
        omega

end KernelCore.FrameAllocator
