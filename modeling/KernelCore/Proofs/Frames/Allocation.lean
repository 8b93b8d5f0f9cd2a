import Mathlib
import KernelCore.Frames.Allocator

/-!
# Allocated frames

What taking and giving back one frame does to the set of allocated frames. A frame is named by any
address inside it.
-/
namespace KernelCore.FrameAllocator

/-- The frames of a memory of `n` frames, all free but the first. -/
def ofFrames (n : Nat) : FrameAllocator :=
  ((ofMemory (n * pageSize)).releaseRegion pageSize (n * pageSize)).2

/-- The frame that holds the address can be handed out. -/
def IsFree (a : FrameAllocator) (address : Nat) : Prop := address / pageSize ∈ a.freeFrames

theorem isFree_iff {a : FrameAllocator} {address : Nat} :
    a.IsFree address ↔ address / pageSize < a.total ∧ a.bit (address / pageSize) = false :=
  mem_freeFrames

theorem isAllocated_iff {a : FrameAllocator} {address : Nat} :
    a.isAllocated address = true ↔
      address / pageSize < a.total ∧ a.bit (address / pageSize) = true := by
  simp [isAllocated]

theorem not_isFree_of_isAllocated {a : FrameAllocator} {address : Nat}
    (h : a.isAllocated address = true) : ¬ a.IsFree address := by
  intro hf
  have := (isAllocated_iff.mp h).2
  simp [(isFree_iff.mp hf).2] at this

theorem isFree_of_not_isAllocated {a : FrameAllocator} {address : Nat}
    (hlt : address / pageSize < a.total) (hn : a.isAllocated address ≠ true) :
    a.IsFree address :=
  isFree_iff.mpr ⟨hlt, Bool.eq_false_iff.mpr fun hb => hn (isAllocated_iff.mpr ⟨hlt, hb⟩)⟩

theorem bit_clearBit (a : FrameAllocator) (i j : Nat) :
    (a.clearBit i).bit j = (a.bit j && decide (j ≠ i)) := by
  unfold bit clearBit
  simp only [Array.getD_eq_getD_getElem?, Array.getElem?_modify]
  by_cases hw : i / 64 = j / 64
  · rw [if_pos hw]
    cases hb : a.bitmap[j / 64]? with
    | none => simp
    | some w =>
      have hj : j % 64 < 64 := Nat.mod_lt _ (by decide)
      by_cases hij : j = i
      · subst hij
        simp [hj]
      · have hm : j % 64 ≠ i % 64 := by omega
        simp [hm, hj, hij]
  · have hij : j ≠ i := by rintro rfl; exact hw rfl
    rw [if_neg hw]
    simp [hij]

theorem bit_setBit {a : FrameAllocator} {i : Nat} (h : i / 64 < a.bitmap.size) (j : Nat) :
    (a.setBit i).bit j = (a.bit j || decide (j = i)) := by
  unfold bit setBit
  simp only [Array.getD_eq_getD_getElem?, Array.getElem?_modify]
  by_cases hw : i / 64 = j / 64
  · rw [if_pos hw]
    rw [hw] at h
    have hj : j % 64 < 64 := Nat.mod_lt _ (by decide)
    by_cases hij : j = i
    · subst hij
      simp [h, hj]
    · have hm : i % 64 ≠ j % 64 := by omega
      simp [BitVec.getLsbD_twoPow, hm, h, hij]
  · have hij : j ≠ i := by rintro rfl; exact hw rfl
    rw [if_neg hw]
    simp [hij]

theorem getLsbD_lowestClear {w : BitVec 64} (h : w ≠ BitVec.allOnes 64) :
    lowestClear w < 64 ∧ w.getLsbD (lowestClear w) = false := by
  unfold lowestClear
  cases hf : (List.range 64).find? (!w.getLsbD ·) with
  | none =>
    exfalso
    apply h
    rw [List.find?_eq_none] at hf
    apply BitVec.eq_of_getLsbD_eq
    intro i hi
    have := hf i (List.mem_range.mpr hi)
    rw [BitVec.getLsbD_allOnes]
    simpa [hi] using this
  | some i =>
    have hm := List.mem_range.mp (List.mem_of_find?_eq_some hf)
    have hp := List.find?_some hf
    simp only [Bool.not_eq_true', Option.getD_some] at hp ⊢
    exact ⟨hm, hp⟩

theorem firstClear_spec {a : FrameAllocator} {i : Nat} (h : a.firstClear = some i) :
    i / 64 < a.bitmap.size ∧ a.bit i = false := by
  unfold firstClear at h
  obtain ⟨w, hw, rfl⟩ := Option.map_eq_some_iff.mp h
  obtain ⟨hs, hp, -⟩ := Array.findIdx?_eq_some_iff_getElem.mp hw
  have hd : a.bitmap.getD w 0 = a.bitmap[w] := by simp [Array.getD, hs]
  have hn : a.bitmap.getD w 0 ≠ BitVec.allOnes 64 := by
    rw [hd]
    simpa using hp
  obtain ⟨hl, hb⟩ := getLsbD_lowestClear hn
  have hq : (64 * w + lowestClear (a.bitmap.getD w 0)) / 64 = w := by omega
  have hr : (64 * w + lowestClear (a.bitmap.getD w 0)) % 64 = lowestClear (a.bitmap.getD w 0) := by
    omega
  exact ⟨by rw [hq]; exact hs, by rw [bit, hq, hr]; exact hb⟩

theorem getLsbD_of_lt_lowestClear {w : BitVec 64} {i : Nat} (h : i < lowestClear w) :
    w.getLsbD i = true := by
  unfold lowestClear at h
  cases hf : (List.range 64).find? (!w.getLsbD ·) with
  | none =>
    rw [hf, Option.getD_none] at h
    simpa using List.find?_eq_none.mp hf i (List.mem_range.mpr h)
  | some k =>
    rw [hf, Option.getD_some] at h
    simpa using (List.find?_range_eq_some.mp hf).2.2 i h

theorem bit_of_word {a : FrameAllocator} {j : Nat} (hs : j / 64 < a.bitmap.size)
    (hw : a.bitmap[j / 64] = BitVec.allOnes 64) : a.bit j = true := by
  have hd : a.bitmap.getD (j / 64) 0 = a.bitmap[j / 64] := by simp [Array.getD, hs]
  rw [bit, hd, hw, BitVec.getLsbD_allOnes]
  exact decide_eq_true (Nat.mod_lt _ (by decide))

theorem bit_of_lt_firstClear {a : FrameAllocator} {i j : Nat} (h : a.firstClear = some i)
    (hj : j < i) : a.bit j = true := by
  unfold firstClear at h
  obtain ⟨w, hw, rfl⟩ := Option.map_eq_some_iff.mp h
  obtain ⟨hs, -, hbefore⟩ := Array.findIdx?_eq_some_iff_getElem.mp hw
  have hlow : lowestClear (a.bitmap.getD w 0) ≤ 64 := by
    unfold lowestClear
    cases hf : (List.range 64).find? (!(a.bitmap.getD w 0).getLsbD ·) with
    | none => exact Nat.le_refl 64
    | some k => exact (List.mem_range.mp (List.mem_of_find?_eq_some hf)).le
  rcases Nat.lt_trichotomy (j / 64) w with hlt | rfl | hgt
  · exact bit_of_word (hlt.trans hs) (by simpa using hbefore (j / 64) hlt)
  · rw [bit]
    exact getLsbD_of_lt_lowestClear (by omega)
  · omega

theorem bit_of_firstClear_eq_none {a : FrameAllocator} {j : Nat} (h : a.firstClear = none)
    (hj : j / 64 < a.bitmap.size) : a.bit j = true := by
  unfold firstClear at h
  rw [Option.map_eq_none_iff, Array.findIdx?_eq_none_iff] at h
  exact bit_of_word hj (by simpa using h _ (Array.getElem_mem hj))

/-- A frame that is handed out was free, and it is the only one that changes. -/
theorem allocate_spec {a a' : FrameAllocator} {frame : Nat} (h : a.allocate = some (frame, a')) :
    frame % pageSize = 0 ∧ a.IsFree frame ∧ a'.total = a.total ∧ a.free = a'.free + 1 ∧
      ∀ j, a'.bit j = (a.bit j || decide (j = frame / pageSize)) := by
  unfold allocate at h
  split at h
  · cases h
  · next hfree =>
    cases hc : a.firstClear with
    | none => simp [hc] at h
    | some i =>
      simp only [hc] at h
      split at h
      · next hi =>
        simp only [Option.some.injEq, Prod.mk.injEq] at h
        obtain ⟨rfl, rfl⟩ := h
        obtain ⟨hs, hb⟩ := firstClear_spec hc
        have hd : i * pageSize / pageSize = i := Nat.mul_div_cancel _ (by decide)
        refine ⟨Nat.mul_mod_left _ _, isFree_iff.mpr ?_, rfl, ?_, fun j => ?_⟩
        · rw [hd]
          exact ⟨hi, hb⟩
        · simp only [setBit]
          omega
        · rw [bit_setBit hs, hd]
      · cases h

theorem isAllocated_allocate {a a' : FrameAllocator} {frame : Nat}
    (h : a.allocate = some (frame, a')) (x : Nat) :
    a'.isAllocated x = true ↔
      a.isAllocated x = true ∨ x / pageSize = frame / pageSize := by
  obtain ⟨-, hf, ht, -, hb⟩ := allocate_spec h
  have hlt := (isFree_iff.mp hf).1
  rw [isAllocated_iff, isAllocated_iff, hb, ht]
  by_cases hx : x / pageSize = frame / pageSize
  · simp [hx, hlt]
  · simp [hx]

theorem IsFree.of_allocate {a a' : FrameAllocator} {frame x : Nat}
    (h : a.allocate = some (frame, a')) (hx : a'.IsFree x) : a.IsFree x := by
  obtain ⟨-, -, ht, -, hb⟩ := allocate_spec h
  obtain ⟨hlt, hbit⟩ := isFree_iff.mp hx
  rw [hb, Bool.or_eq_false_iff] at hbit
  exact isFree_iff.mpr ⟨ht ▸ hlt, hbit.1⟩

theorem bit_release (a : FrameAllocator) (address j : Nat) :
    (a.release address).2.total = a.total ∧
      ((a.release address).2.bit j = true ↔
        a.bit j = true ∧ ¬ (j = address / pageSize ∧ a.isAllocated address = true)) := by
  unfold release
  by_cases h : a.isAllocated address = true
  · rw [if_pos h]
    refine ⟨rfl, ?_⟩
    rw [bit_clearBit]
    simp [h]
  · simp [h]

theorem isAllocated_release (a : FrameAllocator) (address x : Nat) :
    (a.release address).2.isAllocated x = true ↔
      a.isAllocated x = true ∧ x / pageSize ≠ address / pageSize := by
  obtain ⟨ht, hb⟩ := bit_release a address (x / pageSize)
  have hx : a.isAllocated x = true ↔ _ := isAllocated_iff
  rw [isAllocated_iff, ht, hb, hx]
  constructor
  · rintro ⟨hlt, hbit, hno⟩
    refine ⟨⟨hlt, hbit⟩, fun he => hno ⟨he, ?_⟩⟩
    rw [isAllocated_iff, ← he]
    exact ⟨hlt, hbit⟩
  · rintro ⟨⟨hlt, hbit⟩, hne⟩
    exact ⟨hlt, hbit, fun hh => hne hh.1⟩

theorem IsFree.of_release {a : FrameAllocator} {address x : Nat}
    (h : (a.release address).2.IsFree x) :
    a.IsFree x ∨ x / pageSize = address / pageSize := by
  obtain ⟨ht, hb⟩ := bit_release a address (x / pageSize)
  obtain ⟨hlt, hbit⟩ := isFree_iff.mp h
  rw [ht] at hlt
  by_cases hx : x / pageSize = address / pageSize
  · exact Or.inr hx
  · left
    refine isFree_iff.mpr ⟨hlt, ?_⟩
    by_contra hc
    simp only [Bool.not_eq_false] at hc
    rw [hb.mpr ⟨hc, fun hh => hx hh.1⟩] at hbit
    cases hbit

end KernelCore.FrameAllocator
