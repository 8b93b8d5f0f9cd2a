import Mathlib
import KernelCore.Proofs.Frames.Regions

/-!
# Seeding from a memory map

A new allocator takes over a memory map in two passes. What comes out has a closed form: a frame is
free if a usable region holds it and no other region touches it. The order of the map does not
matter.
-/
namespace KernelCore

namespace Region

/-- The address behind a region, or the largest one. -/
def finish (r : Region) : Nat := min (r.start + r.size) (2 ^ 64 - 1)

/-- A region holds a whole frame. -/
def Holds (r : Region) (i : Nat) : Prop := r.start ⌈/⌉ pageSize ≤ i ∧ i < r.finish / pageSize

/-- A region touches a frame. -/
def Touches (r : Region) (i : Nat) : Prop := r.start / pageSize ≤ i ∧ i < r.finish ⌈/⌉ pageSize

instance (r : Region) : DecidablePred r.Holds := fun _ => inferInstanceAs (Decidable (_ ∧ _))

instance (r : Region) : DecidablePred r.Touches := fun _ => inferInstanceAs (Decidable (_ ∧ _))

end Region

/-- A memory map leaves a frame to the allocator. -/
def Grants (regions : List Region) (i : Nat) : Prop :=
  (∃ r ∈ regions, r.kind = .usable ∧ r.Holds i) ∧ ∀ r ∈ regions, r.kind ≠ .usable → ¬ r.Touches i

instance (regions : List Region) : DecidablePred (Grants regions) :=
  fun _ => inferInstanceAs (Decidable (_ ∧ _))

theorem grants_perm {regions regions' : List Region} (h : regions'.Perm regions) (i : Nat) :
    Grants regions' i ↔ Grants regions i := by
  simp only [Grants, h.mem_iff]

namespace FrameAllocator

variable {a b : FrameAllocator} {i memory total : Nat} {r : Region} {regions : List Region}

theorem ceilDiv_pageSize (n : Nat) : n ⌈/⌉ pageSize = Word.ceilDiv n pageSize := by
  rw [Nat.ceilDiv_eq_add_pred_div, Word.ceilDiv]
  rfl

theorem mem_framesWithin_iff :
    i ∈ framesWithin r.start r.size total ↔ i < total ∧ r.Holds i := by
  rw [framesWithin, Finset.mem_Ico, Region.Holds, ceilDiv_pageSize, lt_min_iff]
  exact and_assoc.symm.trans and_comm

theorem mem_framesTouching_iff :
    i ∈ framesTouching r.start r.size total ↔ i < total ∧ r.Touches i := by
  rw [framesTouching, Finset.mem_Ico, Region.Touches, ceilDiv_pageSize, lt_min_iff]
  exact and_assoc.symm.trans and_comm

theorem Counted.ext (h : a.Counted) (h' : b.Counted) (ht : a.total = b.total)
    (hv : a.vacant = b.vacant) : a = b := by
  have hsize : a.bitmap.size = b.bitmap.size := by rw [h.size, h'.size, ht]
  have hbit : ∀ i < 64 * a.bitmap.size, a.bit i = b.bit i := by
    intro i hi
    by_cases hlt : i < a.total
    · have hmem : i ∈ a.vacant ↔ i ∈ b.vacant := by rw [hv]
      rw [mem_vacant, mem_vacant, and_iff_right hlt, and_iff_right (ht ▸ hlt)] at hmem
      exact Bool.eq_iff_iff.mpr (by simpa using not_congr hmem)
    · rw [h.tail i (Nat.not_lt.mp hlt) hi, h'.tail i (ht ▸ Nat.not_lt.mp hlt) (hsize ▸ hi)]
  have hbitmap : a.bitmap = b.bitmap := by
    refine Array.ext hsize fun w hw hw' => BitVec.eq_of_getLsbD_eq fun j hj => ?_
    have hword := hbit (64 * w + j) (by omega)
    have hdiv : (64 * w + j) / 64 = w := by omega
    have hmod : (64 * w + j) % 64 = j := by omega
    simpa [bit, hdiv, hmod, Array.getD, hw, hw'] using hword
  have hfree : a.free = b.free := by rw [h.free, h'.free, hv]
  cases a
  cases b
  simp_all

theorem Built.free_eq (built : Built memory a) : a.free = 0 := by
  cases built with
  | ofMemory => rfl
  | ofStorage stored =>
    unfold FrameAllocator.ofStorage at stored
    dsimp only at stored
    split at stored
    · cases stored
    · cases stored
      rfl

theorem Built.vacant_eq (built : Built memory a) : a.vacant = ∅ :=
  Finset.card_eq_zero.mp (built.counted.1.free.symm.trans built.free_eq)

theorem Built.vacant_seed (built : Built memory a) (regions : List Region) :
    (a.seed regions).vacant = (Finset.range a.total).filter (Grants regions) := by
  obtain ⟨-, htotal, hvacant⟩ := built.counted.1.seed regions
  ext i
  rw [Finset.mem_filter, Finset.mem_range]
  by_cases hi : i < a.total
  · simp [hvacant, built.vacant_eq, mem_framesWithin_iff, mem_framesTouching_iff, hi, Grants,
      Region.isUsable]
  · have hout : i ∉ (a.seed regions).vacant := fun h => hi (htotal ▸ (mem_vacant.mp h).1)
    exact iff_of_false hout fun h => hi h.1

/-- In a new allocator that took over a memory map, those frames are free that the map grants, and
the order of the map does not matter. -/
theorem seed_of_built (built : Built memory a) (regions : List Region) :
    (a.seed regions).total = memory / pageSize ∧
      (∀ i < memory / pageSize,
        (a.seed regions).isAllocated (i * pageSize) = false ↔ Grants regions i) ∧
      (a.seed regions).free = ((Finset.range (memory / pageSize)).filter (Grants regions)).card ∧
      ∀ regions', regions'.Perm regions → a.seed regions' = a.seed regions := by
  obtain ⟨hcounted, htotal⟩ := built.counted
  obtain ⟨hseed, hseedTotal, -⟩ := hcounted.seed regions
  have hvacant := built.vacant_seed regions
  rw [← htotal]
  refine ⟨hseedTotal, fun i hi => ?_, hvacant ▸ hseed.free, fun regions' hperm => ?_⟩
  · rw [isAllocated_eq_false (hseedTotal ▸ hi), hvacant, Finset.mem_filter, Finset.mem_range,
      and_iff_right hi]
  · obtain ⟨hseed', hseedTotal', -⟩ := hcounted.seed regions'
    refine hseed'.ext hseed (hseedTotal'.trans hseedTotal.symm) ?_
    rw [built.vacant_seed regions', hvacant]
    exact Finset.filter_congr fun i _ => grants_perm hperm i

/-- Two usable regions overlap and one of them reaches behind the last word; a region in use starts
and ends inside frames of the other one. -/
theorem seed_of_overlapping : ∃ (a : FrameAllocator) (regions : List Region),
    Built (5 * pageSize) a ∧ regions = [⟨1, 3 * pageSize, .usable⟩,
      ⟨4 * pageSize - 1, 9, .kernel⟩, ⟨2 * pageSize, 2 ^ 64 - 1, .usable⟩] ∧
    (∀ i < 5, (a.seed regions).isAllocated (i * pageSize) = false ↔ i = 1 ∨ i = 2) ∧
    (a.seed regions).free = 2 ∧ a.seed regions.reverse = a.seed regions := by
  have built : Built (5 * pageSize) (ofMemory (5 * pageSize)) := .ofMemory
  obtain ⟨-, hstate, hfree, hperm⟩ := seed_of_built built
    [⟨1, 3 * pageSize, .usable⟩, ⟨4 * pageSize - 1, 9, .kernel⟩,
      ⟨2 * pageSize, 2 ^ 64 - 1, .usable⟩]
  have hgrants : ∀ i < 5, Grants [⟨1, 3 * pageSize, .usable⟩, ⟨4 * pageSize - 1, 9, .kernel⟩,
      ⟨2 * pageSize, 2 ^ 64 - 1, .usable⟩] i ↔ i = 1 ∨ i = 2 := by
    decide +kernel
  refine ⟨_, _, built, rfl, fun i hi => (hstate i hi).trans (hgrants i hi), ?_,
    hperm _ (List.reverse_perm _)⟩
  rw [hfree]
  decide +kernel

end FrameAllocator

end KernelCore
