import Mathlib
import KernelCore.Proofs.Heap.Canonical

/-!
# Releases in any order

Each release merges what is free around it, so what happens on the way depends on the order of the
releases. The result does not: the blocks that stay allocated determine it. In particular a release
undoes the request before it, and once nothing is allocated the arena is one free block again.
-/
namespace KernelCore.Heap

/-- Releases blocks one after the other. -/
def freeAll (h : Heap) (handles : List Nat) : Except Fault Heap := handles.foldlM Heap.free h

/-- The blocks that are held, by their handles. -/
def Ledger.handles (l : Ledger) : List Nat := l.held.map Holding.block

variable {h h' : Heap} {bs gone kept : List Block} {l : Ledger} {xs ys : List Nat}

theorem exists_map_eq {α β : Type} {f : α → β} {ys : List β} {xs : List α}
    (hp : ys.Perm (xs.map f)) : ∃ zs : List α, zs.map f = ys ∧ zs.Perm xs := by
  obtain ⟨zs, heq, hzs⟩ := (congrFun₂ (List.eq_map_comp_perm f) ys xs).mpr hp
  exact ⟨zs, heq.symm, hzs⟩

theorem Formatted.freeAll (hf : h.Formatted bs)
    (hp : (bs.filter (!·.free)).Perm (gone ++ kept)) :
    ∃ h' bs', h.freeAll (gone.map Block.payload) = .ok h' ∧ h'.Formatted bs' ∧
      (bs'.filter (!·.free)).Perm kept ∧ h'.capacity = h.capacity := by
  induction gone generalizing h bs with
  | nil => exact ⟨h, bs, rfl, hf, hp, rfl⟩
  | cons b gone ih =>
    have hb : b ∈ bs.filter (!·.free) := hp.mem_iff.mpr (List.mem_cons_self ..)
    obtain ⟨h₁, bs₁, hrun, hf₁, hp₁, -, hcap, -⟩ := hf.free hb
    obtain ⟨h', bs', hrun', hf', hp', hcap'⟩ := ih hf₁ (hp₁.symm.trans hp).cons_inv
    refine ⟨h', bs', ?_, hf', hp', hcap'.trans hcap⟩
    rw [Heap.freeAll, List.map_cons, List.foldlM_cons, hrun]
    exact hrun'

/-- Two orders of releasing the same blocks lead to the same blocks. -/
theorem Formatted.freeAll_perm {gone' : List Block} (hf : h.Formatted bs)
    (hp : (bs.filter (!·.free)).Perm (gone ++ kept)) (hgone : gone.Perm gone') :
    ∃ h₁ h₂ bs', h.freeAll (gone.map Block.payload) = .ok h₁ ∧
      h.freeAll (gone'.map Block.payload) = .ok h₂ ∧ h₁.blocks = .ok bs' ∧ h₂.blocks = .ok bs' := by
  obtain ⟨h₁, bs₁, hrun₁, hf₁, hp₁, hcap₁⟩ := hf.freeAll hp
  obtain ⟨h₂, bs₂, hrun₂, hf₂, hp₂, hcap₂⟩ := hf.freeAll (hp.trans (hgone.append_right kept))
  have hbs := hf₁.eq_of_perm hf₂ (hcap₂.trans hcap₁.symm) (hp₁.trans hp₂.symm)
  exact ⟨h₁, h₂, bs₁, hrun₁, hrun₂, hf₁.blocks, hbs ▸ hf₂.blocks⟩

theorem Formatted.free_allocate {size handle : Nat} (hf : h.Formatted bs)
    (ha : h.allocate size = .ok (.ok (some handle), h')) :
    ∃ h₂, h'.free handle = .ok h₂ ∧ h₂.blocks = .ok bs := by
  have hsize : size ≠ 0 := by
    rintro rfl
    cases ha
  obtain hnone | ⟨b, h₁, bs₁, hr, hf₁, hp₁, -, hcap₁, -⟩ := hf.allocate hsize
  · rw [hnone] at ha
    cases ha
  · rw [hr] at ha
    cases ha
    have hb : b ∈ bs₁.filter (!·.free) := hp₁.mem_iff.mpr (List.mem_cons_self ..)
    obtain ⟨h₂, bs₂, hrun, hf₂, hp₂, -, hcap₂, -⟩ := hf₁.free hb
    have hbs := hf.eq_of_perm hf₂ (hcap₂.trans hcap₁) (hp₁.symm.trans hp₂).cons_inv
    exact ⟨h₂, hrun, hbs ▸ hf₂.blocks⟩

namespace Ledger

theorem Kept.handles_perm (hk : l.Kept bs) :
    l.handles.Perm ((bs.filter (!·.free)).map Block.payload) := by
  have hp := hk.held.map Prod.fst
  rwa [List.map_map, List.map_map] at hp

theorem Kept.exists_gone (hk : l.Kept bs) (hx : xs.Subperm l.handles) :
    ∃ gone kept, gone.map Block.payload = xs ∧ (bs.filter (!·.free)).Perm (gone ++ kept) := by
  obtain ⟨zs, hzs, hsub⟩ := hx
  obtain ⟨ys, hys⟩ := hsub.exists_perm_append
  have hall : l.handles.Perm (xs ++ ys) := hys.trans (hzs.append_right ys)
  obtain ⟨all, heq, hp⟩ := exists_map_eq (hall.symm.trans hk.handles_perm)
  obtain ⟨gone, kept, rfl, hgone, -⟩ := List.map_eq_append_iff.mp heq
  exact ⟨gone, kept, hgone, hp.symm⟩

/-- After every run of a user on a new heap, releasing some of the blocks that it holds leads to the
same blocks in any order, a request followed by its release changes no block, and releasing all of
them leaves one free block, if the arena has room for one. -/
theorem releases_of_run (base : Nat) {arena : Array UInt8} (hmax : arena.size < 2 ^ 63)
    (ops : List Session.Operation) :
    ∃ l bs, (start base arena).run ops = .ok l ∧ l.heap.blocks = .ok bs ∧
      (∀ xs ys, xs.Nodup → xs ⊆ l.handles → xs.Perm ys → ∃ h₁ h₂ bs',
        l.heap.freeAll xs = .ok h₁ ∧ l.heap.freeAll ys = .ok h₂ ∧ h₁.blocks = .ok bs' ∧
          h₂.blocks = .ok bs') ∧
      (∀ size handle h₁, l.heap.allocate size = .ok (.ok (some handle), h₁) → ∃ h₂,
        h₁.free handle = .ok h₂ ∧ h₂.blocks = .ok bs) ∧
      ∀ xs, xs.Perm l.handles → ∃ h₁, l.heap.freeAll xs = .ok h₁ ∧ h₁.capacity = l.heap.capacity ∧
        h₁.blocks =
          .ok (if l.heap.capacity < headerSize then [] else [.whole l.heap.capacity]) := by
  obtain ⟨_, hk⟩ := kept_start base hmax
  obtain ⟨l, bs, hrun, hk⟩ := hk.run ops
  have hf := hk.formatted
  refine ⟨l, bs, hrun, hf.blocks, fun xs ys hnodup hsub hperm => ?_,
    fun size handle h₁ ha => hf.free_allocate ha, fun xs hperm => ?_⟩
  · obtain ⟨gone, kept, rfl, hp⟩ := hk.exists_gone (List.subperm_of_subset hnodup hsub)
    obtain ⟨gone', rfl, hgone⟩ := exists_map_eq hperm.symm
    exact hf.freeAll_perm hp hgone.symm
  · obtain ⟨gone, kept, rfl, hp⟩ := hk.exists_gone hperm.subperm
    obtain ⟨h₁, bs₁, hrun₁, hf₁, hp₁, hcap⟩ := hf.freeAll hp
    -- the handles are all that are held, so no allocated block is left
    have hlength := (hperm.trans hk.handles_perm).length_eq
    have hlength' := hp.length_eq
    rw [List.length_map, List.length_map] at hlength
    rw [List.length_append] at hlength'
    have hkept : kept = [] := List.eq_nil_of_length_eq_zero (by omega)
    subst hkept
    rw [← hcap, ← hf₁.eq_whole hp₁.eq_nil]
    exact ⟨h₁, hrun₁, rfl, hf₁.blocks⟩

/-- Of three neighbours the first two are released, in one order and in the other. -/
theorem releases_of_neighbours : ∃ l h₁ h₂ bs,
    (start 0 (Array.replicate 256 0)).run [.allocate 16, .allocate 16, .allocate 16] = .ok l ∧
      l.handles = [128, 80, 32] ∧ l.heap.freeAll [32, 80] = .ok h₁ ∧
      l.heap.freeAll [80, 32] = .ok h₂ ∧ h₁.blocks = .ok bs ∧ h₂.blocks = .ok bs := by
  obtain ⟨l, -, hrun, -, horders, -⟩ :=
    releases_of_run 0 (show (Array.replicate 256 (0 : UInt8)).size < 2 ^ 63 by simp)
      [.allocate 16, .allocate 16, .allocate 16]
  have hhandles : ((start 0 (Array.replicate 256 0)).run
      [.allocate 16, .allocate 16, .allocate 16]).toOption.any
        (fun l => l.handles = [128, 80, 32]) = true := by decide +kernel
  rw [hrun, Except.toOption, Option.any_some, decide_eq_true_eq] at hhandles
  obtain ⟨h₁, h₂, bs, hrun₁, hrun₂, hbs₁, hbs₂⟩ :=
    horders [32, 80] [80, 32] (by decide) (by simp [hhandles]) (.swap ..)
  exact ⟨l, h₁, h₂, bs, hrun, hhandles, hrun₁, hrun₂, hbs₁, hbs₂⟩

/-- In an arena too short for a header, nothing is allocated and there is no free block either. -/
theorem no_block_in_short_arena : ∃ l h, (start 0 (Array.replicate 16 0)).run [] = .ok l ∧
    l.handles = [] ∧ l.heap.freeAll l.handles = .ok h ∧ h.blocks = .ok [] ∧
      h.blocks ≠ .ok [.whole h.capacity] := by
  refine ⟨_, _, rfl, rfl, rfl, rfl, ?_⟩
  decide

end Ledger

end KernelCore.Heap
