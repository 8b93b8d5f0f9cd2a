import Mathlib
import KernelCore.Proofs.Paging.Conservation
import KernelCore.Proofs.Resources.Provision

/-!
# What is lent to processes

The frames and the blocks that are gone since some point in time are those that tenants have: each
has one frame for its root table and one block for its stack. Taking and giving back resources keep
that, and when nobody has any, everything is back.
-/
namespace KernelCore

/-- The frame of the root table. -/
def Tenant.frame (t : Tenant) : Nat := t.space.root / pageSize

/-- The block of the stack, by its handle. -/
def Tenant.block (t : Tenant) : Nat := t.stack.block

namespace Resources

/-- What is missing from the resources at the start, with the blocks that were allocated then, is
what the tenants have. -/
structure Lent (start : Resources) (taken : List Heap.Block) (tenants : List Tenant)
    (r : Resources) : Prop where
  kernelSpace : r.paging.kernelSpace = start.paging.kernelSpace
  total : r.paging.frames.total = start.paging.frames.total
  tables : ∀ t ∈ tenants, t.space.tables = []
  frames : (tenants.map Tenant.frame ++ r.paging.frames.freeFrames).Perm
    start.paging.frames.freeFrames
  balance : r.paging.frames.free + tenants.length = start.paging.frames.free
  extent : r.heap.extent = start.heap.extent
  blocks : ∃ held : List Heap.Block,
    (held.map Heap.Block.payload).Perm (tenants.map Tenant.block) ∧
      (∀ b ∈ held, kernelStackSize ≤ b.size) ∧ r.heap.Stocked (held ++ taken)
  tops : ∀ t ∈ tenants,
    some t.stack.top = (start.heap.addressOf t.block).map (· + kernelStackSize)

variable {start r r' : Resources} {taken : List Heap.Block} {tenants tenants' : List Tenant}
  {t : Tenant}

namespace Lent

theorem initial (hs : start.heap.Stocked taken) : Lent start taken [] start where
  kernelSpace := rfl
  total := rfl
  tables := by simp
  frames := .refl _
  balance := rfl
  extent := rfl
  blocks := ⟨[], .refl _, by simp, hs⟩
  tops := by simp

theorem perm (h : Lent start taken tenants r) (hp : tenants.Perm tenants') :
    Lent start taken tenants' r := by
  obtain ⟨held, hblocks, hsizes, hs⟩ := h.blocks
  exact
    { kernelSpace := h.kernelSpace
      total := h.total
      tables := fun t ht => h.tables t (hp.mem_iff.mpr ht)
      frames := ((hp.map _).symm.append_right _).trans h.frames
      balance := by rw [← hp.length_eq, h.balance]
      extent := h.extent
      blocks := ⟨held, hblocks.trans (hp.map _), hsizes, hs⟩
      tops := fun t ht => h.tops t (hp.mem_iff.mpr ht) }

theorem congr (h : Lent start taken tenants r)
    (hk : r'.paging.kernelSpace = r.paging.kernelSpace)
    (hf : r'.paging.frames = r.paging.frames) (he : r'.heap.extent = r.heap.extent)
    (hb : ∃ held : List Heap.Block,
      (held.map Heap.Block.payload).Perm (tenants.map Tenant.block) ∧
        (∀ b ∈ held, kernelStackSize ≤ b.size) ∧ r'.heap.Stocked (held ++ taken)) :
    Lent start taken tenants r' where
  kernelSpace := hk.trans h.kernelSpace
  total := by rw [hf, h.total]
  tables := h.tables
  frames := by
    rw [hf]
    exact h.frames
  balance := by rw [hf, h.balance]
  extent := he.trans h.extent
  blocks := hb
  tops := h.tops

theorem nodup (h : Lent start taken tenants r) :
    (tenants.map Tenant.frame ++ r.paging.frames.freeFrames).Nodup :=
  h.frames.nodup_iff.mpr (FrameAllocator.nodup_freeFrames _)

theorem mem_start (h : Lent start taken tenants r) (ht : t ∈ tenants) :
    t.frame ∈ start.paging.frames.freeFrames :=
  h.frames.mem_iff.mp (List.mem_append_left _ (List.mem_map_of_mem ht))

theorem isAllocated (h : Lent start taken tenants r) (ht : t ∈ tenants) :
    r.paging.frames.isAllocated t.space.root = true := by
  have hlt := (FrameAllocator.mem_freeFrames.mp (h.mem_start ht)).1
  have hnot : t.frame ∉ r.paging.frames.freeFrames := fun hmem =>
    (List.nodup_append'.mp h.nodup).2.2 (List.mem_map_of_mem ht) hmem
  rw [← h.total] at hlt
  refine FrameAllocator.isAllocated_iff.mpr ⟨hlt, ?_⟩
  rw [← Bool.not_eq_false]
  exact fun hclear => hnot (FrameAllocator.mem_freeFrames.mpr ⟨hlt, hclear⟩)

theorem frame_ne (h : Lent start taken tenants r) (ht : t ∈ tenants) {f : Nat}
    (hf : start.paging.frames.isAllocated f = true) : f / pageSize ≠ t.frame := by
  intro heq
  refine FrameAllocator.not_isFree_of_isAllocated hf ?_
  rw [FrameAllocator.IsFree, heq]
  exact h.mem_start ht

theorem nodup_blocks (h : Lent start taken tenants r) : (tenants.map Tenant.block).Nodup := by
  obtain ⟨held, hblocks, -, hs⟩ := h.blocks
  have hn := hs.nodup_payload
  rw [List.map_append] at hn
  exact hblocks.nodup_iff.mp (List.nodup_append'.mp hn).1

theorem exists_block (h : Lent start taken tenants r) (ht : t ∈ tenants) :
    ∃ b l, r.heap.Stocked (b :: l) ∧ b.payload = t.block ∧ kernelStackSize ≤ b.size := by
  obtain ⟨held, hblocks, hsizes, hs⟩ := h.blocks
  obtain ⟨b, hb, hpayload⟩ := List.mem_map.mp (hblocks.mem_iff.mpr (List.mem_map_of_mem ht))
  exact ⟨b, _, hs.of_perm ((List.perm_cons_erase hb).append_right taken), hpayload, hsizes b hb⟩

/-- Taking resources comes to an end. There is a new tenant then, or nothing has changed hands. -/
theorem take (h : Lent start taken tenants r) : ∃ result r', r.take = .ok (result, r') ∧
    (∀ e, result = .error e → Lent start taken tenants r') ∧
    ∀ t : Tenant, result = .ok (t.stack, t.space) → Lent start taken (t :: tenants) r' := by
  obtain ⟨held, hblocks, hsizes, hs⟩ := h.blocks
  obtain ⟨⟨result, r'⟩, htake, hdrawn⟩ := take_drawn hs
  have houtcome := take_spec htake
  refine ⟨result, r', htake, fun e he => ?_, fun t ht => ?_⟩
  · subst he
    cases hdrawn with
    | refused hpaging hs' hextent =>
      have hspared : r.paging.Spared r'.paging := houtcome
      exact h.congr hspared.kernelSpace hpaging.frames hextent ⟨held, hblocks, hsizes, hs'⟩
  · subst ht
    cases hdrawn with
    | @provided _ _ _ b ha htables hs' hextent hblock hsize htop =>
      have hgained : r.paging.Gained t.space r'.paging := houtcome
      obtain ⟨-, -, htotal, hcount, -⟩ := FrameAllocator.allocate_spec ha
      exact
        { kernelSpace := hgained.kernelSpace.trans h.kernelSpace
          total := htotal.trans h.total
          tables := List.forall_mem_cons.mpr ⟨htables, h.tables⟩
          frames := by
            have hfree := FrameAllocator.freeFrames_allocate ha
            exact (List.perm_middle.symm.trans (hfree.symm.append_left _)).trans h.frames
          balance := by
            have hb := h.balance
            rw [List.length_cons]
            omega
          extent := hextent.trans h.extent
          blocks := by
            refine ⟨b :: held, ?_, List.forall_mem_cons.mpr ⟨hsize, hsizes⟩, hs'⟩
            rw [List.map_cons, List.map_cons, Tenant.block, hblock]
            exact hblocks.cons _
          tops := by
            refine List.forall_mem_cons.mpr ⟨?_, h.tops⟩
            rw [htop, SharedHeap.addressOf_congr h.extent]
            rfl }

theorem release (h : Lent start taken (t :: tenants) r) :
    ∃ r', (∀ p : Process, p.tenant = t → r.release p = .ok r') ∧ Lent start taken tenants r' := by
  obtain ⟨held, hblocks, hsizes, hs⟩ := h.blocks
  have hmem := List.mem_cons_self (a := t) (l := tenants)
  obtain ⟨b, hb, hpayload⟩ := List.mem_map.mp (hblocks.mem_iff.mpr (List.mem_map_of_mem hmem))
  have hsplit := List.perm_cons_erase hb
  obtain ⟨r', hrun, hpaging, hs', hextent⟩ :=
    release_stocked (hs.of_perm (hsplit.append_right taken)) hpayload.symm
  have hallocated := h.isAllocated hmem
  have hframes : r'.paging.frames = (r.paging.frames.release t.space.root).2 := by
    rw [hpaging, Paging.destroy_frames, h.tables t hmem]
    rfl
  refine ⟨r', hrun, ?_⟩
  exact
    { kernelSpace := by
        rw [hpaging]
        exact h.kernelSpace
      total := by rw [hframes, (FrameAllocator.bit_release _ _ 0).1, h.total]
      tables := fun t ht => h.tables t (List.mem_cons_of_mem _ ht)
      frames := by
        rw [hframes]
        have hfree := FrameAllocator.freeFrames_release hallocated
        exact ((hfree.append_left _).trans List.perm_middle).trans h.frames
      balance := by
        have hb := h.balance
        have hcount := FrameAllocator.free_release hallocated
        rw [List.length_cons] at hb
        rw [hframes]
        omega
      extent := hextent.trans h.extent
      blocks := by
        refine ⟨held.erase b, ?_, fun c hc => hsizes c (List.mem_of_mem_erase hc), hs'⟩
        have hp := (hsplit.map Heap.Block.payload).symm.trans hblocks
        rw [List.map_cons, List.map_cons, hpayload] at hp
        exact hp.cons_inv
      tops := fun t ht => h.tops t (List.mem_cons_of_mem _ ht) }

theorem restored (h : Lent start taken [] r) (hs : start.heap.Stocked taken) :
    r.paging.frames.freeFrames = start.paging.frames.freeFrames ∧
      r.heap.heap.map Heap.blocks = start.heap.heap.map Heap.blocks := by
  obtain ⟨held, hblocks, -, hs'⟩ := h.blocks
  obtain rfl : held = [] := List.map_eq_nil_iff.mp hblocks.eq_nil
  exact ⟨FrameAllocator.freeFrames_eq_of_perm h.frames, hs.blocks_eq hs' (.refl _) h.extent⟩

end Lent

end Resources

end KernelCore
