import Mathlib
import KernelCore.Proofs.Heap.Canonical
import KernelCore.Proofs.Scheduler.Admission

/-!
# What a process takes and gives back

On a well-formed heap, taking resources always comes to an end: either there is one more allocated
block, large enough for a stack, and one frame less, or everything that had been taken is back where
it was. Giving them back cannot fail.
-/
namespace KernelCore

namespace Paging

variable {p p' p'' : Paging} {s : AddressSpace} {e : MemoryError}

/-- A new space with the kernel's mappings, if there is memory for it. -/
def provide (p : Paging) : Option (AddressSpace × Paging) :=
  match p.create with
  | (.error _, _) => none
  | (.ok s, p) =>
    match p.share s with
    | (.error _, _) => none
    | (.ok s, p) => some (s, p)

/-- All frames are back, and the root recorded is the same unless its frame was free. -/
structure Unwound (p p' : Paging) : Prop where
  frames : p'.frames = p.frames
  active : p'.active = p.active ∨ ∃ root, p.active = some root ∧ p.frames.IsFree root

theorem Unwound.refl (p : Paging) : Unwound p p := ⟨rfl, .inl rfl⟩

theorem unwound_destroy (hc : p.create = (.ok s, p')) (hroots : SameRoots p' p'')
    (hframes : p''.frames = p'.frames) : Unwound p (p''.destroy s) := by
  have hroots := (create_ok hc).toSameRoots.trans hroots
  obtain ⟨root, frames, t, ha, -, rfl, rfl⟩ := create_eq_ok hc
  refine ⟨?_, ?_⟩
  · show (p''.frames.release root).2 = p.frames
    rw [hframes]
    exact FrameAllocator.release_of_allocate ha
  · rw [destroy, hroots.active]
    dsimp only
    split
    · next hactive => exact .inr ⟨root, hactive, (FrameAllocator.allocate_spec ha).2.1⟩
    · exact .inl rfl

end Paging

namespace Resources

variable {r : Resources} {taken : List Heap.Block}

/-- What taking resources comes to, with the blocks that were allocated before. -/
inductive Drawn (r : Resources) (taken : List Heap.Block) :
    Except MemoryError (KernelStack × AddressSpace) × Resources → Prop
  | refused {e : MemoryError} {r' : Resources} (paging : r.paging.Unwound r'.paging)
      (heap : r'.heap.Stocked taken) (extent : r'.heap.extent = r.heap.extent) :
      Drawn r taken (.error e, r')
  | provided {stack : KernelStack} {space : AddressSpace} {r' : Resources} {b : Heap.Block}
      (allocated : r.paging.frames.allocate = some (space.root, r'.paging.frames))
      (tables : space.tables = []) (heap : r'.heap.Stocked (b :: taken))
      (extent : r'.heap.extent = r.heap.extent) (block : stack.block = b.payload)
      (size : kernelStackSize ≤ b.size)
      (top : some stack.top = (r.heap.addressOf stack.block).map (· + kernelStackSize)) :
      Drawn r taken (.ok (stack, space), r')

theorem take_drawn (hs : r.heap.Stocked taken) : ∃ x, r.take = .ok x ∧ r.Drawn taken x := by
  have hne : kernelStackSize ≠ 0 := by decide
  unfold take
  obtain hnone | ⟨b, heap, hrun, hs', hextent, hsize⟩ := hs.allocate hne
  · rw [hnone]
    exact ⟨_, rfl, .refused (.refl _) hs rfl⟩
  obtain ⟨base, hbase⟩ := hs'.exists_address b.payload
  obtain ⟨back, hfree, hback, hextent', -⟩ := hs'.free
  simp only [hrun, bind, Except.bind, pure, Except.pure, hbase, hfree]
  have hback' := hextent'.trans hextent
  cases hc : r.paging.create with
  | mk result p =>
    cases result with
    | error e =>
      rw [Paging.create_eq_error hc]
      exact ⟨_, rfl, .refused (.refl _) hback hback'⟩
    | ok s =>
      obtain ⟨hroots, hframes, hspace⟩ := Paging.share_frames p s
      dsimp only
      cases hsh : p.share s with
      | mk result p' =>
        rw [hsh] at hroots hframes hspace
        cases result with
        | error e =>
          exact ⟨_, rfl, .refused (Paging.unwound_destroy hc hroots hframes) hback hback'⟩
        | ok space =>
          obtain ⟨root, frames, t, ha, -, rfl, rfl⟩ := Paging.create_eq_ok hc
          obtain ⟨hroot, htables⟩ := List.cons.inj (hspace space rfl)
          have htop := SharedHeap.addressOf_congr hextent b.payload
          rw [hbase] at htop
          refine ⟨_, rfl, .provided ?_ htables hs' hextent rfl hsize ?_⟩
          · dsimp only at hframes ⊢
            rw [ha, hframes, hroot]
          · rw [← htop]
            rfl

theorem take_of_provide {block base : Nat} {heap : SharedHeap} {space : AddressSpace} {p : Paging}
    (ha : r.heap.allocate kernelStackSize = .ok (.ok (some block), heap))
    (hb : heap.addressOf block = some base) (hp : r.paging.provide = some (space, p)) :
    r.take = .ok (.ok (⟨block, base + kernelStackSize⟩, space), ⟨p, heap⟩) := by
  unfold Paging.provide at hp
  split at hp
  · cases hp
  · next hc =>
    split at hp
    · cases hp
    · next hs =>
      cases hp
      simp only [take, ha, hb, hc, hs, bind, Except.bind, pure, Except.pure]

theorem take_of_exhausted
    (ha : r.heap.allocate kernelStackSize = .ok (.error .heapExhausted, r.heap)) :
    r.take = .ok (.error .heapExhausted, r) := by
  simp only [take, ha, bind, Except.bind, pure, Except.pure]

theorem release_stocked {b : Heap.Block} {t : Tenant} (hs : r.heap.Stocked (b :: taken))
    (hblock : t.stack.block = b.payload) :
    ∃ r', (∀ p : Process, p.tenant = t → r.release p = .ok r') ∧
      r'.paging = r.paging.destroy t.space ∧ r'.heap.Stocked taken ∧
      r'.heap.extent = r.heap.extent := by
  obtain ⟨heap, hrun, hs', hextent, -⟩ := hs.free
  refine ⟨⟨r.paging.destroy t.space, heap⟩, ?_, rfl, hs', hextent⟩
  rintro p rfl
  have hblock : p.stack.block = b.payload := hblock
  rw [release, hblock, hrun]
  rfl

end Resources

end KernelCore
