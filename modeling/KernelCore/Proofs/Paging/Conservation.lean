import Mathlib
import KernelCore.Proofs.Paging.Run

/-!
# Conservation of frames

Whatever happens to the spaces, a frame is free or held by one of them: the free frames and those
that the spaces hold always add up to the number that the allocator started with. The memory, the
window and the root in use have no say in that.
-/
namespace KernelCore

/-- The frames are held by the spaces, each once, and with the free ones there are `total`. -/
structure Accounts (a : FrameAllocator) (spaces : List AddressSpace) (total : Nat) : Prop
    extends Holds a spaces where
  balance : a.free + (spaces.map AddressSpace.frameCount).sum = total

namespace FrameAllocator

variable {a a' : FrameAllocator} {frame : Nat} {frames : List Nat}

theorem free_release (h : a.isAllocated frame = true) :
    (a.release frame).2.free = a.free + 1 := by
  simp [release, h, clearBit]

theorem free_releaseAll (hn : frames.Nodup)
    (h : ∀ f ∈ frames, a.isAllocated f = true ∧ f % pageSize = 0) :
    (a.releaseAll frames).free = a.free + frames.length := by
  induction frames generalizing a with
  | nil => rfl
  | cons f frames ih =>
    obtain ⟨hf, hn⟩ := List.nodup_cons.mp hn
    obtain ⟨⟨ha, hp⟩, hrest⟩ := List.forall_mem_cons.mp h
    have hkept : ∀ g ∈ frames, (a.release f).2.isAllocated g = true ∧ g % pageSize = 0 := by
      intro g hg
      obtain ⟨hga, hgp⟩ := hrest g hg
      refine ⟨(isAllocated_release a f g).mpr ⟨hga, fun he => hf ?_⟩, hgp⟩
      rwa [← eq_of_frame_eq hgp hp he]
    have hone := free_release ha
    have hall := ih hn hkept
    have hstep : a.releaseAll (f :: frames) = (a.release f).2.releaseAll frames := rfl
    rw [hstep, hall, hone, List.length_cons]
    omega

end FrameAllocator

namespace Accounts

variable {a a' : FrameAllocator} {s t : AddressSpace} {spaces spaces' : List AddressSpace}
  {p p' : Paging} {total : Nat}

theorem perm (h : Accounts a spaces total) (hp : spaces.Perm spaces') :
    Accounts a spaces' total where
  toHolds := h.toHolds.perm hp
  balance := by rw [← h.balance, (hp.map _).sum_eq]

theorem congr (h : Accounts a (s :: spaces) total) (hf : t.frames = s.frames) :
    Accounts a (t :: spaces) total where
  toHolds := h.toHolds.congr hf
  balance := by
    rw [← h.balance]
    simp [← AddressSpace.length_frames, hf]

theorem grow {w w' : Mapping} {new : List Nat} (h : Accounts w.frames (w.space :: spaces) total)
    (ht : Mapping.Taken new w w') : Accounts w'.frames (w'.space :: spaces) total where
  toHolds := h.toHolds.grow ht
  balance := by
    have hb := h.balance
    have hc := ht.count
    have hl : w'.space.frameCount = w.space.frameCount + new.length := by
      simp [← AddressSpace.length_frames, ht.frames_eq]
    simp only [List.map_cons, List.sum_cons] at hb ⊢
    omega

theorem destroy (h : Accounts p.frames (s :: spaces) total) :
    Accounts (p.destroy s).frames spaces total ∧
      (p.destroy s).frames.free = p.frames.free + s.frameCount := by
  have hmem : ∀ f, f ∈ s.tables ++ [s.root] ↔ f ∈ s.frames := by
    simp [AddressSpace.frames, or_comm]
  have hn : (s.tables ++ [s.root]).Nodup := by
    have hall := h.nodup
    rw [List.flatMap_cons, List.nodup_append] at hall
    have hs := hall.1
    rw [AddressSpace.frames] at hs
    exact (List.perm_append_singleton s.root s.tables).nodup_iff.mpr hs
  have hfree : (p.destroy s).frames.free = p.frames.free + s.frameCount := by
    rw [Paging.destroy_frames, FrameAllocator.free_releaseAll hn fun f hf =>
      h.allocated s (List.mem_cons_self ..) f ((hmem f).mp hf)]
    simp [AddressSpace.frameCount, Nat.add_comm]
  refine ⟨⟨h.toHolds.destroy, ?_⟩, hfree⟩
  have hb := h.balance
  simp only [List.map_cons, List.sum_cons] at hb
  omega

theorem create (h : Accounts p.frames spaces total) (hc : p.create = (.ok s, p')) :
    Accounts p'.frames (s :: spaces) total := by
  obtain ⟨root, frames, t, ha, -, rfl, rfl⟩ := Paging.create_eq_ok hc
  obtain ⟨-, -, -, hcount, -⟩ := FrameAllocator.allocate_spec ha
  refine ⟨h.toHolds.create ha, ?_⟩
  have hb := h.balance
  simp only [List.map_cons, List.sum_cons, AddressSpace.frameCount, List.length_nil]
  omega

theorem ledger (total : Nat) : Ledger fun a spaces => Accounts a spaces total where
  perm := .perm
  congr := .congr
  grow := .grow
  create := .create
  destroy := fun h => h.destroy.1

end Accounts

namespace Spaces

variable {w w' : Spaces} {op : Operation} {i : Nat} {s s' : AddressSpace} {m : Platform}
  {a : FrameAllocator} {total : Nat}

theorem accounts_perform (h : Accounts w.paging.frames w.all total)
    (hs : w.perform op = .ok w') : Accounts w'.paging.frames w'.all total :=
  ledger_perform (Accounts.ledger total) h hs

/-- The machine is replaced: other memory, another window, another root in use. -/
def onMachine (w : Spaces) (m : Platform) : Spaces :=
  { w with paging := { w.paging with platform := m } }

/-- The states that steps come to on a machine that may turn into any other between them. -/
inductive Conducted (start : Spaces) : Spaces → Prop
  | start : Conducted start start
  | step {w w' : Spaces} {op : Operation} (before : Conducted start w)
      (performed : w.perform op = .ok w') : Conducted start w'
  | machine {w : Spaces} (before : Conducted start w) (m : Platform) :
      Conducted start (w.onMachine m)

theorem Conducted.accounts (h : Conducted (empty m a) w) :
    Accounts w.paging.frames w.all a.free := by
  induction h with
  | start => exact ⟨⟨by simp [all, empty], by simp [all, empty]⟩, by simp [all, empty]⟩
  | step _ hs ih => exact accounts_perform ih hs
  | machine _ _ ih => exact ih

/-- No frame is lost and none is held twice: the spaces hold different frames, all allocated, the
free frames and the held ones add up to those that were free at the start, and a space that is
destroyed gives back as many as it holds. -/
structure Conserved (a : FrameAllocator) (w : Spaces) : Prop where
  nodup : (w.all.flatMap AddressSpace.frames).Nodup
  allocated : ∀ s ∈ w.all, ∀ f ∈ s.frames,
    f % pageSize = 0 ∧ w.paging.frames.isAllocated f = true
  balance : w.paging.frames.free + (w.all.map AddressSpace.frameCount).sum = a.free
  returned : ∀ s ∈ w.live,
    (w.paging.destroy s).frames.free = w.paging.frames.free + s.frameCount

/-- Frames are conserved in every state that a run comes to, whatever the machine does. -/
theorem conserved_of_conducted (h : Conducted (empty m a) w) : w.Conserved a := by
  have ha := h.accounts
  refine ⟨ha.nodup, fun s hs f hf => (ha.allocated s hs f hf).symm, ha.balance, fun s hs => ?_⟩
  obtain ⟨i, hi⟩ := List.getElem?_of_mem hs
  exact (ha.perm (all_perm hi)).destroy.2

theorem conducted_run {start : Spaces} {ops : List Operation} (h : Conducted start w)
    (hr : w.run ops = .ok w') : Conducted start w' := by
  induction ops generalizing w with
  | nil =>
    cases hr
    exact h
  | cons op ops ih =>
    rw [run, List.foldlM_cons] at hr
    obtain ⟨w₁, hs, hr⟩ := Fault.of_bind_eq_ok hr
    exact ih (h.step hs) hr

/-- The window closes in front of the frame that a space takes for its first table. The mapping
fails, and the frame stays with the space. -/
theorem conserved_outside_window : ∃ w s,
    Conducted (ofFrames 6) w ∧ w.live[0]? = some s ∧ s.frameCount = 2 ∧
      w.Conserved (.ofFrames 6) := by
  have hrun : (((ofFrames 6).run [.setUp { identityMapLimit := 0 }, .create]).toOption.any fun w =>
      ((w.onMachine { w.paging.platform with window := 3 * pageSize }).run
        [.map 0 0 0x9000 Flag.present]).toOption.any fun w =>
          w.live[0]?.any fun s => s.frameCount == 2) = true := by decide +kernel
  obtain ⟨w, hr, hrest⟩ := Fault.exists_of_any hrun
  obtain ⟨w', s, hr', hs, hcount⟩ := exists_of_run hrest
  have hw := conducted_run ((conducted_run .start hr).machine _) hr'
  exact ⟨w', s, hw, hs, eq_of_beq hcount, conserved_of_conducted hw⟩

end Spaces

end KernelCore
