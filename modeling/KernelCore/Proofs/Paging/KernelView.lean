import Mathlib
import KernelCore.Proofs.Paging.Windows

/-!
# The view of the kernel

A space that shares the kernel's mappings translates like the kernel below every present root entry
of the kernel space, and as before elsewhere, whatever it had mapped there. It gets no frames of the
kernel, so those stay when it is destroyed.
-/
namespace KernelCore
open Platform

/-- A root table with the entry of another one translates like that one, as long as the walk does
not come back to it. -/
theorem Platform.translate_writeTable {m : Platform} {source target va : Nat} {t u merged : Table}
    (hs : m.readTable source = .ok t) (hu : m.readTable target = .ok u)
    (hentry : merged.get (pathOf va 39) = t.get (pathOf va 39))
    (hother : ∀ {rest table}, m.Reaches source (pathOf va) rest table → rest ≠ linkShifts →
      table ≠ target) :
    (m.writeTable target merged).translate target va = m.translate source va := by
  have hread := readTable_writeTable hu merged
  refine translateFrom_of_entry ?_ ?_
  · rw [hread, if_pos rfl, hs]
    exact congrArg Except.ok hentry
  · intro shift rest t' hcons read leads
    obtain ⟨rfl, rfl⟩ := List.cons.inj hcons
    cases hs.symm.trans read
    refine translateFrom_congr (Reaches.root.link hs leads) fun hr hsuffix => ?_
    rw [hread, if_neg (hother hr ?_)]
    rintro rfl
    exact absurd hsuffix.length_le (by decide)

namespace Paging

variable {p p' : Paging} {s s' k : AddressSpace} {others : List AddressSpace} {window : Nat}
  {template : Set Nat} {copied : Slots} {merged : Table}

/-- After root entries of the kernel space were copied, a space translates below them like the
kernel, and elsewhere as before. -/
theorem Separate.translate_merged (h : (p.through window).Separate template (s :: others))
    (hw : p.platform.Within window) (hk : k ∈ p.kernelSpace)
    (hm : Merged p.platform k.root s.root copied merged) (va : Nat) :
    (p.platform.writeTable s.root merged).translate s.root va =
      if copied.get (pathOf va 39) then p.platform.translate k.root va
      else p.platform.translate s.root va := by
  obtain ⟨t, u, ht, hu, -, hget⟩ := hm.tables
  split
  · next hc =>
    refine translate_writeTable ht hu (by rw [hget, if_pos hc]) fun hr _ => ?_
    rintro rfl
    have hn := h.tail.kernel_apart h.holds_cons h.spares_head hk (hr.through hw)
    exact Bool.false_ne_true (hn.symm.trans s.owns_root)
  · next hc =>
    refine translate_writeTable hu hu (by rw [hget, if_neg hc]) fun hr hne => ?_
    rintro rfl
    have hrooted := h.rooted s (List.mem_cons_self ..)
    exact hne (hrooted.once s.owns_root (Reaches.root (p := pathOf va)) (hr.through hw)).1

theorem Separate.isAllocated_destroy (h : p.Separate template (s :: others)) {x : Nat}
    (hp : x % pageSize = 0) (ho : s.owns x = false) (ha : p.frames.isAllocated x = true) :
    (p.destroy s).frames.isAllocated x = true := by
  rw [destroy_frames, FrameAllocator.isAllocated_releaseAll]
  refine ⟨ha, fun f hf he => ?_⟩
  have hf : f ∈ s.frames := by
    rw [List.mem_append, List.mem_singleton] at hf
    simpa [AddressSpace.frames] using hf.symm
  obtain rfl := eq_of_frame_eq hp (h.holds_cons.allocated s (List.mem_cons_self ..) f hf).2 he
  exact Bool.false_ne_true (ho.symm.trans (AddressSpace.mem_frames.mp hf))

end Paging

namespace Spaces

variable {w : Spaces} {template : Set Nat} {i : Nat} {s k : AddressSpace}

/-- A live space that shares the kernel's mappings gets the view of the kernel where the kernel has
a root entry, remembers these slots, and holds what it held. Destroying it takes nothing from the
kernel. If the mappings cannot be shared, nothing changes. -/
theorem share_view (h : Visited template w) (hi : w.live[i]? = some s)
    (hk : w.paging.kernelSpace = some k) :
    let p := w.paging
    (∀ s' p', p.share s = (.ok s', p') → ∃ t, p.platform.readTable k.root = .ok t ∧
      (∀ v, p'.translate s' v = if (t.get (pathOf v 39)).present then p'.translate k v
        else p.translate s v) ∧
      (∀ v, p'.translate k v = p.translate k v) ∧
      (∀ slot : Fin 512, s'.isShared slot = .ok (s.shared.get slot || (t.get slot).present)) ∧
      s'.frames = s.frames ∧
      (∀ f ∈ k.frames, (p'.destroy s').frames.isAllocated f = true) ∧
      (∀ path rest table, p.platform.Reaches k.root path rest table →
        p.frames.isAllocated table = true → (p'.destroy s').frames.isAllocated table = true) ∧
      ∀ v, (p'.destroy s').translate k v = p.translate k v) ∧
    ∀ e p', p.share s = (.error e, p') → p' = { p with platform := p.platform.mask } := by
  intro p
  have hsep := h.separate.perm (live_perm hi)
  have hmem : k ∈ p.kernelSpace.toList ++ w.live.eraseIdx i :=
    List.mem_append_left _ (Option.mem_toList.mpr hk)
  refine ⟨fun s' p' hs => ?_, fun e p' hs => Paging.share_eq_error hs⟩
  have hsep' := hsep.share h.within hs
  have hkernel := (hsep.undisturbed_share h.within hs hmem).translate
  have hframes := (p.share_frames s).2.2 s' (by rw [hs])
  obtain ⟨t, copied, merged, read, hcopied, hm, rfl, rfl⟩ := Paging.share_of_kernel hk hs
  have hkept : ∀ f ∈ k.frames, (Paging.destroy _ _).frames.isAllocated f = true :=
    fun f hf => (hsep'.holds_cons.destroy.allocated k hmem f hf).1
  refine ⟨t, read, fun v => ?_, hkernel, fun slot => ?_, hframes, hkept,
    fun path rest table hr ha => ?_, hkernel⟩
  · have hmasked : p.platform.mask.Within physicalBound := h.within
    have ht := Paging.Separate.translate_merged (p := { p with platform := p.platform.mask })
      hsep.mask hmasked hk hm v
    rw [hcopied] at ht
    rw [hkernel]
    exact ht.trans (by rw [Platform.mask, translate_emit, translate_emit]; rfl)
  · rw [AddressSpace.isShared, Vector.getElem?_eq_getElem slot.isLt]
    have hget := Paging.Separate.shared_get s copied slot
    rw [Vector.get_eq_getElem, hcopied] at hget
    rw [← hget]
  · by_cases hrest : rest = linkShifts
    · subst hrest
      rw [hr.unique .root]
      exact hkept k.root (List.mem_cons_self ..)
    · have ho := hsep.tail.kernel_apart hsep.holds_cons hsep.spares_head hk (hr.through h.within)
      exact hsep'.isAllocated_destroy (hr.address_mod hrest) ho ha

/-- A space that has copies of the kernel's tables shares again. The page that it had mapped through
the copies is gone. -/
theorem share_view_again : ∃ w s k s' p',
    Visited ∅ w ∧ w.live[0]? = some s ∧ w.paging.kernelSpace = some k ∧
      w.paging.share s = (.ok s', p') ∧ s'.frameCount = 4 ∧
      w.paging.translate s 0x1000 = .ok (some 0x9000) ∧ p'.translate s' 0x1000 = .ok none ∧
      p'.translate s' 5 = .ok (some 5) ∧ s'.isShared 0 = .ok true ∧
      ∀ f ∈ k.frames, (p'.destroy s').frames.isAllocated f = true := by
  have hrun : (((ofFrames 12).run [.setUp { identityMapLimit := pageSize }, .create, .share 0,
      .map 0 0x1000 0x9000 Flag.present]).toOption.any fun w => w.live[0]?.any fun s =>
        w.paging.kernelSpace.any fun k => decide (
          (w.paging.platform.readTable k.root).map (fun t => (t.get 0).present) = .ok true ∧
          (w.paging.share s).1.isOk = true ∧ s.frameCount = 4 ∧
          w.paging.translate s 0x1000 = .ok (some 0x9000) ∧
          w.paging.translate k 0x1000 = .ok none ∧
          w.paging.translate k 5 = .ok (some 5))) = true := by decide +kernel
  obtain ⟨w, s, hr, hs, hrun⟩ := exists_of_run hrun
  obtain ⟨k, hk, hrun⟩ := (Option.any_eq_true _ _).mp hrun
  obtain ⟨hpresent, hok, hcount, hmapped, hgone, hlow⟩ := of_decide_eq_true hrun
  have hw : Visited ∅ w := by
    refine visited_run (.start _ _ (by decide)) (fun op hop w => ?_) hr
    simp only [List.mem_cons, List.not_mem_nil, or_false] at hop
    rcases hop with rfl | rfl | rfl | rfl
    · exact fun _ => ⟨by simp, by simp⟩
    · trivial
    · trivial
    · trivial
  obtain ⟨s', hshare⟩ : ∃ s', (w.paging.share s).1 = .ok s' := by
    cases hc : (w.paging.share s).1 with
    | ok s' => exact ⟨s', rfl⟩
    | error e => simp [hc, Except.isOk, Except.toBool] at hok
  have hshare : w.paging.share s = (.ok s', (w.paging.share s).2) := Prod.ext hshare rfl
  obtain ⟨hview, -⟩ := share_view hw hs hk
  obtain ⟨t, read, hv, hkernel, hshared, hframes, hkept, -, -⟩ := hview s' _ hshare
  have hslot : (t.get 0).present = true := by simpa [read, Except.map] using hpresent
  have hlike : ∀ v, pathOf v 39 = 0 →
      (w.paging.share s).2.translate s' v = w.paging.translate k v := fun v h0 => by
    rw [hv, h0, if_pos hslot, hkernel]
  refine ⟨w, s, k, s', _, hw, hs, hk, hshare, ?_, hmapped, (hlike _ (by decide)).trans hgone,
    (hlike _ (by decide)).trans hlow, ?_, hkept⟩
  · rw [← AddressSpace.length_frames, hframes, AddressSpace.length_frames, hcount]
  · have h0 := hshared 0
    rwa [hslot, Bool.or_true] at h0

end Spaces

end KernelCore
