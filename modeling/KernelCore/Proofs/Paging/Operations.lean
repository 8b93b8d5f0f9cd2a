import Mathlib
import KernelCore.Proofs.Paging.Ownership
import KernelCore.Proofs.Paging.Soundness

/-!
# Operations on spaces

Every operation on a live space keeps the spaces separate and disturbs no other one, unless a space
gets a table of the template. An operation goes its way in the window of the machine, and the state
may be seen through any window that shows at least as much.
-/
namespace KernelCore.Paging
open Platform

variable {p p' : Paging} {s : AddressSpace} {live others : List AddressSpace} {window : Nat}
  {template : Set Nat}

theorem map_eq (p : Paging) (s : AddressSpace) (va pa : Nat) (flags : BitVec 64) :
    p.map s va pa flags = (((p.mapping s).map va pa flags).1,
      ((p.mapping s).map va pa flags).2.space, p.adopt ((p.mapping s).map va pa flags).2) := rfl

theorem unmap_frames (p : Paging) (s : AddressSpace) (va : Nat) :
    (p.unmap s va).frames = p.frames ∧ (p.unmap s va).kernelSpace = p.kernelSpace := by
  unfold unmap
  dsimp only
  split
  · exact ⟨rfl, rfl⟩
  · split <;> exact ⟨rfl, rfl⟩

theorem sameMachine_create (p : Paging) : SameMachine p.platform p.create.2.platform := by
  unfold create
  split
  · exact .refl _
  · split
    · exact .refl _
    · exact sameMachine_writeTable ..

theorem sameMachine_unmapFrom (m : Platform) (va : Nat) (shifts : List Nat) (table : Nat) :
    SameMachine m (m.unmapFrom va shifts table).2 := by
  induction shifts generalizing table with
  | nil =>
    rw [unmapFrom]
    split
    · exact .refl m
    · dsimp only
      split
      · exact sameMachine_setEntry ..
      · exact .refl m
  | cons shift rest ih =>
    rw [unmapFrom]
    split
    · exact .refl m
    · dsimp only
      split
      · exact .refl m
      · exact ih _

theorem sameMachine_unmap (p : Paging) (s : AddressSpace) (va : Nat) :
    SameMachine p.platform (p.unmap s va).platform := by
  have hmask := sameMachine_emit p.platform .masked
  have hclear := hmask.trans (sameMachine_unmapFrom p.platform.mask va linkShifts s.root)
  unfold Paging.unmap
  dsimp only
  split
  · exact hmask
  · split
    · next he =>
      rw [← Platform.unmap, he] at hclear
      exact hclear
    · next he =>
      rw [← Platform.unmap, he] at hclear
      exact hclear.trans (sameMachine_emit _ (.flush va))

/-- What unmapping a page of a live space does to the space. -/
structure Unmapped (p : Paging) (window : Nat) (s : AddressSpace) (va : Nat) (w : Mapping) :
    Prop where
  eq : p.unmap s va = p.adopt w
  space : w.space = s
  grown : Mapping.Grown [] (p.mapping s) w
  reaches : ∀ {path rest table}, w.platform.Reaches s.root path rest table ↔
    p.platform.Reaches s.root path rest table
  sound : (w.through window).Sound ((p.through window).lentTo s)

theorem create_platform (hc : p.create = (.ok s, p')) :
    p'.platform.readTable s.root = .ok .empty ∧
      SameOutside [s.root] p.platform p'.platform := by
  obtain ⟨root, frames, t, -, read, rfl, rfl⟩ := create_eq_ok hc
  refine ⟨?_, sameOutside_writeTable p.platform root .empty (readTable_bounds read).1⟩
  rw [readTable_writeTable read, if_pos rfl]

theorem create_through (hc : p.create = (.ok s, p')) (hw : p.platform.Within window) :
    (p.through window).create = (.ok s, p'.through window) := by
  obtain ⟨root, frames, t, ha, read, rfl, rfl⟩ := create_eq_ok hc
  have hwide : (p.platform.through window).readTable root = .ok t := readTable_through hw read
  have ha' : (p.through window).frames.allocate = some (root, frames) := ha
  unfold create
  rw [ha']
  dsimp only [through]
  rw [hwide]
  rfl

namespace Separate

theorem map (h : (p.through window).Separate template (s :: others))
    (hw : p.platform.Within window) (va pa : Nat) (flags : BitVec 64)
    (ht : ∀ table ∈ template, (p.map s va pa flags).2.1.owns table = false) :
    Mapping.Mapped ((p.through window).lentTo s) va pa flags ((p.mapping s).through window)
      ((p.mapping s).map va pa flags).1 (((p.mapping s).map va pa flags).2.through window) := by
  refine Mapping.map_spec va pa flags h.mapping hw (fun _ _ hl => hl.1) ?_
  have htakes : Mapping.Takes ((p.through window).mapping s)
      ((p.mapping s).map va pa flags).2 := by
    obtain ⟨new, ht⟩ := Mapping.takes_map (p.mapping s) va pa flags
    exact ⟨new, { ht with }⟩
  exact h.spares_lentTo htakes ht

/-- What mapping a page comes to is seen through the window of the machine as well. -/
theorem map_narrow (h : (p.through window).Separate template (s :: others))
    (hw : p.platform.Within window) (va pa : Nat) (flags : BitVec 64)
    (ht : ∀ table ∈ template, (p.map s va pa flags).2.1.owns table = false) :
    Mapping.Mapped ((p.through window).lentTo s) va pa flags (p.mapping s)
      ((p.mapping s).map va pa flags).1 ((p.mapping s).map va pa flags).2 := by
  have hnarrow : (p.mapping s).Sound ((p.through window).lentTo s) :=
    Mapping.Sound.narrow (w := p.mapping s) hw h.mapping
  exact hnarrow.map va pa flags (fun _ _ hl => hl.1) (h.map hw va pa flags ht).sound.spares

theorem unmap (h : (p.through window).Separate template (s :: others))
    (hw : p.platform.Within window) (va : Nat) : ∃ w, Unmapped p window s va w := by
  have hm : (Mapping.through ⟨p.platform.mask, p.frames, s⟩ window).Sound
      ((p.through window).lentTo s) := h.mapping.emit .masked
  have hnarrow : Mapping.Sound ⟨p.platform.mask, p.frames, s⟩ ((p.through window).lentTo s) :=
    hm.narrow hw
  by_cases hb : s.borrows p.platform.mask va = true
  · refine ⟨⟨p.platform.mask, p.frames, s⟩, ?_, rfl, Mapping.grown_emit _ .masked, reaches_emit,
      hm⟩
    rw [Paging.unmap, if_pos hb]
    rfl
  · have hway : s.HoldsWay p.platform.mask va linkShifts s.root :=
      hnarrow.holdsWay_of_borrows (fun _ _ hl => hl.1) (Bool.not_eq_true _ ▸ hb)
    rcases Mapping.unmapFrom_spec (w := ⟨p.platform.mask, p.frames, s⟩) .root s.owns_root hway with
      he | ⟨last, t, hr, ho, read, -, he⟩
    · refine ⟨⟨p.platform.mask, p.frames, s⟩, ?_, rfl, Mapping.grown_emit _ .masked, reaches_emit,
        hm⟩
      rw [Paging.unmap, if_neg hb, Platform.unmap, he]
      rfl
    · have hg := (Mapping.grown_emit (p.mapping s) .masked).trans
        ((hnarrow.grown_withLast ho (pathOf va pageShift) .empty).trans
          (Mapping.grown_emit _ (.flush va)))
      have hs := (hm.withLast (hr.through hw) ho (readTable_through hw read) (pathOf va pageShift)
        .empty).emit (.flush va)
      have hlast := hnarrow.lastTable hr ho
      refine ⟨_, ?_, rfl, hg,
        reaches_emit.trans ((hlast.reaches_setEntry read _ _).trans reaches_emit), hs⟩
      rw [Paging.unmap, if_neg hb, Platform.unmap, he]
      rfl

theorem of_map (h : (p.through window).Separate template (s :: others))
    (hw : p.platform.Within window) (va pa : Nat) (flags : BitVec 64)
    (ht : ∀ table ∈ template, (p.map s va pa flags).2.1.owns table = false) :
    ((p.map s va pa flags).2.2.through window).Separate template
      ((p.map s va pa flags).2.1 :: others) := by
  have hm := h.map hw va pa flags ht
  obtain ⟨new, hg⟩ := hm.grown
  exact h.adopt hg hm.sound ht

theorem of_unmap (h : (p.through window).Separate template (s :: others))
    (hw : p.platform.Within window) (va : Nat) :
    ((p.unmap s va).through window).Separate template (s :: others) := by
  obtain ⟨w, hu⟩ := h.unmap hw va
  have hsame : (w.through window).space = s := hu.space
  have hspares : ∀ table ∈ template, (w.through window).space.owns table = false := by
    rw [hsame]
    exact h.spares_head
  have hx := h.adopt (hu.grown.through window) hu.sound hspares
  rw [hsame] at hx
  rw [hu.eq]
  exact hx

theorem of_platform (h : p.Separate template live) (m : Platform)
    (hl : m.limit = p.platform.limit) (hr : ∀ a, m.readTable a = p.platform.readTable a)
    (active : Option Nat) : ({ p with platform := m, active } : Paging).Separate template live :=
  h.transport rfl (by rw [hl]; exact h.machine) h.holds fun _ _ => ⟨fun _ => hr _⟩

theorem switchTo (h : p.Separate template live) (s : AddressSpace) :
    (p.switchTo s).Separate template live :=
  h.of_platform (p.platform.mask.load s.root) rfl (fun _ => rfl) (some s.root)

theorem mask (h : p.Separate template live) :
    ({ p with platform := p.platform.mask } : Paging).Separate template live :=
  h.of_platform p.platform.mask rfl (fun _ => rfl) p.active

/-- A frame that holds no table of any space and none of the template may be written by others. -/
theorem undisturbed_write (h : p.Separate template live) {frame : Nat} (t : Table)
    (hn : ∀ s ∈ p.kernelSpace.toList ++ live, s.owns (frame * pageSize) = false)
    (ht : frame * pageSize ∉ template) (hs : s ∈ p.kernelSpace.toList ++ live) :
    Undisturbed p { p with platform := p.platform.writeTable (frame * pageSize) t } s := by
  have hw := sameOutside_writeTable p.platform (frame * pageSize) t (Nat.mul_mod_left _ _)
  refine ⟨fun hr => hw.readTable fun hc => ?_⟩
  rw [List.mem_singleton.mp hc] at hr
  rcases h.reached hs hr with ⟨u, hu, ho⟩ | hm
  · exact Bool.false_ne_true ((hn u hu).symm.trans ho)
  · exact ht hm

theorem write (h : p.Separate template live) (frame : Nat) (t : Table)
    (hn : ∀ s ∈ p.kernelSpace.toList ++ live, s.owns (frame * pageSize) = false)
    (ht : frame * pageSize ∉ template) :
    ({ p with platform := p.platform.writeTable (frame * pageSize) t } : Paging).Separate
      template live := by
  refine h.transport rfl ?_ h.holds fun s => h.undisturbed_write t hn ht
  show (p.platform.writeTable (frame * pageSize) t).limit ≤ physicalBound
  rw [(sameMachine_writeTable p.platform (frame * pageSize) t).toSameExtent.limit]
  exact h.machine

theorem destroy (h : p.Separate template (s :: others)) :
    (p.destroy s).Separate template others :=
  h.tail.transport rfl h.machine h.holds_cons.destroy fun _ _ => ⟨fun _ => rfl⟩

theorem undisturbed_create (h : p.Separate template live) (hc : p.create = (.ok s, p'))
    (hs : ∀ table ∈ template, s.owns table = false) {t : AddressSpace}
    (ht : t ∈ p.kernelSpace.toList ++ live) : Undisturbed p p' t := by
  obtain ⟨-, hw⟩ := create_platform hc
  obtain ⟨root, frames, -, ha, -, rfl, rfl⟩ := create_eq_ok hc
  obtain ⟨-, hf, -⟩ := FrameAllocator.allocate_spec ha
  refine ⟨fun hr => hw.readTable fun hc => ?_⟩
  rw [List.mem_singleton.mp hc] at hr
  rcases h.reached ht hr with ⟨u, hu, ho⟩ | hm
  · exact FrameAllocator.not_isFree_of_isAllocated (h.holds.isAllocated hu ho) hf
  · exact Bool.false_ne_true ((hs root hm).symm.trans (AddressSpace.owns_root _))

theorem create (h : p.Separate template live) (hc : p.create = (.ok s, p'))
    (ht : ∀ table ∈ template, s.owns table = false) : p'.Separate template (s :: live) := by
  have hu := fun t => h.undisturbed_create hc ht (t := t)
  obtain ⟨hempty, hw⟩ := create_platform hc
  obtain ⟨root, frames, t, ha, -, rfl, rfl⟩ := create_eq_ok hc
  have hh := h.holds.create ha
  have htail : Paging.Separate
      { p with frames, platform := p.platform.writeTable root .empty } template live := by
    refine h.transport rfl ?_ hh.tail hu
    show (p.platform.writeTable root .empty).limit ≤ physicalBound
    rw [hw.limit]
    exact h.machine
  refine htail.cons hh ht ⟨fun hr => ?_, fun _ hr hr' => ?_⟩
  · rw [(reaches_of_empty hempty hr).1]
    exact .inl (AddressSpace.owns_root _)
  · obtain ⟨-, rfl⟩ := reaches_of_empty hempty hr
    obtain ⟨-, rfl⟩ := reaches_of_empty hempty hr'
    exact ⟨rfl, fun _ hm hn => absurd hm hn⟩

end Separate

namespace Sound

theorem taken_spares {w : Mapping} {new : List Nat} (h : Withheld template p.frames
    (p.kernelSpace.toList ++ s :: others)) (ht : Mapping.Taken new (p.mapping s) w) :
    ∀ table ∈ template, w.space.owns table = false :=
  ((h.perm List.perm_middle).grow (w := p.mapping s) ht).spares _ (List.mem_cons_self ..)

theorem map (h : p.Sound (s :: others)) (va pa : Nat) (flags : BitVec 64) :
    Mapping.Mapped (p.lentTo s) va pa flags (p.mapping s) ((p.mapping s).map va pa flags).1
      ((p.mapping s).map va pa flags).2 := by
  obtain ⟨template, hsep, hheld⟩ := h
  obtain ⟨new, ht⟩ := Mapping.takes_map (p.mapping s) va pa flags
  exact hsep.through_window.map_narrow (within_window _) va pa flags (taken_spares hheld ht)

theorem unmap (h : p.Sound (s :: others)) (va : Nat) :
    ∃ w, Unmapped p p.platform.window s va w := by
  obtain ⟨template, hsep, -⟩ := h
  exact hsep.through_window.unmap (within_window _) va

theorem undisturbed_adopt (h : p.Sound (s :: others)) {w : Mapping} {new : List Nat}
    (hg : Mapping.Grown new (p.mapping s) w) {t : AddressSpace}
    (ht : t ∈ p.kernelSpace.toList ++ others) : Undisturbed p (p.adopt w) t := by
  obtain ⟨template, hsep, hheld⟩ := h
  exact hsep.through_window.undisturbed_adopt (within_window _) hg
    (taken_spares hheld hg.toTaken) ht

end Sound

end KernelCore.Paging
