import Mathlib
import KernelCore.Proofs.Frames.Return
import KernelCore.Proofs.Paging.Holdings

/-!
# Ownership

What the operations on spaces do to the frames that spaces hold and to the root in use, whatever
the memory contains.
-/
namespace KernelCore.Paging

variable {p p' : Paging} {s s' : AddressSpace} {spaces : List AddressSpace} {config : Config}

/-- The kernel space and the roots in use and recorded are the same. -/
structure SameRoots (p p' : Paging) : Prop where
  kernelSpace : p'.kernelSpace = p.kernelSpace
  active : p'.active = p.active
  root : p'.platform.root = p.platform.root

/-- The space was added to those that hold frames. -/
structure Gained (s : AddressSpace) (p p' : Paging) : Prop extends SameRoots p p' where
  holds : ∀ {spaces}, Holds p.frames spaces → Holds p'.frames (s :: spaces)

/-- No space was added, and those that held frames do so still. -/
structure Spared (p p' : Paging) : Prop where
  kernelSpace : p'.kernelSpace = p.kernelSpace
  root : p'.platform.root = p.platform.root
  holds : ∀ {spaces}, Holds p.frames spaces → Holds p'.frames spaces
  active : ∀ {spaces s}, Holds p.frames spaces → s ∈ spaces → p.active = some s.root →
    p'.active = p.active

theorem SameRoots.refl (p : Paging) : SameRoots p p := ⟨rfl, rfl, rfl⟩

theorem Spared.refl (p : Paging) : Spared p p := ⟨rfl, rfl, id, fun _ _ _ => rfl⟩

theorem SameRoots.trans {p'' : Paging} (h : SameRoots p p') (h' : SameRoots p' p'') :
    SameRoots p p'' :=
  ⟨h'.kernelSpace.trans h.kernelSpace, h'.active.trans h.active, h'.root.trans h.root⟩

theorem create_eq_ok (h : p.create = (.ok s, p')) :
    ∃ root frames t, p.frames.allocate = some (root, frames) ∧
      p.platform.readTable root = .ok t ∧ s = { root } ∧
      p' = { p with frames, platform := p.platform.writeTable root .empty } := by
  unfold create at h
  cases ha : p.frames.allocate with
  | none => simp [ha] at h
  | some taken =>
    obtain ⟨root, frames⟩ := taken
    cases read : p.platform.readTable root with
    | error e => simp [ha, read] at h
    | ok t =>
      simp only [ha, read, Prod.mk.injEq, Except.ok.injEq] at h
      exact ⟨root, frames, t, rfl, read, h.1.symm, h.2.symm⟩

theorem create_eq_error {e : MemoryError} (h : p.create = (.error e, p')) : p' = p := by
  unfold create at h
  cases ha : p.frames.allocate with
  | none =>
    simp only [ha, Prod.mk.injEq] at h
    exact h.2.symm
  | some taken =>
    obtain ⟨root, frames⟩ := taken
    cases read : p.platform.readTable root with
    | error e =>
      simp only [ha, read, Prod.mk.injEq] at h
      rw [← h.2, FrameAllocator.release_of_allocate ha]
    | ok t => simp [ha, read] at h

theorem create_ok (h : p.create = (.ok s, p')) : Gained s p p' := by
  obtain ⟨root, frames, t, ha, -, rfl, rfl⟩ := create_eq_ok h
  exact ⟨⟨rfl, rfl, rfl⟩, fun hh => hh.create ha⟩

theorem root_copyEntries (m : Platform) (source target : Nat) (chosen : Nat → Bool) :
    (m.copyEntries source target chosen).2.root = m.root := by
  unfold Platform.copyEntries
  dsimp only
  split <;> rfl

theorem share_frames (p : Paging) (s : AddressSpace) :
    SameRoots p (p.share s).2 ∧ (p.share s).2.frames = p.frames ∧
      ∀ s', (p.share s).1 = .ok s' → s'.frames = s.frames := by
  unfold share
  cases hk : p.kernelSpace with
  | none => exact ⟨.refl p, rfl, fun s' h => by rw [← Except.ok.inj h]⟩
  | some kernel =>
    have hroot := root_copyEntries p.platform kernel.root s.root fun _ => true
    dsimp only
    split
    · next he =>
      rw [he] at hroot
      exact ⟨⟨hk.symm, rfl, hroot⟩, rfl, fun s' h => by cases h⟩
    · next he =>
      rw [he] at hroot
      exact ⟨⟨hk.symm, rfl, hroot⟩, rfl, fun s' h => by rw [← Except.ok.inj h]; rfl⟩

theorem Gained.share {p₁ : Paging} (hg : Gained s p p₁) (h : p₁.share s = (.ok s', p')) :
    Gained s' p p' := by
  obtain ⟨hroots, hframes, hs⟩ := share_frames p₁ s
  rw [h] at hroots hframes hs
  refine ⟨hg.toSameRoots.trans hroots, fun hh => ?_⟩
  rw [hframes]
  exact (hg.holds hh).congr (hs s' rfl)

theorem Gained.destroy {p₁ : Paging} (hg : Gained s p p₁) (hroots : SameRoots p₁ p')
    (hframes : p'.frames = p₁.frames) : Spared p (p'.destroy s) := by
  have hr := hg.toSameRoots.trans hroots
  refine ⟨hr.kernelSpace, hr.root, fun hh => ?_, fun {spaces t} hh ht ha => ?_⟩
  · have hh := hg.holds hh
    rw [← hframes] at hh
    exact hh.destroy
  · -- the root recorded is that of another space
    have hne : p'.active ≠ some s.root := by
      rw [hr.active, ha]
      intro he
      have hroot := Option.some.inj he
      have hn := (hg.holds hh).owns_eq_false ht t.owns_root
      rw [hroot, s.owns_root] at hn
      cases hn
    rw [Paging.destroy, if_neg hne, hr.active]

theorem Gained.share_error {p₁ : Paging} {e : MemoryError} (hg : Gained s p p₁)
    (h : p₁.share s = (.error e, p')) : Spared p (p'.destroy s) := by
  obtain ⟨hroots, hframes, -⟩ := share_frames p₁ s
  rw [h] at hroots hframes
  exact hg.destroy hroots hframes

theorem takes_populate {w w' : Mapping} {template : Nat} {result : Except MemoryError Unit}
    (h : populate w template config = .ok (result, w')) : Mapping.Takes w w' := by
  unfold populate at h
  split at h
  · split at h
    · simp only [Except.ok.injEq, Prod.mk.injEq] at h
      rw [← h.2]
      exact .platform w _
    · exact (Mapping.Takes.platform w _).trans (Mapping.takes_mapIdentity h)
  · exact Mapping.takes_mapIdentity h

/-- What a setup comes to: there is a kernel space already, or no root table is to be had, or the
new space cannot be filled and is given up, or it is filled and loaded. -/
inductive SetUp (p : Paging) (config : Config) : Except MemoryError Unit × Paging → Prop
  | kept (ready : p.kernelSpace.isSome = true) : SetUp p config (.ok (), p)
  | refused {e : MemoryError} {p' : Paging} (unready : p.kernelSpace = none)
      (created : p.create = (.error e, p')) : SetUp p config (.error e, p')
  | undone {e : MemoryError} {k : AddressSpace} {p₁ : Paging} {w : Mapping}
      (unready : p.kernelSpace = none) (created : p.create = (.ok k, p₁))
      (populated : populate (p₁.mapping k) p.platform.root config = .ok (.error e, w)) :
      SetUp p config (.error e, (p₁.adopt w).destroy w.space)
  | done {k : AddressSpace} {p₁ : Paging} {w : Mapping}
      (unready : p.kernelSpace = none) (created : p.create = (.ok k, p₁))
      (populated : populate (p₁.mapping k) p.platform.root config = .ok (.ok (), w)) :
      SetUp p config
        (.ok (), { (p₁.adopt w).switchTo w.space with kernelSpace := some w.space })

theorem setUp_spec {r : Except MemoryError Unit × Paging} (h : p.setUp config = .ok r) :
    SetUp p config r := by
  unfold setUp at h
  split at h
  · next ready =>
    cases h
    exact .kept ready
  · next hn =>
    rw [Option.not_isSome_iff_eq_none] at hn
    dsimp only at h
    split at h
    · next hc =>
      cases h
      exact .refused hn hc
    · next hc =>
      split at h
      · cases h
      · next hp =>
        cases h
        exact .undone hn hc hp
      · next hp =>
        cases h
        exact .done hn hc hp

theorem setUp_ok (h : p.setUp config = .ok (.ok (), p')) (hn : p.kernelSpace = none) :
    ∃ k, p'.kernelSpace = some k ∧ p'.active = some k.root ∧ p'.platform.root = k.root ∧
      (Holds p.frames spaces → Holds p'.frames (k :: spaces)) := by
  cases setUp_spec h with
  | kept ready =>
    rw [hn] at ready
    cases ready
  | done _ hc hp =>
    obtain ⟨new, ht⟩ := takes_populate hp
    exact ⟨_, rfl, rfl, rfl, fun hh => ((create_ok hc).holds hh).grow ht⟩

theorem setUp_error {e : MemoryError} (h : p.setUp config = .ok (.error e, p')) :
    p.kernelSpace = none ∧ p'.kernelSpace = none ∧
      ∀ {spaces}, Holds p.frames spaces → Holds p'.frames spaces := by
  cases setUp_spec h with
  | refused hn hc =>
    obtain rfl := create_eq_error hc
    exact ⟨hn, hn, id⟩
  | @undone _ _ p₁ w hn hc hp =>
    have hgained := create_ok hc
    obtain ⟨new, ht⟩ := takes_populate hp
    refine ⟨hn, hgained.kernelSpace.trans hn, fun hh => ?_⟩
    exact Holds.destroy (p := p₁.adopt w) ((hgained.holds hh).grow ht)

end KernelCore.Paging

namespace KernelCore

/-- A property of the frames and of the spaces that hold some of them is kept by all that happens
to spaces: they change places, get roots, take frames and are given up. -/
structure Ledger (P : FrameAllocator → List AddressSpace → Prop) : Prop where
  perm : ∀ {a spaces spaces'}, P a spaces → spaces.Perm spaces' → P a spaces'
  congr : ∀ {a s t spaces}, P a (s :: spaces) → AddressSpace.frames t = s.frames →
    P a (t :: spaces)
  grow : ∀ {w w' new spaces}, P (Mapping.frames w) (w.space :: spaces) → Mapping.Taken new w w' →
    P w'.frames (w'.space :: spaces)
  create : ∀ {p p' s spaces}, P (Paging.frames p) spaces → p.create = (.ok s, p') →
    P p'.frames (s :: spaces)
  destroy : ∀ {p s spaces}, P (Paging.frames p) (s :: spaces) → P (p.destroy s).frames spaces

theorem Ledger.setUp {P : FrameAllocator → List AddressSpace → Prop} {p p' : Paging}
    {config : Config} {result : Except MemoryError Unit} {live : List AddressSpace}
    (hl : Ledger P) (h : P p.frames (p.kernelSpace.toList ++ live))
    (hs : p.setUp config = .ok (result, p')) :
    P p'.frames (p'.kernelSpace.toList ++ live) := by
  cases Paging.setUp_spec hs with
  | kept _ => exact h
  | refused _ hc =>
    obtain rfl := Paging.create_eq_error hc
    exact h
  | @undone _ _ p₁ w hn hc hp =>
    rw [hn] at h
    have hn₁ : p₁.kernelSpace = none := (Paging.create_ok hc).kernelSpace.trans hn
    obtain ⟨new, ht⟩ := Paging.takes_populate hp
    show P _ (p₁.kernelSpace.toList ++ live)
    rw [hn₁]
    exact hl.destroy (p := p₁.adopt w) (hl.grow (hl.create h hc) ht)
  | done hn hc hp =>
    rw [hn] at h
    obtain ⟨new, ht⟩ := Paging.takes_populate hp
    exact hl.grow (hl.create h hc) ht

/-- The frames of a set are neither free nor held by one of the spaces. -/
structure Withheld (template : Set Nat) (a : FrameAllocator) (spaces : List AddressSpace) : Prop
    extends Holds a spaces where
  aligned : ∀ f ∈ template, f % pageSize = 0
  taken : ∀ f ∈ template, ¬ a.IsFree f
  spares : ∀ s ∈ spaces, ∀ f ∈ template, s.owns f = false

namespace Withheld

variable {template : Set Nat} {a : FrameAllocator} {s t : AddressSpace}
  {spaces spaces' : List AddressSpace} {p p' : Paging}

theorem perm (h : Withheld template a spaces) (hp : spaces.Perm spaces') :
    Withheld template a spaces' :=
  { h with
    toHolds := h.toHolds.perm hp
    spares := fun s hs => h.spares s (hp.mem_iff.mpr hs) }

theorem congr (h : Withheld template a (s :: spaces)) (hf : t.frames = s.frames) :
    Withheld template a (t :: spaces) := by
  obtain ⟨hs, hrest⟩ := List.forall_mem_cons.mp h.spares
  refine { h with toHolds := h.toHolds.congr hf, spares := List.forall_mem_cons.mpr ⟨?_, hrest⟩ }
  intro f hm
  rw [← hs f hm, Bool.eq_iff_iff, ← AddressSpace.mem_frames, ← AddressSpace.mem_frames, hf]

theorem grow {w w' : Mapping} {new : List Nat} (h : Withheld template w.frames (w.space :: spaces))
    (ht : Mapping.Taken new w w') : Withheld template w'.frames (w'.space :: spaces) := by
  obtain ⟨hs, hrest⟩ := List.forall_mem_cons.mp h.spares
  refine ⟨h.toHolds.grow ht, h.aligned, fun f hm hf => h.taken f hm (ht.free f hf),
    List.forall_mem_cons.mpr ⟨fun f hm => ?_, hrest⟩⟩
  rw [← Bool.not_eq_true, ht.owns]
  rintro (ho | hn)
  · exact Bool.false_ne_true ((hs f hm).symm.trans ho)
  · exact h.taken f hm (ht.fresh f hn).1

theorem create (h : Withheld template p.frames spaces) (hc : p.create = (.ok s, p')) :
    Withheld template p'.frames (s :: spaces) := by
  obtain ⟨root, frames, t, ha, -, rfl, rfl⟩ := Paging.create_eq_ok hc
  refine ⟨h.toHolds.create ha, h.aligned, fun f hm hf => h.taken f hm (hf.of_allocate ha),
    List.forall_mem_cons.mpr ⟨fun f hm => ?_, h.spares⟩⟩
  have hne : f ≠ root := by
    rintro rfl
    exact h.taken f hm (FrameAllocator.allocate_spec ha).2.1
  simpa [AddressSpace.owns] using hne

theorem destroy (h : Withheld template p.frames (s :: spaces)) :
    Withheld template (p.destroy s).frames spaces := by
  obtain ⟨hs, hrest⟩ := List.forall_mem_cons.mp h.spares
  refine ⟨h.toHolds.destroy, h.aligned, fun f hm hf => ?_, hrest⟩
  rw [Paging.destroy_frames] at hf
  rcases hf.of_releaseAll with hf | ⟨g, hg, he⟩
  · exact h.taken f hm hf
  · have hgs : g ∈ s.frames := by
      simp only [List.mem_append, List.mem_singleton] at hg
      simpa [AddressSpace.frames] using hg.symm
    have hgp := (h.allocated s (List.mem_cons_self ..) g hgs).2
    obtain rfl := eq_of_frame_eq (h.aligned f hm) hgp he
    rw [AddressSpace.mem_frames, hs f hm] at hgs
    cases hgs

theorem ledger (template : Set Nat) : Ledger (Withheld template) where
  perm := perm
  congr := congr
  grow := grow
  create := create
  destroy := destroy

end Withheld

end KernelCore
