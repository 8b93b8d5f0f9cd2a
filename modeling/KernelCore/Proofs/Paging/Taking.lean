import Mathlib
import KernelCore.Paging.Space
import KernelCore.Proofs.Frames.Counting

/-!
# Taken frames

A change of a space takes free frames for its tables and keeps all that it has, whatever the memory
contains and wherever the change fails.
-/
namespace KernelCore

theorem AddressSpace.owns_root (s : AddressSpace) : s.owns s.root = true := by simp [owns]

namespace Mapping

/-- The second state comes from the first by taking the given frames for tables of the space. -/
structure Taken (new : List Nat) (w w' : Mapping) : Prop where
  root : w'.space.root = w.space.root
  shared : w'.space.shared = w.space.shared
  tables : w'.space.tables = w.space.tables ++ new
  nodup : new.Nodup
  fresh : ∀ f ∈ new, w.frames.IsFree f ∧ f % pageSize = 0
  total : w'.frames.total = w.frames.total
  count : w.frames.free = w'.frames.free + new.length
  allocated : ∀ x, w'.frames.isAllocated x = true ↔
    w.frames.isAllocated x = true ∨ ∃ f ∈ new, x / pageSize = f / pageSize
  free : ∀ x, w'.frames.IsFree x → w.frames.IsFree x
  counted : w.frames.Counted → w'.frames.Counted

variable {w w' w'' : Mapping} {new new' : List Nat} {va : Nat}

theorem Taken.of_eq (hf : w'.frames = w.frames) (hs : w'.space = w.space) : Taken [] w w' where
  root := by rw [hs]
  shared := by rw [hs]
  tables := by rw [hs, List.append_nil]
  nodup := List.nodup_nil
  fresh := by simp
  total := by rw [hf]
  count := by rw [hf, List.length_nil, Nat.add_zero]
  allocated := by simp [hf]
  free := fun x hx => hf ▸ hx
  counted := fun hc => hf ▸ hc

theorem Taken.refl (w : Mapping) : Taken [] w w := .of_eq rfl rfl

theorem Taken.frames_eq (h : Taken new w w') : w'.space.frames = w.space.frames ++ new := by
  rw [AddressSpace.frames, h.root, h.tables]
  rfl

theorem Taken.owns (h : Taken new w w') {table : Nat} :
    w'.space.owns table = true ↔ w.space.owns table = true ∨ table ∈ new := by
  rw [← AddressSpace.mem_frames, h.frames_eq, List.mem_append, AddressSpace.mem_frames]

theorem Taken.trans (h : Taken new w w') (h' : Taken new' w' w'') :
    Taken (new ++ new') w w'' where
  root := h'.root.trans h.root
  shared := h'.shared.trans h.shared
  tables := by rw [h'.tables, h.tables, List.append_assoc]
  nodup := by
    refine List.nodup_append.mpr ⟨h.nodup, h'.nodup, ?_⟩
    rintro a ha b hb rfl
    have hall := (h.allocated a).mpr (.inr ⟨a, ha, rfl⟩)
    exact FrameAllocator.not_isFree_of_isAllocated hall (h'.fresh a hb).1
  fresh := by
    intro f hf
    rcases List.mem_append.mp hf with hf | hf
    · exact h.fresh f hf
    · exact ⟨h.free f (h'.fresh f hf).1, (h'.fresh f hf).2⟩
  total := h'.total.trans h.total
  count := by
    rw [h.count, h'.count, List.length_append]
    omega
  allocated := by
    intro x
    rw [h'.allocated, h.allocated]
    simp only [List.mem_append, or_and_right, exists_or, or_assoc]
  free := fun x hx => h.free x (h'.free x hx)
  counted := fun hc => h'.counted (h.counted hc)

/-- The state after a free frame was taken for a table. -/
def withTable (w : Mapping) (frame : Nat) (frames : FrameAllocator) : Mapping :=
  { w with frames, space := { w.space with tables := w.space.tables ++ [frame] } }

theorem Taken.take {frame : Nat} {frames : FrameAllocator}
    (h : w.frames.allocate = some (frame, frames)) :
    Taken [frame] w (w.withTable frame frames) := by
  obtain ⟨hp, hf, ht, hc, -⟩ := FrameAllocator.allocate_spec h
  exact
    { root := rfl
      shared := rfl
      tables := rfl
      nodup := List.nodup_singleton _
      fresh := by simpa using ⟨hf, hp⟩
      total := ht
      count := hc
      allocated := by
        intro x
        have ha := FrameAllocator.isAllocated_allocate h x
        simpa [withTable] using ha
      free := fun x hx => .of_allocate h hx
      counted := fun hc => by
        obtain ⟨_, _, _, hcounted, _⟩ := hc.allocate h
        exact hcounted }

theorem takeTable_eq (frames : FrameAllocator) (space : AddressSpace) :
    takeTable (frames, space) = match frames.allocate with
      | none => (none, frames, space)
      | some (frame, frames) =>
        (some frame, frames, { space with tables := space.tables ++ [frame] }) := rfl

/-- Some frames were taken. -/
def Takes (w w' : Mapping) : Prop := ∃ new, Taken new w w'

theorem Takes.of_eq (hf : w'.frames = w.frames) (hs : w'.space = w.space) : Takes w w' :=
  ⟨[], .of_eq hf hs⟩

theorem Takes.platform (w : Mapping) (m : Platform) : Takes w { w with platform := m } :=
  .of_eq rfl rfl

theorem Takes.refl (w : Mapping) : Takes w w := ⟨[], .refl w⟩

theorem Takes.trans (h : Takes w w') (h' : Takes w' w'') : Takes w w'' := by
  obtain ⟨new, h⟩ := h
  obtain ⟨new', h'⟩ := h'
  exact ⟨new ++ new', h.trans h'⟩

theorem Takes.owns (h : Takes w w') {table : Nat} (ho : w.space.owns table = true) :
    w'.space.owns table = true := by
  obtain ⟨new, h⟩ := h
  exact h.owns.mpr (.inl ho)

theorem takes_copyTable (w : Mapping) (source : Nat) : Takes w (w.copyTable source).2 := by
  rw [copyTable, takeTable_eq]
  cases halloc : w.frames.allocate with
  | none => exact .refl w
  | some taken =>
    have ht : Takes w (w.withTable taken.1 taken.2) := ⟨_, .take halloc⟩
    dsimp only
    split
    · exact ht
    · exact ht
    · exact ht.trans (.platform _ _)

theorem takes_privatizeFrom (shifts : List Nat) (table : Nat) (w : Mapping) :
    Takes w (privatizeFrom va shifts table w).2 := by
  induction shifts generalizing table w with
  | nil => exact .refl w
  | cons shift rest ih =>
    rw [privatizeFrom]
    cases w.platform.readTable table with
    | error e => exact .refl w
    | ok t =>
      dsimp only
      split
      · exact .refl w
      · split
        · exact ih _ w
        · have hc := takes_copyTable w (t.get (tableIndex shift va)).address
          split
          · next hcopy => rwa [hcopy] at hc
          · next hcopy =>
            rw [hcopy] at hc
            exact (hc.trans (.platform _ _)).trans (ih _ _)

theorem takes_privatize (w : Mapping) (va : Nat) : Takes w (w.privatize va).2 := by
  unfold privatize
  split
  · exact takes_privatizeFrom _ _ w
  · exact .refl w

theorem takes_linkFrom (link : BitVec 64) (va : Nat) (shifts : List Nat) (table : Nat)
    (w : Mapping) :
    let r := Platform.linkFrom takeTable link va shifts table w.platform (w.frames, w.space)
    Takes w ⟨r.2.1, r.2.2.1, r.2.2.2⟩ := by
  induction shifts generalizing table w with
  | nil => exact .refl w
  | cons shift rest ih =>
    rw [Platform.linkFrom]
    cases w.platform.readTable table with
    | error e => exact .refl w
    | ok t =>
      dsimp only
      split
      · split
        · exact .refl w
        · exact ih _ w
      · rw [takeTable_eq]
        cases halloc : w.frames.allocate with
        | none => exact .refl w
        | some taken =>
          have ht : Takes w (w.withTable taken.1 taken.2) := ⟨_, .take halloc⟩
          dsimp only
          split
          · exact ht
          · exact (ht.trans (.platform _ _)).trans (ih taken.1 _)

theorem takes_map (w : Mapping) (va pa : Nat) (flags : BitVec 64) :
    Takes w (w.map va pa flags).2 := by
  unfold map
  have hm : Takes w { w with platform := w.platform.mask } := .platform w _
  have hp := hm.trans (takes_privatize { w with platform := w.platform.mask } va)
  split
  · next he => rwa [he] at hp
  · next w₁ he =>
    rw [he] at hp
    have hl := takes_linkFrom (Platform.linkFlags flags) va linkShifts w₁.space.root w₁
    unfold Platform.map
    cases hlink : Platform.linkFrom takeTable (Platform.linkFlags flags) va linkShifts
      w₁.space.root w₁.platform (w₁.frames, w₁.space) with
    | mk result r =>
      rw [hlink] at hl
      have ht := hp.trans hl
      cases result with
      | error e => exact ht
      | ok last =>
        dsimp only
        cases r.1.readTable last with
        | error e => exact ht
        | ok t => exact ht.trans (.platform _ _)

theorem takes_mapIdentity {n address : Nat} {result : Except MemoryError Unit}
    (h : mapIdentity n address w = .ok (result, w')) : Takes w w' := by
  induction n generalizing address w with
  | zero =>
    simp only [mapIdentity, Except.ok.injEq, Prod.mk.injEq] at h
    rw [← h.2]
    exact .refl w
  | succ n ih =>
    have hm := takes_map w address address (Flag.present ||| Flag.writable)
    rw [mapIdentity] at h
    split at h
    · split at h
      · next he =>
        simp only [Except.ok.injEq, Prod.mk.injEq] at h
        rw [he] at hm
        rwa [← h.2]
      · next he =>
        rw [he] at hm
        exact hm.trans (ih h)
    · cases h

end Mapping

end KernelCore
