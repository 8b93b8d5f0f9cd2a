import Mathlib
import KernelCore.Proofs.Paging.Leaf

/-!
# The supply of frames

On a machine that shows all frames that can be handed out, the way to a page can be completed as
long as nothing huge is in it and the free frames suffice for the tables that are missing. Exactly
those are taken.
-/
namespace KernelCore

/-- The number of tables that are missing on the way to `va`, from a table on. -/
def Platform.missingFrom (m : Platform) (va : Nat) : List Nat → Nat → Nat
  | [], _ => 0
  | shift :: rest, table =>
    match m.readTable table with
    | .error _ => 0
    | .ok t =>
      let e := t.get (pathOf va shift)
      if e.present then m.missingFrom va rest e.address else rest.length + 1

namespace Mapping
open Platform

/-- The frames are counted right, and the machine shows them all. -/
structure Supplied (w : Mapping) : Prop where
  counted : w.frames.Counted
  shown : w.frames.total * pageSize ≤ w.platform.limit

/-- As far as the way to `va` exists below a table, its tables are frames that were handed out, and
no entry on it is huge. -/
def Passable (w : Mapping) (va : Nat) : List Nat → Nat → Prop
  | [], table => w.frames.isAllocated table = true ∧ table % pageSize = 0
  | shift :: rest, table => (w.frames.isAllocated table = true ∧ table % pageSize = 0) ∧
    ∀ t, w.platform.readTable table = .ok t → (t.get (pathOf va shift)).present = true →
      (t.get (pathOf va shift)).huge = false ∧
        w.Passable va rest (t.get (pathOf va shift)).address

variable {w w' : Mapping} {lent : Lending} {va table : Nat} {shifts : List Nat} {new : List Nat}

theorem Passable.head (h : w.Passable va shifts table) :
    w.frames.isAllocated table = true ∧ table % pageSize = 0 := by
  cases shifts with
  | nil => exact h
  | cons shift rest => exact h.1

namespace Supplied

theorem mono (h : w.Supplied) (ht : Taken new w w')
    (he : SameExtent w.platform w'.platform) : w'.Supplied where
  counted := ht.counted h.counted
  shown := by
    rw [ht.total, he.limit]
    exact h.shown

theorem exists_readTable (h : w.Supplied) (hlt : table / pageSize < w.frames.total)
    (hp : table % pageSize = 0) : ∃ t, w.platform.readTable table = .ok t := by
  refine ⟨_, readTable_eq_ok.mpr ⟨hp, ?_, rfl⟩⟩
  have hend : (table / pageSize + 1) * pageSize ≤ w.frames.total * pageSize :=
    Nat.mul_le_mul_right _ hlt
  have hshown := h.shown
  have hdiv := Nat.div_add_mod table pageSize
  rw [show pageSize = 4096 from rfl] at *
  omega

theorem exists_read (h : w.Supplied) (hp : w.Passable va shifts table) :
    ∃ t, w.platform.readTable table = .ok t :=
  h.exists_readTable (FrameAllocator.isAllocated_iff.mp hp.head.1).1 hp.head.2

end Supplied

theorem passable_of_empty (ha : w.frames.isAllocated table = true) (hp : table % pageSize = 0)
    (read : w.platform.readTable table = .ok .empty) (va : Nat) (shifts : List Nat) :
    w.Passable va shifts table ∧ w.platform.missingFrom va shifts table = shifts.length := by
  cases shifts with
  | nil => exact ⟨⟨ha, hp⟩, rfl⟩
  | cons shift rest =>
    refine ⟨⟨⟨ha, hp⟩, fun t read' present => ?_⟩, ?_⟩
    · cases read.symm.trans read'
      rw [Table.get_empty, Entry.present_empty] at present
      cases present
    · rw [missingFrom, read]
      simp [Table.get_empty, Entry.present_empty]

/-- What becomes of a way that only lacks the given number of tables. -/
inductive Completed (n : Nat) (w : Mapping) : Except MemoryError Nat × Mapping → Prop
  | done {last : Nat} {t : Table} {w' : Mapping} (read : w'.platform.readTable last = .ok t)
      (taken : w.frames.free = w'.frames.free + n) : Completed n w (.ok last, w')
  | exhausted {e : MemoryError} {w' : Mapping} (short : w.frames.free < n) :
      Completed n w (.error e, w')

theorem Completed.of_taken {n k : Nat} {r : Except MemoryError Nat × Mapping}
    (h : Completed n w' r) (hk : w.frames.free = w'.frames.free + k) : Completed (n + k) w r := by
  cases h with
  | done read taken => exact .done read (by omega)
  | exhausted short => exact .exhausted (by omega)

/-- The way is completed exactly if the free frames suffice. -/
theorem linkWay_completed (flags : BitVec 64) (h : w.Supplied) (hp : w.Passable va shifts table) :
    Completed (w.platform.missingFrom va shifts table) w (linkWay flags va shifts table w) := by
  induction shifts generalizing table w with
  | nil =>
    obtain ⟨t, read⟩ := h.exists_read hp
    exact .done read rfl
  | cons shift rest ih =>
    obtain ⟨t, read⟩ := h.exists_read hp
    obtain ⟨⟨ha, -⟩, hnext⟩ := hp
    have hstep := linkWay_step flags va shift rest table w
    generalize linkWay flags va (shift :: rest) table w = r at hstep ⊢
    rw [missingFrom, read]
    cases hstep with
    | unread read' => cases read.symm.trans read'
    | blocked read' present huge =>
      rw [(hnext _ read' present).1] at huge
      cases huge
    | exhausted read' absent none =>
      cases read.symm.trans read'
      have hfree := h.counted.allocate_eq_none.mp none
      simp only [absent, Bool.false_eq_true, if_false]
      exact .exhausted (by omega)
    | halfway _ _ taken target =>
      obtain ⟨hframe, hfree, -⟩ := FrameAllocator.allocate_spec taken
      obtain ⟨f, hf⟩ := h.exists_readTable (FrameAllocator.isFree_iff.mp hfree).1 hframe
      cases hf.symm.trans target
    | linked read' present huge =>
      cases read.symm.trans read'
      simp only [present, if_true]
      exact ih h (hnext t read present).2
    | @added _ _ frame frames read' absent taken target =>
      cases read.symm.trans read'
      simp only [absent, Bool.false_eq_true, if_false]
      obtain ⟨hframe, hfree, -, hcount, -⟩ := FrameAllocator.allocate_spec taken
      have hne : table ≠ frame := by
        rintro rfl
        exact FrameAllocator.not_isFree_of_isAllocated ha hfree
      have hread := readTable_graft read target hne (pathOf va shift) .empty
        (.make frame (linkFlags flags)) frame
      rw [if_neg hne.symm, if_pos rfl] at hread
      have htaken : Taken [frame] w ((w.withTable frame frames).withGraft table (pathOf va shift)
          frame .empty (.make frame (linkFlags flags))) := { Taken.take taken with }
      have hallocated := (htaken.allocated frame).mpr (.inr ⟨frame, List.mem_singleton_self _, rfl⟩)
      obtain ⟨hpass, hmissing⟩ := passable_of_empty hallocated hframe hread va rest
      have hbelow := ih (h.mono htaken (sameMachine_graft ..).toSameExtent) hpass
      rw [hmissing] at hbelow
      exact hbelow.of_taken hcount

/-- A space reaches tables of its own only, so it can pass them if nothing huge is in the way. -/
theorem Sound.passable (hs : w.Sound lent) (hn : ∀ rest table, ¬ lent (pathOf va) rest table)
    (hclear : ∀ {shift rest table t},
      w.platform.Reaches w.space.root (pathOf va) (shift :: rest) table →
        w.platform.readTable table = .ok t → (t.get (pathOf va shift)).present = true →
          (t.get (pathOf va shift)).huge = false)
    (hr : w.platform.Reaches w.space.root (pathOf va) shifts table) :
    w.Passable va shifts table := by
  have hown : ∀ {shifts table}, w.platform.Reaches w.space.root (pathOf va) shifts table →
      w.frames.isAllocated table = true ∧ table % pageSize = 0 := fun hr =>
    have hm := AddressSpace.mem_frames.mpr ((hs.rooted.held hr).resolve_right (hn _ _))
    ⟨hs.allocated _ hm, hs.aligned _ hm⟩
  induction shifts generalizing table with
  | nil => exact hown hr
  | cons shift rest ih =>
    refine ⟨hown hr, fun t read present => ?_⟩
    have huge := hclear hr read present
    exact ⟨huge, ih (hr.link read (Entry.leads_of_link present huge))⟩

/-- In a space that shares no slot, a page can be mapped exactly if the free frames suffice for the
tables that are missing. -/
theorem map_completed (pa : Nat) (flags : BitVec 64) (h : w.Supplied)
    (hp : w.Passable va linkShifts w.space.root) (hn : w.space.sharesSlotOf va = false) :
    ((w.map va pa flags).1 = .ok () ∧ w.frames.free = (w.map va pa flags).2.frames.free +
        w.platform.missingFrom va linkShifts w.space.root) ∨
      (∃ e, (w.map va pa flags).1 = .error e) ∧
        w.frames.free < w.platform.missingFrom va linkShifts w.space.root := by
  have hpriv : privatize { w with platform := w.platform.mask } va =
      (.ok (), { w with platform := w.platform.mask }) := if_neg (by simp [hn])
  have hmasked : Supplied { w with platform := w.platform.mask } := ⟨h.counted, h.shown⟩
  have hpass : Passable { w with platform := w.platform.mask } va linkShifts w.space.root := hp
  have hway : Completed (w.platform.missingFrom va linkShifts w.space.root)
      { w with platform := w.platform.mask } _ := linkWay_completed flags hmasked hpass
  have hend := map_end w va pa flags
  generalize w.map va pa flags = r at hend ⊢
  cases hend with
  | shared privatized => cases hpriv.symm.trans privatized
  | broken privatized linked =>
    cases hpriv.symm.trans privatized
    rw [linked] at hway
    cases hway with
    | exhausted short => exact .inr ⟨⟨_, rfl⟩, short⟩
  | hidden privatized linked read =>
    cases hpriv.symm.trans privatized
    rw [linked] at hway
    cases hway with
    | done read' _ => cases read.symm.trans read'
  | written privatized linked read =>
    cases hpriv.symm.trans privatized
    rw [linked] at hway
    cases hway with
    | done _ taken => exact .inl ⟨rfl, taken⟩

end Mapping

end KernelCore
