import Mathlib
import KernelCore.Paging.Walk

/-!
# Table memory

What writes to tables do to later reads of tables, and entries as links: the address of an entry
for a frame is that frame, and its present and huge bits are those of its flags.
-/
namespace KernelCore

namespace Entry

theorem address_mod (e : Entry) : e.address % pageSize = 0 := by
  have hm : addressMask.toNat % 2 ^ 12 = 0 := by decide
  have h := Nat.and_mod_two_pow (a := e.raw.toNat) (b := addressMask.toNat) (n := 12)
  rw [hm, Nat.and_zero] at h
  rw [address, BitVec.toNat_and]
  exact h

theorem address_lt (e : Entry) : e.address < physicalBound := by
  have hm : addressMask.toNat < physicalBound := by decide
  rw [address, BitVec.toNat_and]
  exact Nat.and_le_right.trans_lt hm

theorem and_addressMask {a : Nat} (hp : a % pageSize = 0) (hb : a < physicalBound) :
    (BitVec.ofNat 64 a &&& addressMask).toNat = a := by
  have hm : addressMask.toNat = (2 ^ 40 - 1) <<< 12 := by decide
  have ha : a = (a / pageSize) <<< 12 := by
    rw [Nat.shiftLeft_eq]
    exact (Nat.div_mul_cancel (Nat.dvd_of_mod_eq_zero hp)).symm
  have hlt : a / pageSize < 2 ^ 40 := by
    rw [Nat.div_lt_iff_lt_mul (by decide)]
    exact hb
  have h64 : a % 2 ^ 64 = a := Nat.mod_eq_of_lt (hb.trans (by decide))
  rw [BitVec.toNat_and, BitVec.toNat_ofNat, h64, hm]
  conv_lhs => rw [ha, ← Nat.shiftLeft_and_distrib, Nat.and_two_pow_sub_one_eq_mod,
    Nat.mod_eq_of_lt hlt]
  exact ha.symm

theorem address_make {a : Nat} {flags : BitVec 64} (hp : a % pageSize = 0)
    (hb : a < physicalBound) (hf : flags &&& addressMask = 0) : (make a flags).address = a := by
  have hd : ((BitVec.ofNat 64 a &&& addressMask) ||| flags) &&& addressMask =
      BitVec.ofNat 64 a &&& addressMask := by
    have hd : ((BitVec.ofNat 64 a &&& addressMask) ||| flags) &&& addressMask =
        ((BitVec.ofNat 64 a &&& addressMask) &&& addressMask) ||| (flags &&& addressMask) := by
      ext i
      simp only [BitVec.getElem_and, BitVec.getElem_or]
      exact Bool.and_or_distrib_right _ _ _
    rw [hd, hf, BitVec.and_assoc, BitVec.and_self]
    exact BitVec.or_zero
  rw [address, make, hd, and_addressMask hp hb]

theorem getLsbD_make {n : Nat} (hn : addressMask.getLsbD n = false) (a : Nat)
    (flags : BitVec 64) : (make a flags).raw.getLsbD n = flags.getLsbD n := by
  simp only [make, BitVec.getLsbD_or, BitVec.getLsbD_and, hn, Bool.and_false, Bool.false_or]

theorem present_make (a : Nat) (flags : BitVec 64) :
    (make a flags).present = flags.getLsbD 0 := getLsbD_make (by decide) a flags

theorem huge_make (a : Nat) (flags : BitVec 64) : (make a flags).huge = flags.getLsbD 7 :=
  getLsbD_make (by decide) a flags

theorem user_make (a : Nat) (flags : BitVec 64) : (make a flags).user = flags.getLsbD 2 :=
  getLsbD_make (by decide) a flags

theorem flags_and_addressMask (e : Entry) : e.flags &&& addressMask = 0 := by
  rw [flags, BitVec.and_assoc, BitVec.and_comm (~~~addressMask), BitVec.and_not_self]
  exact BitVec.and_zero

theorem flags_make (a : Nat) {flags : BitVec 64} (hf : flags &&& addressMask = 0) :
    (make a flags).flags = flags := by
  have hbit : ∀ i : Nat, (hi : i < 64) → flags[i] = true → addressMask[i] = false := by
    intro i hi hflag
    have hand : (flags &&& addressMask)[i] = false := by simp [hf]
    simpa [hflag] using hand
  rw [Entry.flags, make]
  ext i hi
  simp only [BitVec.getElem_and, BitVec.getElem_or, BitVec.getElem_not]
  have := hbit i hi
  cases hflag : flags[i] <;> cases hmask : addressMask[i] <;> simp_all

theorem getLsbD_flags {n : Nat} (hn : (~~~addressMask).getLsbD n = true) (e : Entry) :
    e.flags.getLsbD n = e.raw.getLsbD n := by
  rw [flags, BitVec.getLsbD_and, hn, Bool.and_true]

theorem flags_present (e : Entry) : e.flags.getLsbD 0 = e.present := getLsbD_flags (by decide) e

theorem flags_huge (e : Entry) : e.flags.getLsbD 7 = e.huge := getLsbD_flags (by decide) e

theorem flags_user (e : Entry) : e.flags.getLsbD 2 = e.user := getLsbD_flags (by decide) e

end Entry

namespace Platform

theorem linkFlags_and_addressMask (flags : BitVec 64) : linkFlags flags &&& addressMask = 0 := by
  have h : linkFlags flags &&& addressMask =
      ((Flag.present ||| Flag.writable) &&& addressMask) |||
        (flags &&& (Flag.user &&& addressMask)) := by
    ext i
    simp only [linkFlags, BitVec.getElem_and, BitVec.getElem_or]
    cases flags[i] <;> cases Flag.user[i] <;> cases addressMask[i] <;>
      cases Flag.present[i] <;> cases Flag.writable[i] <;> rfl
  have hp : (Flag.present ||| Flag.writable) &&& addressMask = 0 := by decide
  have hu : Flag.user &&& addressMask = 0 := by decide
  rw [h, hp, hu]
  simp

theorem linkFlags_present (flags : BitVec 64) : (linkFlags flags).getLsbD 0 = true := by
  have h : Flag.present.getLsbD 0 = true := by decide
  simp only [linkFlags, BitVec.getLsbD_or, h, Bool.true_or]

theorem linkFlags_huge (flags : BitVec 64) : (linkFlags flags).getLsbD 7 = false := by
  have hp : Flag.present.getLsbD 7 = false := by decide
  have hw : Flag.writable.getLsbD 7 = false := by decide
  have hu : Flag.user.getLsbD 7 = false := by decide
  simp only [linkFlags, BitVec.getLsbD_or, BitVec.getLsbD_and, hp, hw, hu, Bool.and_false,
    Bool.or_false]

theorem linkFlags_user (flags : BitVec 64) : (linkFlags flags).getLsbD 2 = flags.getLsbD 2 := by
  have hp : Flag.present.getLsbD 2 = false := by decide
  have hw : Flag.writable.getLsbD 2 = false := by decide
  have hu : Flag.user.getLsbD 2 = true := by decide
  simp only [linkFlags, BitVec.getLsbD_or, BitVec.getLsbD_and, hp, hw, hu, Bool.and_true,
    Bool.false_or]

/-- The machine with another window. -/
def through (m : Platform) (window : Nat) : Platform := { m with window }

/-- All that is shown is shown through another window as well. -/
def Within (m : Platform) (window : Nat) : Prop := m.limit ≤ (m.through window).limit

theorem within_window (m : Platform) : m.Within m.window := Nat.le_refl _

theorem within_physicalBound {m : Platform} (h : m.limit ≤ physicalBound) :
    m.Within physicalBound :=
  Nat.le_min.mpr ⟨h, Nat.min_le_right _ _⟩

/-- Two machines have the same amount of memory and show it through the same window. -/
structure SameExtent (m m' : Platform) : Prop where
  window : m'.window = m.window
  size : m'.memory.size = m.memory.size

/-- Two machines differ at most in the content of the memory and in what they recorded. -/
structure SameMachine (m m' : Platform) : Prop extends SameExtent m m' where
  root : m'.root = m.root

/-- Two machines differ at most in the given frames, in what they recorded and in the root in
use. -/
structure SameOutside (frames : List Nat) (m m' : Platform) : Prop extends SameExtent m m' where
  memory : ∀ i, i * pageSize ∉ frames → m'.memory[i]? = m.memory[i]?

variable {m m' m'' : Platform} {frames frames' : List Nat} {a b : Nat} {t t' : Table}

theorem SameExtent.refl (m : Platform) : SameExtent m m := ⟨rfl, rfl⟩

theorem SameExtent.trans (h : SameExtent m m') (h' : SameExtent m' m'') : SameExtent m m'' :=
  ⟨h'.window.trans h.window, h'.size.trans h.size⟩

theorem SameExtent.symm (h : SameExtent m m') : SameExtent m' m := ⟨h.window.symm, h.size.symm⟩

theorem SameExtent.limit (h : SameExtent m m') : m'.limit = m.limit := by
  rw [Platform.limit, Platform.limit, h.window, h.size]

theorem Within.congr {window : Nat} (h : m.Within window) (he : SameExtent m m') :
    m'.Within window := by
  simp only [Within, Platform.limit, through, he.window, he.size] at h ⊢
  exact h

theorem SameMachine.refl (m : Platform) : SameMachine m m := ⟨.refl m, rfl⟩

theorem SameMachine.trans (h : SameMachine m m') (h' : SameMachine m' m'') : SameMachine m m'' :=
  ⟨h.toSameExtent.trans h'.toSameExtent, h'.root.trans h.root⟩

theorem sameMachine_emit (m : Platform) (e : Event) : SameMachine m (m.emit e) := ⟨⟨rfl, rfl⟩, rfl⟩

theorem sameMachine_writeTable (m : Platform) (a : Nat) (t : Table) :
    SameMachine m (m.writeTable a t) := ⟨⟨rfl, by simp [writeTable]⟩, rfl⟩

theorem sameMachine_setEntry (m : Platform) (a : Nat) (i : Fin 512) (e : Entry) :
    SameMachine m (m.setEntry a i e) := ⟨⟨rfl, by simp [setEntry]⟩, rfl⟩

theorem SameOutside.refl (frames : List Nat) (m : Platform) : SameOutside frames m m :=
  ⟨.refl m, fun _ _ => rfl⟩

theorem SameOutside.trans (h : SameOutside frames m m') (h' : SameOutside frames m' m'') :
    SameOutside frames m m'' :=
  ⟨h.toSameExtent.trans h'.toSameExtent, fun i hi => (h'.memory i hi).trans (h.memory i hi)⟩

theorem SameOutside.mono (h : SameOutside frames m m') (hs : frames ⊆ frames') :
    SameOutside frames' m m' :=
  ⟨h.toSameExtent, fun i hi => h.memory i fun hc => hi (hs hc)⟩

theorem SameOutside.through (h : SameOutside frames m m') (window : Nat) :
    SameOutside frames (m.through window) (m'.through window) :=
  ⟨⟨rfl, h.size⟩, h.memory⟩

theorem readTable_eq (m : Platform) (a : Nat) : m.readTable a =
    if a % pageSize ≠ 0 then .error .misaligned
    else if a + (pageSize - 1) < m.limit then .ok (m.memory.getD (a / pageSize) .empty)
    else .error .outOfWindow := by
  unfold readTable reachFrame reach
  by_cases hp : a % pageSize = 0
  · by_cases hl : a + (pageSize - 1) < m.limit
    · have hs : a < m.limit := by omega
      simp [hp, hl, hs, bind, Except.bind, pure, Except.pure]
    · by_cases hs : a < m.limit <;> simp [hp, hl, hs, bind, Except.bind]
  · simp [hp, bind, Except.bind, throw, throwThe, MonadExceptOf.throw]

/-- The frame at an address can be read as a table. -/
def Shows (m : Platform) (a : Nat) : Prop := ∃ t, m.readTable a = .ok t

theorem shows_iff : m.Shows a ↔ a % pageSize = 0 ∧ a + (pageSize - 1) < m.limit := by
  simp only [Shows, readTable_eq_ok]
  exact ⟨fun ⟨_, hp, hl, _⟩ => ⟨hp, hl⟩, fun ⟨hp, hl⟩ => ⟨_, hp, hl, rfl⟩⟩

/-- Which frames can be read depends on the extent of the memory alone. -/
theorem SameExtent.shows (h : SameExtent m m') : m'.Shows a ↔ m.Shows a := by
  rw [shows_iff, shows_iff, h.limit]

theorem readTable_congr (he : SameExtent m m')
    (hm : a % pageSize = 0 → m'.memory[a / pageSize]? = m.memory[a / pageSize]?) :
    m'.readTable a = m.readTable a := by
  rw [readTable_eq, readTable_eq, he.limit]
  by_cases hp : a % pageSize = 0
  · rw [Array.getD_eq_getD_getElem?, Array.getD_eq_getD_getElem?, hm hp]
  · simp [hp]

theorem SameOutside.readTable (h : SameOutside frames m m') (ha : a ∉ frames) :
    m'.readTable a = m.readTable a := by
  refine readTable_congr h.toSameExtent fun hp => h.memory _ ?_
  rwa [Nat.div_mul_cancel (Nat.dvd_of_mod_eq_zero hp)]

theorem readTable_bounds (h : m.readTable a = .ok t) :
    a % pageSize = 0 ∧ a / pageSize < m.memory.size ∧ a + (pageSize - 1) < m.limit := by
  obtain ⟨hp, hl, -⟩ := readTable_eq_ok.mp h
  refine ⟨hp, ?_, hl⟩
  have hle : m.limit ≤ m.memory.size * pageSize := Nat.min_le_right _ _
  rw [Nat.div_lt_iff_lt_mul (by decide)]
  omega

theorem readTable_lt_physicalBound (hb : m.limit ≤ physicalBound) (h : m.readTable a = .ok t) :
    a < physicalBound := by
  have := (readTable_bounds h).2.2
  omega

theorem readTable_through {window : Nat} (hw : m.Within window) (h : m.readTable a = .ok t) :
    (m.through window).readTable a = .ok t := by
  obtain ⟨hp, hl, ht⟩ := readTable_eq_ok.mp h
  exact readTable_eq_ok.mpr ⟨hp, hl.trans_le hw, ht⟩

theorem sameOutside_writeTable (m : Platform) (a : Nat) (t : Table) (hp : a % pageSize = 0) :
    SameOutside [a] m (m.writeTable a t) := by
  refine ⟨(sameMachine_writeTable m a t).toSameExtent, fun i hi => ?_⟩
  have hne : a / pageSize ≠ i := by
    rintro rfl
    rw [Nat.div_mul_cancel (Nat.dvd_of_mod_eq_zero hp)] at hi
    simp at hi
  simp [writeTable, Array.getElem?_setIfInBounds_ne hne]

theorem sameOutside_setEntry (m : Platform) (a : Nat) (i : Fin 512) (e : Entry)
    (hp : a % pageSize = 0) : SameOutside [a] m (m.setEntry a i e) := by
  refine ⟨(sameMachine_setEntry m a i e).toSameExtent, fun j hj => ?_⟩
  have hne : ¬ a / pageSize = j := by
    rintro rfl
    rw [Nat.div_mul_cancel (Nat.dvd_of_mod_eq_zero hp)] at hj
    simp at hj
  simp [setEntry, Array.getElem?_modify, hne]

theorem readTable_writeTable (h : m.readTable a = .ok t) (t' : Table) (b : Nat) :
    (m.writeTable a t').readTable b = if b = a then .ok t' else m.readTable b := by
  obtain ⟨hp, hs, hl⟩ := readTable_bounds h
  have ho := sameOutside_writeTable m a t' hp
  split
  · next hb =>
    subst hb
    rw [readTable_eq_ok, ho.limit]
    refine ⟨hp, hl, ?_⟩
    simp [writeTable, Array.getD_eq_getD_getElem?, hs]
  · next hb => exact ho.readTable (by simpa using hb)

theorem readTable_setEntry (h : m.readTable a = .ok t) (i : Fin 512) (e : Entry) (b : Nat) :
    (m.setEntry a i e).readTable b = if b = a then .ok (t.set i e i.isLt) else m.readTable b := by
  obtain ⟨hp, hs, hl⟩ := readTable_bounds h
  have ho := sameOutside_setEntry m a i e hp
  split
  · next hb =>
    subst hb
    rw [readTable_eq_ok, ho.limit]
    refine ⟨hp, hl, ?_⟩
    have ht := (readTable_eq_ok.mp h).2.2
    simp only [Array.getD_eq_getD_getElem?, hs, getElem?_pos, Option.getD_some] at ht
    rw [setEntry, Array.getD_eq_getD_getElem?, Array.getElem?_modify, if_pos rfl,
      Array.getElem?_eq_getElem hs, ht]
    rfl
  · next hb => exact ho.readTable (by simpa using hb)

end Platform

theorem Table.get_set (t : Table) (i j : Fin 512) (e : Entry) :
    (t.set i e i.isLt).get j = if i = j then e else t.get j := by
  simp only [Vector.get_eq_getElem, Vector.getElem_set, Fin.ext_iff]

theorem Table.get_empty (i : Fin 512) : Table.empty.get i = .empty := by
  simp [Table.empty, Vector.get_eq_getElem]

end KernelCore
