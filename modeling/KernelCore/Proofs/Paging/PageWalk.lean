import Mathlib
import KernelCore.Proofs.Paging.Memory

/-!
# The page walk of the processor

The processor reads one entry per level from physical memory and stops at an entry that is not
present or that maps a page. The page begins where bits of the entry say, from the size of the
page on up; the bits below are flags of the mapping or have to be zero. A translation adds them to
the address instead, so it agrees with the processor on which pages are mapped, and on where an
address of such a page lies exactly if those bits are zero.
-/
namespace KernelCore

namespace Entry

/-- The bits of an entry from a shift to 51, joined with low bits. -/
def join (e : Entry) (shift : Nat) (low : BitVec shift) : BitVec (52 - shift + shift) :=
  e.raw.extractLsb' shift (52 - shift) ++ low

/-- Bits 12 to 51 of an entry that lie below a shift. -/
def stray (e : Entry) (shift : Nat) : Nat := e.address % 2 ^ shift

theorem getLsbD_addressMask (n : Nat) :
    addressMask.getLsbD n = (decide (12 ≤ n) && decide (n < 52)) := by
  have small : ∀ n : Fin 64,
      addressMask.getLsbD n = (decide (12 ≤ n.val) && decide (n.val < 52)) := by decide
  by_cases hn : n < 64
  · exact small ⟨n, hn⟩
  · rw [BitVec.getLsbD_of_ge _ _ (by omega)]
    simp
    omega

variable {shift : Nat}

theorem address_div (e : Entry) (hs : 12 ≤ shift) :
    e.address / 2 ^ shift = (e.raw.extractLsb' shift (52 - shift)).toNat := by
  apply Nat.eq_of_testBit_eq
  intro n
  rw [address, Nat.testBit_div_two_pow, BitVec.testBit_toNat, BitVec.testBit_toNat,
    BitVec.getLsbD_and, getLsbD_addressMask, BitVec.getLsbD_extractLsb', Nat.add_comm n shift]
  by_cases hn : n < 52 - shift
  · have hlow : 12 ≤ shift + n := by omega
    have hhigh : shift + n < 52 := by omega
    simp [hn, hlow, hhigh]
  · have hhigh : ¬ shift + n < 52 := by omega
    simp [hn, hhigh]

theorem toNat_join (e : Entry) (hs : 12 ≤ shift) (low : BitVec shift) :
    (e.join shift low).toNat = e.address / 2 ^ shift * 2 ^ shift + low.toNat := by
  rw [join, BitVec.toNat_append, ← e.address_div hs, ← Nat.shiftLeft_add_eq_or_of_lt low.isLt,
    Nat.shiftLeft_eq]

/-- The address of an entry together with low bits is the joined address and what is stray. -/
theorem address_add (e : Entry) (hs : 12 ≤ shift) (low : BitVec shift) :
    e.address + low.toNat = (e.join shift low).toNat + e.stray shift := by
  have hdiv := Nat.div_add_mod' e.address (2 ^ shift)
  rw [e.toNat_join hs, stray]
  omega

theorem join_zero (e : Entry) : (e.join pageShift 0).toNat = e.address := by
  have hadd : e.address + 0 = (e.join pageShift 0).toNat + e.stray pageShift :=
    e.address_add (Nat.le_refl 12) 0
  have hzero : e.stray pageShift = 0 := e.address_mod
  omega

theorem join_lt (e : Entry) (hs : 12 ≤ shift) (low : BitVec shift) (hle : shift ≤ 52) :
    (e.join shift low).toNat < physicalBound := by
  have hd : 2 ^ shift ∣ physicalBound := pow_dvd_pow 2 hle
  have hdiv : e.address / 2 ^ shift < physicalBound / 2 ^ shift :=
    Nat.div_lt_div_of_lt_of_dvd hd e.address_lt
  rw [e.toNat_join hs]
  calc e.address / 2 ^ shift * 2 ^ shift + low.toNat
      < (e.address / 2 ^ shift + 1) * 2 ^ shift := by
        rw [Nat.add_mul, Nat.one_mul]
        exact Nat.add_lt_add_left low.isLt _
    _ ≤ physicalBound / 2 ^ shift * 2 ^ shift := Nat.mul_le_mul_right _ hdiv
    _ = physicalBound := Nat.div_mul_cancel hd

theorem stray_eq_zero (e : Entry) (hs : shift ≤ 52) :
    e.stray shift = 0 ↔ ∀ n, 12 ≤ n → n < shift → e.raw.getLsbD n = false := by
  have hbit : ∀ n, (e.stray shift).testBit n =
      (decide (n < shift) && (e.raw.getLsbD n && (decide (12 ≤ n) && decide (n < 52)))) := by
    intro n
    rw [stray, address, Nat.testBit_mod_two_pow, BitVec.testBit_toNat, BitVec.getLsbD_and,
      getLsbD_addressMask]
  constructor
  · intro h n hl hn
    have hn52 : n < 52 := by omega
    simpa [h, hl, hn, hn52] using hbit n
  · intro h
    apply Nat.eq_of_testBit_eq
    intro n
    rw [hbit, Nat.zero_testBit]
    by_cases hn : n < shift
    · by_cases hl : 12 ≤ n
      · simp [h n hl hn]
      · simp [hl]
    · simp [hn]

end Entry

namespace Platform

/-- An entry that the processor reads: in which table, at the level of which shift. -/
structure Read where
  shift : Nat
  table : Nat
  entry : Entry
  deriving DecidableEq, Repr

namespace Read

/-- Where `va` lies in the page that the entry maps. -/
def target (x : Read) (va : Nat) : Nat := (x.entry.join x.shift (BitVec.ofNat x.shift va)).toNat

/-- The bits of the entry's address that are not part of the address of its page. -/
def stray (x : Read) : Nat := x.entry.stray x.shift

end Read

/-- What the processor reads for `va` in a table at the level of a shift. It sees all of the
memory. -/
def readAt (m : Platform) (va shift table : Nat) : Read :=
  ⟨shift, table, (m.memory.getD (table / pageSize) .empty).get (tableIndex shift va)⟩

/-- What the processor reads to look up `va`, from a table at the level of the first shift on. -/
def pageWalkFrom (m : Platform) (va : Nat) : List Nat → Nat → List Read
  | [], _ => []
  | shift :: rest, table =>
    let x := m.readAt va shift table
    x :: if x.entry.present && !x.entry.huge then
      m.pageWalkFrom va rest (x.entry.join pageShift 0).toNat else []

/-- What the processor reads to look up `va` under a root table. -/
def pageWalk (m : Platform) (root va : Nat) : List Read :=
  m.pageWalkFrom va (linkShifts ++ [pageShift]) root

variable {m : Platform} {va table : Nat} {shifts : List Nat}

theorem Read.target_add (x : Read) (hs : 12 ≤ x.shift) (va : Nat) :
    x.entry.address + va % 2 ^ x.shift = x.target va + x.stray := by
  rw [← BitVec.toNat_ofNat]
  exact x.entry.address_add hs _

theorem Read.target_lt (x : Read) (hs : 12 ≤ x.shift) (hle : x.shift ≤ 52) (va : Nat) :
    x.target va < physicalBound :=
  x.entry.join_lt hs _ hle

theorem readTable_of_lt (va : Nat) (aligned : table % pageSize = 0)
    (inside : table + (pageSize - 1) < m.limit) :
    ∃ t, m.readTable table = .ok t ∧
      ∀ shift, t.get (tableIndex shift va) = (m.readAt va shift table).entry :=
  ⟨_, readTable_eq_ok.mpr ⟨aligned, inside, rfl⟩, fun _ => rfl⟩

/-- What a translation makes of the entry that the processor reads last. -/
def Read.result (x : Read) (va : Nat) : Except Fault (Option Nat) :=
  if x.entry.present then physical (x.target va + x.stray) else .ok none

/-- The processor goes on from every entry but the last, at which a translation ends as well. -/
theorem translateFrom_pageWalk (hs : ∀ shift ∈ shifts, 12 ≤ shift) (aligned : table % pageSize = 0)
    (reserved : ∀ x ∈ m.pageWalkFrom va (shifts ++ [pageShift]) table,
      x.shift = 39 → x.entry.huge = false)
    (inside : ∀ x ∈ m.pageWalkFrom va (shifts ++ [pageShift]) table,
      x.table + (pageSize - 1) < m.limit) :
    ∃ above last, m.pageWalkFrom va (shifts ++ [pageShift]) table = above ++ [last] ∧
      (∀ x ∈ above, x.entry.present = true) ∧
      (last.entry.present = true → last.shift ≠ 39 ∧ last.shift ∈ shifts ++ [pageShift]) ∧
      m.translateFrom va shifts table = last.result va := by
  induction shifts generalizing table with
  | nil =>
    obtain ⟨t, read, hget⟩ := readTable_of_lt va aligned (inside _ (List.mem_cons_self ..))
    have hwalk : m.pageWalkFrom va ([] ++ [pageShift]) table = [m.readAt va pageShift table] := by
      simp [pageWalkFrom]
    refine ⟨[], m.readAt va pageShift table, hwalk, by simp,
      fun _ => ⟨by simp [readAt, pageShift], by simp [readAt]⟩, ?_⟩
    rw [translateFrom, read]
    dsimp only
    rw [hget, Read.result, ← Read.target_add _ (Nat.le_refl 12)]
    rfl
  | cons shift rest ih =>
    rw [List.cons_append, pageWalkFrom] at reserved inside ⊢
    set x := m.readAt va shift table with hx
    obtain ⟨t, read, hget⟩ := readTable_of_lt va aligned (inside _ (List.mem_cons_self ..))
    have hhuge : (x.entry.huge && shift != 39) = x.entry.huge := by
      by_cases h39 : shift = 39
      · simp [reserved x (List.mem_cons_self ..) h39]
      · simp [h39]
    have hadd : x.entry.address + va % 2 ^ shift = x.target va + x.stray :=
      x.target_add (hs shift (List.mem_cons_self ..)) va
    rw [translateFrom, read]
    dsimp only
    rw [hget, ← hx, hhuge, Nat.one_shiftLeft]
    cases hp : x.entry.present with
    | false => exact ⟨[], x, by simp, by simp, by simp [hp], by simp [Read.result, hp]⟩
    | true =>
      cases hh : x.entry.huge with
      | true =>
        refine ⟨[], x, by simp, by simp, fun _ => ⟨fun h39 => ?_, List.mem_cons_self ..⟩, ?_⟩
        · simp [reserved x (List.mem_cons_self ..) h39] at hh
        · simpa [Read.result, hp] using congrArg physical hadd
      | false =>
        have hnext : x.entry.address % pageSize = 0 := x.entry.address_mod
        simp only [hp, hh, Bool.not_false, Bool.and_self, if_true, Entry.join_zero]
          at reserved inside ⊢
        obtain ⟨above, last, hwalk, habove, hshift, heq⟩ :=
          ih (fun s hm => hs s (List.mem_cons_of_mem _ hm)) hnext
            (fun y hy => reserved y (List.mem_cons_of_mem _ hy))
            (fun y hy => inside y (List.mem_cons_of_mem _ hy))
        refine ⟨x :: above, last, by rw [hwalk, List.cons_append], ?_,
          fun hl => ⟨(hshift hl).1, List.mem_cons_of_mem _ (hshift hl).2⟩, by simpa using heq⟩
        rintro y (_ | ⟨_, hy⟩)
        · exact hp
        · exact habove y hy

theorem Read.result_eq_none (x : Read) (va : Nat) :
    x.result va = .ok none ↔ x.entry.present = false := by
  cases hp : x.entry.present with
  | false => simp [result, hp]
  | true =>
    simp only [result, hp, if_true, physical]
    split <;> simp

theorem Read.result_eq_target (x : Read) (hp : x.entry.present = true) (hs : 12 ≤ x.shift)
    (hle : x.shift ≤ 52) (va : Nat) :
    x.result va = .ok (some (x.target va)) ↔
      ∀ n, 12 ≤ n → n < x.shift → x.entry.raw.getLsbD n = false := by
  have hlt := x.target_lt hs hle va
  rw [← x.entry.stray_eq_zero hle, result, if_pos hp, physical]
  split
  · simp [stray]
  · constructor
    · simp
    · intro h
      simp only [stray, h] at *
      omega

/-- A page is mapped exactly if all entries that the processor reads for it are present. The last
of them says where it lies, and a translation is off by the bits of that entry which are not part of
the address of its page. -/
theorem translate_pageWalk (m : Platform) {root : Nat} (va : Nat) (aligned : root % pageSize = 0)
    (reserved : ∀ x ∈ m.pageWalk root va, x.shift = 39 → x.entry.huge = false)
    (inside : ∀ x ∈ m.pageWalk root va, x.table + (pageSize - 1) < m.limit) :
    ∃ last, (m.pageWalk root va).getLast? = some last ∧
      (m.translate root va = .ok none ↔ ∃ x ∈ m.pageWalk root va, x.entry.present = false) ∧
      ((∀ x ∈ m.pageWalk root va, x.entry.present = true) →
        last.shift ∈ [30, 21, 12] ∧
          m.translate root va = physical (last.target va + last.stray) ∧
          (m.translate root va = .ok (some (last.target va)) ↔
            ∀ n, 12 ≤ n → n < last.shift → last.entry.raw.getLsbD n = false)) := by
  obtain ⟨above, last, hwalk, habove, hshift, heq⟩ :=
    translateFrom_pageWalk (by decide) aligned reserved inside
  have hlast : last ∈ m.pageWalk root va := by
    rw [pageWalk, hwalk]
    exact List.mem_append_right _ (List.mem_singleton_self _)
  refine ⟨last, by rw [pageWalk, hwalk, List.getLast?_concat], ?_, fun hall => ?_⟩
  · rw [translate, heq, last.result_eq_none]
    refine ⟨fun h => ⟨last, hlast, h⟩, ?_⟩
    rintro ⟨x, hx, hp⟩
    rw [pageWalk, hwalk, List.mem_append, List.mem_singleton] at hx
    rcases hx with hx | rfl
    · rw [habove x hx] at hp
      cases hp
    · exact hp
  · have hp := hall last hlast
    obtain ⟨hne, hmem⟩ := hshift hp
    have hthree : last.shift ∈ [30, 21, 12] := by
      simpa [linkShifts, pageShift, hne] using hmem
    have hbounds : ∀ s ∈ [30, 21, 12], 12 ≤ s ∧ s ≤ 52 := by decide
    obtain ⟨hlow, hhigh⟩ := hbounds _ hthree
    refine ⟨hthree, by rw [translate, heq, Read.result, if_pos hp], ?_⟩
    rw [translate, heq]
    exact last.result_eq_target hp hlow hhigh va

/-- A machine whose root table at address zero leads to an entry for the second 2 MiB. -/
def withLargePage (e : Entry) : Platform :=
  let links := Flag.present ||| Flag.writable
  let index := fun shift => tableIndex shift 0x200000
  (((ofFrames 4).setEntry 0 (index 39) (.make 0x1000 links)).setEntry 0x1000 (index 30)
    (.make 0x2000 links)).setEntry 0x2000 (index 21) e

/-- The entry has no bits between its flags and the address of its page. -/
theorem translate_pageWalk_aligned :
    let m := withLargePage (.make 0x40000000 (Flag.present ||| Flag.writable ||| Flag.huge))
    (∀ x ∈ m.pageWalk 0 0x201234, x.shift = 39 → x.entry.huge = false) ∧
      (∀ x ∈ m.pageWalk 0 0x201234, x.table + (pageSize - 1) < m.limit) ∧
      (∀ x ∈ m.pageWalk 0 0x201234, x.entry.present = true) ∧
      ((m.pageWalk 0 0x201234).getLast?.map fun x => (x.shift, x.target 0x201234)) =
        some (21, 0x40001234) ∧
      m.translate 0 0x201234 = .ok (some 0x40001234) := by
  intro m
  have hwalk : (∀ x ∈ m.pageWalk 0 0x201234, x.shift = 39 → x.entry.huge = false) ∧
      (∀ x ∈ m.pageWalk 0 0x201234, x.table + (pageSize - 1) < m.limit) ∧
      (∀ x ∈ m.pageWalk 0 0x201234, x.entry.present = true) ∧
      ((m.pageWalk 0 0x201234).getLast?.map fun x =>
        (x.shift, x.target 0x201234, x.stray)) = some (21, 0x40001234, 0) := by decide +kernel
  obtain ⟨reserved, inside, hall, hend⟩ := hwalk
  obtain ⟨last, hlast, -, hpresent⟩ := translate_pageWalk m 0x201234 (by decide) reserved inside
  obtain ⟨-, heq, -⟩ := hpresent hall
  simp only [hlast, Option.map_some, Option.some.injEq, Prod.mk.injEq] at hend ⊢
  refine ⟨reserved, inside, hall, ⟨hend.1, hend.2.1⟩, ?_⟩
  rw [heq, hend.2.1, hend.2.2]
  decide

/-- In an entry for 2 MiB, bit 12 chooses how the page is cached. It moves the translation into the
next 4 KiB. -/
theorem translate_off_pageWalk :
    let m := withLargePage (.make 0x40000000
      (Flag.present ||| Flag.writable ||| Flag.huge ||| BitVec.twoPow 64 12))
    (∀ x ∈ m.pageWalk 0 0x201234, x.shift = 39 → x.entry.huge = false) ∧
      (∀ x ∈ m.pageWalk 0 0x201234, x.table + (pageSize - 1) < m.limit) ∧
      (∀ x ∈ m.pageWalk 0 0x201234, x.entry.present = true) ∧
      ((m.pageWalk 0 0x201234).getLast?.map fun x => (x.shift, x.target 0x201234)) =
        some (21, 0x40001234) ∧
      m.translate 0 0x201234 = .ok (some 0x40002234) := by decide +kernel

end Platform

end KernelCore
