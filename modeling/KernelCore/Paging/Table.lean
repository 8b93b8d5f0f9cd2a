import KernelCore.Paging.Entry

/-!
# Page tables and virtual addresses

A table fills one frame with 512 entries. A virtual address selects one entry per level, by nine
bits each, and a byte of the page by its low twelve bits.
-/
namespace KernelCore

abbrev Table := Vector Entry 512

namespace Table

def empty : Table := Vector.replicate 512 .empty

/-- The entries that are not zero, with their indices. -/
def nonempty (t : Table) : List (Nat × Entry) :=
  (t.toList.zipIdx.filter (·.1 != .empty)).map fun (e, i) => (i, e)

end Table

/-- Bits 47 to 63 of a canonical address are equal. -/
def Canonical (va : Nat) : Prop :=
  va < 0x800000000000 ∨ 0xFFFF800000000000 ≤ va ∧ va < 0x10000000000000000

instance (va : Nat) : Decidable (Canonical va) := inferInstanceAs (Decidable (_ ∨ _))

/-- Physical addresses have 52 bits. -/
def physicalBound : Nat := 0x10000000000000

/-- The shifts of the levels that lead to other tables, from the root down. -/
def linkShifts : List Nat := [39, 30, 21]

/-- The shift of the level that holds the pages. -/
def pageShift : Nat := 12

/-- The entry that an address selects at the level of a shift. -/
def tableIndex (shift va : Nat) : Fin 512 := Fin.ofNat 512 (va >>> shift)

def pageOffset (va : Nat) : Nat := va % pageSize

end KernelCore
