import KernelCore.Platform

/-!
# Walks through the page tables

A virtual address is looked up level by level from a root table. A walk either reads the address
it maps to, or links tables on its way to write the last entry, or clears the last entry.
-/
namespace KernelCore

/-- An address that the hardware can form. -/
def physical (n : Nat) : Except Fault (Option Nat) :=
  if n < physicalBound then .ok (some n) else .error .physicalAddressTooLarge

namespace Platform

/-- The address that `va` maps to, from a table at the level of the first shift on. Below the root
a huge entry maps all that it spans. -/
def translateFrom (m : Platform) (va : Nat) : List Nat → Nat → Except Fault (Option Nat)
  | [], table =>
    match m.readTable table with
    | .error _ => .ok none
    | .ok t =>
      let e := t.get (tableIndex pageShift va)
      if e.present then physical (e.address + pageOffset va) else .ok none
  | shift :: rest, table =>
    match m.readTable table with
    | .error _ => .ok none
    | .ok t =>
      let e := t.get (tableIndex shift va)
      if !e.present then .ok none
      else if e.huge && shift != 39 then physical (e.address + va % (1 <<< shift))
      else m.translateFrom va rest e.address

/-- The address that `va` maps to under a root table, if every entry on the way is present. -/
def translate (m : Platform) (root va : Nat) : Except Fault (Option Nat) :=
  m.translateFrom va linkShifts root

/-- Clears the entry of `va`; the result is the frame it held. -/
def unmapFrom (m : Platform) (va : Nat) : List Nat → Nat → Option Nat × Platform
  | [], table =>
    match m.readTable table with
    | .error _ => (none, m)
    | .ok t =>
      let i := tableIndex pageShift va
      let e := t.get i
      if e.present then (some e.address, m.setEntry table i .empty) else (none, m)
  | shift :: rest, table =>
    match m.readTable table with
    | .error _ => (none, m)
    | .ok t =>
      let e := t.get (tableIndex shift va)
      if !e.present || e.huge then (none, m) else m.unmapFrom va rest e.address

/-- Tables that became empty stay linked. -/
def unmap (m : Platform) (root va : Nat) : Option Nat × Platform := m.unmapFrom va linkShifts root

variable {σ : Type}

/-- Goes down to the table of the last level. A missing table is taken from the supply, zeroed
and linked, and stays linked whatever happens later. A supply may change also when it has no frame
to give. -/
def linkFrom (take : σ → Option Nat × σ) (link : BitVec 64) (va : Nat) :
    List Nat → Nat → Platform → σ → Except MemoryError Nat × Platform × σ
  | [], table, m, s => (.ok table, m, s)
  | shift :: rest, table, m, s =>
    match m.readTable table with
    | .error e => (.error (.platform e), m, s)
    | .ok t =>
      let i := tableIndex shift va
      let e := t.get i
      if e.present then
        if e.huge then (.error .hugePageInPath, m, s)
        else linkFrom take link va rest e.address m s
      else
        match take s with
        | (none, s) => (.error .outOfFrames, m, s)
        | (some frame, s) =>
          match m.readTable frame with
          | .error e => (.error (.platform e), m, s)
          | .ok _ =>
            let m := (m.writeTable frame .empty).setEntry table i (.make frame link)
            linkFrom take link va rest frame m s

/-- The flags of a link to a new table: a page for user mode needs the flag at every level. -/
def linkFlags (flags : BitVec 64) : BitVec 64 :=
  Flag.present ||| Flag.writable ||| (flags &&& Flag.user)

/-- Maps the page of `va` to the frame of `pa`. -/
def map (m : Platform) (take : σ → Option Nat × σ) (s : σ) (root va pa : Nat)
    (flags : BitVec 64) : Except MemoryError Unit × Platform × σ :=
  match linkFrom take (linkFlags flags) va linkShifts root m s with
  | (.error e, m, s) => (.error e, m, s)
  | (.ok table, m, s) =>
    match m.readTable table with
    | .error e => (.error (.platform e), m, s)
    | .ok _ => (.ok (), m.setEntry table (tableIndex pageShift va) (.make pa flags), s)

end Platform

end KernelCore
