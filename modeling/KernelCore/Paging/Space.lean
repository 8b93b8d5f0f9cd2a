import KernelCore.Frames.Allocator
import KernelCore.Paging.Walk

/-!
# Address spaces

A space owns a root table and the lower tables that were taken for it. Some of its root slots may
lead to tables of the kernel space; the space never writes those, and before it maps something
below such a slot it gets copies of its own.
-/
namespace KernelCore

abbrev Slots := Vector Bool 512

structure AddressSpace where
  /-- The frame of the root table. -/
  root : Nat
  /-- The frames of the lower tables, the oldest first. -/
  tables : List Nat := []
  /-- The root slots that lead to tables of the kernel space. -/
  shared : Slots := Vector.replicate 512 false
  deriving DecidableEq, Repr

namespace AddressSpace

/-- All frames that the space holds. -/
def frames (s : AddressSpace) : List Nat := s.root :: s.tables

def frameCount (s : AddressSpace) : Nat := 1 + s.tables.length

def owns (s : AddressSpace) (table : Nat) : Bool := table == s.root || s.tables.contains table

def isShared (s : AddressSpace) (slot : Nat) : Except Fault Bool :=
  match s.shared[slot]? with
  | some b => .ok b
  | none => .error .indexOutOfRange

/-- The numbers of the shared slots, ascending. -/
def sharedSlots (s : AddressSpace) : List Nat :=
  (s.shared.toList.zipIdx.filter (·.1)).map (·.2)

/-- Whether the slot of an address leads to tables of the kernel space. -/
def sharesSlotOf (s : AddressSpace) (va : Nat) : Bool := s.shared.get (tableIndex 39 va)

/-- Whether the way to `va` leads through a table that the space does not own. A table that
cannot be reached counts as one. -/
def borrowsFrom (s : AddressSpace) (m : Platform) (va : Nat) : List Nat → Nat → Bool
  | [], _ => false
  | shift :: rest, table =>
    match m.readTable table with
    | .error _ => true
    | .ok t =>
      let e := t.get (tableIndex shift va)
      if !e.present || e.huge then false
      else if s.owns e.address then s.borrowsFrom m va rest e.address
      else true

def borrows (s : AddressSpace) (m : Platform) (va : Nat) : Bool :=
  s.sharesSlotOf va && s.borrowsFrom m va linkShifts s.root

theorem mem_frames {s : AddressSpace} {table : Nat} : table ∈ s.frames ↔ s.owns table := by
  simp [frames, owns]

theorem length_frames (s : AddressSpace) : s.frames.length = s.frameCount := by
  simp [frames, frameCount, Nat.add_comm]

end AddressSpace

/-- A space under change, with the memory and the frames that it draws on. -/
structure Mapping where
  platform : Platform
  frames : FrameAllocator
  space : AddressSpace

namespace Mapping

/-- Takes a frame for a lower table, if one is free; from then on the space holds it. -/
def takeTable : FrameAllocator × AddressSpace → Option Nat × FrameAllocator × AddressSpace
  | (frames, space) =>
    match frames.allocate with
    | none => (none, frames, space)
    | some (frame, frames) => (some frame, frames, { space with tables := space.tables ++ [frame] })

/-- Gives the space its own copy of a table. -/
def copyTable (w : Mapping) (source : Nat) : Except MemoryError Nat × Mapping :=
  match takeTable (w.frames, w.space) with
  | (none, _) => (.error .outOfFrames, w)
  | (some frame, frames, space) =>
    let w := { w with frames, space }
    match w.platform.readTable source, w.platform.readTable frame with
    | .error e, _ => (.error (.platform e), w)
    | .ok _, .error e => (.error (.platform e), w)
    | .ok t, .ok _ => (.ok frame, { w with platform := w.platform.writeTable frame t })

/-- Replaces the tables on the way to `va` that the space does not own by copies, as far as the
way exists. -/
def privatizeFrom (va : Nat) : List Nat → Nat → Mapping → Except MemoryError Unit × Mapping
  | [], _, w => (.ok (), w)
  | shift :: rest, table, w =>
    match w.platform.readTable table with
    | .error e => (.error (.platform e), w)
    | .ok t =>
      let i := tableIndex shift va
      let e := t.get i
      if !e.present || e.huge then (.ok (), w)
      else if w.space.owns e.address then privatizeFrom va rest e.address w
      else
        match w.copyTable e.address with
        | (.error e, w) => (.error e, w)
        | (.ok copy, w) =>
          let platform := w.platform.setEntry table i (.make copy e.flags)
          privatizeFrom va rest copy { w with platform }

def privatize (w : Mapping) (va : Nat) : Except MemoryError Unit × Mapping :=
  if w.space.sharesSlotOf va then privatizeFrom va linkShifts w.space.root w else (.ok (), w)

/-- Maps the page of `va` to the frame of `pa` in the space. After a failure the tables taken so
far stay with the space. -/
def map (w : Mapping) (va pa : Nat) (flags : BitVec 64) : Except MemoryError Unit × Mapping :=
  match privatize { w with platform := w.platform.mask } va with
  | (.error e, w) => (.error e, w)
  | (.ok (), w) =>
    match w.platform.map takeTable (w.frames, w.space) w.space.root va pa flags with
    | (.error e, platform, frames, space) => (.error e, ⟨platform, frames, space⟩)
    | (.ok (), platform, frames, space) => (.ok (), ⟨platform.flush va, frames, space⟩)

/-- Maps `n` pages from an address on to the frames at the same addresses, read and write. No page
has an address that is not canonical. -/
def mapIdentity : Nat → Nat → Mapping → Except Fault (Except MemoryError Unit × Mapping)
  | 0, _, w => .ok (.ok (), w)
  | n + 1, address, w =>
    if Canonical address then
      match w.map address address (Flag.present ||| Flag.writable) with
      | (.error e, w) => .ok (.error e, w)
      | (.ok (), w) => mapIdentity n (address + pageSize) w
    else .error .virtualAddressNotCanonical

end Mapping

end KernelCore
