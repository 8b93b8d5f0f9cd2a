import KernelCore.Heap.Basic

/-!
# The shared heap

The heap as the whole system sees it: empty until an arena is handed over, then a heap for good.
It serves blocks by handle and, for a program's own allocations, memory by address and layout.
-/
namespace KernelCore

structure SharedHeap where
  heap : Option Heap := none

/-- The size and the alignment of an allocation. -/
structure Layout where
  size : Nat
  align : Nat
  deriving DecidableEq, Repr

namespace SharedHeap

/-- The bytes in front of the first aligned address of an arena, or all of them if it has none. -/
def skipped (address length : Nat) : Nat :=
  min (Word.roundUp address heapAlignment - address) length

/-- Hands over the arena at `address`; only the first one is taken. It starts at the first aligned
address inside. -/
def install (s : SharedHeap) (address : Nat) (arena : Array UInt8) : SharedHeap :=
  match s.heap with
  | some _ => s
  | none =>
    let skip := skipped address arena.size
    ⟨some (.ofArena (address + skip) (arena.extract skip arena.size))⟩

def allocate (s : SharedHeap) (size : Nat) :
    Except Fault (Except MemoryError (Option Nat) × SharedHeap) := do
  match s.heap with
  | none => return (.error .heapExhausted, s)
  | some h =>
    let (block, h) ← h.allocate size
    return (block, ⟨some h⟩)

def free (s : SharedHeap) (block : Nat) : Except Fault SharedHeap := do
  match s.heap with
  | none => return s
  | some h => return ⟨some (← h.free block)⟩

def addressOf (s : SharedHeap) (block : Nat) : Option Nat := s.heap.map (·.addressOf block)

/-- Memory for a layout, by its address. No block is aligned beyond the heap's own alignment. -/
def alloc (s : SharedHeap) (layout : Layout) : Except Fault (Option Nat × SharedHeap) := do
  if heapAlignment < layout.align then return (none, s)
  match ← s.allocate layout.size with
  | (.ok (some block), s) => return (s.addressOf block, s)
  | (_, s) => return (none, s)

def dealloc (s : SharedHeap) (address : Nat) : Except Fault SharedHeap := do
  match s.heap.bind (·.blockAt address) with
  | none => return s
  | some block => s.free block

/-- The `length` bytes of memory at an address of the arena. -/
def peek (s : SharedHeap) (address length : Nat) : List UInt8 :=
  match s.heap with
  | none => []
  | some h => Bytes.slice h.arena (address - h.base) length

/-- Overwrites memory at an address of the arena. -/
def poke (s : SharedHeap) (address : Nat) (bytes : List UInt8) : SharedHeap :=
  match s.heap with
  | none => s
  | some h => ⟨some { h with arena := Bytes.write h.arena (address - h.base) bytes }⟩

def allocZeroed (s : SharedHeap) (layout : Layout) : Except Fault (Option Nat × SharedHeap) := do
  match ← s.alloc layout with
  | (none, s) => return (none, s)
  | (some address, s) => return (some address, s.poke address (List.replicate layout.size 0))

/-- Moves an allocation to new memory of another size; without any it stays as it is. -/
def realloc (s : SharedHeap) (address : Nat) (layout : Layout) (size : Nat) :
    Except Fault (Option Nat × SharedHeap) := do
  match ← s.alloc { layout with size } with
  | (none, s) => return (none, s)
  | (some moved, s) =>
    let s := s.poke moved (s.peek address (min layout.size size))
    return (some moved, ← s.dealloc address)

end SharedHeap

end KernelCore
