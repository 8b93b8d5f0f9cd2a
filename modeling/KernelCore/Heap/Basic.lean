import KernelCore.Config
import KernelCore.Error
import KernelCore.Heap.Header

/-!
# The heap

A first-fit allocator over one arena. The blocks, each a header and its payload, cover the arena in
ascending order; a block is named by the offset of its payload. The headers live in the bytes of
the arena, so whoever writes there can forge them: an operation that would use a header outside of
the arena, or whose sizes leave 64 bits, is a fault.
-/
namespace KernelCore

structure Heap where
  /-- Address of the first byte of the arena. -/
  base : Nat
  arena : Array UInt8

namespace Heap

/-- A block as a walk along the headers finds it. -/
structure Block where
  /-- Offset of the payload. -/
  payload : Nat
  size : Nat
  free : Bool
  deriving DecidableEq, Repr

/-- The least payload that a split may leave behind. -/
def minSplit : Nat := 16

/-- The usable bytes of the arena. -/
def capacity (h : Heap) : Nat := Word.roundDown h.arena.size heapAlignment

/-- Formats the arena as one free block; one too short for a header holds no block. -/
def ofArena (base : Nat) (arena : Array UInt8) : Heap :=
  let size := Word.roundDown arena.size heapAlignment
  if size < headerSize then ⟨base, arena⟩
  else ⟨base, Bytes.write arena 0 (Header.toBytes ⟨tag, true, size - headerSize, none⟩)⟩

def readHeader (h : Heap) (offset : Nat) : Except Fault Header :=
  if offset + headerSize ≤ h.capacity then
    .ok (.ofBytes h.capacity offset (Bytes.slice h.arena offset headerSize))
  else .error .headerOutOfArena

def writeHeader (h : Heap) (offset : Nat) (header : Header) : Except Fault Heap :=
  if offset + headerSize ≤ h.capacity then
    .ok { h with arena := Bytes.write h.arena offset header.toBytes }
  else .error .headerOutOfArena

/-- Zeroes a header, so that it is not taken for one again. -/
def wipeHeader (h : Heap) (offset : Nat) : Heap :=
  { h with arena := Bytes.write h.arena offset (List.replicate headerSize 0) }

/-- The offset of the first header. -/
def first (h : Heap) : Option Nat := if headerSize ≤ h.capacity then some 0 else none

/-- Up to `fuel` headers along the links from `cursor` on, with their offsets. -/
def chainFrom (h : Heap) : Nat → Option Nat → Except Fault (List (Nat × Header))
  | 0, _ => .ok []
  | _, none => .ok []
  | fuel + 1, some offset => do
    let header ← h.readHeader offset
    let rest ← h.chainFrom fuel header.next
    return (offset, header) :: rest

/-- All headers along the links. Offsets grow, so the capacity bounds their number. -/
def chain (h : Heap) : Except Fault (List (Nat × Header)) := h.chainFrom h.capacity h.first

/-- The blocks in address order. -/
def blocks (h : Heap) : Except Fault (List Block) := do
  return (← h.chain).map fun (offset, header) =>
    ⟨offset + headerSize, header.size, header.free⟩

/-- A sum of sizes that has to fit a word. -/
def total : List Nat → Except Fault Nat
  | [] => .ok 0
  | n :: ns => do
    match Word.add? n (← total ns) with
    | some sum => return sum
    | none => throw .overflow

/-- Payload bytes of the free blocks. -/
def freeBytes (h : Heap) : Except Fault Nat := do
  total (((← h.blocks).filter (·.free)).map Block.size)

/-- Payload bytes of the allocated blocks. -/
def usedBytes (h : Heap) : Except Fault Nat := do
  total (((← h.blocks).filter (!·.free)).map Block.size)

/-- The largest request that would succeed. -/
def largestFree (h : Heap) : Except Fault Nat := do
  return (((← h.blocks).filter (·.free)).map Block.size).foldl max 0

/-- Allocates `size` bytes, a multiple of the alignment, at the front of a free block that holds
them. A rest that can hold a block becomes one. -/
def place (h : Heap) (offset : Nat) (header : Header) (size : Nat) : Except Fault Heap := do
  if Word.maximum < size + headerSize + minSplit then throw .overflow
  else if header.size < size + headerSize + minSplit then
    h.writeHeader offset { header with free := false }
  else
    let split := offset + headerSize + size
    let h ← h.writeHeader split ⟨tag, true, header.size - size - headerSize, header.next⟩
    h.writeHeader offset { header with free := false, size, next := some split }

/-- Hands out the first free block that is large enough. A request of no bytes gets no block. -/
def allocate (h : Heap) (size : Nat) : Except Fault (Except MemoryError (Option Nat) × Heap) := do
  if size = 0 then return (.ok none, h)
  let size := Word.roundUp size heapAlignment
  if Word.maximum < size then return (.error .heapExhausted, h)
  match (← h.chain).find? fun (_, header) => header.free && decide (size ≤ header.size) with
  | none => return (.error .heapExhausted, h)
  | some (offset, header) =>
    return (.ok (some (offset + headerSize)), ← h.place offset header size)

/-- The header of a block. Its tag has to be right, and its payload has to end where its link
leads, or at the end of the arena if it has none. -/
def find (h : Heap) (block : Nat) : Except Fault (Option (Nat × Header)) := do
  let offset := block - headerSize
  if block < headerSize ∨ offset % heapAlignment ≠ 0 ∨ h.capacity < block then return none
  let header ← h.readHeader offset
  if header.tag = tag ∧ block + header.size = header.next.getD h.capacity then
    return some (offset, header)
  return none

/-- One step of merging, at the header at `offset`: it takes in a free successor if it is free
itself, and otherwise the step moves on to the successor. -/
def coalesceStep (h : Heap) (offset : Nat) : Except Fault (Option (Heap × Nat)) := do
  let header ← h.readHeader offset
  match header.next with
  | none => return none
  | some next =>
    let following ← h.readHeader next
    let size := header.size + (headerSize + following.size)
    if !(header.free && following.free) then return some (h, next)
    else if Word.maximum < offset + headerSize + header.size then throw .overflow
    else if offset + headerSize + header.size ≠ next then return some (h, next)
    else if Word.maximum < size then throw .overflow
    else
      let h ← h.writeHeader offset { header with size, next := following.next }
      return some (h.wipeHeader next, offset)

def coalesceFrom (h : Heap) (offset : Nat) : Nat → Except Fault Heap
  | 0 => .ok h
  | fuel + 1 => do
    match ← h.coalesceStep offset with
    | none => return h
    | some (h, offset) => h.coalesceFrom offset fuel

/-- Merges every free block with the free blocks behind it. A step moves to a larger offset or
makes the link at the cursor larger, so the capacity bounds their number. -/
def coalesce (h : Heap) : Except Fault Heap :=
  match h.first with
  | none => .ok h
  | some offset => h.coalesceFrom offset h.capacity

/-- Releases an allocated block; other handles are ignored. -/
def free (h : Heap) (block : Nat) : Except Fault Heap := do
  match ← h.find block with
  | none => return h
  | some (offset, header) =>
    if header.free then return h
    (← h.writeHeader offset { header with free := true }).coalesce

/-- The size of an allocated block's payload. -/
def payloadSize (h : Heap) (block : Nat) : Except Fault (Option Nat) := do
  return ((← h.find block).filter (!·.2.free)).map (·.2.size)

/-- The payload of an allocated block. -/
def payload (h : Heap) (block : Nat) : Except Fault (Option (List UInt8)) := do
  return (← h.payloadSize block).map (Bytes.slice h.arena block)

/-- Writes into the payload of an allocated block, if the bytes fit there. -/
def writePayload (h : Heap) (block start : Nat) (bytes : List UInt8) :
    Except Fault (Option Heap) := do
  match ← h.payloadSize block with
  | none => return none
  | some size =>
    if size < start + bytes.length then return none
    return some { h with arena := Bytes.write h.arena (block + start) bytes }

def addressOf (h : Heap) (block : Nat) : Nat := h.base + block

/-- The handle of a payload address inside the arena. -/
def blockAt (h : Heap) (address : Nat) : Option Nat :=
  if h.base ≤ address ∧ address - h.base < h.capacity then some (address - h.base) else none

theorem capacity_writeHeader {h h' : Heap} {offset : Nat} {header : Header}
    (written : h.writeHeader offset header = .ok h') : h'.capacity = h.capacity := by
  unfold writeHeader at written
  split at written
  · cases written
    simp [capacity, Bytes.size_write]
  · cases written

theorem capacity_wipeHeader (h : Heap) (offset : Nat) :
    (h.wipeHeader offset).capacity = h.capacity := by
  simp [wipeHeader, capacity, Bytes.size_write]

end Heap

end KernelCore
