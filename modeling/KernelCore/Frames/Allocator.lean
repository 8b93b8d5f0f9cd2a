import KernelCore.Config
import KernelCore.Error
import KernelCore.Frames.Region

/-!
# Physical frames

Frame `i` covers the physical addresses from `4096 * i` up to `4096 * (i + 1)`. A bitmap holds one
bit per frame, set while the frame is allocated; the number of clear bits is kept beside it. Every
frame starts allocated and becomes available when the boot memory map is handed over.
-/
namespace KernelCore

structure FrameAllocator where
  bitmap : Array (BitVec 64)
  total : Nat
  free : Nat
  deriving DecidableEq, Repr

namespace FrameAllocator

/-- The words of a bitmap over `n` frames. -/
def wordsFor (n : Nat) : Nat := Word.ceilDiv n 64

/-- All frames of `memory` bytes, allocated. -/
def ofMemory (memory : Nat) : FrameAllocator :=
  let total := memory / pageSize
  ⟨Array.replicate (wordsFor total) (BitVec.allOnes 64), total, 0⟩

/-- As `ofMemory`, in given storage: surplus words are dropped and the content does not matter. -/
def ofStorage (storage : Array (BitVec 64)) (memory : Nat) : Except MemoryError FrameAllocator :=
  let total := memory / pageSize
  if storage.size < wordsFor total then .error .bitmapTooSmall
  else .ok ⟨(storage.take (wordsFor total)).map fun _ => BitVec.allOnes 64, total, 0⟩

/-- The bit of frame `i`: whether it is allocated. -/
def bit (a : FrameAllocator) (i : Nat) : Bool := (a.bitmap.getD (i / 64) 0).getLsbD (i % 64)

def setBit (a : FrameAllocator) (i : Nat) : FrameAllocator :=
  { a with
    bitmap := a.bitmap.modify (i / 64) (· ||| BitVec.twoPow 64 (i % 64))
    free := a.free - 1 }

def clearBit (a : FrameAllocator) (i : Nat) : FrameAllocator :=
  { a with
    bitmap := a.bitmap.modify (i / 64) (· &&& ~~~BitVec.twoPow 64 (i % 64))
    free := a.free + 1 }

/-- Clears the set bits among the `n` frames from `i` on and counts them. -/
def releaseFrom (a : FrameAllocator) (i : Nat) : Nat → Nat × FrameAllocator
  | 0 => (0, a)
  | n + 1 =>
    if a.bit i then
      let (changed, a) := (a.clearBit i).releaseFrom (i + 1) n
      (changed + 1, a)
    else a.releaseFrom (i + 1) n

/-- Sets the clear bits among the `n` frames from `i` on and counts them. -/
def reserveFrom (a : FrameAllocator) (i : Nat) : Nat → Nat × FrameAllocator
  | 0 => (0, a)
  | n + 1 =>
    if a.bit i then a.reserveFrom (i + 1) n
    else
      let (changed, a) := (a.setBit i).reserveFrom (i + 1) n
      (changed + 1, a)

/-- Frees every frame that lies wholly in the region; the result counts the frames that changed. -/
def releaseRegion (a : FrameAllocator) (start size : Nat) : Nat × FrameAllocator :=
  let first := Word.ceilDiv start pageSize
  let finish := min (Word.saturatingAdd start size / pageSize) a.total
  a.releaseFrom first (finish - first)

/-- Allocates every frame that the region touches; the result counts the frames that changed. -/
def reserveRegion (a : FrameAllocator) (start size : Nat) : Nat × FrameAllocator :=
  let first := start / pageSize
  let finish := min (Word.ceilDiv (Word.saturatingAdd start size) pageSize) a.total
  a.reserveFrom first (finish - first)

/-- Takes over a memory map. Usable regions come first, so a frame that is reported both ways
stays allocated. -/
def seed (a : FrameAllocator) (regions : List Region) : FrameAllocator :=
  let released := (regions.filter Region.isUsable).foldl
    (fun a r => (a.releaseRegion r.start r.size).2) a
  (regions.filter (!·.isUsable)).foldl (fun a r => (a.reserveRegion r.start r.size).2) released

/-- The lowest clear bit of a word, or 64. -/
def lowestClear (w : BitVec 64) : Nat := ((List.range 64).find? (!w.getLsbD ·)).getD 64

/-- The lowest clear bit of the bitmap. -/
def firstClear (a : FrameAllocator) : Option Nat :=
  (a.bitmap.findIdx? (· != BitVec.allOnes 64)).map fun w =>
    64 * w + lowestClear (a.bitmap.getD w 0)

/-- Hands out the free frame with the lowest number. -/
def allocate (a : FrameAllocator) : Option (Nat × FrameAllocator) :=
  if a.free = 0 then none
  else match a.firstClear with
    | some i => if i < a.total then some (i * pageSize, a.setBit i) else none
    | none => none

/-- Whether the frame that holds the address is allocated. -/
def isAllocated (a : FrameAllocator) (address : Nat) : Bool :=
  let i := address / pageSize
  decide (i < a.total) && a.bit i

/-- Takes back the frame that holds the address; one that is free or beyond the memory is
ignored. -/
def release (a : FrameAllocator) (address : Nat) : Bool × FrameAllocator :=
  if a.isAllocated address then (true, a.clearBit (address / pageSize)) else (false, a)

def freeBytes (a : FrameAllocator) : Nat := a.free * pageSize

def usedBytes (a : FrameAllocator) : Nat := (a.total - a.free) * pageSize

/-- The numbers of the free frames, ascending. -/
def freeFrames (a : FrameAllocator) : List Nat := (List.range a.total).filter (!a.bit ·)

theorem mem_freeFrames {a : FrameAllocator} {i : Nat} :
    i ∈ a.freeFrames ↔ i < a.total ∧ a.bit i = false := by
  simp [freeFrames]

end FrameAllocator

end KernelCore
