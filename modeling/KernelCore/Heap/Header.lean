import KernelCore.Bytes
import KernelCore.Word

/-!
# Block headers

Every block of the heap starts with 32 bytes: a tag (4 bytes), the free flag (4 bytes), the size of
the payload (8 bytes), the offset of the next header (8 bytes) and 8 bytes that stay zero.
-/
namespace KernelCore.Heap

def headerSize : Nat := 32

/-- The tag of every header that the heap wrote. -/
def tag : Nat := 0xDEADBEEF

/-- The link of a last block. -/
def noLink : Nat := Word.maximum

structure Header where
  tag : Nat
  free : Bool
  /-- Bytes of the payload behind the header. -/
  size : Nat
  /-- Offset of the next header. -/
  next : Option Nat
  deriving DecidableEq, Repr

/-- A link has to lead forward, to a header that ends inside the arena. -/
def link? (capacity offset link : Nat) : Option Nat :=
  if offset < link ∧ link + headerSize ≤ capacity then some link else none

namespace Header

def toBytes (h : Header) : List UInt8 :=
  Bytes.ofNat 4 h.tag ++ Bytes.ofNat 4 h.free.toNat ++ Bytes.ofNat 8 h.size ++
    Bytes.ofNat 8 (h.next.getD noLink) ++ Bytes.ofNat 8 0

/-- Reads the header that stands at `offset` in an arena of the given capacity. -/
def ofBytes (capacity offset : Nat) (raw : List UInt8) : Header where
  tag := Bytes.toNat (raw.take 4)
  free := raw.getD 4 0 != 0
  size := Bytes.toNat ((raw.drop 8).take 8)
  next := link? capacity offset (Bytes.toNat ((raw.drop 16).take 8))

theorem length_toBytes (h : Header) : h.toBytes.length = headerSize := by
  simp [toBytes, Bytes.length_ofNat, headerSize]

end Header

theorem link?_eq_some {capacity offset link n : Nat} :
    link? capacity offset link = some n ↔
      link = n ∧ offset < n ∧ n + headerSize ≤ capacity := by
  unfold link?
  split <;> grind

end KernelCore.Heap
