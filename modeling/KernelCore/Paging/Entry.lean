import KernelCore.Config

/-!
# Page table entries

An entry is a 64-bit word: bits 12 to 51 hold the physical address of a frame, all others are
flags.
-/
namespace KernelCore

namespace Flag

def present : BitVec 64 := BitVec.twoPow 64 0
def writable : BitVec 64 := BitVec.twoPow 64 1
def user : BitVec 64 := BitVec.twoPow 64 2
def huge : BitVec 64 := BitVec.twoPow 64 7

end Flag

/-- Bits 12 to 51. -/
def addressMask : BitVec 64 := 0x000FFFFFFFFFF000#64

structure Entry where
  raw : BitVec 64
  deriving DecidableEq, Repr

namespace Entry

def empty : Entry := ⟨0⟩

/-- An entry for the frame of an address; flag bits between 12 and 51 join the address. -/
def make (address : Nat) (flags : BitVec 64) : Entry :=
  ⟨(BitVec.ofNat 64 address &&& addressMask) ||| flags⟩

def present (e : Entry) : Bool := e.raw.getLsbD 0
def writable (e : Entry) : Bool := e.raw.getLsbD 1
def user (e : Entry) : Bool := e.raw.getLsbD 2
def huge (e : Entry) : Bool := e.raw.getLsbD 7

/-- The physical address of the frame. -/
def address (e : Entry) : Nat := (e.raw &&& addressMask).toNat

def flags (e : Entry) : BitVec 64 := e.raw &&& ~~~addressMask

/-- The digits of a number in base 16, with the given letters. -/
def hexDigits (upper : Bool) (n : Nat) : String :=
  let digits := Nat.toDigits 16 n
  String.ofList (if upper then digits.map Char.toUpper else digits)

/-- The text of an entry in diagnostics. -/
def describe (e : Entry) : String :=
  if e.present then
    "PTE(PhysAddr(0x" ++ hexDigits false e.address ++ "), flags=0x" ++
      hexDigits true e.flags.toNat ++ ")"
  else "PTE(empty)"

theorem present_empty : empty.present = false := by decide

end Entry

end KernelCore
