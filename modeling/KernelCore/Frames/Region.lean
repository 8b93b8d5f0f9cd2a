import KernelCore.Word

/-!
# Regions of the memory map

A boot loader describes physical memory as a list of regions, each with a kind. Only usable
regions may be handed out.
-/
namespace KernelCore

inductive RegionKind where
  | usable
  | reserved
  | bootloader
  | kernel
  | unknown
  deriving DecidableEq, Repr

namespace RegionKind

def name : RegionKind → String
  | usable => "Usable"
  | reserved => "Reserved"
  | bootloader => "Bootloader"
  | kernel => "Kernel"
  | unknown => "Unknown"

def all : List RegionKind := [usable, reserved, bootloader, kernel, unknown]

def ofName? (s : String) : Option RegionKind := all.find? (·.name == s)

theorem ofName?_name (k : RegionKind) : ofName? k.name = some k := by
  cases k <;> decide

end RegionKind

structure Region where
  start : Nat
  size : Nat
  kind : RegionKind
  deriving DecidableEq, Repr

namespace Region

/-- The region between two addresses; one that ends before it starts is empty. -/
def ofBounds (start finish : Nat) (kind : RegionKind) : Region := ⟨start, finish - start, kind⟩

def isUsable (r : Region) : Bool := r.kind == .usable

end Region

end KernelCore
