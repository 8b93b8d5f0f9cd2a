import KernelCore.Platform
import KernelCore.Word

/-!
# The window of physical memory

All of physical memory below a limit appears at a fixed offset in the virtual addresses of the
kernel.
-/
namespace KernelCore

structure PhysicalWindow where
  /-- The virtual address of physical address zero. -/
  offset : Nat
  /-- Physical addresses from here on are outside. -/
  limit : Nat
  deriving DecidableEq, Repr

namespace PhysicalWindow

/-- The virtual address of a physical one. It has to be canonical, and the sum a word. -/
def reach (w : PhysicalWindow) (address : Nat) : ExceptT PlatformError (Except Fault) Nat :=
  if w.limit ≤ address then throw .outOfWindow
  else if Word.maximum < address + w.offset then .mk (.error .overflow)
  else if Canonical (address + w.offset) then return address + w.offset
  else throw .outOfWindow

/-- The virtual address of the table in the frame at a physical address. -/
def tableAt (w : PhysicalWindow) (address : Nat) : ExceptT PlatformError (Except Fault) Nat :=
  reachFrame w.reach address

end PhysicalWindow

end KernelCore
