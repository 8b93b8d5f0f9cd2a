import KernelCore.Error
import KernelCore.Paging.Table

/-!
# The platform

What the kernel core needs from the machine: physical memory, reached through a window that may be
smaller than the memory; the root table in use; and effects outside of memory, which are recorded
as events in order.
-/
namespace KernelCore

/-- What the kernel core asks of the machine besides memory accesses. -/
inductive Event where
  /-- A line of diagnostic output. -/
  | line (text : String)
  /-- What is cached about the page is dropped. -/
  | flush (va : Nat)
  /-- A root table is loaded. -/
  | load (root : Nat)
  /-- A section begins that no interrupt can enter. -/
  | masked
  deriving DecidableEq, Repr

/-- A frame is reached if its address is aligned and its first and last bytes are reached. The
result is where its first byte is reached. -/
def reachFrame {m : Type → Type} [Monad m] [MonadExceptOf PlatformError m]
    (reach : Nat → m Nat) (address : Nat) : m Nat := do
  if address % pageSize ≠ 0 then throw .misaligned
  else
    let first ← reach address
    let _ ← reach (address + (pageSize - 1))
    return first

structure Platform where
  /-- One table per frame. -/
  memory : Array Table
  /-- Physical addresses from here on cannot be reached. -/
  window : Nat
  /-- The root table in use. -/
  root : Nat := 0
  events : Array Event := #[]

namespace Platform

/-- A machine with `n` zeroed frames, all of them reachable. -/
def ofFrames (n : Nat) : Platform := ⟨Array.replicate n .empty, n * pageSize, 0, #[]⟩

/-- Neither the window nor the memory can be left. -/
def limit (m : Platform) : Nat := min m.window (m.memory.size * pageSize)

def reach (m : Platform) (address : Nat) : Except PlatformError Nat :=
  if address < m.limit then .ok address else .error .outOfWindow

/-- The table in the frame at an address. -/
def readTable (m : Platform) (address : Nat) : Except PlatformError Table := do
  let first ← reachFrame m.reach address
  return m.memory.getD (first / pageSize) .empty

def writeTable (m : Platform) (address : Nat) (t : Table) : Platform :=
  { m with memory := m.memory.setIfInBounds (address / pageSize) t }

def setEntry (m : Platform) (address : Nat) (i : Fin 512) (e : Entry) : Platform :=
  { m with memory := m.memory.modify (address / pageSize) (·.set i e) }

def emit (m : Platform) (e : Event) : Platform := { m with events := m.events.push e }

/-- Enters a section that no interrupt can enter. -/
def mask (m : Platform) : Platform := m.emit .masked

def flush (m : Platform) (va : Nat) : Platform := m.emit (.flush va)

def load (m : Platform) (root : Nat) : Platform := { m.emit (.load root) with root }

theorem readTable_eq_ok {m : Platform} {address : Nat} {t : Table} :
    m.readTable address = .ok t ↔
      address % pageSize = 0 ∧ address + (pageSize - 1) < m.limit ∧
        m.memory.getD (address / pageSize) .empty = t := by
  unfold readTable reachFrame reach
  simp only [bind, Except.bind, pure, Except.pure, throw, throwThe, MonadExceptOf.throw]
  have positive : pageSize = 4096 := rfl
  by_cases aligned : address % pageSize = 0
  · by_cases inside : address + (pageSize - 1) < m.limit
    · have start : address < m.limit := by omega
      simp [aligned, inside, start]
    · by_cases start : address < m.limit <;> simp [aligned, inside, start]
  · simp [aligned]

end Platform

end KernelCore
