import KernelCore.Paging.Table

/-!
# The processor

A single processor as far as privileged instructions show it: the interrupt flag, the root table
register with its flags, and the instructions issued so far.
-/
namespace KernelCore

/-- The privileged instructions and device accesses that change something. -/
inductive Instruction where
  | disableInterrupts
  | enableInterrupts
  | loadRoot (address : Nat) (flags : BitVec 64)
  | invalidatePage (va : Nat)
  /-- A serial line is set up. -/
  | openSerial (base : Nat)
  /-- A byte goes out through the serial line. -/
  | send (byte : UInt8)
  deriving DecidableEq, Repr

structure Processor where
  /-- Whether interrupts are enabled. -/
  interrupts : Bool
  /-- An address in the frame of the root table in use. -/
  root : Nat := 0
  rootFlags : BitVec 64 := 0
  issued : Array Instruction := #[]

namespace Processor

/-- The start of the frame that holds an address. -/
def frameStart (address : Nat) : Nat := address / pageSize * pageSize

/-- The flags that the root table register has: bits 3 and 4. -/
def rootFlagMask : BitVec 64 := BitVec.twoPow 64 3 ||| BitVec.twoPow 64 4

def issue (p : Processor) (i : Instruction) : Processor := { p with issued := p.issued.push i }

def disable (p : Processor) : Processor := { p.issue .disableInterrupts with interrupts := false }

def enable (p : Processor) : Processor := { p.issue .enableInterrupts with interrupts := true }

/-- Begins a section that no interrupt can enter; the result tells whether its end has to enable
interrupts. -/
def enter (p : Processor) : Bool × Processor :=
  if p.interrupts then (true, p.disable) else (false, p)

/-- Ends a section that began with the given result. -/
def leave (restore : Bool) (p : Processor) : Processor := if restore then p.enable else p

def withoutInterrupts (f : Processor → Processor) (p : Processor) : Processor :=
  let (restore, p) := p.enter
  leave restore (f p)

/-- Drops what is cached about a page. -/
def flushPage (p : Processor) (va : Nat) : Processor := p.issue (.invalidatePage va)

/-- The root table in use. -/
def currentRoot (p : Processor) : Nat := frameStart p.root

/-- Loads a root table; the flags of the register stay. -/
def activate (p : Processor) (address : Nat) : Processor :=
  let root := frameStart address
  { p.issue (.loadRoot root p.rootFlags) with root }

/-- No interrupt enters a section. -/
theorem interrupts_enter (p : Processor) : p.enter.2.interrupts = false := by
  unfold enter
  cases h : p.interrupts <;> simp [disable, h]

end Processor

end KernelCore
