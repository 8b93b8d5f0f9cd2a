/-!
# Errors and faults

An error is a refusal that a caller can handle; each has one message. A fault is a broken
assertion: the operation that meets one has no result and the machine stops.

Left out are the refusals when the kernel's own lists cannot grow: the process table and the text of
a name in `Scheduler.create`, the list of the tables of a space in `Mapping.takeTable`. These always
find room here, so `processTableFull` means that the numbers of processes are used up.
-/
namespace KernelCore

/-- The reasons for which the machine stops. -/
inductive Fault where
  | overflow
  | indexOutOfRange
  | headerOutOfArena
  | physicalAddressTooLarge
  | virtualAddressNotCanonical
  deriving DecidableEq, Repr

theorem Fault.of_bind_eq_ok {α β : Type} {x : Except Fault α} {f : α → Except Fault β} {b : β}
    (h : x >>= f = .ok b) : ∃ a, x = .ok a ∧ f a = .ok b := by
  cases x with
  | error e => cases h
  | ok a => exact ⟨a, rfl, h⟩

theorem Fault.exists_of_any {α : Type} {x : Except Fault α} {check : α → Bool}
    (h : x.toOption.any check = true) : ∃ a, x = .ok a ∧ check a = true := by
  cases x with
  | error e => cases h
  | ok a => exact ⟨a, rfl, h⟩

/-- What reaching physical memory can refuse. -/
inductive PlatformError where
  | outOfWindow
  | misaligned
  deriving DecidableEq, Repr

inductive MemoryError where
  | outOfFrames
  | heapExhausted
  | bitmapTooSmall
  | hugePageInPath
  | platform (e : PlatformError)
  deriving DecidableEq, Repr

inductive KernelError where
  | memory (e : MemoryError)
  | processTableFull
  | processNotFound
  | pagingNotReady
  deriving DecidableEq, Repr

def PlatformError.message : PlatformError → String
  | .outOfWindow => "physical address outside mapped window"
  | .misaligned => "physical address misaligned"

def MemoryError.message : MemoryError → String
  | .outOfFrames => "out of physical frames"
  | .heapExhausted => "kernel heap exhausted"
  | .bitmapTooSmall => "frame bitmap storage too small"
  | .hugePageInPath => "huge page in mapping path"
  | .platform e => "hal: " ++ e.message

def KernelError.message : KernelError → String
  | .memory e => e.message
  | .processTableFull => "process table exhausted"
  | .processNotFound => "process not found"
  | .pagingNotReady => "paging not initialized"

/-- A full process table, a full heap and a lack of frames all mean that memory ran out. -/
def KernelError.isOutOfMemory : KernelError → Bool
  | .processTableFull | .memory .outOfFrames | .memory .heapExhausted => true
  | _ => false

end KernelCore
