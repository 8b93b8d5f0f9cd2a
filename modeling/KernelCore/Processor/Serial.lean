import KernelCore.Processor.Basic

/-!
# Serial output

Diagnostic output goes out byte by byte through the first serial line. Each piece of text is sent
without interrupts, so that a timer handler that also writes never waits for the line.
-/
namespace KernelCore.Processor

/-- The base address of the first serial line. -/
def serialBase : Nat := 0x3F8

/-- Sets the line up. -/
def openSerial (p : Processor) : Processor := p.issue (.openSerial serialBase)

def send (p : Processor) (bytes : List UInt8) : Processor :=
  bytes.foldl (fun p byte => p.issue (.send byte)) p

/-- Sends a text; an empty one still takes a section. -/
def writeText (p : Processor) (text : String) : Processor :=
  withoutInterrupts (·.send text.toUTF8.data.toList) p

/-- Sends a text and then, in a section of its own, a newline. -/
def writeLine (p : Processor) (text : String) : Processor := (p.writeText text).writeText "\n"

end KernelCore.Processor
