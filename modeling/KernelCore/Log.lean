import KernelCore.Config

/-!
# The log

Lines below the level of the log are dropped. The others are put out, and as many bytes of them as
the history holds are kept, from the start of a line on.
-/
namespace KernelCore

def LogLevel.tag : LogLevel → String
  | .debug => "[DEBUG]"
  | .info => "[INFO] "
  | .warn => "[WARN] "
  | .error => "[ERROR]"

structure Log where
  level : LogLevel
  /-- The last lines, each with a newline, in UTF-8. -/
  history : List UInt8 := []

namespace Log

/-- Bytes of the longest history. -/
def capacity : Nat := 4096

def newline : UInt8 := 10

def line (level : LogLevel) (subsystem message : String) : String :=
  level.tag ++ " [" ++ subsystem ++ "] " ++ message

def bytesOf (text : String) : List UInt8 := text.toUTF8.data.toList

/-- Keeps the last bytes that fit, without the rest of the line in which the cut falls. -/
def trim (history : List UInt8) : List UInt8 :=
  if history.length ≤ capacity then history
  else ((history.drop (history.length - capacity)).dropWhile (· != newline)).drop 1

def record (l : Log) (text : String) : Log :=
  { l with history := trim (l.history ++ bytesOf text ++ [newline]) }

/-- Takes a message; the result is the line to put out, unless its level is too low. -/
def write (l : Log) (level : LogLevel) (subsystem message : String) : Option String × Log :=
  if level.rank < l.level.rank then (none, l)
  else
    let text := line level subsystem message
    (some text, l.record text)

/-- The history as text. -/
def contents (l : Log) : Option String := String.fromUTF8? ⟨l.history.toArray⟩

end Log

end KernelCore
