import KernelCore.Json.Reader
import KernelCore.Kernel.Basic

/-!
# Records as JSON

The configuration, process listings and memory statistics have a JSON form: an object with one
member per field. An array of all fields in order is read as well. Reading ignores members of other
names and refuses a field that comes twice or does not come at all, unless it may be empty.
-/
namespace KernelCore

namespace JsonValue

/-- The values of the named fields, in order; an optional field that is missing is null. -/
def fields? (names optional : List String) : JsonValue → Option (List JsonValue)
  | array items => if items.length = names.length then some items else none
  | object members => do
    let members ← members.mapM fun (name, value) => name.map (·, value)
    if names.any fun name => 1 < (members.filter (·.1 == name)).length then none
    else names.mapM fun name =>
      (members.lookup name).or (if optional.contains name then some null else none)
  | _ => none

def natBelow? (bound : Nat) : JsonValue → Option Nat
  | integer (.ofNat n) => if n < bound then some n else none
  | _ => none

def word? : JsonValue → Option Nat := natBelow? (Word.maximum + 1)

def int32? : JsonValue → Option Int
  | integer n => if -0x80000000 ≤ n ∧ n < 0x80000000 then some n else none
  | _ => none

def bool? : JsonValue → Option Bool
  | bool b => some b
  | _ => none

def string? : JsonValue → Option String
  | string text => text
  | _ => none

/-- The name of a case: a string, or the only member of an object, with null as its value. -/
def case? : JsonValue → Option String
  | string text => text
  | object [(name, null)] => name
  | _ => none

/-- A value that may be null. -/
def orNull? {α : Type} (read : JsonValue → Option α) : JsonValue → Option (Option α)
  | null => some none
  | value => (read value).map some

/-- The escape of a character in a written string. -/
def escape (c : Char) : List Char :=
  match c with
  | '"' => ['\\', '"']
  | '\\' => ['\\', '\\']
  | '\x08' => ['\\', 'b']
  | '\x0c' => ['\\', 'f']
  | '\n' => ['\\', 'n']
  | '\r' => ['\\', 'r']
  | '\t' => ['\\', 't']
  | c =>
    if c.toNat < 0x20 then
      ['\\', 'u', '0', '0'] ++ Nat.toDigits 16 (c.toNat / 16) ++ Nat.toDigits 16 (c.toNat % 16)
    else [c]

def quoted (s : String) : String := "\"" ++ String.ofList (s.toList.flatMap escape) ++ "\""

/-- The text of an object, from the names and the texts of its members. -/
def objectText (members : List (String × String)) : String :=
  "\x7b" ++ ",".intercalate (members.map fun (name, text) => quoted name ++ ":" ++ text) ++ "\x7d"

def orNullText {α : Type} (text : α → String) : Option α → String
  | none => "null"
  | some a => text a

end JsonValue

open JsonValue

namespace Config

def fieldNames : List String :=
  ["time_slice", "identity_map_limit", "log_level", "inherit_upper_half"]

def ofJson? (v : JsonValue) : Option Config := do
  match ← v.fields? fieldNames [] with
  | [slice, limit, level, inherit] =>
    return {
      timeSlice := ← slice.word?
      identityMapLimit := ← limit.word?
      logLevel := ← level.case?.bind LogLevel.ofName?
      inheritUpperHalf := ← inherit.bool? }
  | _ => none

def jsonText (c : Config) : String :=
  objectText (fieldNames.zip
    [toString c.timeSlice, toString c.identityMapLimit, quoted c.logLevel.name,
      toString c.inheritUpperHalf])

end Config

namespace ProcessInfo

def fieldNames : List String :=
  ["pid", "name", "state", "priority", "time_slice", "wake_at", "exit_status", "stack_top", "root"]

def ofJson? (v : JsonValue) : Option ProcessInfo := do
  match ← v.fields? fieldNames ["wake_at", "exit_status"] with
  | [pid, name, state, priority, slice, wake, status, top, root] =>
    return {
      pid := ← pid.natBelow? 0x100000000
      name := ← name.string?
      state := ← state.case?.bind ProcessState.ofName?
      priority := ← priority.natBelow? 0x100000000
      timeSlice := ← slice.word?
      wakeAt := ← wake.orNull? word?
      exitStatus := ← status.orNull? int32?
      stackTop := ← top.word?
      root := ← root.word? }
  | _ => none

def jsonText (p : ProcessInfo) : String :=
  objectText (fieldNames.zip
    [toString p.pid, quoted p.name, quoted p.state.name, toString p.priority,
      toString p.timeSlice, orNullText toString p.wakeAt, orNullText toString p.exitStatus,
      toString p.stackTop, toString p.root])

end ProcessInfo

namespace MemoryStats

def fieldNames : List String :=
  ["total_frames", "free_frames", "phys_free_bytes", "phys_used_bytes", "heap_free_bytes",
    "heap_used_bytes", "heap_largest_free"]

def ofJson? (v : JsonValue) : Option MemoryStats := do
  match ← (← v.fields? fieldNames []).mapM word? with
  | [total, free, physicalFree, physicalUsed, heapFree, heapUsed, largest] =>
    return ⟨total, free, physicalFree, physicalUsed, heapFree, heapUsed, largest⟩
  | _ => none

def jsonText (m : MemoryStats) : String :=
  objectText (fieldNames.zip
    ([m.totalFrames, m.freeFrames, m.physicalFreeBytes, m.physicalUsedBytes, m.heapFreeBytes,
      m.heapUsedBytes, m.heapLargestFree].map toString))

end MemoryStats

end KernelCore
