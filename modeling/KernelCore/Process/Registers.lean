/-!
# Registers

The registers that a thread leaves behind when it is switched out and gets back when it resumes.
-/
namespace KernelCore

structure Registers where
  rax : Nat := 0
  rbx : Nat := 0
  rcx : Nat := 0
  rdx : Nat := 0
  rsi : Nat := 0
  rdi : Nat := 0
  rbp : Nat := 0
  rsp : Nat := 0
  r8 : Nat := 0
  r9 : Nat := 0
  r10 : Nat := 0
  r11 : Nat := 0
  r12 : Nat := 0
  r13 : Nat := 0
  r14 : Nat := 0
  r15 : Nat := 0
  rip : Nat := 0
  rflags : Nat := 0
  /-- The root table that the thread runs on. -/
  cr3 : Nat := 0
  deriving DecidableEq, Repr

namespace Registers

/-- Interrupts are enabled; bit 1 is always set. -/
def initialFlags : Nat := 0x202

/-- A thread that is about to execute `entry` on a fresh stack. -/
def atEntry (entry stackTop root : Nat) : Registers :=
  { rip := entry, rsp := stackTop, rflags := initialFlags, cr3 := root }

/-- The registers by name, in the order in which a switch stores them. -/
def toList (r : Registers) : List (String × Nat) :=
  [("rax", r.rax), ("rbx", r.rbx), ("rcx", r.rcx), ("rdx", r.rdx), ("rsi", r.rsi),
    ("rdi", r.rdi), ("rbp", r.rbp), ("rsp", r.rsp), ("r8", r.r8), ("r9", r.r9), ("r10", r.r10),
    ("r11", r.r11), ("r12", r.r12), ("r13", r.r13), ("r14", r.r14), ("r15", r.r15),
    ("rip", r.rip), ("rflags", r.rflags), ("cr3", r.cr3)]

/-- Registers whose values are given by name. -/
def ofNames (value : String → Nat) : Registers where
  rax := value "rax"
  rbx := value "rbx"
  rcx := value "rcx"
  rdx := value "rdx"
  rsi := value "rsi"
  rdi := value "rdi"
  rbp := value "rbp"
  rsp := value "rsp"
  r8 := value "r8"
  r9 := value "r9"
  r10 := value "r10"
  r11 := value "r11"
  r12 := value "r12"
  r13 := value "r13"
  r14 := value "r14"
  r15 := value "r15"
  rip := value "rip"
  rflags := value "rflags"
  cr3 := value "cr3"

/-- The value of the register of a name; other names read as zero. -/
def get (r : Registers) (name : String) : Nat := (r.toList.lookup name).getD 0

/-- Overwrites the registers for which `value` has one. -/
def overwrite (r : Registers) (value : String → Option Nat) : Registers :=
  ofNames fun name => (value name).getD (r.get name)

end Registers

end KernelCore
