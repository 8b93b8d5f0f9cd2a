import KernelCore.Word

/-!
# System calls

The calls by which a process controls itself, with the numbers under which it asks for them.
-/
namespace KernelCore

inductive Syscall where
  | exit (status : Int)
  | getPid
  | sleep (ticks : Nat)
  | yield
  deriving DecidableEq, Repr

namespace Syscall

def number : Syscall → Nat
  | exit _ => 0
  | getPid => 8
  | sleep _ => 9
  | yield => 10

/-- An exit status is the low half of a word, read as a signed number. -/
def statusOf (word : Nat) : Int := (BitVec.ofNat 32 word).toInt

/-- The call of a number, with its first argument. -/
def decode? (number argument : Nat) : Option Syscall :=
  match number with
  | 0 => some (exit (statusOf argument))
  | 8 => some getPid
  | 9 => some (sleep argument)
  | 10 => some yield
  | _ => none

/-- The result of an unknown call. -/
def failure : Nat := Word.maximum

end Syscall

end KernelCore
