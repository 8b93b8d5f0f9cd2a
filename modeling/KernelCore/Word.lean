/-!
# Machine words

Sizes, addresses and counters are natural numbers that a machine keeps in 64 bits. This module
holds the bound and the arithmetic that has to say what happens at it.
-/
namespace KernelCore.Word

/-- The largest number a 64-bit word holds. -/
def maximum : Nat := 0xFFFFFFFFFFFFFFFF

/-- A sum that stops at the largest word. -/
def saturatingAdd (a b : Nat) : Nat := min (a + b) maximum

/-- A sum, if a word holds it. -/
def add? (a b : Nat) : Option Nat := if a + b ≤ maximum then some (a + b) else none

/-- The number of parts of `unit` that cover `n`. -/
def ceilDiv (n unit : Nat) : Nat := (n + (unit - 1)) / unit

/-- The least multiple of `unit` that is at least `n`. -/
def roundUp (n unit : Nat) : Nat := ceilDiv n unit * unit

/-- The greatest multiple of `unit` that is at most `n`. -/
def roundDown (n unit : Nat) : Nat := n / unit * unit

theorem add?_eq_some {a b c : Nat} : add? a b = some c ↔ a + b ≤ maximum ∧ a + b = c := by
  unfold add?
  split <;> grind

theorem le_roundUp {n unit : Nat} (hunit : 0 < unit) : n ≤ roundUp n unit := by
  have hlt := Nat.lt_div_mul_add hunit (a := n + (unit - 1))
  rw [roundUp, ceilDiv]
  omega

theorem roundDown_le (n unit : Nat) : roundDown n unit ≤ n := Nat.div_mul_le_self n unit

end KernelCore.Word
