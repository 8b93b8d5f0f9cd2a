/-!
# Process names

A name is kept up to a number of bytes, and never cut inside a character.
-/
namespace KernelCore

/-- The characters from the front that take at most `max` bytes together. -/
def takeBytes (max : Nat) : List Char → List Char
  | [] => []
  | c :: cs => if c.utf8Size ≤ max then c :: takeBytes (max - c.utf8Size) cs else []

def truncateName (name : String) (max : Nat) : String := String.ofList (takeBytes max name.toList)

theorem takeBytes_isPrefix (max : Nat) (cs : List Char) : takeBytes max cs <+: cs := by
  induction cs generalizing max with
  | nil => exact List.prefix_rfl
  | cons c cs ih =>
    rw [takeBytes]
    split
    · exact List.cons_prefix_cons.mpr ⟨rfl, ih _⟩
    · exact List.nil_prefix

end KernelCore
