/-!
# JSON values

What a JSON text says, as far as the records of the kernel need it: a number that is no integer
keeps no value, and a string that ends up with half of a surrogate pair is no text.
-/
namespace KernelCore

inductive JsonValue where
  | null
  | bool (b : Bool)
  | integer (n : Int)
  | fraction
  | string (text : Option String)
  | array (items : List JsonValue)
  /-- The members in the order of the text; a name may come more than once. -/
  | object (members : List (Option String × JsonValue))

end KernelCore
