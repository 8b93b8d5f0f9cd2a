import KernelCore.Json.Value

/-!
# Reading JSON

A strict reader. Each function takes characters from the front of the text and gives back the rest,
or `none` if the text is not JSON.
-/
namespace KernelCore.JsonValue

def isBlank (c : Char) : Bool := c == ' ' || c == '\n' || c == '\t' || c == '\r'

def skipBlank (cs : List Char) : List Char := cs.dropWhile isBlank

def hexDigit? (c : Char) : Option Nat :=
  if c.isDigit then some (c.toNat - '0'.toNat)
  else if 'a' ≤ c ∧ c ≤ 'f' then some (c.toNat - 'a'.toNat + 10)
  else if 'A' ≤ c ∧ c ≤ 'F' then some (c.toNat - 'A'.toNat + 10)
  else none

def hexDigits? (cs : List Char) : Option Nat :=
  cs.foldlM (fun n c => (hexDigit? c).map (16 * n + ·)) 0

/-- The character that a one-letter escape stands for. -/
def escaped? : Char → Option Char
  | '"' => some '"'
  | '\\' => some '\\'
  | '/' => some '/'
  | 'b' => some '\x08'
  | 'f' => some '\x0c'
  | 'n' => some '\n'
  | 'r' => some '\r'
  | 't' => some '\t'
  | _ => none

/-- The code units of a string up to its closing quote; a numeric escape may give half of a
surrogate pair. -/
def readString : List Char → Option (List Nat × List Char)
  | [] => none
  | '"' :: cs => some ([], cs)
  | '\\' :: 'u' :: a :: b :: c :: d :: cs => do
    let unit ← hexDigits? [a, b, c, d]
    let (units, cs) ← readString cs
    return (unit :: units, cs)
  | '\\' :: e :: cs => do
    let c ← escaped? e
    let (units, cs) ← readString cs
    return (c.toNat :: units, cs)
  | c :: cs =>
    if c == '\\' || c.toNat < 0x20 then none
    else do
      let (units, cs) ← readString cs
      return (c.toNat :: units, cs)

def isHighHalf (unit : Nat) : Bool := 0xD800 ≤ unit && unit < 0xDC00

def isLowHalf (unit : Nat) : Bool := 0xDC00 ≤ unit && unit < 0xE000

/-- Joins surrogate pairs; half of a pair alone is no text. -/
def joinPairs : List Nat → Option (List Char)
  | [] => some []
  | [unit] => if isHighHalf unit || isLowHalf unit then none else some [Char.ofNat unit]
  | high :: low :: units =>
    if isHighHalf high then
      if isLowHalf low then
        (joinPairs units).map
          (Char.ofNat (0x10000 + (high - 0xD800) * 0x400 + (low - 0xDC00)) :: ·)
      else none
    else if isLowHalf high then none
    else (joinPairs (low :: units)).map (Char.ofNat high :: ·)

def textOf (units : List Nat) : Option String := (joinPairs units).map String.ofList

/-- One or more digits. -/
def readDigits (cs : List Char) : Option (List Char × List Char) :=
  match cs.takeWhile Char.isDigit with
  | [] => none
  | digits => some (digits, cs.dropWhile Char.isDigit)

/-- The digits behind the point, if there is one; the result tells whether there is. -/
def readFraction : List Char → Option (Bool × List Char)
  | '.' :: cs => (readDigits cs).map fun (_, cs) => (true, cs)
  | cs => some (false, cs)

/-- The exponent, if there is one; the result tells whether there is. -/
def readExponent : List Char → Option (Bool × List Char)
  | [] => some (false, [])
  | c :: cs =>
    if c == 'e' || c == 'E' then
      let cs := match cs with
        | '+' :: cs => cs
        | '-' :: cs => cs
        | cs => cs
      (readDigits cs).map fun (_, cs) => (true, cs)
    else some (false, c :: cs)

def digitsToNat (digits : List Char) : Nat :=
  digits.foldl (fun n c => 10 * n + (c.toNat - '0'.toNat)) 0

/-- A number without a sign. A leading zero stands alone, and a negative zero is no integer. -/
def readUnsigned (negative : Bool) (cs : List Char) : Option (JsonValue × List Char) := do
  let (digits, cs) ← readDigits cs
  let (pointed, cs) ← readFraction cs
  let (scaled, cs) ← readExponent cs
  let n := digitsToNat digits
  if digits.head? = some '0' ∧ 1 < digits.length then none
  else if pointed || scaled || negative && n == 0 then return (fraction, cs)
  else return (integer (if negative then -n else n), cs)

/-- The items of an array after its bracket, one at least. -/
def readItems (read : List Char → Option (JsonValue × List Char)) :
    Nat → List Char → Option (List JsonValue × List Char)
  | 0, _ => none
  | fuel + 1, cs => do
    let (item, cs) ← read cs
    match skipBlank cs with
    | ',' :: cs =>
      let (items, cs) ← readItems read fuel cs
      return (item :: items, cs)
    | ']' :: cs => return ([item], cs)
    | _ => none

/-- The members of an object after its brace, one at least. -/
def readMembers (read : List Char → Option (JsonValue × List Char)) :
    Nat → List Char → Option (List (Option String × JsonValue) × List Char)
  | 0, _ => none
  | fuel + 1, cs => do
    match skipBlank cs with
    | '"' :: cs =>
      let (units, cs) ← readString cs
      match skipBlank cs with
      | ':' :: cs =>
        let (value, cs) ← read cs
        let member := (textOf units, value)
        match skipBlank cs with
        | ',' :: cs =>
          let (members, cs) ← readMembers read fuel cs
          return (member :: members, cs)
        | '\x7d' :: cs => return ([member], cs)
        | _ => none
      | _ => none
    | _ => none

/-- A value, with blanks before it. The fuel bounds the depth and the number of items. -/
def readValue : Nat → List Char → Option (JsonValue × List Char)
  | 0, _ => none
  | fuel + 1, cs =>
    match skipBlank cs with
    | 'n' :: 'u' :: 'l' :: 'l' :: cs => some (null, cs)
    | 't' :: 'r' :: 'u' :: 'e' :: cs => some (bool true, cs)
    | 'f' :: 'a' :: 'l' :: 's' :: 'e' :: cs => some (bool false, cs)
    | '"' :: cs => (readString cs).map fun (units, cs) => (string (textOf units), cs)
    | '-' :: cs => readUnsigned true cs
    | '[' :: cs =>
      match skipBlank cs with
      | ']' :: cs => some (array [], cs)
      | cs => (readItems (readValue fuel) fuel cs).map fun (items, cs) => (array items, cs)
    | '\x7b' :: cs =>
      match skipBlank cs with
      | '\x7d' :: cs => some (object [], cs)
      | cs => (readMembers (readValue fuel) fuel cs).map fun (members, cs) => (object members, cs)
    | cs => readUnsigned false cs

/-- The value that is the whole of a text. -/
def parse? (text : String) : Option JsonValue := do
  let cs := text.toList
  let (value, rest) ← readValue (cs.length + 1) cs
  if skipBlank rest = [] then some value else none

end KernelCore.JsonValue
