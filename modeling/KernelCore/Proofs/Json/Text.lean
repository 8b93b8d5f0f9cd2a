import KernelCore.Json.Record
import Mathlib.Data.List.Forall2

/-!
# Reading back a written text

A quoted string, a number, a null and a truth value are read as what they were written from,
whatever follows them, and an object as its members.
-/
namespace KernelCore.JsonValue

/-! ## Strings -/

theorem hexDigits?_control : ∀ n < 0x20,
    hexDigits? (['0', '0'] ++ Nat.toDigits 16 (n / 16) ++ Nat.toDigits 16 (n % 16)) = some n := by
  decide

theorem readString_escape (c : Char) (cs : List Char) :
    readString (escape c ++ cs) = (readString cs).bind fun r => some (c.toNat :: r.1, r.2) := by
  fun_cases escape c
  case case8 h =>
    have hhigh : c.toNat / 16 < 16 := by omega
    have hlow : c.toNat % 16 < 16 := by omega
    have hunit := hexDigits?_control c.toNat h
    simp only [Nat.toDigits_of_lt_base hhigh, Nat.toDigits_of_lt_base hlow, List.cons_append,
      List.nil_append] at hunit ⊢
    simp [readString, hunit]
  case case9 hquote hbackslash _ _ _ _ _ h =>
    rw [List.singleton_append, readString]
    · have hne : (c == '\\') = false := by simpa using hbackslash
      simp [hne, h]
    · exact hquote
    · rintro _ _ _ _ _ rfl
      exact absurd rfl hbackslash
    · rintro _ _ rfl
      exact absurd rfl hbackslash
  all_goals simp [readString, escaped?]

theorem readString_escaped (text cs : List Char) :
    readString (text.flatMap escape ++ '"' :: cs) = some (text.map Char.toNat, cs) := by
  induction text with
  | nil => simp [readString]
  | cons c text ih => simp [readString_escape, ih]

theorem half_toNat_eq_false (c : Char) : isHighHalf c.toNat = false ∧ isLowHalf c.toNat = false := by
  have hvalid := c.valid
  simp only [UInt32.isValidChar, Nat.isValidChar] at hvalid
  simp only [isHighHalf, isLowHalf, Bool.and_eq_false_imp, decide_eq_true_eq,
    decide_eq_false_iff_not]
  have : c.toNat = c.val.toNat := rfl
  omega

theorem joinPairs_toNat (text : List Char) : joinPairs (text.map Char.toNat) = some text := by
  induction text with
  | nil => rfl
  | cons c text ih =>
    obtain ⟨hhigh, hlow⟩ := half_toNat_eq_false c
    cases text with
    | nil => simp [joinPairs, hhigh, hlow]
    | cons d text =>
      rw [List.map_cons, List.map_cons] at *
      simp [joinPairs, hhigh, hlow, ih]

theorem textOf_toNat (s : String) : textOf (s.toList.map Char.toNat) = some s := by
  rw [textOf, joinPairs_toNat, Option.map_some, String.ofList_toList]

/-! ## Numbers -/

/-- What may follow a value and not become part of it. -/
def EndsValue (cs : List Char) : Prop :=
  ∀ c ∈ cs.head?, c.isDigit = false ∧ c ≠ '.' ∧ c ≠ 'e' ∧ c ≠ 'E'

theorem head?_toDigits_ne_zero {n : Nat} (hn : 0 < n) : (Nat.toDigits 10 n).head? ≠ some '0' := by
  induction n using Nat.strongRecOn with
  | ind n ih =>
    rw [Nat.toDigits_eq_if (by decide)]
    split
    · have : ∀ n < 10, 0 < n → [n.digitChar].head? ≠ some '0' := by decide
      exact this n ‹_› hn
    · have := ih (n / 10) (by omega) (by omega)
      rwa [List.head?_append_of_ne_nil _ Nat.toDigits_ne_nil]

theorem readDigits_append {digits cs : List Char} (hne : digits ≠ [])
    (hdigits : ∀ c ∈ digits, c.isDigit) (hcs : EndsValue cs) :
    readDigits (digits ++ cs) = some (digits, cs) := by
  have hrest : cs.takeWhile Char.isDigit = [] ∧ cs.dropWhile Char.isDigit = cs := by
    cases cs with
    | nil => simp
    | cons c cs => simp [(hcs c rfl).1]
  rw [readDigits, List.takeWhile_append_of_pos hdigits, List.dropWhile_append_of_pos hdigits,
    hrest.1, hrest.2, List.append_nil]
  cases digits with
  | nil => exact absurd rfl hne
  | cons c digits => rfl

theorem readFraction_of_endsValue {cs : List Char} (hcs : EndsValue cs) :
    readFraction cs = some (false, cs) := by
  fun_cases readFraction cs
  case case1 => exact absurd rfl (hcs '.' rfl).2.1
  case case2 => rfl

theorem readExponent_of_endsValue {cs : List Char} (hcs : EndsValue cs) :
    readExponent cs = some (false, cs) := by
  cases cs with
  | nil => rfl
  | cons c cs =>
    obtain ⟨-, -, hlower, hupper⟩ := hcs c rfl
    simp [readExponent, hlower, hupper]

theorem readUnsigned_toDigits (negative : Bool) (n : Nat) {cs : List Char} (hcs : EndsValue cs)
    (hn : negative = true → 0 < n) :
    readUnsigned negative (Nat.toDigits 10 n ++ cs) =
      some (integer (if negative then -n else n), cs) := by
  have hread := readDigits_append Nat.toDigits_ne_nil
    (fun _ => Nat.isDigit_of_mem_toDigits (b := 10) (n := n) (by decide) (by decide)) hcs
  have hvalue : digitsToNat (Nat.toDigits 10 n) = n :=
    Nat.ofDigitChars_toDigits (by decide) (by decide)
  have hlead : ¬ ((Nat.toDigits 10 n).head? = some '0' ∧ 1 < (Nat.toDigits 10 n).length) := by
    rintro ⟨hzero, hlength⟩
    obtain rfl | hpos := Nat.eq_zero_or_pos n
    · simp at hlength
    · exact head?_toDigits_ne_zero hpos hzero
  have hne : negative = true → n ≠ 0 := fun h => Nat.ne_of_gt (hn h)
  simp [readUnsigned, hread, readFraction_of_endsValue hcs, readExponent_of_endsValue hcs, hvalue,
    hlead]
  exact hne

/-! ## Values -/

/-- The text is read as the value, whatever comes after it. -/
def Reads (text : String) (v : JsonValue) : Prop :=
  ∀ fuel rest, EndsValue rest → readValue (fuel + 1) (text.toList ++ rest) = some (v, rest)

theorem reads_null : Reads "null" null := by
  intro fuel rest _
  rfl

theorem reads_bool (b : Bool) : Reads (toString b) (bool b) := by
  intro fuel rest _
  cases b <;> rfl

theorem toList_quoted (s : String) :
    (quoted s).toList = '"' :: (s.toList.flatMap escape ++ ['"']) := by
  simp [quoted]

theorem reads_quoted (s : String) : Reads (quoted s) (string (some s)) := by
  intro fuel rest _
  rw [toList_quoted, List.cons_append, List.append_assoc, List.singleton_append]
  simp [readValue, skipBlank, isBlank, readString_escaped, textOf_toNat]

theorem readValue_of_isDigit {c : Char} (hc : c.isDigit) (fuel : Nat) (cs : List Char) :
    readValue (fuel + 1) (c :: cs) = readUnsigned false (c :: cs) := by
  have hblank : ¬ isBlank c := by
    intro hblank
    simp only [isBlank, Bool.or_eq_true, beq_iff_eq] at hblank
    rcases hblank with ((rfl | rfl) | rfl) | rfl <;> exact absurd hc (by decide)
  rw [readValue, skipBlank, List.dropWhile_cons_of_neg hblank]
  -- every other way to begin a value begins with a character that is no digit
  split
  case h_8 => rfl
  all_goals
    rename_i hcons
    cases hcons
    exact absurd hc (by decide)

theorem reads_nat (n : Nat) : Reads (toString n) (integer n) := by
  intro fuel rest hrest
  have hread := readUnsigned_toDigits false n hrest (by simp)
  change readValue (fuel + 1) (n.repr.toList ++ rest) = _
  rw [Nat.toList_repr]
  cases hdigits : Nat.toDigits 10 n with
  | nil => exact absurd hdigits Nat.toDigits_ne_nil
  | cons c digits =>
    have hc : c.isDigit := Nat.isDigit_of_mem_toDigits (b := 10) (n := n) (by decide) (by decide)
      (by simp [hdigits])
    rw [hdigits] at hread
    rw [List.cons_append, readValue_of_isDigit hc]
    exact hread

theorem reads_int (n : Int) : Reads (toString n) (integer n) := by
  cases n with
  | ofNat n => exact reads_nat n
  | negSucc n =>
    intro fuel rest hrest
    have hread := readUnsigned_toDigits true (n + 1) hrest (by simp)
    have htext : (toString (Int.negSucc n)).toList = '-' :: Nat.toDigits 10 (n + 1) := by
      change ("-" ++ (n + 1).repr).toList = _
      simp
    rw [htext]
    exact hread

theorem reads_orNullText {α : Type} {text : α → String} {value : α → JsonValue}
    (h : ∀ a, Reads (text a) (value a)) (o : Option α) :
    Reads (orNullText text o) (o.elim null value) := by
  cases o with
  | none => exact reads_null
  | some a => exact h a

/-! ## Objects -/

/-- The name and the text of a member are read as the member. -/
def ReadsMember (written : String × String) (member : Option String × JsonValue) : Prop :=
  member.1 = some written.1 ∧ Reads written.2 member.2

theorem forall₂_readsMember {names texts : List String} {values : List JsonValue}
    (hread : List.Forall₂ Reads texts values) :
    List.Forall₂ ReadsMember (names.zip texts) ((names.map some).zip values) := by
  induction hread generalizing names with
  | nil => simp
  | cons h _ ih =>
    cases names with
    | nil => simp
    | cons name names => exact .cons ⟨rfl, h⟩ ih

def memberText (member : String × String) : String := quoted member.1 ++ ":" ++ member.2

theorem toList_memberText (member : String × String) (cs : List Char) :
    (memberText member).toList ++ cs =
      '"' :: (member.1.toList.flatMap escape ++ '"' :: ':' :: (member.2.toList ++ cs)) := by
  simp [memberText, toList_quoted]

def membersText (members : List (String × String)) : String :=
  ",".intercalate (members.map memberText)

theorem toList_membersText_cons_cons (m m' : String × String) (ms : List (String × String)) :
    (membersText (m :: m' :: ms)).toList =
      (memberText m).toList ++ ',' :: (membersText (m' :: ms)).toList := by
  simp [membersText, String.intercalate_cons_cons]

theorem toList_objectText (members : List (String × String)) :
    (objectText members).toList = '\x7b' :: ((membersText members).toList ++ ['\x7d']) := by
  change ("\x7b" ++ membersText members ++ "\x7d").toList = _
  rw [String.toList_append, String.toList_append]
  rfl

theorem exists_quote_cons (m : String × String) (ms : List (String × String)) :
    ∃ cs, (membersText (m :: ms)).toList = '"' :: cs := by
  cases ms with
  | nil => exact ⟨_, by simpa [membersText] using toList_memberText m []⟩
  | cons m' ms =>
    rw [toList_membersText_cons_cons, toList_memberText]
    exact ⟨_, rfl⟩

theorem length_le_membersText (members : List (String × String)) :
    members.length ≤ (membersText members).toList.length := by
  induction members with
  | nil => simp
  | cons m ms ih =>
    cases ms with
    | nil =>
      obtain ⟨cs, hcs⟩ := exists_quote_cons m []
      rw [hcs]
      simp
    | cons m' ms =>
      rw [toList_membersText_cons_cons]
      simp only [List.length_append, List.length_cons] at ih ⊢
      omega

section Members

variable {written : String × String} {member : Option String × JsonValue}

theorem readMembers_last (h : ReadsMember written member) (depth fuel : Nat) (rest : List Char) :
    readMembers (readValue (depth + 1)) (fuel + 1)
      ((memberText written).toList ++ '\x7d' :: rest) = some ([member], rest) := by
  obtain ⟨name, value⟩ := member
  obtain ⟨rfl, htext⟩ := h
  have hvalue := htext depth ('\x7d' :: rest) (by simp [EndsValue])
  rw [toList_memberText]
  simp [readMembers, skipBlank, isBlank, readString_escaped, textOf_toNat, hvalue]

theorem readMembers_more (h : ReadsMember written member) (depth fuel : Nat) (cs : List Char) :
    readMembers (readValue (depth + 1)) (fuel + 1) ((memberText written).toList ++ ',' :: cs) =
      (readMembers (readValue (depth + 1)) fuel cs).bind fun r => some (member :: r.1, r.2) := by
  obtain ⟨name, value⟩ := member
  obtain ⟨rfl, htext⟩ := h
  have hvalue := htext depth (',' :: cs) (by simp [EndsValue])
  rw [toList_memberText]
  simp [readMembers, skipBlank, isBlank, readString_escaped, textOf_toNat, hvalue]

end Members

section Objects

variable {written : List (String × String)} {members : List (Option String × JsonValue)}

theorem readMembers_membersText (hread : List.Forall₂ ReadsMember written members)
    (hne : written ≠ []) {fuel : Nat} (hfuel : written.length ≤ fuel) (depth : Nat)
    (rest : List Char) :
    readMembers (readValue (depth + 1)) fuel ((membersText written).toList ++ '\x7d' :: rest) =
      some (members, rest) := by
  induction hread generalizing fuel with
  | nil => exact absurd rfl hne
  | @cons w m ws ms h hrest ih =>
    obtain _ | fuel := fuel
    · simp at hfuel
    · cases ws with
      | nil =>
        cases hrest
        simpa [membersText] using readMembers_last h depth fuel rest
      | cons w' ws =>
        have htail := ih (by simp) (by simpa using hfuel)
        rw [toList_membersText_cons_cons, List.append_assoc, List.cons_append, readMembers_more h,
          htail]
        rfl

theorem readValue_object {fuel : Nat} {cs rest : List Char}
    (h : readMembers (readValue fuel) fuel ('"' :: cs) = some (members, rest)) :
    readValue (fuel + 1) ('\x7b' :: '"' :: cs) = some (object members, rest) := by
  simp [readValue, skipBlank, isBlank, h]

theorem parse?_objectText (hread : List.Forall₂ ReadsMember written members)
    (hne : written ≠ []) : parse? (objectText written) = some (object members) := by
  obtain _ | ⟨w, ws⟩ := written
  · exact absurd rfl hne
  · obtain ⟨cs, hcs⟩ := exists_quote_cons w ws
    have htext := toList_objectText (w :: ws)
    -- every member takes a character at least, so the length of the text is fuel enough
    have hfuel : (w :: ws).length ≤ cs.length + 3 := by
      have hle := length_le_membersText (w :: ws)
      rw [hcs] at hle
      exact Nat.le_trans hle (Nat.le_add_right _ 2)
    have hmembers := readMembers_membersText hread hne hfuel (cs.length + 2) []
    rw [hcs, List.cons_append] at hmembers htext
    have hvalue := readValue_object hmembers
    have hlength : ('\x7b' :: '"' :: (cs ++ ['\x7d'])).length = cs.length + 3 := by simp
    simp only [parse?, htext, hlength, hvalue]
    rfl

end Objects

end KernelCore.JsonValue
