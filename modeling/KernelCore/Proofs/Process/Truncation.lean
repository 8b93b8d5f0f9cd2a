import Mathlib
import KernelCore.Config
import KernelCore.Error
import KernelCore.Process.Name

/-!
# Where a name is cut

The place at which a name is cut is found in its bytes: from the limit, a search steps back until
the next byte does not continue a character. It ends before it runs out of bytes, at most three
steps from the limit, and what is in front of that place are the characters that are kept.
-/
namespace KernelCore.Name

/-- The bytes of a character behind its first one start with the bits 10. -/
def continues (byte : UInt8) : Bool := 0x80 ≤ byte && byte < 0xC0

/-- A position at either end of a text, or in front of a byte that does not continue a character. -/
def isBoundary (text : String) (n : Nat) : Bool :=
  n == 0 ||
    match text.toByteArray.data[n]? with
    | some byte => !continues byte
    | none => n == text.utf8ByteSize

/-- Steps back from a position to a boundary; from the first position there is no step back. -/
def boundaryBefore (text : String) : Nat → Except Fault Nat
  | 0 => if isBoundary text 0 then .ok 0 else .error .overflow
  | n + 1 => if isBoundary text (n + 1) then .ok (n + 1) else boundaryBefore text n

/-- The bytes in front of a position; a text is not taken apart inside a character. -/
def slice (text : String) (n : Nat) : Except Fault ByteArray :=
  if isBoundary text n then .ok (text.toByteArray.extract 0 n) else .error .indexOutOfRange

/-- The bytes that are left of a text of which at most `max` are kept. -/
def cut (text : String) (max : Nat) : Except Fault ByteArray := do
  if text.utf8ByteSize ≤ max then return text.toByteArray
  slice text (← boundaryBefore text max)

/-- Of all the ways to take a text apart between two characters so that the front has at most `max`
bytes, the one with the longest front. -/
structure LongestFront (text : String) (max : Nat) (kept : String) : Prop where
  front : ∃ rest, text = kept ++ rest
  short : kept.utf8ByteSize ≤ max
  longest : ∀ s t, text = s ++ t → s.utf8ByteSize ≤ max → s.utf8ByteSize ≤ kept.utf8ByteSize

/-- What a process keeps of a name: what a cut leaves, which is the longest front that fits. A name
that was cut uses all but at most three of the bytes that it may have. -/
structure Kept (name kept : String) : Prop extends LongestFront name maxNameBytes kept where
  cut : cut name maxNameBytes = .ok kept.toByteArray
  le : kept.utf8ByteSize ≤ 63
  near : kept ≠ name → 60 ≤ kept.utf8ByteSize

variable {byte : UInt8} {c : Char} {text kept : String} {m n max : Nat} {taken rest : List Char}

/-! ### Bytes and characters -/

theorem continues_ofNat (n : Nat) : continues (UInt8.ofNat (n % 64 + 128)) = true := by
  simp [continues, UInt8.le_iff_toNat_le, UInt8.lt_iff_toNat_lt]
  omega

theorem continues_of_mem_tail (h : byte ∈ (String.utf8EncodeChar c).tail) :
    continues byte = true := by
  rw [String.utf8EncodeChar] at h
  split_ifs at h <;> simp only [List.tail_cons, List.mem_cons, List.not_mem_nil, or_false] at h
  · obtain rfl := h
    exact continues_ofNat _
  · obtain rfl | rfl := h <;> exact continues_ofNat _
  · obtain rfl | rfl | rfl := h <;> exact continues_ofNat _

theorem continues_of_isUTF8FirstByte (h : byte.IsUTF8FirstByte) : continues byte = false := by
  obtain ⟨⟨i⟩⟩ := byte
  revert i
  decide +kernel

theorem isUTF8FirstByte_or_continues (h : byte ∈ text.toByteArray.data.toList) :
    byte.IsUTF8FirstByte ∨ continues byte = true := by
  rw [← String.utf8Encode_toList, List.utf8Encode, List.toList_data_toByteArray,
    List.mem_flatMap] at h
  obtain ⟨c, -, hbyte⟩ := h
  obtain ⟨first, tail, hcode⟩ := List.exists_cons_of_ne_nil (String.utf8EncodeChar_ne_nil (c := c))
  rw [hcode] at hbyte
  obtain rfl | htail := List.mem_cons.mp hbyte
  · have hfirst := UInt8.isUTF8FirstByte_getElem_zero_utf8EncodeChar (c := c)
    left
    simpa only [hcode, List.getElem_cons_zero] using hfirst
  · exact .inr (continues_of_mem_tail (c := c) (by rwa [hcode]))

theorem isUTF8FirstByte_iff (hlt : n < text.toByteArray.size) :
    text.toByteArray[n].IsUTF8FirstByte ↔ continues text.toByteArray[n] = false := by
  refine ⟨continues_of_isUTF8FirstByte, fun hcontinues => ?_⟩
  have hmem : text.toByteArray[n] ∈ text.toByteArray.data.toList := by
    rw [ByteArray.getElem_eq_getElem_data]
    exact Array.mem_toList_iff.mpr (Array.getElem_mem hlt)
  exact (isUTF8FirstByte_or_continues hmem).resolve_right (by simp [hcontinues])

theorem isBoundary_iff_isValid :
    isBoundary text n = true ↔ (⟨n⟩ : String.Pos.Raw).IsValid text := by
  rw [String.Pos.Raw.isValid_iff_isUTF8FirstByte, isBoundary, Bool.or_eq_true, beq_iff_eq]
  rcases Nat.lt_or_ge n text.toByteArray.size with hlt | hge
  case inl =>
    have hget : text.toByteArray.data[n]? = some text.toByteArray[n] :=
      Array.getElem?_eq_getElem hlt
    simp only [hget, Bool.not_eq_true', ← isUTF8FirstByte_iff hlt]
    constructor
    · rintro (rfl | hbyte)
      · exact .inr ⟨hlt, text.isValidUTF8.isUTF8FirstByte_getElem_zero hlt⟩
      · exact .inr ⟨hlt, hbyte⟩
    · rintro (hend | ⟨_, hbyte⟩)
      · exact absurd (congrArg String.Pos.Raw.byteIdx hend) hlt.ne
      · exact .inr hbyte
  case inr =>
    have hget : text.toByteArray.data[n]? = none := Array.getElem?_eq_none hge
    simp only [hget, beq_iff_eq]
    constructor
    · rintro (rfl | rfl)
      · exact .inl (String.Pos.Raw.ext (Nat.le_zero.mp hge).symm)
      · exact .inl rfl
    · rintro (hend | ⟨hlt, -⟩)
      · exact .inr (congrArg String.Pos.Raw.byteIdx hend)
      · exact absurd hlt hge.not_gt

theorem isBoundary_iff :
    isBoundary text n = true ↔ ∃ s t, text = s ++ t ∧ s.utf8ByteSize = n := by
  rw [isBoundary_iff_isValid, String.Pos.Raw.isValid_iff_exists_append]
  simp [String.Pos.Raw.ext_iff, eq_comm]

/-! ### The characters that fit -/

theorem utf8Len_takeBytes_le (max : Nat) (cs : List Char) :
    String.utf8Len (takeBytes max cs) ≤ max := by
  induction cs generalizing max with
  | nil => exact Nat.zero_le max
  | cons c cs ih =>
    rw [takeBytes]
    split
    · have htail := ih (max - c.utf8Size)
      rw [String.utf8Len_cons]
      omega
    · exact Nat.zero_le max

theorem isPrefix_takeBytes (hfits : String.utf8Len taken ≤ max) :
    taken <+: takeBytes max (taken ++ rest) := by
  induction taken generalizing max with
  | nil => exact List.nil_prefix
  | cons c taken ih =>
    rw [String.utf8Len_cons] at hfits
    rw [List.cons_append, takeBytes, if_pos (by omega), List.cons_prefix_cons]
    exact ⟨rfl, ih (by omega)⟩

theorem longest_truncateName (name : String) (max : Nat) :
    LongestFront name max (truncateName name max) := by
  have hsize : (truncateName name max).utf8ByteSize =
      String.utf8Len (takeBytes max name.toList) := String.utf8ByteSize_ofList _
  obtain ⟨rest, hrest⟩ := takeBytes_isPrefix max name.toList
  refine ⟨⟨String.ofList rest, ?_⟩, ?_, ?_⟩
  · rw [truncateName, ← String.ofList_append, hrest, String.ofList_toList]
  · rw [hsize]
    exact utf8Len_takeBytes_le ..
  · rintro s t rfl hle
    rw [← String.utf8Len_toList] at hle ⊢
    rw [hsize, String.toList_append]
    exact String.utf8Len_le_of_prefix (isPrefix_takeBytes hle)

/-! ### The search in the bytes -/

/-- The search ends at the last boundary. The first position is one, so that there always is a
last. -/
theorem boundaryBefore_eq (h : IsGreatest {k | isBoundary text k = true ∧ k ≤ n} m) :
    boundaryBefore text n = .ok m := by
  induction n with
  | zero =>
    obtain rfl : m = 0 := Nat.le_zero.mp h.1.2
    rw [boundaryBefore, if_pos h.1.1]
  | succ n ih =>
    rw [boundaryBefore]
    split_ifs with hn
    case pos => rw [le_antisymm h.1.2 (h.2 ⟨hn, le_rfl⟩)]
    case neg =>
      have hle : m ≤ n := by
        refine Nat.le_of_lt_succ (lt_of_le_of_ne h.1.2 ?_)
        rintro rfl
        exact hn h.1.1
      exact ih ⟨⟨h.1.1, hle⟩, fun k hk => h.2 ⟨hk.1, hk.2.trans n.le_succ⟩⟩

namespace LongestFront

theorem isGreatest (h : LongestFront text max kept) :
    IsGreatest {n | isBoundary text n = true ∧ n ≤ max} kept.utf8ByteSize := by
  obtain ⟨rest, hrest⟩ := h.front
  refine ⟨⟨isBoundary_iff.mpr ⟨kept, rest, hrest, rfl⟩, h.short⟩, ?_⟩
  rintro n ⟨hn, hle⟩
  obtain ⟨s, t, hst, rfl⟩ := isBoundary_iff.mp hn
  exact h.longest s t hst hle

theorem eq_of_le (h : LongestFront text max kept) (hle : text.utf8ByteSize ≤ max) :
    kept = text := by
  obtain ⟨rest, rfl⟩ := h.front
  have hall := h.longest (kept ++ rest) "" String.append_empty.symm hle
  rw [String.utf8ByteSize_append] at hall
  have hrest : rest = "" := String.utf8ByteSize_eq_zero_iff.mp (by omega)
  rw [hrest, String.append_empty]

/-- The next character would not have fitted, and no character has more than four bytes. -/
theorem le_add_three (h : LongestFront text max kept) (hcut : kept ≠ text) :
    max ≤ kept.utf8ByteSize + 3 := by
  obtain ⟨rest, rfl⟩ := h.front
  obtain ⟨c, cs, hrest⟩ : ∃ c cs, rest.toList = c :: cs := by
    refine List.exists_cons_of_ne_nil fun hnil => hcut ?_
    rw [String.toList_eq_nil_iff.mp hnil, String.append_empty]
  by_contra hfar
  have hsize : (kept ++ String.singleton c).utf8ByteSize = kept.utf8ByteSize + c.utf8Size := by
    rw [String.utf8ByteSize_append, String.utf8ByteSize_singleton]
  have hnext : kept ++ rest = kept ++ String.singleton c ++ String.ofList cs :=
    String.ext (by simp [hrest])
  have hpos := c.utf8Size_pos
  have hfour := c.utf8Size_le_four
  have hle := h.longest _ _ hnext (by omega)
  omega

/-- A text is cut without a fault, and what is left are the bytes of its longest front. -/
theorem cut_eq (h : LongestFront text max kept) : cut text max = .ok kept.toByteArray := by
  rw [cut]
  split_ifs with hle
  case pos =>
    rw [h.eq_of_le hle]
    rfl
  case neg =>
    obtain ⟨rest, hrest⟩ := h.front
    calc boundaryBefore text max >>= slice text
        = slice text kept.utf8ByteSize := by
          rw [boundaryBefore_eq h.isGreatest]
          rfl
      _ = .ok kept.toByteArray := by
          rw [slice, if_pos h.isGreatest.1.1, hrest, String.toByteArray_append]
          exact congrArg Except.ok (ByteArray.extract_append_eq_left rfl)

end LongestFront

/-- One step back from the middle of the second character. -/
example : boundaryBefore "aé" 2 = .ok 1 ∧ truncateName "aé" 2 = "a" := by decide

theorem kept_truncateName (name : String) : Kept name (truncateName name maxNameBytes) := by
  have h := longest_truncateName name maxNameBytes
  refine ⟨h, h.cut_eq, h.short, fun hcut => ?_⟩
  have hnear : 63 ≤ (truncateName name maxNameBytes).utf8ByteSize + 3 := h.le_add_three hcut
  omega

end KernelCore.Name
