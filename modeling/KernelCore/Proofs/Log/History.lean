import Mathlib
import KernelCore.Log

/-!
# The history of the log

The history is cut at a byte, which may lie inside a character, and what is left of the line in
front is dropped. However often that happens, the history is text: the tail of what was put out,
from the start of a line on.
-/
namespace KernelCore.Log

/-- What a log is asked for. -/
inductive Operation where
  | write (level : LogLevel) (subsystem message : String)
  | setLevel (level : LogLevel)

/-- An operation; the result is the line that it puts out, if any. -/
def perform (l : Log) : Operation → Option String × Log
  | .write level subsystem message => l.write level subsystem message
  | .setLevel level => (none, { l with level })

/-- The lines that a run puts out, and the log after it. -/
def run (l : Log) : List Operation → List String × Log
  | [] => ([], l)
  | op :: ops =>
    let (text, l) := l.perform op
    let (lines, l) := l.run ops
    (text.toList ++ lines, l)

/-- Lines, each with a newline. -/
def transcript (lines : List String) : String := String.join (lines.map (· ++ "\n"))

/-- A text ends in another one, which fits into a history and begins where a line of the text does.
A text that fits itself is left whole. -/
structure CleanTail (text kept : String) : Prop where
  short : kept.utf8ByteSize ≤ capacity
  cut : kept = text ∨ ∃ dropped, text = dropped ++ "\n" ++ kept
  whole : text.utf8ByteSize ≤ capacity → kept = text

variable {l : Log} {s t text kept : String} {front rest : List UInt8}

theorem bytesOf_append (s t : String) : bytesOf (s ++ t) = bytesOf s ++ bytesOf t := by
  simp [bytesOf]

theorem bytesOf_newline : bytesOf "\n" = [newline] := by decide

theorem length_bytesOf (s : String) : (bytesOf s).length = s.utf8ByteSize := by
  rw [bytesOf, String.toUTF8_eq_toByteArray, Array.length_toList]
  exact s.size_toByteArray

theorem bytesOf_inj (h : bytesOf s = bytesOf t) : s = t := by
  rw [← String.toByteArray_inj]
  exact ByteArray.ext (Array.toList_inj.mp h)

theorem contents_eq (h : l.history = bytesOf s) : l.contents = some s := by
  have hbytes : (⟨l.history.toArray⟩ : ByteArray) = s.toByteArray := by
    rw [h]
    rfl
  rw [contents, hbytes, String.fromUTF8?, dif_pos s.isValidUTF8]
  rfl

theorem exists_append (h : bytesOf text = front ++ rest)
    (hv : (⟨front.length⟩ : String.Pos.Raw).IsValid text) :
    ∃ s t, text = s ++ t ∧ bytesOf s = front ∧ bytesOf t = rest := by
  obtain ⟨s, t, rfl, hlen⟩ := String.Pos.Raw.isValid_iff_exists_append.mp hv
  have hlen : front.length = (bytesOf s).length := by
    rw [length_bytesOf]
    exact congrArg String.Pos.Raw.byteIdx hlen
  rw [bytesOf_append] at h
  obtain ⟨hs, ht⟩ := List.append_inj h hlen.symm
  exact ⟨s, t, rfl, hs, ht⟩

theorem isValid_newline (h : bytesOf text = front ++ newline :: rest) :
    (⟨front.length⟩ : String.Pos.Raw).IsValid text := by
  have hlt : front.length < text.toByteArray.size := by
    rw [String.size_toByteArray, ← length_bytesOf, h]
    simp
  have hget : (bytesOf text)[front.length]? = some newline := by simp [h]
  have hbyte : text.toByteArray[front.length] = newline := by
    obtain ⟨_, hbyte⟩ := List.getElem?_eq_some_iff.mp hget
    rwa [ByteArray.getElem_eq_getElem_data, ← Array.getElem_toList]
  refine String.Pos.Raw.isValid_iff_isUTF8FirstByte.mpr (.inr ⟨hlt, ?_⟩)
  rw [String.getUTF8Byte, hbyte]
  decide

theorem isValid_one (h : bytesOf text = newline :: rest) :
    (⟨1⟩ : String.Pos.Raw).IsValid text := by
  have hsize : 1 ≤ text.utf8ByteSize := by
    rw [← length_bytesOf, h]
    simp
  refine String.Pos.Raw.isValid_iff_isValidUTF8_extract_zero.mpr ⟨hsize, ?_⟩
  have hone : text.toByteArray.extract 0 1 = "\n".toByteArray := by
    refine ByteArray.ext (Array.toList_inj.mp ?_)
    calc (text.toByteArray.extract 0 1).data.toList
        = (bytesOf text).take 1 := by simp [bytesOf]
      _ = bytesOf "\n" := by rw [h, bytesOf_newline, List.take_one]; rfl
  rw [hone]
  exact String.isValidUTF8 _

/-- The byte of a newline is never part of another character. -/
theorem exists_newline (h : bytesOf text = front ++ newline :: rest) :
    ∃ s t, text = s ++ "\n" ++ t ∧ bytesOf t = rest := by
  obtain ⟨s, t, rfl, -, ht⟩ := exists_append h (isValid_newline h)
  have hsplit : bytesOf t = [newline] ++ rest := ht
  obtain ⟨u, v, rfl, hu, hv⟩ := exists_append hsplit (isValid_one ht)
  obtain rfl : u = "\n" := bytesOf_inj (hu.trans bytesOf_newline.symm)
  exact ⟨s, v, (String.append_assoc).symm, hv⟩

theorem exists_lineEnd (bytes : List UInt8) : ∃ front,
    bytes ++ [newline] =
        front ++ newline :: ((bytes ++ [newline]).dropWhile (· != newline)).drop 1 ∧
      (((bytes ++ [newline]).dropWhile (· != newline)).drop 1).length ≤ bytes.length := by
  have hne : (bytes ++ [newline]).dropWhile (· != newline) ≠ [] := by
    rw [Ne, List.dropWhile_eq_nil_iff]
    intro hall
    simpa using hall newline (by simp)
  have hhead := List.head_dropWhile_not (· != newline) hne
  obtain ⟨byte, kept, hkept⟩ := List.exists_cons_of_ne_nil hne
  obtain rfl : byte = newline := by simpa [hkept] using hhead
  have hsplit : bytes ++ [newline] =
      (bytes ++ [newline]).takeWhile (· != newline) ++ newline :: kept := by
    rw [← hkept, List.takeWhile_append_dropWhile]
  have hlength := congrArg List.length hsplit
  rw [List.length_append, List.length_append, List.length_singleton, List.length_cons] at hlength
  rw [hkept, List.drop_one, List.tail_cons]
  exact ⟨_, hsplit, by omega⟩

/-- Cutting bytes that end in a newline leaves all of them, or those behind a newline. -/
theorem trim_cases (bytes : List UInt8) :
    (bytes ++ [newline]).length ≤ capacity ∧ trim (bytes ++ [newline]) = bytes ++ [newline] ∨
      capacity < (bytes ++ [newline]).length ∧ (trim (bytes ++ [newline])).length ≤ capacity ∧
        ∃ front, bytes ++ [newline] = front ++ newline :: trim (bytes ++ [newline]) := by
  rcases Nat.lt_or_ge capacity (bytes ++ [newline]).length with hlong | hshort
  case inr => exact .inl ⟨hshort, if_pos hshort⟩
  refine .inr ⟨hlong, ?_⟩
  rw [trim, if_neg (Nat.not_le.mpr hlong)]
  generalize hn : (bytes ++ [newline]).length - capacity = n
  have hpos : 0 < capacity := by decide
  rw [List.length_append, List.length_singleton] at hn hlong
  -- The last byte is among those that fit.
  have hdrop : (bytes ++ [newline]).drop n = bytes.drop n ++ [newline] :=
    List.drop_append_of_le_length (by omega)
  obtain ⟨front, hfront, hshorter⟩ := exists_lineEnd (bytes.drop n)
  rw [List.length_drop (l := bytes)] at hshorter
  rw [hdrop]
  refine ⟨by omega, bytes.take n ++ front, ?_⟩
  rw [List.append_assoc, ← hfront, ← List.append_assoc, List.take_append_drop]

theorem exists_trim (text : String) : ∃ kept,
    trim (bytesOf (text ++ "\n")) = bytesOf kept ∧ CleanTail (text ++ "\n") kept := by
  have hbytes : bytesOf text ++ [newline] = bytesOf (text ++ "\n") := by
    rw [bytesOf_append, bytesOf_newline]
  have hcases := trim_cases (bytesOf text)
  rw [hbytes] at hcases
  rcases hcases with ⟨hshort, hsame⟩ | ⟨hlong, hshort, front, hcut⟩
  case inl =>
    rw [length_bytesOf] at hshort
    exact ⟨text ++ "\n", hsame, hshort, .inl rfl, fun _ => rfl⟩
  case inr =>
    obtain ⟨dropped, kept, heq, hkept⟩ := exists_newline hcut
    rw [length_bytesOf] at hlong
    rw [← hkept, length_bytesOf] at hshort
    exact ⟨kept, hkept.symm, hshort, .inr ⟨dropped, heq⟩, fun hsize => absurd hsize hlong.not_ge⟩

/-- What is kept of a clean tail with more text behind it is a clean tail of the whole. -/
theorem CleanTail.extend {more kept' : String} (h : CleanTail text kept)
    (h' : CleanTail (kept ++ more) kept') : CleanTail (text ++ more) kept' where
  short := h'.short
  cut := by
    rcases h.cut with rfl | ⟨dropped, rfl⟩
    case inl => exact h'.cut
    rcases h'.cut with rfl | ⟨dropped', hcut⟩
    · exact .inr ⟨dropped, String.append_assoc ..⟩
    · exact .inr ⟨dropped ++ "\n" ++ dropped', by simp only [String.append_assoc, hcut]⟩
  whole hsize := by
    have htext : text.utf8ByteSize ≤ capacity := by
      rw [String.utf8ByteSize_append] at hsize
      omega
    obtain rfl := h.whole htext
    exact h'.whole hsize

theorem CleanTail.record (h : CleanTail text kept) (hl : l.history = bytesOf kept)
    (line : String) : ∃ kept', (l.record line).history = bytesOf kept' ∧
      CleanTail (text ++ (line ++ "\n")) kept' := by
  have hbytes : (l.record line).history = trim (bytesOf (kept ++ line ++ "\n")) := by
    rw [Log.record, hl, bytesOf_append, bytesOf_append, bytesOf_newline]
  obtain ⟨kept', htrim, hclean⟩ := exists_trim (kept ++ line)
  rw [String.append_assoc] at hclean
  exact ⟨kept', hbytes.trans htrim, h.extend hclean⟩

theorem transcript_append (lines lines' : List String) :
    transcript (lines ++ lines') = transcript lines ++ transcript lines' := by
  simp [transcript]

theorem CleanTail.perform (h : CleanTail text kept) (hl : l.history = bytesOf kept)
    (op : Operation) : ∃ kept', (l.perform op).2.history = bytesOf kept' ∧
      CleanTail (text ++ transcript (l.perform op).1.toList) kept' := by
  cases op with
  | write level subsystem message =>
    by_cases hlow : level.rank < l.level.rank
    · exact ⟨kept, by simp [Log.perform, Log.write, hlow, hl],
        by simpa [Log.perform, Log.write, hlow, transcript] using h⟩
    · obtain ⟨kept', hkept', hclean⟩ := h.record hl (Log.line level subsystem message)
      exact ⟨kept', by simpa [Log.perform, Log.write, hlow] using hkept',
        by simpa [Log.perform, Log.write, hlow, transcript] using hclean⟩
  | setLevel level => exact ⟨kept, hl, by simpa [Log.perform, transcript] using h⟩

theorem CleanTail.run (h : CleanTail text kept) (hl : l.history = bytesOf kept)
    (ops : List Operation) : ∃ kept', (l.run ops).2.history = bytesOf kept' ∧
      CleanTail (text ++ transcript (l.run ops).1) kept' := by
  induction ops generalizing l text kept with
  | nil => exact ⟨kept, hl, by simpa [Log.run, transcript] using h⟩
  | cons op ops ih =>
    obtain ⟨kept', hkept', hclean⟩ := h.perform hl op
    obtain ⟨kept'', hkept'', hclean'⟩ := ih hclean hkept'
    refine ⟨kept'', hkept'', ?_⟩
    rwa [Log.run, transcript_append, ← String.append_assoc]

/-- After every run of a new log, its history is text, and a clean tail of what was put out. -/
theorem history_of_run (level : LogLevel) (ops : List Operation) :
    ∃ kept, (run { level } ops).2.contents = some kept ∧
      CleanTail (transcript (run { level } ops).1) kept := by
  have hnew : CleanTail "" "" := ⟨by decide, .inl rfl, fun _ => rfl⟩
  obtain ⟨kept, hkept, hclean⟩ := hnew.run (l := { level }) rfl ops
  exact ⟨kept, contents_eq hkept, by rwa [String.empty_append] at hclean⟩

end KernelCore.Log
