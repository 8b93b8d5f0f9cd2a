import Mathlib
import KernelCore.Proofs.Log.History

/-!
# The most recent lines

A history that grows too long loses bytes at its front, and then the rest of the line in which the
cut falls. Lines that leave a byte of the history unused are never touched by that. Lines that use
all of it are, if the cut falls right in front of them: then the first of them is taken for the
rest of a line.
-/
namespace KernelCore.Log

/-- A text ends in lines, and if there is more text it ends in a newline. -/
def Shows (text : String) (lines : List String) : Prop :=
  text = transcript lines ∨ ∃ older, text = older ++ "\n" ++ transcript lines

/-- A history ends in some bytes, and what is in front of them ends in a newline. -/
def LineTail (rest history : List UInt8) : Prop :=
  history = rest ∨ ∃ older, history = older ++ newline :: rest

/-- A log after it took lines. -/
def recordAll (l : Log) (lines : List String) : Log := lines.foldl record l

variable {l l' : Log} {level : LogLevel} {text line : String} {lines : List String} {k : Nat}
variable {rest history more : List UInt8}

theorem shows_iff : Shows text lines ↔ LineTail (bytesOf (transcript lines)) (bytesOf text) := by
  constructor
  · rintro (rfl | ⟨older, rfl⟩)
    · exact .inl rfl
    · refine .inr ⟨bytesOf older, ?_⟩
      rw [bytesOf_append, bytesOf_append, bytesOf_newline, List.append_assoc]
      rfl
  · rintro (hsame | ⟨older, holder⟩)
    · exact .inl (bytesOf_inj hsame)
    · obtain ⟨older, kept, rfl, hkept⟩ := exists_newline holder
      exact .inr ⟨older, by rw [bytesOf_inj hkept]⟩

theorem contents_eq_some : l.contents = some text ↔ l.history = bytesOf text := by
  refine ⟨fun htext => ?_, contents_eq⟩
  rw [contents, String.fromUTF8?] at htext
  split at htext
  · cases htext
    rfl
  · cases htext

theorem utf8ByteSize_replicate (n : Nat) :
    (String.ofList (List.replicate n 'x')).utf8ByteSize = n := by
  rw [String.utf8ByteSize_ofList]
  induction n with
  | zero => rfl
  | succ n ih =>
    rw [List.replicate_succ, String.utf8Len_cons, ih]
    rfl

theorem utf8ByteSize_transcript (line : String) :
    (transcript [line]).utf8ByteSize = line.utf8ByteSize + 1 := by
  have hline : transcript [line] = line ++ "\n" := by simp [transcript]
  rw [hline, String.utf8ByteSize_append]
  rfl

theorem utf8ByteSize_line (level : LogLevel) (subsystem message : String) :
    (Log.line level subsystem message).utf8ByteSize =
      level.tag.utf8ByteSize + subsystem.utf8ByteSize + message.utf8ByteSize + 4 := by
  have hopen : " [".utf8ByteSize = 2 := rfl
  have hclose : "] ".utf8ByteSize = 2 := rfl
  simp only [Log.line, String.utf8ByteSize_append, hopen, hclose]
  omega

/-! ### Cutting a history -/

theorem LineTail.length_le (h : LineTail rest history) : rest.length ≤ history.length := by
  obtain rfl | ⟨older, rfl⟩ := h
  · exact le_rfl
  · simp only [List.length_append, List.length_cons]
    omega

theorem LineTail.append (h : LineTail rest history) (more : List UInt8) :
    LineTail (rest ++ more) (history ++ more) := by
  obtain rfl | ⟨older, rfl⟩ := h
  · exact .inl rfl
  · exact .inr ⟨older, by simp only [List.append_assoc, List.cons_append]⟩

theorem lineTail_dropLine (front rest : List UInt8) :
    LineTail rest (((front ++ newline :: rest).dropWhile (· != newline)).drop 1) := by
  induction front with
  | nil => exact .inl (by simp)
  | cons byte front ih =>
    by_cases hbyte : byte = newline
    · exact .inr ⟨front, by simp [hbyte]⟩
    · rwa [List.cons_append, List.dropWhile_cons_of_pos (by simpa using hbyte)]

/-- A cut spares bytes that leave one byte of the history unused: it falls in front of the newline
before them. -/
theorem LineTail.trim (h : LineTail rest history) (hfits : rest.length < capacity) :
    LineTail rest (Log.trim history) := by
  rw [Log.trim]
  split_ifs with hshort
  · exact h
  obtain rfl | ⟨older, rfl⟩ := h
  · exact absurd hfits.le hshort
  have hdrop : (older ++ newline :: rest).length - capacity ≤ older.length := by
    rw [List.length_append, List.length_cons]
    omega
  rw [List.drop_append_of_le_length hdrop]
  exact lineTail_dropLine _ rest

theorem length_trim_lt (hlong : capacity < history.length) : (trim history).length < capacity := by
  have hpos : 0 < capacity := by decide
  have hline := (List.dropWhile_sublist (l := history.drop (history.length - capacity))
    (· != newline)).length_le
  rw [List.length_drop] at hline
  rw [trim, if_neg hlong.not_ge, List.length_drop]
  omega

theorem lineTail_trim_full (hfull : (rest ++ more).length = capacity) :
    LineTail (rest ++ more) (trim (history ++ more)) ↔ history = rest := by
  constructor
  · intro htail
    have hle := htail.length_le
    have hshort : (history ++ more).length ≤ capacity := by
      by_contra hlong
      have hlt := length_trim_lt (Nat.lt_of_not_le hlong)
      omega
    rw [trim, if_pos hshort] at htail
    obtain hsame | ⟨older, holder⟩ := htail
    · exact List.append_cancel_right hsame
    · have hlength := congrArg List.length holder
      simp only [List.length_append, List.length_cons] at hlength hfull hshort
      omega
  · rintro rfl
    rw [trim, if_pos hfull.le]
    exact .inl rfl

/-! ### Lines in their order -/

theorem history_record (l : Log) (line : String) :
    (l.record line).history = trim (l.history ++ bytesOf (line ++ "\n")) := by
  rw [record, bytesOf_append, bytesOf_newline, List.append_assoc]

theorem bytesOf_transcript (lines : List String) (line : String) :
    bytesOf (transcript (lines ++ [line])) =
      bytesOf (transcript lines) ++ bytesOf (line ++ "\n") := by
  rw [transcript_append, bytesOf_append]
  simp [transcript]

theorem history_recordAll (l : Log) (lines : List String) (line : String) :
    (l.recordAll (lines ++ [line])).history =
      trim ((l.recordAll lines).history ++ bytesOf (line ++ "\n")) := by
  rw [recordAll, List.foldl_append]
  exact history_record _ line

theorem recordAll_congr (hhistory : l'.history = l.history) (lines : List String) :
    (l'.recordAll lines).history = (l.recordAll lines).history := by
  induction lines using List.reverseRecOn with
  | nil => exact hhistory
  | append_singleton lines line ih => rw [history_recordAll, history_recordAll, ih]

theorem history_perform (l : Log) (op : Operation) :
    (l.perform op).2.history = (l.recordAll (l.perform op).1.toList).history := by
  cases op with
  | write level subsystem message =>
    rw [perform, write]
    split_ifs <;> rfl
  | setLevel level => rfl

/-- The levels decide which lines are put out; the history depends on those lines only. -/
theorem history_run (l : Log) (ops : List Operation) :
    (l.run ops).2.history = (l.recordAll (l.run ops).1).history := by
  induction ops generalizing l with
  | nil => rfl
  | cons op ops ih =>
    calc (l.run (op :: ops)).2.history
        = ((l.perform op).2.recordAll ((l.perform op).2.run ops).1).history := ih _
      _ = ((l.recordAll (l.perform op).1.toList).recordAll ((l.perform op).2.run ops).1).history :=
          recordAll_congr (l.history_perform op) _
      _ = (l.recordAll (l.run (op :: ops)).1).history := by
          rw [recordAll, recordAll, ← List.foldl_append]
          rfl

theorem lineTail_recordAll
    (hfits : (bytesOf (transcript (lines.rtake k))).length < capacity) :
    LineTail (bytesOf (transcript (lines.rtake k))) (recordAll { level } lines).history := by
  induction lines using List.reverseRecOn generalizing k with
  | nil =>
    rw [List.rtake_nil]
    exact .inl rfl
  | append_singleton lines line ih =>
    rw [history_recordAll]
    cases k with
    | zero =>
      have hline : LineTail [] ((recordAll { level } lines).history ++ bytesOf (line ++ "\n")) := by
        refine .inr ⟨(recordAll { level } lines).history ++ bytesOf line, ?_⟩
        rw [bytesOf_append, bytesOf_newline, List.append_assoc]
      rw [List.rtake_zero]
      exact hline.trim (by decide)
    | succ k =>
      rw [List.rtake_concat_succ, bytesOf_transcript] at hfits ⊢
      have hrest := hfits
      rw [List.length_append] at hrest
      exact ((ih (by omega)).append _).trim hfits

/-- Lines that use all of the history are in it exactly if the log held the ones before the last,
and nothing else, when the last one came. -/
theorem lineTail_recordAll_full
    (hfull : (bytesOf (transcript (lines.rtake k))).length = capacity) :
    LineTail (bytesOf (transcript (lines.rtake k))) (recordAll { level } lines).history ↔
      (recordAll { level } lines.dropLast).history =
        bytesOf (transcript (lines.rtake k).dropLast) := by
  obtain rfl | ⟨earlier, last, rfl⟩ := lines.eq_nil_or_concat
  · rw [List.rtake_nil] at hfull
    cases hfull
  rw [List.concat_eq_append] at hfull ⊢
  cases k with
  | zero =>
    rw [List.rtake_zero] at hfull
    cases hfull
  | succ k =>
    rw [List.rtake_concat_succ, bytesOf_transcript] at hfull ⊢
    rw [history_recordAll, List.dropLast_concat, List.dropLast_concat]
    exact lineTail_trim_full hfull

/-- After every run of a new log, the contents end in the `k` most recent lines if these leave a
byte of the history unused. If they use all of it, they are there exactly if nothing but the lines
before the last was held when the last one came. -/
theorem recent_of_run (level : LogLevel) (ops : List Operation) :
    ∃ lines kept, (run { level } ops).1 = lines ∧ (run { level } ops).2.contents = some kept ∧
      ∀ k, Shows kept (lines.rtake k) ↔
        (transcript (lines.rtake k)).utf8ByteSize < capacity ∨
          (transcript (lines.rtake k)).utf8ByteSize = capacity ∧
            (recordAll { level } lines.dropLast).contents =
              some (transcript (lines.rtake k).dropLast) := by
  have hnew : CleanTail "" "" := ⟨by decide, .inl rfl, fun _ => rfl⟩
  obtain ⟨kept, hkept, hclean⟩ := hnew.run (l := { level }) rfl ops
  have hheld := hkept.symm.trans (history_run { level } ops)
  refine ⟨_, kept, rfl, contents_eq hkept, fun k => ?_⟩
  rw [shows_iff, contents_eq_some, ← length_bytesOf]
  rcases lt_trichotomy (bytesOf (transcript ((run { level } ops).1.rtake k))).length capacity with
    hfits | hfull | hlong
  · rw [hheld]
    exact iff_of_true (lineTail_recordAll hfits) (.inl hfits)
  · rw [hheld, lineTail_recordAll_full hfull]
    simp [hfull]
  · refine iff_of_false (fun htail => ?_) (by omega)
    have hle := htail.length_le
    rw [length_bytesOf kept] at hle
    have hshort := hclean.short
    omega

/-- A line that uses all of the history is lost, because there was another one before it. -/
theorem lost_behind_another_line : ∃ lines kept,
    (run { level := .info } [.write .info "a" "x",
      .write .info "a" (String.ofList (List.replicate 4083 'x'))]).1 = lines ∧
    (run { level := .info } [.write .info "a" "x",
      .write .info "a" (String.ofList (List.replicate 4083 'x'))]).2.contents = some kept ∧
    (∀ line ∈ lines, '\n' ∉ line.toList) ∧
    (transcript (lines.rtake 1)).utf8ByteSize = capacity ∧ ¬ Shows kept (lines.rtake 1) := by
  have hsize := utf8ByteSize_replicate 4083
  have hclean : '\n' ∉ (String.ofList (List.replicate 4083 'x')).toList := by
    rw [String.toList_ofList, List.mem_replicate]
    exact fun hmem => absurd hmem.2 (by decide)
  generalize String.ofList (List.replicate 4083 'x') = message at hsize hclean ⊢
  have hnew : CleanTail "" "" := ⟨by decide, .inl rfl, fun _ => rfl⟩
  obtain ⟨kept, hkept, -⟩ := hnew.run (l := { level := .info }) rfl
    [.write .info "a" "x", .write .info "a" message]
  have hfull : (transcript ([Log.line .info "a" "x", Log.line .info "a" message].rtake
      1)).utf8ByteSize = capacity := by
    show (transcript [Log.line .info "a" message]).utf8ByteSize = capacity
    rw [utf8ByteSize_transcript, utf8ByteSize_line, hsize]
    rfl
  have hline : '\n' ∉ (Log.line .info "a" message).toList := by
    rw [Log.line, String.toList_append, List.mem_append]
    exact not_or.mpr ⟨by decide, hclean⟩
  refine ⟨[Log.line .info "a" "x", Log.line .info "a" message], kept, rfl, contents_eq hkept, ?_,
    hfull, ?_⟩
  · rw [List.forall_mem_cons, List.forall_mem_singleton]
    exact ⟨by decide, hline⟩
  · rw [← length_bytesOf] at hfull
    have hheld : (recordAll { level := .info } [Log.line .info "a" "x"]).history ≠ [] := by decide
    rw [shows_iff, ← hkept, history_run]
    exact (lineTail_recordAll_full hfull).not.mpr hheld

end KernelCore.Log
