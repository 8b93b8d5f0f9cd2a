import KernelCore.Proofs.Json.Text
import Mathlib.Data.List.Nodup

/-!
# Reading back a written record

The configuration, a process listing and the memory statistics are read from their own JSON form
as they were, as long as their numbers are of the machine's sizes.
-/
namespace KernelCore

open JsonValue

namespace JsonValue

section Fields

variable {names : List String} {values : List JsonValue}

theorem mapM_named (names : List String) (values : List JsonValue) :
    ((names.map some).zip values).mapM (fun member => member.1.map (·, member.2)) =
      some (names.zip values) := by
  induction names generalizing values with
  | nil => rfl
  | cons name names ih =>
    cases values with
    | nil => rfl
    | cons value values => simp [ih]

theorem length_filter_name (hnames : names.Nodup) (hlength : names.length = values.length)
    (name : String) : ((names.zip values).filter (·.1 == name)).length ≤ 1 := by
  calc ((names.zip values).filter (·.1 == name)).length
      = ((names.zip values).map (·.1)).count name := by
        rw [List.count, List.countP_map, List.countP_eq_length_filter]
        rfl
    _ = names.count name := by rw [List.map_fst_zip (Nat.le_of_eq hlength)]
    _ ≤ 1 := List.nodup_iff_count_le_one.1 hnames name

theorem lookup_zip (hnames : names.Nodup) {name : String} {value : JsonValue}
    (hmem : (name, value) ∈ names.zip values) : (names.zip values).lookup name = some value := by
  induction names generalizing values with
  | nil => simp at hmem
  | cons n names ih =>
    obtain _ | ⟨v, values⟩ := values
    · simp at hmem
    · obtain ⟨hn, hnames⟩ := List.nodup_cons.1 hnames
      rw [List.zip_cons_cons, List.lookup_cons]
      rw [List.zip_cons_cons, List.mem_cons] at hmem
      obtain heq | hmem := hmem
      · cases heq
        simp
      · have hne : name ≠ n := ne_of_mem_of_not_mem (List.of_mem_zip hmem).1 hn
        simp [beq_false_of_ne hne, ih hnames hmem]

theorem mapM_of_zip {read : String → Option JsonValue} (hlength : names.length = values.length)
    (hread : ∀ name value, (name, value) ∈ names.zip values → read name = some value) :
    names.mapM read = some values := by
  induction names generalizing values with
  | nil => simp [List.length_eq_zero_iff.1 hlength.symm]
  | cons name names ih =>
    obtain _ | ⟨value, values⟩ := values
    · simp at hlength
    · have hhead := hread name value (by simp)
      have htail := ih (by simpa using hlength) fun n v hmem => hread n v (by simp [hmem])
      simp [hhead, htail]

theorem fields?_zip (hnames : names.Nodup) (hlength : names.length = values.length)
    (optional : List String) :
    (object ((names.map some).zip values)).fields? names optional = some values := by
  have hone : (names.any fun name =>
      decide (1 < ((names.zip values).filter (·.1 == name)).length)) = false := by
    simpa using fun name _ => length_filter_name hnames hlength name
  have hvalues : (names.mapM fun name => ((names.zip values).lookup name).or
      (if optional.contains name then some null else none)) = some values :=
    mapM_of_zip hlength fun name value hmem => by rw [lookup_zip hnames hmem, Option.some_or]
  change Option.bind _ _ = _
  rw [mapM_named, Option.bind_some, hone]
  exact hvalues

/-- An object that is written from the texts of its fields is read as the values of the fields. -/
theorem exists_fields?_objectText {texts : List String} (hnames : names.Nodup) (hne : names ≠ [])
    (hread : List.Forall₂ Reads texts values) (hlength : names.length = texts.length)
    (optional : List String) :
    ∃ v, parse? (objectText (names.zip texts)) = some v ∧
      v.fields? names optional = some values := by
  have hzip : names.zip texts ≠ [] := by
    rw [ne_eq, List.zip_eq_nil_iff]
    rintro (h | rfl)
    · exact hne h
    · exact hne (List.length_eq_zero_iff.1 hlength)
  exact ⟨_, parse?_objectText (forall₂_readsMember hread) hzip,
    fields?_zip hnames (hlength.trans hread.length_eq) optional⟩

end Fields

theorem natBelow?_integer {bound n : Nat} (hn : n < bound) :
    natBelow? bound (integer n) = some n := if_pos hn

theorem word?_integer {n : Nat} (hn : n ≤ Word.maximum) : word? (integer n) = some n :=
  natBelow?_integer (Nat.lt_succ_of_le hn)

theorem mapM_word? {numbers : List Nat} (h : ∀ n ∈ numbers, n ≤ Word.maximum) :
    (numbers.map (integer ∘ Int.ofNat)).mapM word? = some numbers := by
  induction numbers with
  | nil => rfl
  | cons n numbers ih =>
    obtain ⟨hn, hnumbers⟩ := List.forall_mem_cons.1 h
    have hword := word?_integer hn
    simp [hword, ih hnumbers]

theorem orNull?_elim {α : Type} {read : JsonValue → Option α} {value : α → JsonValue}
    {o : Option α} (hnull : ∀ a, value a ≠ null) (hread : ∀ a ∈ o, read (value a) = some a) :
    (o.elim null value).orNull? read = some o := by
  cases o with
  | none => rfl
  | some a =>
    rw [Option.elim_some, orNull?, hread a rfl]
    · rfl
    · exact hnull a

end JsonValue

namespace Config

/-- The sizes are machine words. -/
structure Fits (c : Config) : Prop where
  timeSlice : c.timeSlice ≤ Word.maximum
  identityMapLimit : c.identityMapLimit ≤ Word.maximum

/-- A written configuration is read as itself. -/
theorem ofJson?_jsonText {c : Config} (h : c.Fits) : (parse? c.jsonText).bind ofJson? = some c := by
  have hread : List.Forall₂ Reads
      [toString c.timeSlice, toString c.identityMapLimit, quoted c.logLevel.name,
        toString c.inheritUpperHalf]
      [integer c.timeSlice, integer c.identityMapLimit, string (some c.logLevel.name),
        bool c.inheritUpperHalf] := by
    simp only [List.forall₂_cons, List.Forall₂.nil, reads_nat, reads_quoted, reads_bool, and_self]
  obtain ⟨v, hparse, hfields⟩ :=
    exists_fields?_objectText (show fieldNames.Nodup by decide) (by decide) hread rfl []
  rw [jsonText, hparse, Option.bind_some, ofJson?, hfields]
  simp [word?_integer h.timeSlice, word?_integer h.identityMapLimit, case?, LogLevel.ofName?_name,
    bool?]

end Config

namespace ProcessInfo

/-- The numbers are of the machine's sizes. -/
structure Fits (p : ProcessInfo) : Prop where
  pid : p.pid < 0x100000000
  priority : p.priority < 0x100000000
  timeSlice : p.timeSlice ≤ Word.maximum
  wakeAt : ∀ tick ∈ p.wakeAt, tick ≤ Word.maximum
  exitStatus : ∀ status ∈ p.exitStatus, -0x80000000 ≤ status ∧ status < 0x80000000
  stackTop : p.stackTop ≤ Word.maximum
  root : p.root ≤ Word.maximum

/-- A written listing of a process is read as itself. -/
theorem ofJson?_jsonText {p : ProcessInfo} (h : p.Fits) :
    (parse? p.jsonText).bind ofJson? = some p := by
  have hread : List.Forall₂ Reads
      [toString p.pid, quoted p.name, quoted p.state.name, toString p.priority,
        toString p.timeSlice, orNullText toString p.wakeAt, orNullText toString p.exitStatus,
        toString p.stackTop, toString p.root]
      [integer p.pid, string (some p.name), string (some p.state.name), integer p.priority,
        integer p.timeSlice, p.wakeAt.elim null fun n => integer n, p.exitStatus.elim null integer,
        integer p.stackTop, integer p.root] := by
    have hwake := reads_orNullText reads_nat p.wakeAt
    have hstatus := reads_orNullText reads_int p.exitStatus
    simp only [List.forall₂_cons, List.Forall₂.nil, reads_nat, reads_quoted, hwake, hstatus,
      and_self]
  obtain ⟨v, hparse, hfields⟩ :=
    exists_fields?_objectText (show fieldNames.Nodup by decide) (by decide) hread rfl
      ["wake_at", "exit_status"]
  have hwake : (p.wakeAt.elim null fun n => integer n).orNull? word? = some p.wakeAt :=
    orNull?_elim (fun _ => by simp) fun n hn => word?_integer (h.wakeAt n hn)
  have hstatus : (p.exitStatus.elim null integer).orNull? int32? = some p.exitStatus :=
    orNull?_elim (fun _ => by simp) fun n hn => if_pos (h.exitStatus n hn)
  rw [jsonText, hparse, Option.bind_some, ofJson?, hfields]
  simp [natBelow?_integer h.pid, natBelow?_integer h.priority, word?_integer h.timeSlice, hwake,
    hstatus, word?_integer h.stackTop, word?_integer h.root, string?, case?,
    ProcessState.ofName?_name]

end ProcessInfo

namespace MemoryStats

def numbers (m : MemoryStats) : List Nat :=
  [m.totalFrames, m.freeFrames, m.physicalFreeBytes, m.physicalUsedBytes, m.heapFreeBytes,
    m.heapUsedBytes, m.heapLargestFree]

/-- Written statistics are read as themselves. -/
theorem ofJson?_jsonText {m : MemoryStats} (h : ∀ n ∈ m.numbers, n ≤ Word.maximum) :
    (parse? m.jsonText).bind ofJson? = some m := by
  have hread : List.Forall₂ Reads (m.numbers.map toString)
      (m.numbers.map (integer ∘ Int.ofNat)) := by
    rw [List.forall₂_map_left_iff, List.forall₂_map_right_iff]
    exact List.forall₂_same.2 fun n _ => reads_nat n
  obtain ⟨v, hparse, hfields⟩ :=
    exists_fields?_objectText (show fieldNames.Nodup by decide) (by decide) hread rfl []
  change (parse? (objectText (fieldNames.zip (m.numbers.map toString)))).bind ofJson? = some m
  rw [hparse, Option.bind_some, ofJson?, hfields, Option.bind_eq_bind, Option.bind_some,
    mapM_word? h]
  rfl

end MemoryStats

end KernelCore
