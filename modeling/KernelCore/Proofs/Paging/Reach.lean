import Mathlib
import KernelCore.Proofs.Paging.Memory

/-!
# Reached tables

The tables that walks from a root come through, each with the levels that are still below it. Two
walks that select the same entries above a level reach the same table there, and a translation
depends on nothing but the entries that its walk reads.
-/
namespace KernelCore

/-- The entry that a walk selects at the level of each shift. -/
abbrev Path := Nat → Fin 512

def pathOf (va : Nat) : Path := fun shift => tableIndex shift va

/-- Whether a translation goes on to the table behind an entry. -/
def Entry.leads (shift : Nat) (e : Entry) : Bool := e.present && !(e.huge && shift != 39)

/-- Two paths select the same entries above the levels of the given shifts. -/
def AgreeAbove (rest : List Nat) (p q : Path) : Prop :=
  ∀ shift ∈ linkShifts, shift ∉ rest → p shift = q shift

theorem AgreeAbove.symm {rest : List Nat} {p q : Path} (h : AgreeAbove rest p q) :
    AgreeAbove rest q p :=
  fun s hs hn => (h s hs hn).symm

theorem AgreeAbove.trans {rest : List Nat} {p q r : Path} (h : AgreeAbove rest p q)
    (h' : AgreeAbove rest q r) : AgreeAbove rest p r :=
  fun s hs hn => (h s hs hn).trans (h' s hs hn)

namespace Platform

/-- The walk along a path comes to a table when the levels of the given shifts are left. -/
inductive Reaches (m : Platform) (root : Nat) (p : Path) : List Nat → Nat → Prop
  | root : Reaches m root p linkShifts root
  | link {shift : Nat} {rest : List Nat} {table : Nat} {t : Table}
      (above : Reaches m root p (shift :: rest) table) (read : m.readTable table = .ok t)
      (leads : (t.get (p shift)).leads shift = true) :
      Reaches m root p rest (t.get (p shift)).address

variable {m m' : Platform} {root table table' : Nat} {p q : Path} {shift va : Nat}
  {rest rest' : List Nat} {t : Table}

theorem Reaches.suffix (h : Reaches m root p rest table) : rest <:+ linkShifts := by
  induction h with
  | root => exact List.suffix_rfl
  | link _ _ _ ih => exact (List.suffix_cons _ _).trans ih

theorem not_mem_of_suffix (h : shift :: rest <:+ linkShifts) : shift ∉ rest := by
  have hd : (shift :: rest).Nodup := h.sublist.nodup (by decide)
  exact (List.nodup_cons.mp hd).1

theorem suffix_eq_of_length (h : rest <:+ linkShifts) (h' : rest' <:+ linkShifts)
    (hl : rest.length = rest'.length) : rest = rest' :=
  (List.suffix_of_suffix_length_le h h' hl.le).eq_of_length hl

theorem Reaches.ne_linkShifts (h : Reaches m root p (shift :: rest) table) :
    rest ≠ linkShifts := by
  rintro rfl
  have := h.suffix.length_le
  simp at this

theorem Reaches.unique (h : Reaches m root p rest table) (h' : Reaches m root p rest table') :
    table = table' := by
  induction h generalizing table' with
  | root =>
    generalize hr : linkShifts = rest at h'
    cases h' with
    | root => rfl
    | link above _ _ => exact absurd hr.symm above.ne_linkShifts
  | link above read _ ih =>
    cases h' with
    | root => exact absurd rfl above.ne_linkShifts
    | link above' read' _ =>
      have hs := suffix_eq_of_length above.suffix above'.suffix (by simp)
      obtain ⟨rfl, -⟩ := List.cons.inj hs
      cases ih above'
      cases read.symm.trans read'
      rfl

theorem agreeAbove_tail (hs : shift :: rest <:+ linkShifts) :
    AgreeAbove rest p q ↔ AgreeAbove (shift :: rest) p q ∧ p shift = q shift := by
  constructor
  · intro h
    refine ⟨fun s hm hn => h s hm fun hc => hn (List.mem_cons_of_mem _ hc), ?_⟩
    exact h shift (hs.subset (List.mem_cons_self ..)) (not_mem_of_suffix hs)
  · rintro ⟨h, he⟩ s hm hn
    by_cases hc : s = shift
    · rw [hc, he]
    · exact h s hm fun hh => (List.mem_cons.mp hh).elim hc hn

theorem Reaches.agree (h : Reaches m root p rest table) (ha : AgreeAbove rest p q) :
    Reaches m root q rest table := by
  induction h with
  | root => exact .root
  | link above read leads ih =>
    obtain ⟨hab, he⟩ := (agreeAbove_tail above.suffix).mp ha
    rw [he] at leads ⊢
    exact .link (ih hab) read leads

theorem reaches_congr
    (same : ∀ {shift rest table}, Reaches m root p (shift :: rest) table →
      m'.readTable table = m.readTable table) :
    Reaches m' root p rest table ↔ Reaches m root p rest table := by
  constructor
  · intro h
    induction h with
    | root => exact .root
    | link above read leads ih => exact .link ih ((same ih).symm.trans read) leads
  · intro h
    induction h with
    | root => exact .root
    | link above read leads ih => exact .link ih ((same above).trans read) leads

theorem Reaches.through {window : Nat} (hw : m.Within window) (h : Reaches m root p rest table) :
    Reaches (m.through window) root p rest table := by
  induction h with
  | root => exact .root
  | link _ read leads ih => exact .link ih (readTable_through hw read) leads

theorem reaches_of_empty (read : m.readTable root = .ok .empty)
    (h : Reaches m root p rest table) : table = root ∧ rest = linkShifts := by
  induction h with
  | root => exact ⟨rfl, rfl⟩
  | link _ read' leads ih =>
    rw [ih.1, read] at read'
    cases read'
    simp [Entry.leads, Table.get_empty, Entry.present_empty] at leads

/-- A link with the given flags leads the walk along a path to the table that it comes to when the
levels of the given shifts are left. -/
def Link (m : Platform) (root : Nat) (p : Path) (rest : List Nat) (flags : BitVec 64) : Prop :=
  ∃ shift table t, Reaches m root p (shift :: rest) table ∧ m.readTable table = .ok t ∧
    (t.get (p shift)).leads shift = true ∧ (t.get (p shift)).flags = flags

theorem Link.unique {flags flags' : BitVec 64} (h : Link m root p rest flags)
    (h' : Link m root p rest flags') : flags = flags' := by
  obtain ⟨shift, table, t, above, read, -, rfl⟩ := h
  obtain ⟨shift', table', t', above', read', -, rfl⟩ := h'
  obtain ⟨rfl, -⟩ := List.cons.inj (suffix_eq_of_length above.suffix above'.suffix (by simp))
  cases above.unique above'
  cases read.symm.trans read'
  rfl

theorem Reaches.exists_link (h : Reaches m root p rest table) (hr : rest ≠ linkShifts) :
    ∃ flags, Link m root p rest flags := by
  cases h with
  | root => exact absurd rfl hr
  | link above read leads => exact ⟨_, _, _, _, above, read, leads, rfl⟩

theorem Link.exists_reaches {flags : BitVec 64} (h : Link m root p rest flags) :
    ∃ table, Reaches m root p rest table := by
  obtain ⟨shift, table, t, above, read, leads, -⟩ := h
  exact ⟨_, .link above read leads⟩

theorem Link.length_lt {flags : BitVec 64} (h : Link m root p rest flags) :
    rest.length < linkShifts.length := by
  obtain ⟨shift, table, t, above, -⟩ := h
  exact Nat.lt_of_succ_le above.suffix.length_le

theorem link_congr {flags : BitVec 64}
    (same : ∀ {shift rest table}, Reaches m root p (shift :: rest) table →
      m'.readTable table = m.readTable table) :
    Link m' root p rest flags ↔ Link m root p rest flags := by
  constructor
  · rintro ⟨shift, table, t, above, read, leads, hflags⟩
    have above := (reaches_congr same).mp above
    exact ⟨shift, table, t, above, (same above).symm.trans read, leads, hflags⟩
  · rintro ⟨shift, table, t, above, read, leads, hflags⟩
    exact ⟨shift, table, t, (reaches_congr same).mpr above, (same above).trans read, leads, hflags⟩

/-- Walks reach, down to a level, what they reached before. -/
def KeepsAbove (shifts : List Nat) (root : Nat) (m m' : Platform) : Prop :=
  ∀ {p rest table}, shifts <:+ rest → Reaches m root p rest table → Reaches m' root p rest table

theorem Reaches.address_mod (h : Reaches m root p rest table) (hr : rest ≠ linkShifts) :
    table % pageSize = 0 := by
  cases h with
  | root => exact absurd rfl hr
  | link => exact Entry.address_mod _

theorem Reaches.entry (h : Reaches m root p rest table')
    (above : Reaches m root p (shift :: rest) table) (read : m.readTable table = .ok t) :
    (t.get (p shift)).leads shift = true ∧ (t.get (p shift)).address = table' := by
  cases h with
  | root => exact absurd rfl above.ne_linkShifts
  | link above' read' leads =>
    obtain ⟨rfl, -⟩ := List.cons.inj (suffix_eq_of_length above.suffix above'.suffix (by simp))
    cases above.unique above'
    cases read.symm.trans read'
    exact ⟨leads, rfl⟩

/-- The shift of the level at which a table is read. -/
def levelShift (rest : List Nat) : Nat := rest.headD pageShift

/-- A translation goes on in the same way from two tables if it reads the same entry in both and
goes on in the same way from the table behind that. -/
theorem translateFrom_of_entry {shifts : List Nat} {a a' : Nat}
    (same : (m'.readTable a').map (·.get (pathOf va (levelShift shifts))) =
      (m.readTable a).map (·.get (pathOf va (levelShift shifts))))
    (below : ∀ {shift rest t}, shifts = shift :: rest → m.readTable a = .ok t →
      (t.get (pathOf va shift)).leads shift = true →
      m'.translateFrom va rest (t.get (pathOf va shift)).address =
        m.translateFrom va rest (t.get (pathOf va shift)).address) :
    m'.translateFrom va shifts a' = m.translateFrom va shifts a := by
  cases hr : m.readTable a with
  | error e =>
    cases hr' : m'.readTable a' with
    | error e' => cases shifts <;> simp only [translateFrom, hr, hr']
    | ok t' => simp [hr, hr', Except.map] at same
  | ok t =>
    cases hr' : m'.readTable a' with
    | error e' => simp [hr, hr', Except.map] at same
    | ok t' =>
      simp only [hr, hr', Except.map, Except.ok.injEq] at same
      cases shifts with
      | nil =>
        simp only [levelShift, List.headD_nil, pathOf] at same
        simp only [translateFrom, hr, hr', same]
      | cons shift rest =>
        simp only [levelShift, List.headD_cons, pathOf] at same
        simp only [translateFrom, hr, hr', same]
        split
        · rfl
        · split
          · rfl
          · next hp hh =>
            refine below rfl hr ?_
            simp only [Bool.not_eq_true', Bool.not_eq_false] at hp
            simp only [Bool.not_eq_true] at hh
            simp [Entry.leads, pathOf, hp, hh]

theorem translate_of_reaches (h : Reaches m root (pathOf va) rest table) :
    m.translate root va = m.translateFrom va rest table := by
  induction h with
  | root => rfl
  | @link shift rest table t above read leads ih =>
    rw [ih]
    simp only [Entry.leads, Bool.and_eq_true, Bool.not_eq_true', pathOf] at leads
    simp only [translateFrom, read, leads.1, leads.2, pathOf, Bool.not_true, Bool.false_eq_true,
      if_false]

theorem translateFrom_congr {start : Nat} {shifts : List Nat}
    (h : Reaches m root (pathOf va) shifts start)
    (same : ∀ {rest table}, Reaches m root (pathOf va) rest table → rest <:+ shifts →
      (m'.readTable table).map (·.get (pathOf va (levelShift rest))) =
        (m.readTable table).map (·.get (pathOf va (levelShift rest)))) :
    m'.translateFrom va shifts start = m.translateFrom va shifts start := by
  induction shifts generalizing start with
  | nil => exact translateFrom_of_entry (same h List.suffix_rfl) (fun hc => by cases hc)
  | cons shift rest ih =>
    refine translateFrom_of_entry (same h List.suffix_rfl) ?_
    intro shift' rest' t hc read leads
    obtain ⟨rfl, rfl⟩ := List.cons.inj hc
    exact ih (.link h read leads) fun hr hs => same hr (hs.trans (List.suffix_cons _ _))

theorem translate_congr
    (same : ∀ {rest table}, Reaches m root (pathOf va) rest table →
      m'.readTable table = m.readTable table) :
    m'.translate root va = m.translate root va :=
  translateFrom_congr .root fun hr _ => by rw [same hr]

theorem reaches_emit {e : Event} :
    (m.emit e).Reaches root p rest table ↔ m.Reaches root p rest table :=
  reaches_congr fun _ => rfl

theorem link_emit {e : Event} {flags : BitVec 64} :
    (m.emit e).Link root p rest flags ↔ m.Link root p rest flags :=
  link_congr fun _ => rfl

theorem translate_emit (m : Platform) (e : Event) (root va : Nat) :
    (m.emit e).translate root va = m.translate root va :=
  translate_congr fun _ => rfl

end Platform

end KernelCore
