import Mathlib
import KernelCore.Proofs.Paging.Reach

/-!
# Grafted tables

A new table is grafted into the tables below a root: a fresh frame gets its content, and an entry
of a table that is reached at one place only then leads to it. The new table is empty where the
entry led nowhere, and a copy where the entry led to a table. Neither changes a translation, and
every link keeps its flags.
-/
namespace KernelCore.Platform

/-- The fresh `frame` can be grafted with its content behind the entry that the path `p` selects
in `table`. -/
structure Graft (m : Platform) (root : Nat) (p : Path) (shift : Nat) (rest : List Nat)
    (table : Nat) (t : Table) (frame : Nat) (content : Table) (e : Entry) : Prop where
  parent : Reaches m root p (shift :: rest) table
  read : m.readTable table = .ok t
  once : ∀ {q rest'}, Reaches m root q rest' table →
    rest' = shift :: rest ∧ AgreeAbove (shift :: rest) p q
  writable : ∃ f, m.readTable frame = .ok f
  fresh : ∀ {q rest'}, ¬ Reaches m root q rest' frame
  leads : e.leads shift = true
  address : e.address = frame
  content : (t.get (p shift)).present = false ∧ content = .empty ∨
    (t.get (p shift)).leads shift = true ∧
      m.readTable (t.get (p shift)).address = .ok content ∧
      e.flags = (t.get (p shift)).flags

/-- The machine after the graft. -/
def graft (m : Platform) (table : Nat) (i : Fin 512) (frame : Nat) (content : Table)
    (e : Entry) : Platform :=
  (m.writeTable frame content).setEntry table i e

theorem sameMachine_graft (m : Platform) (table : Nat) (i : Fin 512) (frame : Nat)
    (content : Table) (e : Entry) : SameMachine m (m.graft table i frame content e) :=
  (sameMachine_writeTable m frame content).trans (sameMachine_setEntry _ table i e)

theorem readTable_graft {m : Platform} {table frame : Nat} {t f : Table}
    (read : m.readTable table = .ok t) (hf : m.readTable frame = .ok f) (hne : table ≠ frame)
    (i : Fin 512) (content : Table) (e : Entry) (b : Nat) :
    (m.graft table i frame content e).readTable b =
      if b = table then .ok (t.set i e i.isLt)
      else if b = frame then .ok content else m.readTable b := by
  have hw := readTable_writeTable hf content
  have ht : (m.writeTable frame content).readTable table = .ok t := by rw [hw, if_neg hne, read]
  rw [graft, readTable_setEntry ht, hw]

namespace Graft

variable {m : Platform} {root shift table frame : Nat} {p q : Path} {rest rest' : List Nat}
  {t content : Table} {e : Entry} {x va : Nat}

theorem frame_ne (g : Graft m root p shift rest table t frame content e) : table ≠ frame := by
  rintro rfl
  exact g.fresh g.parent

theorem readTable (g : Graft m root p shift rest table t frame content e) (b : Nat) :
    (m.graft table (p shift) frame content e).readTable b =
      if b = table then .ok (t.set (p shift) e)
      else if b = frame then .ok content else m.readTable b := by
  obtain ⟨f, hf⟩ := g.writable
  exact readTable_graft g.read hf g.frame_ne (p shift) content e b

theorem readTable_parent (g : Graft m root p shift rest table t frame content e) :
    (m.graft table (p shift) frame content e).readTable table = .ok (t.set (p shift) e) := by
  rw [g.readTable, if_pos rfl]

theorem readTable_frame (g : Graft m root p shift rest table t frame content e) :
    (m.graft table (p shift) frame content e).readTable frame = .ok content := by
  rw [g.readTable, if_neg g.frame_ne.symm, if_pos rfl]

theorem readTable_other (g : Graft m root p shift rest table t frame content e)
    (hx : Reaches m root q rest' x) (hne : rest' ≠ shift :: rest) :
    (m.graft table (p shift) frame content e).readTable x = m.readTable x := by
  have ht : x ≠ table := by
    rintro rfl
    exact hne (g.once hx).1
  have hf : x ≠ frame := by
    rintro rfl
    exact g.fresh hx
  rw [g.readTable, if_neg ht, if_neg hf]

/-- After the graft a walk reaches the new table in its one place, and otherwise only what it
reached before. -/
theorem reaches_of (g : Graft m root p shift rest table t frame content e)
    (h : Reaches (m.graft table (p shift) frame content e) root q rest' x) :
    x = frame ∧ rest' = rest ∧ AgreeAbove rest p q ∨ Reaches m root q rest' x := by
  induction h with
  | root => exact .inr .root
  | @link shift' rest' parent t' above read leads ih =>
    rcases ih with ⟨rfl, hrest, ha⟩ | hold
    · -- the walk came through the new table, so it went through the old entry before
      rw [g.readTable_frame] at read
      cases read
      rcases g.content with ⟨-, rfl⟩ | ⟨hl, hc⟩
      · rw [Table.get_empty] at leads
        simp [Entry.leads, Entry.present_empty] at leads
      · obtain ⟨hc, -⟩ := hc
        have hp := (g.parent.link g.read hl).agree ha
        rw [← hrest] at hp
        exact .inr (hp.link hc leads)
    · by_cases hx : parent = table
      · subst hx
        obtain ⟨hrest, ha⟩ := g.once hold
        obtain ⟨rfl, rfl⟩ := List.cons.inj hrest
        rw [g.readTable_parent] at read
        cases read
        rw [Table.get_set] at leads ⊢
        split at leads
        · next hq =>
          rw [if_pos hq]
          exact .inl ⟨g.address, rfl, (agreeAbove_tail g.parent.suffix).mpr ⟨ha, hq⟩⟩
        · next hq =>
          rw [if_neg hq]
          exact .inr (hold.link g.read leads)
      · have hf : parent ≠ frame := by
          rintro rfl
          exact g.fresh hold
        rw [g.readTable, if_neg hx, if_neg hf] at read
        exact .inr (hold.link read leads)

theorem reaches_above (g : Graft m root p shift rest table t frame content e)
    (h : Reaches m root q rest' x) (hs : shift :: rest <:+ rest') :
    Reaches (m.graft table (p shift) frame content e) root q rest' x := by
  induction h with
  | root => exact .root
  | @link shift' rest' parent t' above read leads ih =>
    have hne : shift' :: rest' ≠ shift :: rest := by
      intro hc
      have := hs.length_le
      simp [← hc] at this
    refine .link (ih (hs.trans (List.suffix_cons _ _))) ?_ leads
    rw [g.readTable_other above hne, read]

theorem reaches_frame (g : Graft m root p shift rest table t frame content e) :
    Reaches (m.graft table (p shift) frame content e) root p rest frame := by
  have hp := g.reaches_above g.parent List.suffix_rfl
  have he : (t.set (p shift) e).get (p shift) = e := by rw [Table.get_set, if_pos rfl]
  have hl := hp.link g.readTable_parent (by rw [he]; exact g.leads)
  rwa [he, g.address] at hl

theorem link_frame (g : Graft m root p shift rest table t frame content e) :
    Link (m.graft table (p shift) frame content e) root p rest e.flags := by
  have he : (t.set (p shift) e).get (p shift) = e := by rw [Table.get_set, if_pos rfl]
  refine ⟨shift, table, _, g.reaches_above g.parent List.suffix_rfl, g.readTable_parent, ?_, ?_⟩
  · rw [he]
    exact g.leads
  · rw [he]

theorem translateFrom_empty {m : Platform} {a : Nat} (h : m.readTable a = .ok .empty)
    (va : Nat) (shifts : List Nat) : m.translateFrom va shifts a = .ok none := by
  cases shifts <;> simp [translateFrom, h, Table.get_empty, Entry.present_empty]

theorem translateFrom_frame (g : Graft m root (pathOf va) shift rest table t frame content e) :
    (m.graft table (pathOf va shift) frame content e).translateFrom va rest frame =
      m.translateFrom va (shift :: rest) table := by
  rcases g.content with ⟨hp, rfl⟩ | ⟨hl, hc, -⟩
  · rw [translateFrom_empty g.readTable_frame]
    simp only [pathOf] at hp
    simp [translateFrom, g.read, hp]
  · have hr := g.parent.link g.read hl
    have hd : m.translateFrom va (shift :: rest) table =
        m.translateFrom va rest (t.get (pathOf va shift)).address := by
      rw [← translate_of_reaches g.parent, translate_of_reaches hr]
    rw [hd]
    refine translateFrom_of_entry (by rw [g.readTable_frame, hc]) ?_
    intro shift' rest' t' hcons read leads
    subst hcons
    refine translateFrom_congr (hr.link read leads) fun {rest'' x} hx hs => ?_
    rw [g.readTable_other hx]
    rintro rfl
    have := hs.length_le
    simp at this

/-- A link stays where it was or in the copy of its table. It keeps its flags, and it leads to the
same table or to the copy of that. -/
theorem exists_link (g : Graft m root p shift rest table t frame content e) {shift' x' : Nat}
    {t' : Table} (above : Reaches m root q (shift' :: rest') x) (read : m.readTable x = .ok t')
    (leads : (t'.get (q shift')).leads shift' = true)
    (hx : x' = x ∨ x' = frame ∧ m.readTable x = .ok content) :
    ∃ t'', (m.graft table (p shift) frame content e).readTable x' = .ok t'' ∧
      (t''.get (q shift')).leads shift' = true ∧
      (t''.get (q shift')).flags = (t'.get (q shift')).flags ∧
      ((t''.get (q shift')).address = (t'.get (q shift')).address ∨
        (t''.get (q shift')).address = frame ∧
          m.readTable (t'.get (q shift')).address = .ok content) := by
  rcases hx with rfl | ⟨rfl, hc⟩
  · by_cases hx : x' = table
    · subst hx
      obtain ⟨hrest, -⟩ := g.once above
      obtain ⟨rfl, rfl⟩ := List.cons.inj hrest
      cases g.read.symm.trans read
      refine ⟨_, g.readTable_parent, ?_⟩
      rw [Table.get_set]
      split
      · next hi =>
        have hcontent := g.content
        rw [hi] at hcontent
        rcases hcontent with ⟨hno, -⟩ | ⟨-, hc, hsame⟩
        · rw [Entry.leads, hno] at leads
          cases leads
        · exact ⟨g.leads, hsame, .inr ⟨g.address, hc⟩⟩
      · exact ⟨leads, rfl, .inl rfl⟩
    · have hf : x' ≠ frame := by
        rintro rfl
        exact g.fresh above
      refine ⟨t', ?_, leads, rfl, .inl rfl⟩
      rw [g.readTable, if_neg hx, if_neg hf, read]
  · cases hc.symm.trans read
    exact ⟨_, g.readTable_frame, leads, rfl, .inl rfl⟩

theorem exists_reaches (g : Graft m root p shift rest table t frame content e)
    (h : Reaches m root q rest' x) :
    ∃ x', Reaches (m.graft table (p shift) frame content e) root q rest' x' ∧
      (x' = x ∨ x' = frame ∧ m.readTable x = .ok content) := by
  induction h with
  | root => exact ⟨_, .root, .inl rfl⟩
  | link above read leads ih =>
    obtain ⟨x', hr, hx⟩ := ih
    obtain ⟨t'', read', leads', -, haddress⟩ := g.exists_link above read leads hx
    exact ⟨_, hr.link read' leads', haddress⟩

theorem link (g : Graft m root p shift rest table t frame content e) {flags : BitVec 64}
    (h : Link m root q rest' flags) :
    Link (m.graft table (p shift) frame content e) root q rest' flags := by
  obtain ⟨shift', x, t', above, read, leads, rfl⟩ := h
  obtain ⟨x', hr, hx⟩ := g.exists_reaches above
  obtain ⟨t'', read', leads', hflags, -⟩ := g.exists_link above read leads hx
  exact ⟨shift', x', t'', hr, read', leads', hflags⟩

theorem link_of (g : Graft m root p shift rest table t frame content e) {flags : BitVec 64}
    (h : Link (m.graft table (p shift) frame content e) root q rest' flags) :
    Link m root q rest' flags ∨
      (t.get (p shift)).present = false ∧ flags = e.flags ∧ rest' = rest ∧
        AgreeAbove rest p q := by
  obtain ⟨shift', x, t', above, read, leads, rfl⟩ := h
  rcases g.reaches_of above with ⟨rfl, hrest, ha⟩ | hold
  · -- the link is one of the copy
    rw [g.readTable_frame] at read
    cases read
    rcases g.content with ⟨-, rfl⟩ | ⟨hl, hc, -⟩
    · rw [Table.get_empty] at leads
      simp [Entry.leads, Entry.present_empty] at leads
    · have hp := (g.parent.link g.read hl).agree ha
      rw [← hrest] at hp
      exact .inl ⟨shift', _, _, hp, hc, leads, rfl⟩
  · by_cases hx : x = table
    · subst hx
      obtain ⟨hrest, ha⟩ := g.once hold
      obtain ⟨rfl, rfl⟩ := List.cons.inj hrest
      rw [g.readTable_parent] at read
      cases read
      rw [Table.get_set] at leads ⊢
      split at leads
      · next hi =>
        rw [if_pos hi]
        rcases g.content with ⟨hno, -⟩ | ⟨hl, -, hsame⟩
        · exact .inr ⟨hno, rfl, rfl, (agreeAbove_tail g.parent.suffix).mpr ⟨ha, hi⟩⟩
        · rw [hi] at hl hsame
          exact .inl ⟨shift', x, t, hold, g.read, hl, hsame.symm⟩
      · next hi =>
        rw [if_neg hi]
        exact .inl ⟨shift', x, t, hold, g.read, leads, rfl⟩
    · have hf : x ≠ frame := by
        rintro rfl
        exact g.fresh hold
      rw [g.readTable, if_neg hx, if_neg hf] at read
      exact .inl ⟨shift', x, t', hold, read, leads, rfl⟩

theorem translate (g : Graft m root p shift rest table t frame content e) (va : Nat) :
    (m.graft table (p shift) frame content e).translate root va = m.translate root va := by
  by_cases ha : AgreeAbove rest p (pathOf va)
  · obtain ⟨hab, hi⟩ := (agreeAbove_tail g.parent.suffix).mp ha
    have gv : Graft m root (pathOf va) shift rest table t frame content e :=
      { g with
        parent := g.parent.agree hab
        once := fun hx => ⟨(g.once hx).1, AgreeAbove.trans (AgreeAbove.symm hab) (g.once hx).2⟩
        content := hi ▸ g.content }
    rw [hi, translate_of_reaches gv.reaches_frame, gv.translateFrom_frame,
      translate_of_reaches gv.parent]
  · refine translateFrom_congr .root fun {rest' x} hx _ => ?_
    by_cases ht : x = table
    · subst ht
      obtain ⟨rfl, hab⟩ := g.once hx
      have hne : p shift ≠ pathOf va shift := fun hc =>
        ha ((agreeAbove_tail g.parent.suffix).mpr ⟨hab, hc⟩)
      rw [g.readTable_parent, g.read]
      simp only [levelShift, List.headD_cons, Except.map]
      rw [Table.get_set, if_neg hne]
    · have hf : x ≠ frame := by
        rintro rfl
        exact g.fresh hx
      rw [g.readTable, if_neg ht, if_neg hf]

end Graft

end KernelCore.Platform
