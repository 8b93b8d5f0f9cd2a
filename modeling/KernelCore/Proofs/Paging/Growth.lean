import Mathlib
import KernelCore.Proofs.Paging.Graft
import KernelCore.Proofs.Paging.Taking

/-!
# Growing spaces

A space under change is sound if every table that its walks reach is its own or lent to it, and its
own tables are reached at one place only. Taking a frame and grafting it in keep that, and they
change nothing but free frames and the tables of the space.
-/
namespace KernelCore

/-- The tables that a space may reach without owning them, by path and level. -/
abbrev Lending := Path → List Nat → Nat → Prop

namespace AddressSpace

/-- The walks of the space reach its own tables and lent ones, the former at one place each. -/
structure Rooted (s : AddressSpace) (m : Platform) (lent : Lending) : Prop where
  held : ∀ {p rest table}, m.Reaches s.root p rest table → s.owns table = true ∨ lent p rest table
  once : ∀ {p q rest rest' table}, s.owns table = true → m.Reaches s.root p rest table →
    m.Reaches s.root q rest' table → rest' = rest ∧ AgreeAbove rest p q

/-- The space owns none of the tables that are lent. -/
def Spares (s : AddressSpace) (lent : Lending) : Prop :=
  ∀ p rest table, lent p rest table → s.owns table = false

theorem Rooted.congr {s : AddressSpace} {m m' : Platform} {lent lent' : Lending}
    (h : s.Rooted m lent)
    (hr : ∀ {p rest table}, m'.Reaches s.root p rest table ↔ m.Reaches s.root p rest table)
    (hl : ∀ {p rest table}, lent p rest table → lent' p rest table) : s.Rooted m' lent' where
  held := fun hr' => (h.held (hr.mp hr')).imp id hl
  once := fun ho h₁ h₂ => h.once ho (hr.mp h₁) (hr.mp h₂)

/-- As far as the way to `va` exists below a table, the space owns the tables on it. -/
def HoldsWay (s : AddressSpace) (m : Platform) (va : Nat) : List Nat → Nat → Prop
  | [], _ => True
  | shift :: rest, table => ∀ t, m.readTable table = .ok t →
    (t.get (pathOf va shift)).present = true → (t.get (pathOf va shift)).huge = false →
      s.owns (t.get (pathOf va shift)).address = true ∧
        s.HoldsWay m va rest (t.get (pathOf va shift)).address

end AddressSpace

theorem Entry.leads_of_link {shift : Nat} {e : Entry} (hp : e.present = true)
    (hh : e.huge = false) : e.leads shift = true := by
  simp [Entry.leads, hp, hh]

theorem Entry.leads_make {shift a : Nat} {flags : BitVec 64} (hp : flags.getLsbD 0 = true)
    (hh : flags.getLsbD 7 = false) : (Entry.make a flags).leads shift = true :=
  leads_of_link (by rw [present_make, hp]) (by rw [huge_make, hh])

namespace Mapping

/-- The state seen through another window. -/
def through (w : Mapping) (window : Nat) : Mapping :=
  { w with platform := w.platform.through window }

structure Sound (w : Mapping) (lent : Lending) : Prop where
  machine : w.platform.limit ≤ physicalBound
  allocated : ∀ f ∈ w.space.frames, w.frames.isAllocated f = true
  aligned : ∀ f ∈ w.space.frames, f % pageSize = 0
  rooted : w.space.Rooted w.platform lent
  spares : w.space.Spares lent
  closed : ∀ {p shift rest table t}, lent p (shift :: rest) table →
    w.platform.readTable table = .ok t → (t.get (p shift)).leads shift = true →
      lent p rest (t.get (p shift)).address

/-- The space has taken the given frames, and only its tables have changed. -/
structure Grown (new : List Nat) (w w' : Mapping) : Prop extends Taken new w w' where
  memory : w.platform.SameOutside w'.space.frames w'.platform

/-- The space has grown in a way that no translation shows. -/
structure Unseen (new : List Nat) (w w' : Mapping) : Prop extends Grown new w w' where
  links : ∀ {p rest flags}, w.platform.Link w.space.root p rest flags →
    w'.platform.Link w.space.root p rest flags
  translate : ∀ va, w'.platform.translate w.space.root va = w.platform.translate w.space.root va
  events : w'.platform.events = w.platform.events

variable {w w' w'' : Mapping} {lent : Lending} {new new' : List Nat} {va : Nat}

theorem Unseen.refl (w : Mapping) : Unseen [] w w where
  toTaken := .refl w
  memory := .refl _ _
  links := id
  translate := fun _ => rfl
  events := rfl

theorem Grown.trans (h : Grown new w w') (h' : Grown new' w' w'') :
    Grown (new ++ new') w w'' where
  toTaken := h.toTaken.trans h'.toTaken
  memory := by
    refine (h.memory.mono ?_).trans h'.memory
    rw [h'.frames_eq]
    exact List.subset_append_left _ _

theorem Grown.through (h : Grown new w w') (window : Nat) :
    Grown new (w.through window) (w'.through window) where
  toTaken := { h.toTaken with }
  memory := h.memory.through window

theorem Unseen.trans (h : Unseen new w w') (h' : Unseen new' w' w'') :
    Unseen (new ++ new') w w'' where
  toGrown := h.toGrown.trans h'.toGrown
  links := fun hl => by
    have hl' := h.links hl
    rw [← h.root] at hl' ⊢
    exact h'.links hl'
  translate := fun va => by
    have hr := h'.translate va
    rw [h.root] at hr
    rw [hr, h.translate]
  events := h'.events.trans h.events

theorem through_of_window {window : Nat} (h : w.platform.window = window) :
    w.through window = w := by
  subst h
  rfl

theorem Sound.through_window (hs : w.Sound lent) : (w.through w.platform.window).Sound lent := hs

theorem spares_of_takes (h : w'.space.Spares lent) (ht : Takes w w') : w.space.Spares lent := by
  intro p rest table hl
  rw [← Bool.not_eq_true]
  exact fun ho => Bool.false_ne_true ((h p rest table hl).symm.trans (ht.owns ho))

/-- A window that shows less shows a sound state as well. -/
theorem Sound.narrow {window : Nat} (hw : w.platform.Within window)
    (hs : (w.through window).Sound lent) : w.Sound lent where
  machine := hw.trans hs.machine
  allocated := hs.allocated
  aligned := hs.aligned
  rooted := ⟨fun hr => hs.rooted.held (hr.through hw),
    fun ho hr hr' => hs.rooted.once ho (hr.through hw) (hr'.through hw)⟩
  spares := hs.spares
  closed := fun hl read leads => hs.closed hl (Platform.readTable_through hw read) leads

theorem Sound.emit (hs : w.Sound lent) (e : Event) :
    ({ w with platform := w.platform.emit e } : Mapping).Sound lent := by
  have hr : ∀ {p rest table}, (w.platform.emit e).Reaches w.space.root p rest table ↔
      w.platform.Reaches w.space.root p rest table :=
    Platform.reaches_congr fun _ => rfl
  exact
    { hs with
      rooted := ⟨fun h => hs.rooted.held (hr.mp h),
        fun ho h h' => hs.rooted.once ho (hr.mp h) (hr.mp h')⟩ }

theorem Unseen.take {frame : Nat} {frames : FrameAllocator}
    (h : w.frames.allocate = some (frame, frames)) :
    Unseen [frame] w (w.withTable frame frames) where
  toTaken := .take h
  memory := .refl _ _
  links := id
  translate := fun _ => rfl
  events := rfl

/-- A frame that was taken is a table of the space that no walk reaches, unless it is lent. -/
theorem Sound.take {frame : Nat} {frames : FrameAllocator} (hs : w.Sound lent)
    (h : w.frames.allocate = some (frame, frames)) (hl : ∀ p rest, ¬ lent p rest frame) :
    (w.withTable frame frames).Sound lent ∧
      ∀ {p rest}, ¬ w.platform.Reaches w.space.root p rest frame := by
  have hg := Unseen.take h
  obtain ⟨hf, hp⟩ := hg.fresh frame (List.mem_singleton_self _)
  have hn : ∀ {p rest}, ¬ w.platform.Reaches w.space.root p rest frame := by
    intro p rest hr
    have ho := (hs.rooted.held hr).resolve_right (hl p rest)
    have ha := hs.allocated frame (AddressSpace.mem_frames.mpr ho)
    exact FrameAllocator.not_isFree_of_isAllocated ha hf
  refine ⟨⟨hs.machine, ?_, ?_, ⟨?_, ?_⟩, ?_, hs.closed⟩, hn⟩
  · intro f hm
    rw [hg.frames_eq, List.mem_append] at hm
    rw [hg.allocated]
    exact hm.imp (hs.allocated f) fun hm => ⟨f, hm, rfl⟩
  · intro f hm
    rw [hg.frames_eq, List.mem_append] at hm
    rcases hm with hm | hm
    · exact hs.aligned f hm
    · rwa [List.mem_singleton.mp hm]
  · intro p rest table hr
    exact (hs.rooted.held hr).imp (fun ho => hg.owns.mpr (.inl ho)) id
  · intro p q rest rest' table ho hr hr'
    rcases hg.owns.mp ho with ho | hm
    · exact hs.rooted.once ho hr hr'
    · rw [List.mem_singleton.mp hm] at hr
      exact absurd hr hn
  · intro p rest table hlent
    rw [← Bool.not_eq_true, hg.owns, List.mem_singleton]
    rintro (hc | rfl)
    · rw [hs.spares p rest table hlent] at hc
      cases hc
    · exact hl p rest hlent

section Graft

variable {p : Path} {shift table frame : Nat} {rest : List Nat} {t content : Table} {e : Entry}

/-- The state after a graft. -/
def withGraft (w : Mapping) (table : Nat) (i : Fin 512) (frame : Nat) (content : Table)
    (e : Entry) : Mapping :=
  { w with platform := w.platform.graft table i frame content e }

theorem takes_withGraft (w : Mapping) (table : Nat) (i : Fin 512) (frame : Nat) (content : Table)
    (e : Entry) : Takes w (w.withGraft table i frame content e) := .platform w _

theorem Sound.unseen_graft (hs : w.Sound lent) (ht : w.space.owns table = true)
    (hf : w.space.owns frame = true)
    (g : w.platform.Graft w.space.root p shift rest table t frame content e) :
    Unseen [] w (w.withGraft table (p shift) frame content e) := by
  have hft := AddressSpace.mem_frames.mpr hf
  have htt := AddressSpace.mem_frames.mpr ht
  have hw := (Platform.sameOutside_writeTable w.platform frame content (hs.aligned _ hft)).mono
    (by simpa using hft)
  have he := (Platform.sameOutside_setEntry (w.platform.writeTable frame content) table (p shift) e
    (hs.aligned _ htt)).mono (by simpa using htt)
  exact { Unseen.refl w with memory := hw.trans he, links := g.link, translate := g.translate }

theorem Sound.graft (hs : w.Sound lent) (ht : w.space.owns table = true)
    (hf : w.space.owns frame = true)
    (g : w.platform.Graft w.space.root p shift rest table t frame content e) :
    (w.withGraft table (p shift) frame content e).Sound lent := by
  have hg := hs.unseen_graft ht hf g
  refine ⟨?_, hs.allocated, hs.aligned, ⟨?_, ?_⟩, hs.spares, ?_⟩
  · rw [hg.memory.limit]
    exact hs.machine
  · intro q rest' x hr
    rcases g.reaches_of hr with ⟨rfl, -, -⟩ | hold
    · exact .inl hf
    · exact hs.rooted.held hold
  · intro q q' rest' rest'' x ho hr hr'
    rcases g.reaches_of hr with ⟨rfl, rfl, ha⟩ | hold
    · rcases g.reaches_of hr' with ⟨-, rfl, ha'⟩ | hold'
      · exact ⟨rfl, AgreeAbove.trans (AgreeAbove.symm ha) ha'⟩
      · exact absurd hold' g.fresh
    · rcases g.reaches_of hr' with ⟨rfl, -, -⟩ | hold'
      · exact absurd hold g.fresh
      · exact hs.rooted.once ho hold hold'
  · intro q shift' rest' x t' hl read leads
    refine hs.closed hl ?_ leads
    rw [← read]
    refine (hg.memory.readTable fun hc => ?_).symm
    have ho := AddressSpace.mem_frames.mp hc
    have hn := hs.spares q (shift' :: rest') x hl
    exact Bool.false_ne_true (hn.symm.trans ho)

end Graft

end Mapping

end KernelCore
