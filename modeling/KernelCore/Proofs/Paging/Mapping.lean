import Mathlib
import KernelCore.Proofs.Paging.Growth

/-!
# Mapping a page

Mapping makes the way to a page the space's own, completes it and writes its last entry. Up to the
last write the space only grows, whatever fails.
-/
namespace KernelCore.Mapping
open Platform

variable {w w' : Mapping} {lent : Lending} {va shift table window : Nat} {rest shifts : List Nat}
  {p : Path} {t : Table}

/-- A frame was taken and grafted behind an entry of a table. -/
structure Extended (lent : Lending) (p : Path) (rest : List Nat) (t : Table) (shift frame : Nat)
    (content : Table) (flags : BitVec 64) (w w' : Mapping) : Prop where
  sound : w'.Sound lent
  unseen : Unseen [frame] w w'
  owns : w'.space.owns frame = true
  reach : w'.platform.Reaches w.space.root p rest frame
  read : w'.platform.readTable frame = .ok content
  link : w'.platform.Link w.space.root p rest flags
  keeps : KeepsAbove (shift :: rest) w.space.root w.platform w'.platform
  links : ∀ {q rest' flags'}, w'.platform.Link w.space.root q rest' flags' →
    w.platform.Link w.space.root q rest' flags' ∨
      (t.get (p shift)).present = false ∧ flags' = flags ∧ rest' = rest ∧ AgreeAbove rest p q
  shows : ∀ {q rest' x}, w'.platform.Reaches w.space.root q rest' x →
    w.platform.Reaches w.space.root q rest' x ∨ w.platform.Shows x

/-- Taking a frame that is not lent and grafting it behind an entry of an own table. -/
theorem Sound.extend {frame : Nat} {frames : FrameAllocator} {content : Table}
    {flags : BitVec 64} (hs : w.Sound lent)
    (hr : w.platform.Reaches w.space.root p (shift :: rest) table)
    (ho : w.space.owns table = true) (ht : w.platform.readTable table = .ok t)
    (ha : w.frames.allocate = some (frame, frames)) (hl : ∀ p rest, ¬ lent p rest frame)
    (hf : ∃ f, w.platform.readTable frame = .ok f)
    (hp : flags.getLsbD 0 = true) (hh : flags.getLsbD 7 = false)
    (hm : flags &&& addressMask = 0)
    (hc : (t.get (p shift)).present = false ∧ content = .empty ∨
      (t.get (p shift)).leads shift = true ∧
        w.platform.readTable (t.get (p shift)).address = .ok content ∧
        flags = (t.get (p shift)).flags) :
    Extended lent p rest t shift frame content flags w
      ((w.withTable frame frames).withGraft table (p shift) frame content
        (.make frame flags)) := by
  obtain ⟨hs', hn⟩ := hs.take ha hl
  have hg := Unseen.take ha
  obtain ⟨f, hf⟩ := hf
  have hflags := Entry.flags_make frame hm
  have g : w.platform.Graft w.space.root p shift rest table t frame content
      (.make frame flags) :=
    { parent := hr
      read := ht
      once := fun hq => hs.rooted.once ho hr hq
      writable := ⟨f, hf⟩
      fresh := hn
      leads := Entry.leads_make hp hh
      address := Entry.address_make (readTable_bounds hf).1
        (readTable_lt_physicalBound hs.machine hf) hm
      content := by rwa [hflags] }
  have hlink := g.link_frame
  rw [hflags] at hlink
  have ho' : (w.withTable frame frames).space.owns table = true := hg.owns.mpr (.inl ho)
  have hof : (w.withTable frame frames).space.owns frame = true :=
    hg.owns.mpr (.inr (List.mem_singleton_self _))
  refine ⟨hs'.graft ho' hof g, hg.trans (hs'.unseen_graft ho' hof g), hof, g.reaches_frame,
    g.readTable_frame, hlink, fun hsub hq => g.reaches_above hq hsub, fun hlink => ?_, fun hq => ?_⟩
  · have hlink := g.link_of hlink
    rwa [hflags] at hlink
  · rcases g.reaches_of hq with ⟨rfl, -, -⟩ | hold
    · exact .inr ⟨f, hf⟩
    · exact .inl hold

theorem holdsWay_cons {s : AddressSpace} {m : Platform} {root child : Nat}
    (above : m.Reaches root (pathOf va) (shift :: rest) table)
    (below : m.Reaches root (pathOf va) rest child) (ho : s.owns child = true)
    (hw : s.HoldsWay m va rest child) : s.HoldsWay m va (shift :: rest) table := by
  intro t read _ _
  rw [(below.entry above read).2]
  exact ⟨ho, hw⟩

theorem Sound.holdsWay (hs : w.Sound lent) (hn : ∀ rest table, ¬ lent (pathOf va) rest table)
    (hr : w.platform.Reaches w.space.root (pathOf va) shifts table) :
    w.space.HoldsWay w.platform va shifts table := by
  induction shifts generalizing table with
  | nil => trivial
  | cons shift rest ih =>
    intro t read present huge
    have below := hr.link read (Entry.leads_of_link present huge)
    exact ⟨(hs.rooted.held below).resolve_right (hn _ _), ih below⟩

/-- What becomes of a space when the way to a page is made its own, from a table on. -/
structure Privatized (lent : Lending) (va : Nat) (shifts : List Nat) (table : Nat) (w : Mapping)
    (result : Except MemoryError Unit) (w' : Mapping) : Prop where
  sound : w'.Sound lent
  unseen : ∃ new, Unseen new w w'
  keeps : KeepsAbove shifts w.space.root w.platform w'.platform
  links : ∀ {q rest flags}, w'.platform.Link w.space.root q rest flags →
    w.platform.Link w.space.root q rest flags
  shows : ∀ {q rest x}, w'.platform.Reaches w.space.root q rest x →
    w.platform.Reaches w.space.root q rest x ∨ w.platform.Shows x
  holds : result = .ok () → w'.space.HoldsWay w'.platform va shifts table

theorem Privatized.of_failure (hs : w'.Sound lent) {new : List Nat} (hg : Unseen new w w')
    (hm : w'.platform = w.platform) (e : MemoryError) :
    Privatized lent va shifts table w (.error e) w' where
  sound := hs
  unseen := ⟨new, hg⟩
  keeps := by
    rw [hm]
    exact fun _ h => h
  links := by
    rw [hm]
    exact id
  shows := by
    rw [hm]
    exact .inl
  holds := by simp

/-- What becomes of the way to a page at one table on it. -/
inductive PrivatizeStep (va shift : Nat) (rest : List Nat) (table : Nat) (w : Mapping) :
    Except MemoryError Unit × Mapping → Prop
  | failed {e : MemoryError} : PrivatizeStep va shift rest table w (.error e, w)
  | halfway {e : MemoryError} {frame : Nat} {frames : FrameAllocator}
      (taken : w.frames.allocate = some (frame, frames)) :
      PrivatizeStep va shift rest table w (.error e, w.withTable frame frames)
  | ends {t : Table} (read : w.platform.readTable table = .ok t)
      (stop : (t.get (pathOf va shift)).present = true →
        (t.get (pathOf va shift)).huge = true) : PrivatizeStep va shift rest table w (.ok (), w)
  | owned {t : Table} (read : w.platform.readTable table = .ok t)
      (present : (t.get (pathOf va shift)).present = true)
      (huge : (t.get (pathOf va shift)).huge = false)
      (owns : w.space.owns (t.get (pathOf va shift)).address = true) :
      PrivatizeStep va shift rest table w
        (privatizeFrom va rest (t.get (pathOf va shift)).address w)
  | copied {t content f : Table} {frame : Nat} {frames : FrameAllocator}
      (read : w.platform.readTable table = .ok t)
      (present : (t.get (pathOf va shift)).present = true)
      (huge : (t.get (pathOf va shift)).huge = false)
      (taken : w.frames.allocate = some (frame, frames))
      (source : w.platform.readTable (t.get (pathOf va shift)).address = .ok content)
      (target : w.platform.readTable frame = .ok f) :
      PrivatizeStep va shift rest table w (privatizeFrom va rest frame
        ((w.withTable frame frames).withGraft table (pathOf va shift) frame content
          (.make frame (t.get (pathOf va shift)).flags)))

theorem privatizeFrom_step (va shift : Nat) (rest : List Nat) (table : Nat) (w : Mapping) :
    PrivatizeStep va shift rest table w (privatizeFrom va (shift :: rest) table w) := by
  rw [privatizeFrom]
  cases read : w.platform.readTable table with
  | error e => exact .failed
  | ok t =>
    dsimp only
    split
    · next hstop =>
      refine .ends read fun present => ?_
      simp only [pathOf] at present ⊢
      simpa [present] using hstop
    · next hgo =>
      simp only [Bool.or_eq_true, Bool.not_eq_true', not_or, Bool.not_eq_false,
        Bool.not_eq_true] at hgo
      obtain ⟨present, huge⟩ := hgo
      split
      · next howns => exact .owned read present huge howns
      · rw [copyTable, takeTable_eq]
        cases halloc : w.frames.allocate with
        | none => exact .failed
        | some taken =>
          dsimp only
          cases hsource : w.platform.readTable (t.get (tableIndex shift va)).address with
          | error e => exact .halfway halloc
          | ok content =>
            cases hframe : w.platform.readTable taken.1 with
            | error e => exact .halfway halloc
            | ok f => exact .copied read present huge halloc hsource hframe

theorem sameMachine_privatizeFrom (va : Nat) (shifts : List Nat) (table : Nat) (w : Mapping) :
    SameMachine w.platform (privatizeFrom va shifts table w).2.platform := by
  induction shifts generalizing table w with
  | nil => exact .refl _
  | cons shift rest ih =>
    have hstep := privatizeFrom_step va shift rest table w
    generalize privatizeFrom va (shift :: rest) table w = r at hstep ⊢
    cases hstep with
    | failed | halfway | ends => exact .refl _
    | owned => exact ih _ w
    | copied =>
      refine .trans ?_ (ih _ _)
      exact sameMachine_graft ..

theorem sameMachine_privatize (w : Mapping) (va : Nat) :
    SameMachine w.platform (w.privatize va).2.platform := by
  unfold privatize
  split
  · exact sameMachine_privatizeFrom ..
  · exact .refl _

theorem not_lent_of_takes {frame : Nat} {frames : FrameAllocator}
    (ht : Takes (w.withTable frame frames) w') (hspares : w'.space.Spares lent) (p : Path)
    (rest : List Nat) : ¬ lent p rest frame := by
  intro hl
  have ho : (w.withTable frame frames).space.owns frame = true := by
    simp [AddressSpace.owns, withTable]
  exact Bool.false_ne_true ((hspares p rest frame hl).symm.trans (ht.owns ho))

/-- The way is walked in a window. What comes of it is sound through any window that shows at
least as much, unless the space has got a lent table. -/
theorem privatizeFrom_spec (hs : (w.through window).Sound lent) (hw : w.platform.Within window)
    (hr : (w.through window).platform.Reaches w.space.root (pathOf va) shifts table)
    (ho : w.space.owns table = true)
    (hspares : (privatizeFrom va shifts table w).2.space.Spares lent) :
    Privatized lent va shifts table (w.through window) (privatizeFrom va shifts table w).1
      ((privatizeFrom va shifts table w).2.through window) := by
  induction shifts generalizing table w with
  | nil => exact ⟨hs, ⟨[], .refl _⟩, fun _ h => h, id, .inl, fun _ => trivial⟩
  | cons shift rest ih =>
    have hstep := privatizeFrom_step va shift rest table w
    generalize privatizeFrom va (shift :: rest) table w = r at hstep hspares ⊢
    cases hstep with
    | failed => exact .of_failure hs (.refl _) rfl _
    | halfway taken =>
      have hlent := not_lent_of_takes (.refl _) hspares
      exact .of_failure (hs.take taken hlent).1 (.take taken) rfl _
    | ends read stop =>
      refine ⟨hs, ⟨[], .refl _⟩, fun _ h => h, id, .inl, fun _ t' read' present huge => ?_⟩
      cases (readTable_through hw read).symm.trans read'
      rw [stop present] at huge
      cases huge
    | owned read present huge owns =>
      have below := hr.link (readTable_through hw read) (Entry.leads_of_link present huge)
      obtain ⟨hs', ⟨new, hg⟩, keeps, links, shows, holds⟩ := ih hs hw below owns hspares
      refine ⟨hs', ⟨new, hg⟩, fun hsub => keeps ((List.suffix_cons _ _).trans hsub), links,
        shows, fun hok => ?_⟩
      exact holdsWay_cons (keeps (List.suffix_cons _ _) hr) (keeps List.suffix_rfl below)
        (hg.owns.mpr (.inl owns)) (holds hok)
    | @copied t content f frame frames read present huge taken source target =>
      have htakes := takes_withGraft (w.withTable frame frames) table (pathOf va shift) frame
        content (.make frame (t.get (pathOf va shift)).flags)
      have hlent := not_lent_of_takes (htakes.trans (takes_privatizeFrom ..)) hspares
      have hx : Extended lent (pathOf va) rest t shift frame content _ (w.through window)
          (((w.withTable frame frames).withGraft table (pathOf va shift) frame content
            (.make frame (t.get (pathOf va shift)).flags)).through window) :=
        hs.extend hr ho (readTable_through hw read) taken hlent
        ⟨_, readTable_through hw target⟩ ((Entry.flags_present _).trans present)
        ((Entry.flags_huge _).trans huge) (Entry.flags_and_addressMask _)
        (.inr ⟨Entry.leads_of_link present huge, readTable_through hw source, rfl⟩)
      obtain ⟨hs', ⟨new, hg⟩, keeps, links, shows, holds⟩ :=
        ih hx.sound (hw.congr (sameMachine_graft ..).toSameExtent) hx.reach hx.owns hspares
      have hk : KeepsAbove (shift :: rest) w.space.root (w.through window).platform
          (privatizeFrom va rest frame _ |>.2.through window).platform :=
        fun hsub hq => keeps ((List.suffix_cons _ _).trans hsub) (hx.keeps hsub hq)
      refine ⟨hs', ⟨_, hx.unseen.trans hg⟩, hk, fun hq => ?_, fun hq => ?_, fun hok => ?_⟩
      · refine (hx.links (links hq)).resolve_right ?_
        rintro ⟨habsent, -⟩
        rw [present] at habsent
        cases habsent
      · exact (shows hq).elim hx.shows fun hshow =>
          .inr (hx.unseen.memory.toSameExtent.shows.mp hshow)
      · exact holdsWay_cons (hk List.suffix_rfl hr) (keeps List.suffix_rfl hx.reach)
          (hg.owns.mpr (.inl hx.owns)) (holds hok)

theorem privatize_spec (hs : (w.through window).Sound lent) (hw : w.platform.Within window)
    (hlent : ∀ rest table, lent (pathOf va) rest table → w.space.sharesSlotOf va = true)
    (hspares : (w.privatize va).2.space.Spares lent) :
    Privatized lent va linkShifts w.space.root (w.through window) (w.privatize va).1
      ((w.privatize va).2.through window) := by
  unfold privatize at hspares ⊢
  split at hspares
  · next hshare =>
    rw [if_pos hshare]
    exact privatizeFrom_spec hs hw .root w.space.owns_root hspares
  · next hshare =>
    rw [if_neg hshare]
    refine ⟨hs, ⟨[], .refl _⟩, fun _ h => h, id, .inl, fun _ => ?_⟩
    exact hs.holdsWay (fun rest table hl => hshare (hlent rest table hl)) .root

/-- The way to a page is completed from a table on, with the state of the space as the supply. -/
def linkWay (flags : BitVec 64) (va : Nat) (shifts : List Nat) (table : Nat) (w : Mapping) :
    Except MemoryError Nat × Mapping :=
  let r := linkFrom takeTable (linkFlags flags) va shifts table w.platform (w.frames, w.space)
  (r.1, ⟨r.2.1, r.2.2.1, r.2.2.2⟩)

/-- What becomes of a way that is completed at one table on it. -/
inductive LinkStep (flags : BitVec 64) (va shift : Nat) (rest : List Nat) (table : Nat)
    (w : Mapping) : Except MemoryError Nat × Mapping → Prop
  | unread {e : PlatformError} (read : w.platform.readTable table = .error e) :
      LinkStep flags va shift rest table w (.error (.platform e), w)
  | blocked {t : Table} (read : w.platform.readTable table = .ok t)
      (present : (t.get (pathOf va shift)).present = true)
      (huge : (t.get (pathOf va shift)).huge = true) :
      LinkStep flags va shift rest table w (.error .hugePageInPath, w)
  | exhausted {t : Table} (read : w.platform.readTable table = .ok t)
      (absent : (t.get (pathOf va shift)).present = false) (none : w.frames.allocate = none) :
      LinkStep flags va shift rest table w (.error .outOfFrames, w)
  | halfway {t : Table} {e : PlatformError} {frame : Nat} {frames : FrameAllocator}
      (read : w.platform.readTable table = .ok t)
      (absent : (t.get (pathOf va shift)).present = false)
      (taken : w.frames.allocate = some (frame, frames))
      (target : w.platform.readTable frame = .error e) :
      LinkStep flags va shift rest table w (.error (.platform e), w.withTable frame frames)
  | linked {t : Table} (read : w.platform.readTable table = .ok t)
      (present : (t.get (pathOf va shift)).present = true)
      (huge : (t.get (pathOf va shift)).huge = false) :
      LinkStep flags va shift rest table w
        (linkWay flags va rest (t.get (pathOf va shift)).address w)
  | added {t f : Table} {frame : Nat} {frames : FrameAllocator}
      (read : w.platform.readTable table = .ok t)
      (absent : (t.get (pathOf va shift)).present = false)
      (taken : w.frames.allocate = some (frame, frames))
      (target : w.platform.readTable frame = .ok f) :
      LinkStep flags va shift rest table w (linkWay flags va rest frame
        ((w.withTable frame frames).withGraft table (pathOf va shift) frame .empty
          (.make frame (linkFlags flags))))

theorem linkWay_step (flags : BitVec 64) (va shift : Nat) (rest : List Nat) (table : Nat)
    (w : Mapping) :
    LinkStep flags va shift rest table w (linkWay flags va (shift :: rest) table w) := by
  rw [linkWay, linkFrom]
  cases read : w.platform.readTable table with
  | error e => exact .unread read
  | ok t =>
    dsimp only
    split
    · next present =>
      split
      · next huge => exact .blocked read present huge
      · next huge => exact .linked read present (by simpa [pathOf] using huge)
    · next absent =>
      have absent : (t.get (pathOf va shift)).present = false := by simpa [pathOf] using absent
      rw [takeTable_eq]
      cases halloc : w.frames.allocate with
      | none => exact .exhausted read absent halloc
      | some taken =>
        dsimp only
        cases hframe : w.platform.readTable taken.1 with
        | error e => exact .halfway read absent halloc hframe
        | ok f => exact .added read absent halloc hframe

theorem takes_linkWay (flags : BitVec 64) (shifts : List Nat) (table : Nat) (w : Mapping) :
    Takes w (linkWay flags va shifts table w).2 := takes_linkFrom _ va shifts table w

theorem sameMachine_linkWay (flags : BitVec 64) (va : Nat) (shifts : List Nat) (table : Nat)
    (w : Mapping) : SameMachine w.platform (linkWay flags va shifts table w).2.platform := by
  induction shifts generalizing table w with
  | nil => exact .refl _
  | cons shift rest ih =>
    have hstep := linkWay_step flags va shift rest table w
    generalize linkWay flags va (shift :: rest) table w = r at hstep ⊢
    cases hstep with
    | unread | blocked | exhausted | halfway => exact .refl _
    | linked => exact ih _ w
    | added =>
      refine .trans ?_ (ih _ _)
      exact sameMachine_graft ..

/-- What becomes of a space when the way to a page is completed, from a table on. -/
structure Linked (lent : Lending) (va : Nat) (flags : BitVec 64) (shifts : List Nat) (w : Mapping)
    (result : Except MemoryError Nat) (w' : Mapping) : Prop where
  sound : w'.Sound lent
  unseen : ∃ new, Unseen new w w'
  links : ∀ {q rest flags'}, w'.platform.Link w.space.root q rest flags' →
    w.platform.Link w.space.root q rest flags' ∨
      flags' = linkFlags flags ∧ AgreeAbove rest (pathOf va) q
  shows : ∀ {q rest x}, w'.platform.Reaches w.space.root q rest x →
    w.platform.Reaches w.space.root q rest x ∨ w.platform.Shows x
  arrives : ∀ last, result = .ok last →
    w'.platform.Reaches w.space.root (pathOf va) [] last ∧ w'.space.owns last = true
  plain : ∀ last, result = .ok last → ∀ {rest flags'}, rest.length < shifts.length →
    w'.platform.Link w.space.root (pathOf va) rest flags' → flags'.getLsbD 7 = false

theorem Linked.of_failure (hs : w'.Sound lent) {new : List Nat} (hg : Unseen new w w')
    (hm : w'.platform = w.platform) (flags : BitVec 64) (e : MemoryError) :
    Linked lent va flags shifts w (.error e) w' where
  sound := hs
  unseen := ⟨new, hg⟩
  links := by
    rw [hm]
    exact .inl
  shows := by
    rw [hm]
    exact .inl
  arrives := by simp
  plain := by simp

theorem Linked.plain_cons {result : Except MemoryError Nat} {flags flags₀ : BitVec 64}
    (h : Linked lent va flags rest w result w')
    (hl : w.platform.Link w.space.root (pathOf va) rest flags₀) (hh : flags₀.getLsbD 7 = false) :
    ∀ last, result = .ok last → ∀ {rest' flags'}, rest'.length < rest.length + 1 →
      w'.platform.Link w.space.root (pathOf va) rest' flags' → flags'.getLsbD 7 = false := by
  intro last hok rest' flags' hlt hl'
  rcases Nat.lt_succ_iff_lt_or_eq.mp hlt with hlt | heq
  · exact h.plain last hok hlt hl'
  · obtain ⟨new, hg⟩ := h.unseen
    obtain ⟨_, hr⟩ := hl.exists_reaches
    obtain ⟨_, hr'⟩ := hl'.exists_reaches
    obtain rfl := suffix_eq_of_length hr'.suffix hr.suffix heq
    rwa [hl'.unique (hg.links hl)]

theorem holdsWay_of_empty {s : AddressSpace} {m : Platform}
    (read : m.readTable table = .ok .empty) : s.HoldsWay m va shifts table := by
  cases shifts with
  | nil => trivial
  | cons shift rest =>
    intro t read' present _
    cases read.symm.trans read'
    rw [Table.get_empty, Entry.present_empty] at present
    cases present

theorem linkWay_spec (flags : BitVec 64) (hs : (w.through window).Sound lent)
    (hw : w.platform.Within window)
    (hr : (w.through window).platform.Reaches w.space.root (pathOf va) shifts table)
    (ho : w.space.owns table = true)
    (hway : w.space.HoldsWay (w.through window).platform va shifts table)
    (hspares : (linkWay flags va shifts table w).2.space.Spares lent) :
    Linked lent va flags shifts (w.through window) (linkWay flags va shifts table w).1
      ((linkWay flags va shifts table w).2.through window) := by
  induction shifts generalizing table w with
  | nil =>
    refine ⟨hs, ⟨[], .refl _⟩, .inl, .inl, fun last hl => ?_, fun _ _ _ _ hlt => ?_⟩
    · cases hl
      exact ⟨hr, ho⟩
    · exact absurd hlt (Nat.not_lt_zero _)
  | cons shift rest ih =>
    have hstep := linkWay_step flags va shift rest table w
    generalize linkWay flags va (shift :: rest) table w = r at hstep hspares ⊢
    cases hstep with
    | unread | blocked | exhausted => exact .of_failure hs (.refl _) rfl _ _
    | halfway _ _ taken _ =>
      have hlent := not_lent_of_takes (.refl _) hspares
      exact .of_failure (hs.take taken hlent).1 (.take taken) rfl _ _
    | linked read present huge =>
      have read := readTable_through hw read
      obtain ⟨howns, hway⟩ := hway _ read present huge
      have hlink : (w.platform.through window).Link w.space.root (pathOf va) rest _ :=
        ⟨shift, table, _, hr, read, Entry.leads_of_link present huge, rfl⟩
      have hx := ih hs hw (hr.link read (Entry.leads_of_link present huge)) howns hway hspares
      have hplain := hx.plain_cons hlink
        ((Entry.flags_huge _).trans huge)
      exact { hx with plain := hplain }
    | @added t f frame frames read absent taken target =>
      have htakes := takes_withGraft (w.withTable frame frames) table (pathOf va shift) frame .empty
        (.make frame (linkFlags flags))
      have hlent := not_lent_of_takes (htakes.trans (takes_linkWay ..)) hspares
      have hx : Extended lent (pathOf va) rest t shift frame .empty (linkFlags flags)
          (w.through window) (((w.withTable frame frames).withGraft table (pathOf va shift) frame
            .empty (.make frame (linkFlags flags))).through window) :=
        hs.extend hr ho (readTable_through hw read) taken hlent
        ⟨_, readTable_through hw target⟩ (linkFlags_present flags) (linkFlags_huge flags)
        (linkFlags_and_addressMask flags) (.inl ⟨absent, rfl⟩)
      -- nothing lies behind a new table, so the way ends there
      have hx' := ih hx.sound (hw.congr (sameMachine_graft ..).toSameExtent)
        hx.reach hx.owns (holdsWay_of_empty hx.read) hspares
      obtain ⟨new, hg⟩ := hx'.unseen
      refine ⟨hx'.sound, ⟨_, hx.unseen.trans hg⟩, fun hq => ?_, fun hq => ?_, hx'.arrives,
        hx'.plain_cons hx.link (linkFlags_huge flags)⟩
      · rcases hx'.links hq with hq | hnew
        · refine (hx.links hq).imp id ?_
          rintro ⟨-, rfl, rfl, ha⟩
          exact ⟨rfl, ha⟩
        · exact .inr hnew
      · exact (hx'.shows hq).elim hx.shows fun hshow =>
          .inr (hx.unseen.memory.toSameExtent.shows.mp hshow)

end KernelCore.Mapping
