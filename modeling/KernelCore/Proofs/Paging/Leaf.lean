import Mathlib
import KernelCore.Proofs.Paging.Mapping

/-!
# The last entry of a way

Writing the entry of a page in a table that is reached at one place only changes what the addresses
of that page translate to, and nothing else. Mapping and unmapping a page end with such a write.
-/
namespace KernelCore

/-- Two addresses select the same entries at all levels. -/
def SamePath (va v : Nat) : Prop :=
  ∀ shift ∈ pageShift :: linkShifts, pathOf va shift = pathOf v shift

instance (va v : Nat) : Decidable (SamePath va v) :=
  inferInstanceAs (Decidable (∀ shift ∈ pageShift :: linkShifts, _))

theorem tableIndex_val (shift va : Nat) : (tableIndex shift va).val = va / 2 ^ shift % 512 := by
  rw [tableIndex, Fin.ofNat, Nat.shiftRight_eq_div_pow]

theorem samePath_of_page {va v : Nat} (h : va / pageSize = v / pageSize) : SamePath va v := by
  intro shift hs
  have hle : 12 ≤ shift := by
    simp only [pageShift, linkShifts, List.mem_cons, List.not_mem_nil, or_false] at hs
    omega
  have hd : ∀ n : Nat, n / 2 ^ shift = n / pageSize / 2 ^ (shift - 12) := by
    intro n
    rw [Nat.div_div_eq_div_mul, show pageSize = 2 ^ 12 from rfl, ← pow_add,
      Nat.add_sub_cancel' hle]
  refine Fin.ext ?_
  rw [pathOf, pathOf, tableIndex_val, tableIndex_val, hd va, hd v, h]

theorem page_of_samePath {va v : Nat} (ha : Canonical va) (hv : Canonical v)
    (h : SamePath va v) : va / pageSize = v / pageSize := by
  have h12 := Fin.val_eq_of_eq (h 12 (by decide))
  have h21 := Fin.val_eq_of_eq (h 21 (by decide))
  have h30 := Fin.val_eq_of_eq (h 30 (by decide))
  have h39 := Fin.val_eq_of_eq (h 39 (by decide))
  simp only [pathOf, tableIndex_val] at h12 h21 h30 h39
  have hp : pageSize = 2 ^ 12 := rfl
  unfold Canonical at ha hv
  rw [hp]
  omega

namespace Platform

variable {m : Platform} {root last va : Nat} {t : Table}

/-- The entry of the page of `va` is in the table `last`, which is reached in one place only. -/
structure Last (m : Platform) (root va last : Nat) : Prop where
  reach : Reaches m root (pathOf va) [] last
  once : ∀ {q rest}, Reaches m root q rest last → rest = [] ∧ AgreeAbove [] (pathOf va) q

theorem Last.readTable_setEntry (h : Last m root va last) (read : m.readTable last = .ok t)
    (i : Fin 512) (e : Entry) {q : Path} {shift : Nat} {rest : List Nat} {x : Nat}
    (hr : Reaches m root q (shift :: rest) x) :
    (m.setEntry last i e).readTable x = m.readTable x := by
  have hne : x ≠ last := by
    rintro rfl
    cases (h.once hr).1
  rw [Platform.readTable_setEntry read, if_neg hne]

theorem Last.reaches_setEntry (h : Last m root va last) (read : m.readTable last = .ok t)
    (i : Fin 512) (e : Entry) {q : Path} {rest : List Nat} {x : Nat} :
    Reaches (m.setEntry last i e) root q rest x ↔ Reaches m root q rest x :=
  reaches_congr fun hr => h.readTable_setEntry read i e hr

theorem Last.link_setEntry (h : Last m root va last) (read : m.readTable last = .ok t)
    (i : Fin 512) (e : Entry) {q : Path} {rest : List Nat} {flags : BitVec 64} :
    Link (m.setEntry last i e) root q rest flags ↔ Link m root q rest flags :=
  link_congr fun hr => h.readTable_setEntry read i e hr

/-- What an entry of a page translates the addresses of the page to. -/
def leafTarget (e : Entry) (v : Nat) : Except Fault (Option Nat) :=
  if e.present then physical (e.address + pageOffset v) else .ok none

theorem agreeAbove_nil {p q : Path} :
    AgreeAbove [] p q ↔ ∀ shift ∈ linkShifts, p shift = q shift := by
  simp [AgreeAbove]

theorem Last.translate_setEntry (h : Last m root va last) (read : m.readTable last = .ok t)
    (e : Entry) (v : Nat) :
    (m.setEntry last (pathOf va pageShift) e).translate root v =
      if SamePath va v then leafTarget e v else m.translate root v := by
  by_cases ha : AgreeAbove [] (pathOf va) (pathOf v)
  · have hr := h.reach.agree ha
    have hr' := (h.reaches_setEntry read (pathOf va pageShift) e).mpr hr
    have hread := Platform.readTable_setEntry read (pathOf va pageShift) e last
    rw [if_pos rfl] at hread
    rw [translate_of_reaches hr', translate_of_reaches hr]
    simp only [translateFrom, hread, read]
    have hget := Table.get_set t (pathOf va pageShift) (pathOf v pageShift) e
    simp only [pathOf] at hget
    simp only [pathOf, hget, leafTarget]
    by_cases hi : pathOf va pageShift = pathOf v pageShift
    · have hsame : SamePath va v := by
        intro shift hs
        rcases List.mem_cons.mp hs with rfl | hs
        · exact hi
        · exact agreeAbove_nil.mp ha shift hs
      simp only [pathOf] at hi
      simp [hi, hsame]
    · have hdiff : ¬ SamePath va v := fun hs => hi (hs _ (List.mem_cons_self ..))
      simp only [pathOf] at hi
      simp [hi, hdiff]
  · have hdiff : ¬ SamePath va v := fun hs =>
      ha (agreeAbove_nil.mpr fun shift hm => hs shift (List.mem_cons_of_mem _ hm))
    rw [if_neg hdiff]
    refine translate_congr fun {rest table} hr => ?_
    have hne : table ≠ last := by
      rintro rfl
      have hcontra := h.once hr
      obtain ⟨rfl, hagree⟩ := hcontra
      exact ha hagree
    rw [Platform.readTable_setEntry read, if_neg hne]

end Platform

namespace Mapping
open Platform

variable {w : Mapping} {lent : Lending} {va last : Nat} {t : Table}

theorem Sound.lastTable (hs : w.Sound lent)
    (hr : w.platform.Reaches w.space.root (pathOf va) [] last)
    (ho : w.space.owns last = true) : w.platform.Last w.space.root va last :=
  ⟨hr, fun hq => hs.rooted.once ho hr hq⟩

/-- The state after a last entry was written. -/
def withLast (w : Mapping) (last : Nat) (i : Fin 512) (e : Entry) : Mapping :=
  { w with platform := w.platform.setEntry last i e }

theorem Sound.grown_withLast (hs : w.Sound lent) (ho : w.space.owns last = true) (i : Fin 512)
    (e : Entry) : Grown [] w (w.withLast last i e) := by
  have hm := AddressSpace.mem_frames.mpr ho
  have he := sameOutside_setEntry w.platform last i e (hs.aligned _ hm)
  exact { (Unseen.refl w).toGrown with
    memory := he.mono (List.cons_subset.mpr ⟨hm, List.nil_subset _⟩) }

theorem Sound.withLast (hs : w.Sound lent)
    (hr : w.platform.Reaches w.space.root (pathOf va) [] last)
    (ho : w.space.owns last = true) (read : w.platform.readTable last = .ok t) (i : Fin 512)
    (e : Entry) : (w.withLast last i e).Sound lent := by
  have hlast := hs.lastTable hr ho
  have hg := hs.grown_withLast ho i e
  have hreach : ∀ {q rest x}, (w.withLast last i e).platform.Reaches w.space.root q rest x ↔
      w.platform.Reaches w.space.root q rest x := hlast.reaches_setEntry read i e
  refine ⟨?_, hs.allocated, hs.aligned, ⟨?_, ?_⟩, hs.spares, ?_⟩
  · rw [hg.memory.limit]
    exact hs.machine
  · exact fun hq => hs.rooted.held (hreach.mp hq)
  · exact fun hx hq hq' => hs.rooted.once hx (hreach.mp hq) (hreach.mp hq')
  · intro q shift rest x t' hl read' leads
    refine hs.closed hl ?_ leads
    rw [← read']
    refine (hg.memory.readTable fun hc => ?_).symm
    exact Bool.false_ne_true ((hs.spares _ _ _ hl).symm.trans (AddressSpace.mem_frames.mp hc))

/-- What becomes of a space when a page is mapped in it. -/
structure Mapped (lent : Lending) (va pa : Nat) (flags : BitVec 64) (w : Mapping)
    (result : Except MemoryError Unit) (w' : Mapping) : Prop where
  sound : w'.Sound lent
  grown : ∃ new, Grown new w w'
  translate : ∀ v, w'.platform.translate w.space.root v =
    if result.isOk = true ∧ SamePath va v then leafTarget (.make pa flags) v
    else w.platform.translate w.space.root v
  events : w'.platform.events =
    if result.isOk = true then (w.platform.events.push .masked).push (.flush va)
    else w.platform.events.push .masked
  keeps : ∀ {q rest flags'}, w.platform.Link w.space.root q rest flags' →
    w'.platform.Link w.space.root q rest flags'
  links : ∀ {q rest flags'}, w'.platform.Link w.space.root q rest flags' →
    w.platform.Link w.space.root q rest flags' ∨
      flags' = linkFlags flags ∧ AgreeAbove rest (pathOf va) q
  shows : ∀ {q rest x}, w'.platform.Reaches w.space.root q rest x →
    w.platform.Reaches w.space.root q rest x ∨ w.platform.Shows x
  leaf : result = .ok () → ∃ last t, w'.platform.Reaches w.space.root (pathOf va) [] last ∧
    w'.platform.readTable last = .ok t ∧ t.get (pathOf va pageShift) = .make pa flags
  owns : result = .ok () → ∀ last, w'.platform.Reaches w.space.root (pathOf va) [] last →
    w'.space.owns last = true
  plain : result = .ok () → ∀ {rest flags'}, w'.platform.Link w.space.root (pathOf va) rest flags' →
    flags'.getLsbD 7 = false

theorem Sound.mask (hs : w.Sound lent) :
    ({ w with platform := w.platform.mask } : Mapping).Sound lent := hs.emit .masked

theorem grown_emit (w : Mapping) (e : Event) :
    Grown [] w { w with platform := w.platform.emit e } :=
  { (Unseen.refl w).toGrown with memory := ⟨⟨rfl, rfl⟩, fun _ _ => rfl⟩ }

/-- How mapping a page comes to its end: the way cannot be made the space's own or be completed,
or its last table cannot be read, or the entry is written. -/
inductive MapEnd (va pa : Nat) (flags : BitVec 64) (w : Mapping) :
    Except MemoryError Unit × Mapping → Prop
  | shared {e : MemoryError} {w₁ : Mapping}
      (privatized : privatize { w with platform := w.platform.mask } va = (.error e, w₁)) :
      MapEnd va pa flags w (.error e, w₁)
  | broken {e : MemoryError} {w₁ w₂ : Mapping}
      (privatized : privatize { w with platform := w.platform.mask } va = (.ok (), w₁))
      (linked : linkWay flags va linkShifts w₁.space.root w₁ = (.error e, w₂)) :
      MapEnd va pa flags w (.error e, w₂)
  | hidden {e : PlatformError} {last : Nat} {w₁ w₂ : Mapping}
      (privatized : privatize { w with platform := w.platform.mask } va = (.ok (), w₁))
      (linked : linkWay flags va linkShifts w₁.space.root w₁ = (.ok last, w₂))
      (read : w₂.platform.readTable last = .error e) :
      MapEnd va pa flags w (.error (.platform e), w₂)
  | written {t : Table} {last : Nat} {w₁ w₂ : Mapping}
      (privatized : privatize { w with platform := w.platform.mask } va = (.ok (), w₁))
      (linked : linkWay flags va linkShifts w₁.space.root w₁ = (.ok last, w₂))
      (read : w₂.platform.readTable last = .ok t) :
      MapEnd va pa flags w (.ok (), { w₂ with platform :=
        (w₂.platform.setEntry last (pathOf va pageShift) (.make pa flags)).flush va })

theorem map_end (w : Mapping) (va pa : Nat) (flags : BitVec 64) :
    MapEnd va pa flags w (w.map va pa flags) := by
  unfold Mapping.map
  cases hpriv : privatize { w with platform := w.platform.mask } va with
  | mk result w₁ =>
    cases result with
    | error e => exact .shared hpriv
    | ok _ =>
      dsimp only
      unfold Platform.map
      cases hlink : linkFrom takeTable (linkFlags flags) va linkShifts w₁.space.root w₁.platform
        (w₁.frames, w₁.space) with
      | mk result r =>
        have hway : linkWay flags va linkShifts w₁.space.root w₁ =
            (result, ⟨r.1, r.2.1, r.2.2⟩) := by rw [linkWay, hlink]
        cases result with
        | error e => exact .broken hpriv hway
        | ok last =>
          dsimp only
          cases read : r.1.readTable last with
          | error e => exact .hidden hpriv hway read
          | ok t => exact .written hpriv hway read

/-- The space has come as far as a table of the last level, or not, and no page is mapped yet. -/
structure Prepared (lent : Lending) (va : Nat) (flags : BitVec 64) (w w' : Mapping) : Prop where
  sound : w'.Sound lent
  unseen : ∃ new, Unseen new { w with platform := w.platform.mask } w'
  links : ∀ {q rest flags'}, w'.platform.Link w.space.root q rest flags' →
    w.platform.Link w.space.root q rest flags' ∨
      flags' = linkFlags flags ∧ AgreeAbove rest (pathOf va) q
  shows : ∀ {q rest x}, w'.platform.Reaches w.space.root q rest x →
    w.platform.Reaches w.space.root q rest x ∨ w.platform.Shows x

theorem Prepared.of_failure {w' : Mapping} {pa : Nat} {flags : BitVec 64}
    (h : Prepared lent va flags w w') (e : MemoryError) :
    Mapped lent va pa flags w (.error e) w' := by
  obtain ⟨new, hu⟩ := h.unseen
  refine ⟨h.sound, ⟨_, (grown_emit w .masked).trans hu.toGrown⟩, fun v => ?_, ?_,
    fun hq => hu.links (link_emit.mpr hq), h.links, h.shows, nofun, nofun, nofun⟩
  · rw [hu.translate, Platform.mask, translate_emit]
    simp [Except.isOk, Except.toBool]
  · rw [hu.events]
    rfl

theorem Prepared.written {w' : Mapping} {pa : Nat} {flags : BitVec 64}
    (h : Prepared lent va flags w w')
    (hr : w'.platform.Reaches w'.space.root (pathOf va) [] last)
    (ho : w'.space.owns last = true) (read : w'.platform.readTable last = .ok t)
    (plain : ∀ {rest flags'}, w'.platform.Link w'.space.root (pathOf va) rest flags' →
      flags'.getLsbD 7 = false) :
    Mapped lent va pa flags w (.ok ()) { w' with platform :=
      (w'.platform.setEntry last (pathOf va pageShift) (.make pa flags)).flush va } := by
  obtain ⟨new, hu⟩ := h.unseen
  have hroot : w'.space.root = w.space.root := hu.root
  have hlast := h.sound.lastTable hr ho
  have hwrite := h.sound.withLast hr ho read (pathOf va pageShift) (.make pa flags)
  have hgrown := h.sound.grown_withLast ho (pathOf va pageShift) (.make pa flags)
  have hlink : ∀ {q rest flags'},
      ((w'.platform.setEntry last (pathOf va pageShift) (.make pa flags)).flush va).Link
        w'.space.root q rest flags' ↔ w'.platform.Link w'.space.root q rest flags' :=
    link_emit.trans (hlast.link_setEntry read _ _)
  have hreach : ∀ {q rest x},
      ((w'.platform.setEntry last (pathOf va pageShift) (.make pa flags)).flush va).Reaches
        w'.space.root q rest x ↔ w'.platform.Reaches w'.space.root q rest x :=
    reaches_emit.trans (hlast.reaches_setEntry read _ _)
  rw [hroot] at hlink hreach
  refine ⟨hwrite.emit (.flush va), ⟨_, ((grown_emit w .masked).trans hu.toGrown).trans
    (hgrown.trans (grown_emit _ (.flush va)))⟩, fun v => ?_, ?_,
    fun hq => hlink.mpr (hu.links (link_emit.mpr hq)), fun hq => h.links (hlink.mp hq),
    fun hq => h.shows (hreach.mp hq),
    fun _ => ⟨last, t.set (pathOf va pageShift) (.make pa flags), ?_, ?_, ?_⟩,
    fun _ x hx => ?_, fun _ _ _ hl => plain (hroot ▸ hlink.mp hl)⟩
  · have ht := hlast.translate_setEntry read (.make pa flags) v
    have hold := hu.translate v
    rw [hroot] at ht
    rw [Platform.flush, translate_emit, ht, hold, Platform.mask, translate_emit]
    simp [Except.isOk, Except.toBool]
  · have he := hu.events
    simp [Except.isOk, Except.toBool, Platform.flush, Platform.emit, setEntry, he, Platform.mask]
  · rw [hroot] at hr
    exact hreach.mpr hr
  · have hread := Platform.readTable_setEntry read (pathOf va pageShift) (.make pa flags) last
    rwa [if_pos rfl] at hread
  · rw [Table.get_set, if_pos rfl]
  · rw [hroot] at hr
    rwa [(hreach.mp hx).unique hr]

section Window

variable {w₁ w₂ : Mapping} {window : Nat} {flags : BitVec 64}

theorem prepared_privatize {result : Except MemoryError Unit} (hs : (w.through window).Sound lent)
    (hw : w.platform.Within window)
    (hlent : ∀ rest table, lent (pathOf va) rest table → w.space.sharesSlotOf va = true)
    (hp : privatize { w with platform := w.platform.mask } va = (result, w₁))
    (hspares : w₁.space.Spares lent) :
    Prepared lent va flags (w.through window) (w₁.through window) ∧ w₁.platform.Within window ∧
      (result = .ok () →
        w₁.space.HoldsWay (w₁.through window).platform va linkShifts w₁.space.root) := by
  have hmasked : (({ w with platform := w.platform.mask } : Mapping).through window).Sound lent :=
    hs.mask
  have hspec := privatize_spec hmasked hw hlent (by rw [hp]; exact hspares)
  rw [hp] at hspec
  obtain ⟨hs₁, ⟨new, hu⟩, -, hlinks, hshows, hholds⟩ := hspec
  have hroot : w₁.space.root = w.space.root := hu.root
  have hextent := sameMachine_privatize { w with platform := w.platform.mask } va
  rw [hp] at hextent
  have hw₁ : w₁.platform.Within window := hw.congr ⟨hextent.window, hextent.size⟩
  rw [hroot]
  exact ⟨⟨hs₁, ⟨new, hu⟩, fun hq => .inl (link_emit.mp (hlinks hq)),
    fun hq => (hshows hq).imp reaches_emit.mp id⟩, hw₁, hholds⟩

theorem prepared_linkWay {result : Except MemoryError Nat} (hs : (w.through window).Sound lent)
    (hw : w.platform.Within window)
    (hlent : ∀ rest table, lent (pathOf va) rest table → w.space.sharesSlotOf va = true)
    (hp : privatize { w with platform := w.platform.mask } va = (.ok (), w₁))
    (hl : linkWay flags va linkShifts w₁.space.root w₁ = (result, w₂))
    (hspares : w₂.space.Spares lent) :
    Prepared lent va flags (w.through window) (w₂.through window) ∧ w₂.platform.Within window ∧
      ∀ last, result = .ok last →
        (w₂.through window).platform.Reaches w₂.space.root (pathOf va) [] last ∧
          w₂.space.owns last = true ∧
          ∀ {rest flags'}, (w₂.through window).platform.Link w₂.space.root (pathOf va) rest flags' →
            flags'.getLsbD 7 = false := by
  have htakes : Takes w₁ (linkWay flags va linkShifts w₁.space.root w₁).2 := takes_linkWay ..
  have hextent := sameMachine_linkWay flags va linkShifts w₁.space.root w₁
  rw [hl] at htakes hextent
  have hspares₁ := spares_of_takes hspares htakes
  obtain ⟨⟨hs₁, ⟨_, hu₁⟩, hlinks₁, hshows₁⟩, hw₁, hholds⟩ :=
    prepared_privatize hs hw hlent hp hspares₁
  have hspec := linkWay_spec flags hs₁ hw₁ .root w₁.space.owns_root (hholds rfl)
    (by rw [hl]; exact hspares)
  rw [hl] at hspec
  obtain ⟨hs₂, ⟨_, hu₂⟩, hlinks₂, hshows₂, harrives, hplain⟩ := hspec
  have hroot₁ : w₁.space.root = w.space.root := hu₁.root
  have hroot₂ : w₂.space.root = w₁.space.root := hu₂.root
  rw [hroot₂]
  refine ⟨⟨hs₂, ⟨_, hu₁.trans hu₂⟩, fun hq => ?_, fun hq => ?_⟩, hw₁.congr hextent.toSameExtent,
    fun last hok => ⟨(harrives last hok).1, (harrives last hok).2, fun {rest flags'} hl => ?_⟩⟩
  · rcases hlinks₂ (hroot₁ ▸ hq) with hold | hnew
    · exact hlinks₁ (hroot₁ ▸ hold)
    · exact .inr hnew
  · rcases hshows₂ (hroot₁ ▸ hq) with hold | hshow
    · exact hshows₁ (hroot₁ ▸ hold)
    · exact .inr (hu₁.memory.toSameExtent.shows.mp hshow)
  · refine hplain last hok (hl.length_lt) hl

theorem sameMachine_map (w : Mapping) (va pa : Nat) (flags : BitVec 64) :
    SameMachine w.platform (w.map va pa flags).2.platform := by
  have hmask := sameMachine_emit w.platform .masked
  have hprivatize := hmask.trans (sameMachine_privatize { w with platform := w.platform.mask } va)
  have hlink := fun w₁ : Mapping => sameMachine_linkWay flags va linkShifts w₁.space.root w₁
  have hend := map_end w va pa flags
  generalize w.map va pa flags = r at hend ⊢
  cases hend with
  | shared privatized =>
    rw [privatized] at hprivatize
    exact hprivatize
  | @broken _ w₁ _ privatized linked | @hidden _ _ w₁ _ privatized linked _ =>
    have hlink := hlink w₁
    rw [privatized] at hprivatize
    rw [linked] at hlink
    exact hprivatize.trans hlink
  | @written _ last w₁ w₂ privatized linked _ =>
    have hlink := hlink w₁
    rw [privatized] at hprivatize
    rw [linked] at hlink
    have hwrite := sameMachine_setEntry w₂.platform last (pathOf va pageShift) (.make pa flags)
    exact ((hprivatize.trans hlink).trans hwrite).trans (sameMachine_emit _ (.flush va))

/-- Mapping a page goes its way in a window. What comes of it is sound through any window that
shows at least as much, unless the space has got a lent table. -/
theorem map_spec (va pa : Nat) (flags : BitVec 64) (hs : (w.through window).Sound lent)
    (hw : w.platform.Within window)
    (hlent : ∀ rest table, lent (pathOf va) rest table → w.space.sharesSlotOf va = true)
    (hspares : (w.map va pa flags).2.space.Spares lent) :
    Mapped lent va pa flags (w.through window) (w.map va pa flags).1
      ((w.map va pa flags).2.through window) := by
  have hend := map_end w va pa flags
  generalize w.map va pa flags = r at hend hspares ⊢
  cases hend with
  | shared privatized =>
    exact (prepared_privatize hs hw hlent privatized hspares).1.of_failure _
  | broken privatized linked =>
    exact (prepared_linkWay hs hw hlent privatized linked hspares).1.of_failure _
  | hidden privatized linked read =>
    exact (prepared_linkWay hs hw hlent privatized linked hspares).1.of_failure _
  | @written t last w₁ w₂ privatized linked read =>
    have hspares₂ : w₂.space.Spares lent := hspares
    obtain ⟨h₂, hw₂, harrives⟩ := prepared_linkWay hs hw hlent privatized linked hspares₂
    obtain ⟨hr, ho, hplain⟩ := harrives last rfl
    exact h₂.written hr ho (readTable_through hw₂ read) hplain

theorem Sound.map (hs : w.Sound lent) (va pa : Nat) (flags : BitVec 64)
    (hlent : ∀ rest table, lent (pathOf va) rest table → w.space.sharesSlotOf va = true)
    (hspares : (w.map va pa flags).2.space.Spares lent) :
    Mapped lent va pa flags w (w.map va pa flags).1 (w.map va pa flags).2 := by
  have hmap := map_spec va pa flags hs.through_window (within_window _) hlent hspares
  rwa [through_of_window (sameMachine_map w va pa flags).window] at hmap

end Window

theorem holdsWay_of_borrowsFrom {s : AddressSpace} {m : Platform} {shifts : List Nat}
    {table : Nat} (h : s.borrowsFrom m va shifts table = false) :
    s.HoldsWay m va shifts table := by
  induction shifts generalizing table with
  | nil => trivial
  | cons shift rest ih =>
    intro t read present huge
    simp only [pathOf] at present huge ⊢
    rw [AddressSpace.borrowsFrom, read] at h
    simp only [present, huge, Bool.not_true, Bool.false_or, Bool.false_eq_true, if_false] at h
    split at h
    · next howns => exact ⟨howns, ih h⟩
    · cases h

theorem Sound.holdsWay_of_borrows (hs : w.Sound lent)
    (hlent : ∀ rest table, lent (pathOf va) rest table → w.space.sharesSlotOf va = true)
    (hb : w.space.borrows w.platform va = false) :
    w.space.HoldsWay w.platform va linkShifts w.space.root := by
  rw [AddressSpace.borrows, Bool.and_eq_false_iff] at hb
  rcases hb with hb | hb
  · refine hs.holdsWay (fun rest table hl => ?_) .root
    exact Bool.false_ne_true (hb.symm.trans (hlent rest table hl))
  · exact holdsWay_of_borrowsFrom hb

/-- Unmapping clears the last entry of a way that the space holds, if there is one, and changes
nothing otherwise. -/
theorem unmapFrom_spec {shifts : List Nat} {table : Nat}
    (hr : w.platform.Reaches w.space.root (pathOf va) shifts table)
    (ho : w.space.owns table = true) (hw : w.space.HoldsWay w.platform va shifts table) :
    w.platform.unmapFrom va shifts table = (none, w.platform) ∨
      ∃ last t, w.platform.Reaches w.space.root (pathOf va) [] last ∧
        w.space.owns last = true ∧ w.platform.readTable last = .ok t ∧
        (t.get (pathOf va pageShift)).present = true ∧
        w.platform.unmapFrom va shifts table =
          (some (t.get (pathOf va pageShift)).address,
            w.platform.setEntry last (pathOf va pageShift) .empty) := by
  induction shifts generalizing table with
  | nil =>
    rw [unmapFrom]
    cases read : w.platform.readTable table with
    | error e => exact .inl rfl
    | ok t =>
      dsimp only
      split
      · next present => exact .inr ⟨table, t, hr, ho, read, present, rfl⟩
      · exact .inl rfl
  | cons shift rest ih =>
    rw [unmapFrom]
    cases read : w.platform.readTable table with
    | error e => exact .inl rfl
    | ok t =>
      dsimp only
      split
      · exact .inl rfl
      · next hgo =>
        simp only [Bool.or_eq_true, Bool.not_eq_true', not_or, Bool.not_eq_false,
          Bool.not_eq_true] at hgo
        obtain ⟨present, huge⟩ := hgo
        obtain ⟨howns, hway⟩ := hw t read present huge
        exact ih (hr.link read (Entry.leads_of_link present huge)) howns hway

end Mapping

end KernelCore
