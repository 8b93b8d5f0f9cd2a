import Mathlib
import KernelCore.Proofs.Paging.FixedWindow
import KernelCore.Proofs.Paging.MapLaw
import KernelCore.Proofs.Paging.PageWalk

/-!
# Unmapping a page

A space owns a page if it owns every table on the walk to it and the walk comes to a present entry
through links. Unmapping clears such a page, flushes it and changes nothing else. In all other cases
it changes nothing at all, so mappings of the kernel cannot be cleared through a space.
-/
namespace KernelCore
open Platform

/-- An entry that is read on the walk to a page of the space: it is in a table of the space, it is
present, and above the last level it is a link. -/
def AddressSpace.Passes (s : AddressSpace) (x : Read) : Prop :=
  s.owns x.table = true ∧ x.entry.present = true ∧ (x.shift ≠ pageShift → x.entry.huge = false)

instance (s : AddressSpace) (x : Read) : Decidable (s.Passes x) :=
  inferInstanceAs (Decidable (_ ∧ _))

/-- The walk to `va` comes to a present entry through tables of the space. -/
def Paging.OwnPage (p : Paging) (s : AddressSpace) (va : Nat) : Prop :=
  ∀ x ∈ p.platform.pageWalk s.root va, s.Passes x

instance (p : Paging) (s : AddressSpace) (va : Nat) : Decidable (p.OwnPage s va) :=
  inferInstanceAs (Decidable (∀ x ∈ _, _))

namespace Platform

variable {m : Platform} {s : AddressSpace} {va v root table last shift : Nat} {t : Table}
  {shifts rest : List Nat} {frame : Nat} {m' : Platform}

theorem readAt_entry (read : m.readTable table = .ok t) :
    (m.readAt va shift table).entry = t.get (pathOf va shift) := by
  rw [readAt, (readTable_eq_ok.mp read).2.2]
  rfl

theorem pageWalkFrom_nil (m : Platform) (va table : Nat) :
    m.pageWalkFrom va ([] ++ [pageShift]) table = [m.readAt va pageShift table] := by
  simp [pageWalkFrom]

theorem Reaches.ne_pageShift {path : Path} (h : m.Reaches root path (shift :: rest) table) :
    shift ≠ pageShift := by
  rintro rfl
  have hm := h.suffix.subset (List.mem_cons_self ..)
  simp [linkShifts, pageShift] at hm

theorem owns_of_passes (hx : ∀ x ∈ m.pageWalkFrom va (shifts ++ [pageShift]) table, s.Passes x) :
    s.owns table = true := by
  cases shifts with
  | nil => exact (hx _ (List.mem_cons_self ..)).1
  | cons shift rest => exact (hx _ (List.mem_cons_self ..)).1

theorem passes_cons (read : m.readTable table = .ok t)
    (present : (t.get (pathOf va shift)).present = true)
    (huge : (t.get (pathOf va shift)).huge = false) (ho : s.owns table = true) :
    (∀ x ∈ m.pageWalkFrom va (shift :: rest ++ [pageShift]) table, s.Passes x) ↔
      ∀ x ∈ m.pageWalkFrom va (rest ++ [pageShift]) (t.get (pathOf va shift)).address,
        s.Passes x := by
  have hentry : (m.readAt va shift table).entry = t.get (pathOf va shift) := readAt_entry read
  have hpass : s.Passes (m.readAt va shift table) := by
    rw [AddressSpace.Passes, hentry]
    exact ⟨ho, present, fun _ => huge⟩
  rw [List.cons_append, pageWalkFrom]
  simp only [hentry, present, huge, Bool.not_false, Bool.and_self, if_true, Entry.join_zero,
    List.forall_mem_cons]
  exact ⟨fun h => h.2, fun h => ⟨hpass, h⟩⟩

/-- Where the space passes, the walk that looks for tables of others finds none, and the one that
clears the page comes to its last entry. -/
theorem arrives (hreads : ∀ rest table, m.Reaches s.root (pathOf va) rest table →
      s.owns table = true → m.Shows table)
    (hr : m.Reaches s.root (pathOf va) shifts table)
    (hx : ∀ x ∈ m.pageWalkFrom va (shifts ++ [pageShift]) table, s.Passes x) :
    s.borrowsFrom m va shifts table = false ∧
      ∃ last t, m.Reaches s.root (pathOf va) [] last ∧ s.owns last = true ∧
        m.readTable last = .ok t ∧ (t.get (pathOf va pageShift)).present = true ∧
        m.unmapFrom va shifts table = (some (t.get (pathOf va pageShift)).address,
          m.setEntry last (pathOf va pageShift) .empty) := by
  induction shifts generalizing table with
  | nil =>
    rw [pageWalkFrom_nil, List.forall_mem_singleton] at hx
    obtain ⟨ho, hp, -⟩ := hx
    obtain ⟨t, read⟩ := hreads [] table hr ho
    rw [readAt_entry read] at hp
    refine ⟨rfl, table, t, hr, ho, read, hp, ?_⟩
    simp only [pathOf] at hp
    simp only [unmapFrom, read, hp, if_true, pathOf]
  | cons shift rest ih =>
    obtain ⟨ho, hp, hh⟩ := hx (m.readAt va shift table) (List.mem_cons_self ..)
    obtain ⟨t, read⟩ := hreads _ table hr ho
    have hh := hh hr.ne_pageShift
    rw [readAt_entry read] at hp hh
    have hx := (passes_cons read hp hh ho).mp hx
    have howns := owns_of_passes hx
    obtain ⟨hb, harrive⟩ := ih (hr.link read (Entry.leads_of_link hp hh)) hx
    simp only [pathOf] at hp hh howns hb
    constructor
    · simp only [AddressSpace.borrowsFrom, read, hp, hh, howns, hb, Bool.not_true, Bool.or_self,
        Bool.false_eq_true, if_false, if_true]
    · simp only [unmapFrom, read, hp, hh, Bool.not_true, Bool.or_self, Bool.false_eq_true,
        if_false]
      exact harrive

/-- Along a way that the space holds, a page is cleared only if the space passes. -/
theorem passes_of_unmapFrom (ho : s.owns table = true) (hway : s.HoldsWay m va shifts table)
    (h : m.unmapFrom va shifts table = (some frame, m')) :
    ∀ x ∈ m.pageWalkFrom va (shifts ++ [pageShift]) table, s.Passes x := by
  induction shifts generalizing table with
  | nil =>
    rw [unmapFrom] at h
    split at h
    · cases h
    · next t read =>
      dsimp only at h
      split at h
      · next hp =>
        rw [pageWalkFrom_nil, List.forall_mem_singleton, AddressSpace.Passes, readAt_entry read]
        exact ⟨ho, hp, fun hne => absurd rfl hne⟩
      · cases h
  | cons shift rest ih =>
    rw [unmapFrom] at h
    split at h
    · cases h
    · next t read =>
      dsimp only at h
      split at h
      · cases h
      · next hgo =>
        simp only [Bool.or_eq_true, Bool.not_eq_true', not_or, Bool.not_eq_false,
          Bool.not_eq_true] at hgo
        obtain ⟨howns, hbelow⟩ := hway t read hgo.1 hgo.2
        exact (passes_cons read hgo.1 hgo.2 ho).mpr (ih howns hbelow h)

theorem pageWalkFrom_congr (hv : ∀ shift ∈ shifts, pathOf va shift = pathOf v shift) :
    m.pageWalkFrom va shifts table = m.pageWalkFrom v shifts table := by
  induction shifts generalizing table with
  | nil => rfl
  | cons shift rest ih =>
    have hread : m.readAt va shift table = m.readAt v shift table := by
      have hi : tableIndex shift va = tableIndex shift v := hv shift (List.mem_cons_self ..)
      rw [readAt, readAt, hi]
    rw [pageWalkFrom, pageWalkFrom, hread, ih fun s hs => hv s (List.mem_cons_of_mem _ hs)]

theorem pageWalk_congr (hv : SamePath va v) : m.pageWalk root va = m.pageWalk root v :=
  pageWalkFrom_congr fun shift hs => hv shift (by simpa [or_comm] using hs)

theorem translateFrom_none (hv : ∀ shift ∈ pageShift :: shifts, pathOf va shift = pathOf v shift)
    (h : m.translateFrom va shifts table = .ok none) :
    m.translateFrom v shifts table = .ok none := by
  have hphysical : ∀ n, physical n ≠ .ok none := by
    intro n
    unfold physical
    split <;> simp
  induction shifts generalizing table with
  | nil =>
    have hi : tableIndex pageShift va = tableIndex pageShift v := hv _ (List.mem_cons_self ..)
    rw [translateFrom] at h ⊢
    cases read : m.readTable table with
    | error e => rfl
    | ok t =>
      simp only [read, hi] at h ⊢
      split at h
      · exact absurd h (hphysical _)
      · next hp => rw [if_neg hp]
  | cons shift rest ih =>
    have hi : tableIndex shift va = tableIndex shift v :=
      hv _ (List.mem_cons_of_mem _ (List.mem_cons_self ..))
    have hrest : ∀ s ∈ pageShift :: rest, pathOf va s = pathOf v s := fun s hs =>
      hv s (by
        rcases List.mem_cons.mp hs with rfl | hs
        · exact List.mem_cons_self ..
        · exact List.mem_cons_of_mem _ (List.mem_cons_of_mem _ hs))
    rw [translateFrom] at h ⊢
    cases read : m.readTable table with
    | error e => rfl
    | ok t =>
      simp only [read, hi] at h ⊢
      split at h
      · next hp => rw [if_pos hp]
      · next hp =>
        rw [if_neg hp]
        split at h
        · exact absurd h (hphysical _)
        · next hh =>
          rw [if_neg hh]
          exact ih hrest h

theorem translate_none (hv : SamePath va v) (h : m.translate root va = .ok none) :
    m.translate root v = .ok none := translateFrom_none hv h

theorem Last.translate (h : m.Last root va last) (read : m.readTable last = .ok t)
    (hv : SamePath va v) : m.translate root v = leafTarget (t.get (pathOf va pageShift)) v := by
  have hagree : AgreeAbove [] (pathOf va) (pathOf v) :=
    agreeAbove_nil.mpr fun shift hs => hv shift (List.mem_cons_of_mem _ hs)
  have hi : tableIndex pageShift v = pathOf va pageShift := (hv _ (List.mem_cons_self ..)).symm
  rw [translate_of_reaches (h.reach.agree hagree), translateFrom, read]
  dsimp only
  rw [hi]
  rfl

end Platform

namespace Mapping

variable {w : Mapping} {lent : Lending} {va last : Nat} {t : Table} {rest : List Nat} {table : Nat}

theorem Sound.passes_above (hs : w.Sound lent)
    (plain : ∀ rest flags, w.platform.Link w.space.root (pathOf va) rest flags →
      flags.getLsbD 7 = false)
    (hr : w.platform.Reaches w.space.root (pathOf va) rest table)
    (hx : ∀ x ∈ w.platform.pageWalkFrom va (rest ++ [pageShift]) table, w.space.Passes x) :
    ∀ x ∈ w.platform.pageWalk w.space.root va, w.space.Passes x := by
  induction hr with
  | root => exact hx
  | @link shift rest table t above read leads ih =>
    have hp : (t.get (pathOf va shift)).present = true := by
      simp only [Entry.leads, Bool.and_eq_true] at leads
      exact leads.1
    have hh : (t.get (pathOf va shift)).huge = false := by
      rw [← Entry.flags_huge]
      exact plain _ _ ⟨shift, table, t, above, read, leads, rfl⟩
    -- a lent table leads to lent ones only
    have ho : w.space.owns table = true := by
      refine (hs.rooted.held above).resolve_right fun hl => ?_
      have hbelow := hs.spares _ _ _ (hs.closed hl read leads)
      exact Bool.false_ne_true (hbelow.symm.trans (owns_of_passes hx))
    exact ih ((passes_cons read hp hh ho).mpr hx)

end Mapping

namespace Paging

variable {p : Paging} {s : AddressSpace} {others : List AddressSpace} {template : Set Nat}
  {va u : Nat}

theorem Reads.mask (h : p.Reads s) :
    ({ p with platform := p.platform.mask } : Paging).Reads s := h.congr ⟨fun _ => rfl⟩

theorem Separate.unmap_of_ownPage (h : p.Separate template (s :: others)) (hreads : p.Reads s)
    (hown : p.OwnPage s va) :
    ∃ last t, p.platform.Last s.root va last ∧ p.platform.readTable last = .ok t ∧
      (t.get (pathOf va pageShift)).present = true ∧
      (p.platform.unmap s.root va).1 = some (t.get (pathOf va pageShift)).address ∧
      p.unmap s va = { p with platform :=
        (p.platform.mask.setEntry last (pathOf va pageShift) .empty).flush va } := by
  obtain ⟨-, last, t, hr, ho, read, hp, heq⟩ := arrives (fun rest table => hreads _ rest table)
    .root hown
  obtain ⟨hborrows, last', t', hr', -, read', -, heq'⟩ := arrives
    (fun rest table => hreads.mask _ rest table) .root hown
  obtain rfl := (reaches_emit.mp hr').unique hr
  cases read.symm.trans read'
  refine ⟨last', t, h.mapping.lastTable hr ho, read, hp, by rw [Platform.unmap, heq], ?_⟩
  rw [Paging.unmap, AddressSpace.borrows, hborrows, Bool.and_false, if_neg Bool.false_ne_true,
    Platform.unmap, heq']

theorem Separate.unmap_of_not_ownPage (h : p.Separate template (s :: others))
    (hown : ¬ p.OwnPage s va) : p.unmap s va = { p with platform := p.platform.mask } := by
  rw [Paging.unmap]
  split
  · rfl
  · next hb =>
    have hway : s.HoldsWay p.platform.mask va linkShifts s.root :=
      h.mask.mapping.holdsWay_of_borrows (fun _ _ hl => hl.1) (Bool.not_eq_true _ ▸ hb)
    rcases Mapping.unmapFrom_spec (w := ⟨p.platform.mask, p.frames, s⟩) .root s.owns_root hway with
      heq | ⟨_, _, -, -, -, -, heq⟩
    · rw [Platform.unmap, heq]
    · exact absurd (passes_of_unmapFrom s.owns_root hway heq) hown

theorem Separate.translate_unmap (h : p.Separate template (s :: others)) (va : Nat)
    (hreads : p.Reads s) (v : Nat) :
    (p.unmap s va).translate s v =
      if p.OwnPage s va ∧ SamePath va v then .ok none else p.translate s v := by
  by_cases hown : p.OwnPage s va
  · obtain ⟨last, t, hlast, read, -, -, heq⟩ := h.unmap_of_ownPage hreads hown
    have ht : (p.platform.setEntry last (pathOf va pageShift) .empty).translate s.root v =
        if SamePath va v then .ok none else p.platform.translate s.root v :=
      hlast.translate_setEntry read .empty v
    rw [heq, translate, translate]
    simp only [hown, true_and, ← ht]
    exact translate_congr fun _ => rfl
  · rw [h.unmap_of_not_ownPage hown, if_neg fun hc => hown hc.1]
    exact translate_emit ..

theorem ownPage_of_mapped {lent : Lending} {pa : Nat} {flags : BitVec 64} {w w' : Mapping}
    (hm : Mapping.Mapped lent va pa flags w (.ok ()) w') (hroot : w'.space.root = w.space.root)
    (hp : (Entry.make pa flags).present = true) :
    ∀ x ∈ w'.platform.pageWalk w'.space.root va, w'.space.Passes x := by
  obtain ⟨last, t, hr, read, hleaf⟩ := hm.leaf rfl
  have ho := hm.owns rfl last hr
  have hplain : ∀ rest flags, w'.platform.Link w.space.root (pathOf va) rest flags →
      flags.getLsbD 7 = false := fun _ _ hl => hm.plain rfl hl
  rw [← hroot] at hr hplain
  refine hm.sound.passes_above hplain hr ?_
  rw [pageWalkFrom_nil, List.forall_mem_singleton, AddressSpace.Passes, readAt_entry read, hleaf]
  exact ⟨ho, hp, fun hne => absurd rfl hne⟩

theorem Separate.unmap_map (h : p.Separate template (s :: others)) (hreads : p.Reads s) {pa : Nat}
    {flags : BitVec 64} {s' : AddressSpace} {p' : Paging}
    (hmap : p.map s va pa flags = (.ok (), s', p'))
    (ht : ∀ table ∈ template, s'.owns table = false) (hu : SamePath va u)
    (hnone : p.translate s va = .ok none) (v : Nat) :
    (p'.unmap s' u).translate s' v = p.translate s v := by
  have hreads' : (p.map s va pa flags).2.2.Reads (p.map s va pa flags).2.1 :=
    h.reads_map hreads pa flags (by rwa [hmap])
  rw [hmap] at hreads'
  rw [map_eq] at hmap
  obtain ⟨hresult, rfl, rfl⟩ : _ ∧ _ ∧ _ := by simpa using hmap
  have hm := h.through_window.map_narrow (within_window _) va pa flags ht
  obtain ⟨new, hg⟩ := hm.grown
  rw [hresult] at hm
  have h' := h.adopt hg hm.sound ht
  have hmapped : (p.adopt ((p.mapping s).map va pa flags).2).translate
      ((p.mapping s).map va pa flags).2.space v =
        if SamePath va v then leafTarget (.make pa flags) v else p.translate s v := by
    have hv := hm.translate v
    simp only [Except.isOk, Except.toBool, true_and] at hv
    rw [translate, hg.root]
    exact hv
  have hsame : SamePath u v ↔ SamePath va v :=
    ⟨fun hv shift hs => (hu shift hs).trans (hv shift hs),
      fun hv shift hs => (hu shift hs).symm.trans (hv shift hs)⟩
  rw [h'.translate_unmap u hreads', hmapped]
  by_cases hv : SamePath va v
  · have hpage : p.translate s v = .ok none := translate_none hv hnone
    rw [if_pos hv]
    split
    · exact hpage.symm
    · next hown =>
      have hp : (Entry.make pa flags).present = false := by
        rw [← Bool.not_eq_true]
        refine fun hp => hown ⟨?_, hsame.mpr hv⟩
        have hpass := ownPage_of_mapped hm hg.root hp
        rwa [pageWalk_congr hu] at hpass
      rw [leafTarget, hp, if_neg Bool.false_ne_true, hpage]
  · rw [if_neg fun hc => hv (hsame.mp hc.2), if_neg hv]

end Paging

namespace Spaces

variable {w : Spaces} {i : Nat} {s : AddressSpace} {m : Platform} {a : FrameAllocator}
  {template : Set Nat}

/-- Unmapping a page that the live space `i` owns takes the page from it, and nothing else changes.
Unmapping any other page changes no memory and flushes nothing. Mapping a page that was not mapped
is undone. Only memory that physical addresses can name is reached. -/
theorem unmap_law (hm : m.limit ≤ physicalBound)
    (h : Reachable (SparesThroughout template) (empty m a) w) (hi : w.live[i]? = some s) {va : Nat}
    (hva : Canonical va) :
    let p := w.paging
    let p' := p.unmap s va
    w.perform (.unmap i va) = .ok { w with paging := p' } ∧ p'.frames = p.frames ∧
    (p.OwnPage s va →
      (∀ v, v / pageSize = va / pageSize → p'.translate s v = .ok none) ∧
      (∀ v, Canonical v → v / pageSize ≠ va / pageSize → p'.translate s v = p.translate s v) ∧
      p'.platform.events = (p.platform.events.push .masked).push (.flush va) ∧
      ∃ frame, (p.platform.unmap s.root va).1 = some frame ∧
        p.translate s (va / pageSize * pageSize) = .ok (some frame)) ∧
    (¬ p.OwnPage s va → p'.platform.memory = p.platform.memory ∧
      p'.platform.events = p.platform.events.push .masked) ∧
    ∀ pa flags s₁ p₁, p.map s va pa flags = (.ok (), s₁, p₁) →
      (∀ table ∈ template, s₁.owns table = false) → p.translate s va = .ok none →
      ∀ u, u / pageSize = va / pageSize →
        ∀ v, (p₁.unmap s₁ u).translate s₁ v = p.translate s v := by
  intro p p'
  have hsep := (h.separate hm).perm (live_perm hi)
  have hreads := h.reads hm s (List.mem_of_getElem? hi)
  have htranslate := hsep.translate_unmap va hreads
  refine ⟨by rw [perform, withSpace, hi], (p.unmap_frames s va).1, fun hown => ?_, fun hown => ?_,
    fun pa flags s₁ p₁ hmap ht hnone u hu v =>
      hsep.unmap_map hreads hmap ht (samePath_of_page hu.symm) hnone v⟩
  · obtain ⟨last, t, hlast, read, hp, hframe, heq⟩ := hsep.unmap_of_ownPage hreads hown
    refine ⟨fun v hv => ?_, fun v hv hne => ?_, ?_, _, hframe, ?_⟩
    · exact (htranslate v).trans (if_pos ⟨hown, samePath_of_page hv.symm⟩)
    · exact (htranslate v).trans (if_neg fun hs => hne (page_of_samePath hva hv hs.2).symm)
    · rw [show p' = _ from heq]
      rfl
    · have hbase : SamePath va (va / pageSize * pageSize) :=
        samePath_of_page (Nat.mul_div_cancel _ (by decide)).symm
      have hzero : va / pageSize * pageSize % pageSize = 0 := Nat.mul_mod_left _ _
      rw [Paging.translate, hlast.translate read hbase, leafTarget, if_pos hp, Entry.physical_page,
        hzero, Nat.add_zero]
  · rw [show p' = _ from hsep.unmap_of_not_ownPage hown]
    exact ⟨rfl, rfl⟩

/-- A page that was mapped through copies of the kernel's tables, beside one of the kernel that the
copies map as well. -/
theorem unmap_law_in_copies : ∃ w s s₁ p₁,
    Reachable (SparesThroughout ∅) (ofFrames 16) w ∧ w.live[0]? = some s ∧ Canonical 0x1000 ∧
      w.paging.OwnPage s 0x1000 ∧ w.paging.translate s 5 = .ok (some 5) ∧
      (w.paging.unmap s 0x1000).translate s 0x1234 = .ok none ∧
      (w.paging.unmap s 0x1000).translate s 5 = .ok (some 5) ∧
      w.paging.map s 0x2000 0xA000 Flag.present = (.ok (), s₁, p₁) ∧
      w.paging.translate s 0x2000 = .ok none ∧
      (p₁.unmap s₁ 0x2345).translate s₁ 0x2000 = .ok none ∧
      (p₁.unmap s₁ 0x2345).translate s₁ 5 = .ok (some 5) := by
  have hrun : (((ofFrames 16).run [.setUp { identityMapLimit := pageSize }, .create, .share 0,
      .map 0 0x1000 0x9000 Flag.present]).toOption.any fun w => w.live[0]?.any fun s =>
        decide (w.paging.OwnPage s 0x1000 ∧ w.paging.translate s 5 = .ok (some 5) ∧
          (w.paging.map s 0x2000 0xA000 Flag.present).1 = .ok () ∧
          w.paging.translate s 0x2000 = .ok none)) = true := by decide +kernel
  obtain ⟨w, s, hr, hs, hrun⟩ := exists_of_run hrun
  obtain ⟨hown, hlow, hok, hnone⟩ := of_decide_eq_true hrun
  have hw : Reachable (SparesThroughout ∅) (ofFrames 16) w := by
    refine reachable_run .start (fun op hop w => ⟨?_, by simp⟩) hr
    simp only [List.mem_cons, List.not_mem_nil, or_false] at hop
    rcases hop with rfl | rfl | rfl | rfl
    · exact fun _ => ⟨by simp, by simp⟩
    · trivial
    · trivial
    · trivial
  have hmap : w.paging.map s 0x2000 0xA000 Flag.present = (.ok (),
      (w.paging.map s 0x2000 0xA000 Flag.present).2) := Prod.ext hok rfl
  obtain ⟨-, -, hcleared, -, -⟩ := unmap_law (by decide) hw hs (by decide : Canonical 0x1000)
  obtain ⟨-, -, -, -, hundone⟩ := unmap_law (by decide) hw hs (by decide : Canonical 0x2000)
  obtain ⟨hpage, hothers, -, -⟩ := hcleared hown
  have hundone := hundone 0xA000 Flag.present _ _ hmap (by simp) hnone 0x2345 (by decide)
  exact ⟨w, s, _, _, hw, hs, by decide, hown, hlow, hpage 0x1234 (by decide),
    (hothers 5 (by decide) (by decide)).trans hlow, hmap, hnone, (hundone 0x2000).trans hnone,
    (hundone 5).trans hlow⟩

/-- The kernel space took over tables of a space that was destroyed afterwards. A new space gets
their frames, reaches them through the kernel's entries as well, and loses two pages at once. -/
theorem unmap_clears_alias : ∃ w s,
    (ofFrames 8).run [.create, .map 0 0xFFFF800000000000 0x5000 Flag.present, .switchTo 0,
      .setUp { identityMapLimit := 0, inheritUpperHalf := true }, .destroy 0, .create, .share 0,
      .map 0 0 0x6000 Flag.present] = .ok w ∧ w.live[0]? = some s ∧
    w.paging.OwnPage s 0 ∧ Canonical 0xFFFF800000000000 ∧
    w.paging.translate s 0xFFFF800000000000 = .ok (some 0x6000) ∧
    (w.paging.unmap s 0).translate s 0xFFFF800000000000 = .ok none := by
  have hrun : (((ofFrames 8).run [.create, .map 0 0xFFFF800000000000 0x5000 Flag.present,
      .switchTo 0, .setUp { identityMapLimit := 0, inheritUpperHalf := true }, .destroy 0, .create,
      .share 0, .map 0 0 0x6000 Flag.present]).toOption.any fun w => w.live[0]?.any fun s =>
        decide (w.paging.OwnPage s 0 ∧
          w.paging.translate s 0xFFFF800000000000 = .ok (some 0x6000) ∧
          (w.paging.unmap s 0).translate s 0xFFFF800000000000 = .ok none)) = true := by
    decide +kernel
  obtain ⟨w, s, hr, hs, hrun⟩ := exists_of_run hrun
  obtain ⟨hown, hbefore, hafter⟩ := of_decide_eq_true hrun
  exact ⟨w, s, hr, hs, hown, by decide, hbefore, hafter⟩

end Spaces

end KernelCore
