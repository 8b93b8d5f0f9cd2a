import Mathlib
import KernelCore.Proofs.Paging.MapLaw
import KernelCore.Proofs.Paging.Windows

/-!
# Access from user mode

The processor lets user mode use a page if the user bit is set in all four entries on the walk to
it. Mapping a page for user mode sets the bit in the last entry and in the links that it makes for
it. A link that was there before keeps its flags, so the page can be used if none of those lacked
the bit.
-/
namespace KernelCore

/-- The entries that a walk reads: the links that it follows, and the one at which it ends unless
its table cannot be read. -/
structure Walk where
  links : List Entry := []
  last : Option Entry := none
  deriving DecidableEq, Repr

namespace Walk

def entries (x : Walk) : List Entry := x.links ++ x.last.toList

end Walk

namespace Platform

/-- The walk to `va` from a table at the level of the first shift on. -/
def walkFrom (m : Platform) (va : Nat) : List Nat → Nat → Walk
  | [], table =>
    match m.readTable table with
    | .error _ => {}
    | .ok t => { last := some (t.get (pathOf va pageShift)) }
  | shift :: rest, table =>
    match m.readTable table with
    | .error _ => {}
    | .ok t =>
      let e := t.get (pathOf va shift)
      if e.leads shift then
        let below := m.walkFrom va rest e.address
        { below with links := e :: below.links }
      else { last := some e }

/-- The walk to `va` under a root table. -/
def walk (m : Platform) (root va : Nat) : Walk := m.walkFrom va linkShifts root

variable {m : Platform} {root table va : Nat} {shifts rest : List Nat} {t : Table}

theorem walk_of_reaches (h : Reaches m root (pathOf va) rest table) :
    ∃ above : List Entry, above.length + rest.length = linkShifts.length ∧
      m.walk root va = { m.walkFrom va rest table with
        links := above ++ (m.walkFrom va rest table).links } := by
  induction h with
  | root => exact ⟨[], by simp, rfl⟩
  | @link shift rest table t _ read leads ih =>
    obtain ⟨above, hlength, hwalk⟩ := ih
    refine ⟨above ++ [t.get (pathOf va shift)], ?_, ?_⟩
    · simp only [List.length_append, List.length_cons, List.length_nil] at hlength ⊢
      omega
    · rw [hwalk, walkFrom, read]
      simp only [leads, if_true, List.append_assoc, List.singleton_append]

theorem exists_of_link {flags : BitVec 64} (h : Link m root (pathOf va) rest flags) :
    ∃ e ∈ (m.walk root va).links, e.flags = flags := by
  obtain ⟨shift, table, t, above, read, leads, hflags⟩ := h
  obtain ⟨es, -, hwalk⟩ := walk_of_reaches above
  refine ⟨t.get (pathOf va shift), ?_, hflags⟩
  rw [hwalk, walkFrom, read]
  simp [leads]

theorem link_of_mem {e : Entry} (h : Reaches m root (pathOf va) shifts table)
    (he : e ∈ (m.walkFrom va shifts table).links) :
    ∃ rest, Link m root (pathOf va) rest e.flags := by
  induction shifts generalizing table with
  | nil =>
    rw [walkFrom] at he
    split at he <;> cases he
  | cons shift rest ih =>
    rw [walkFrom] at he
    split at he
    · cases he
    · next t read =>
      dsimp only at he
      split at he
      · next leads =>
        rcases List.mem_cons.mp he with rfl | he
        · exact ⟨rest, shift, table, t, h, read, leads, rfl⟩
        · exact ih (h.link read leads) he
      · cases he

theorem walk_of_last (h : Reaches m root (pathOf va) [] table) (read : m.readTable table = .ok t) :
    (m.walk root va).links.length = 3 ∧
      (m.walk root va).last = some (t.get (pathOf va pageShift)) := by
  obtain ⟨above, hlength, hwalk⟩ := walk_of_reaches h
  have hthree : above.length = 3 := hlength
  rw [hwalk, walkFrom, read]
  simpa using hthree

end Platform

namespace Spaces
open Platform

variable {w : Spaces} {template : Set Nat} {i : Nat} {s s' : AddressSpace} {p' : Paging}

/-- After a page was mapped for user mode, the walk to it reads four entries, the last of which has
the user bit. They all have it exactly if all the links on the way to the page had it before. -/
theorem user_access (h : Visited template w) (hi : w.live[i]? = some s) (va pa : Nat)
    (flags : BitVec 64) (hpresent : flags &&& Flag.present ≠ 0) (huser : flags &&& Flag.user ≠ 0)
    (hmap : w.paging.map s va pa flags = (.ok (), s', p'))
    (hs : ∀ table ∈ template, s'.owns table = false) :
    let before := w.paging.platform.walk s.root va
    let after := p'.platform.walk s'.root va
    after.entries.length = 4 ∧ after.last = some (.make pa flags) ∧
      (Entry.make pa flags).present = true ∧ (Entry.make pa flags).user = true ∧
      ((∀ e ∈ after.entries, e.user = true) ↔ ∀ e ∈ before.links, e.user = true) := by
  have hsep := h.separate.perm (live_perm hi)
  rw [Paging.map_eq] at hmap
  obtain ⟨hresult, rfl, rfl⟩ : _ ∧ _ ∧ _ := by simpa using hmap
  have hm := hsep.map_narrow h.within va pa flags hs
  obtain ⟨_, hg⟩ := hm.grown
  obtain ⟨last, t, hr, read, hleaf⟩ := hm.leaf hresult
  have hroot : ((w.paging.mapping s).map va pa flags).2.space.root = s.root := hg.root
  obtain ⟨hlength, hlast⟩ := walk_of_last hr read
  rw [hleaf] at hlast
  have hflag := Flag.and_user_ne_zero.mp huser
  have hleafuser : (Entry.make pa flags).user = true := by rw [Entry.user_make, hflag]
  intro before after
  have hafter : after = ((w.paging.mapping s).map va pa flags).2.platform.walk
      (w.paging.mapping s).space.root va := by
    show Platform.walk _ _ va = _
    rw [hroot]
    rfl
  have hentries : after.entries = after.links ++ [.make pa flags] := by
    rw [Walk.entries, hafter, hlast]
    rfl
  refine ⟨?_, by rw [hafter, hlast], ?_, hleafuser, fun hall e he => ?_, fun hall e he => ?_⟩
  · rw [hentries, hafter, List.length_append, hlength]
    rfl
  · rw [Entry.present_make]
    exact Flag.and_present_ne_zero.mp hpresent
  · -- a link that was there is still there
    obtain ⟨rest, hlink⟩ := link_of_mem .root he
    obtain ⟨e', he', hflags⟩ := exists_of_link (hm.keeps hlink)
    rw [← Entry.flags_user, ← hflags, Entry.flags_user]
    refine hall e' ?_
    rw [hentries, hafter]
    exact List.mem_append_left _ he'
  · rw [hentries, List.mem_append, List.mem_singleton] at he
    rcases he with he | rfl
    · rw [hafter] at he
      obtain ⟨rest, hlink⟩ := link_of_mem .root he
      rcases hm.links hlink with hold | ⟨hnew, -⟩
      · obtain ⟨e', he', hflags⟩ := exists_of_link hold
        rw [← Entry.flags_user, ← hflags, Entry.flags_user]
        exact hall e' he'
      · rw [← Entry.flags_user, hnew, linkFlags_user, hflag]
    · exact hleafuser

/-- All tables on the way are new. -/
theorem user_access_through_new_tables : ∃ w s s' p',
    Visited ∅ w ∧ w.live[0]? = some s ∧
      w.paging.map s 0x2000 0x6000 (Flag.present ||| Flag.user) = (.ok (), s', p') ∧
      (p'.platform.walk s'.root 0x2000).entries.length = 4 ∧
      ∀ e ∈ (p'.platform.walk s'.root 0x2000).entries, e.user = true := by
  have hrun : (((ofFrames 8).run [.create]).toOption.any fun w => w.live[0]?.any fun s =>
      decide ((w.paging.map s 0x2000 0x6000 (Flag.present ||| Flag.user)).1 = .ok () ∧
        (w.paging.platform.walk s.root 0x2000).links = [])) = true := by decide +kernel
  obtain ⟨w, s, hr, hs, hrun⟩ := exists_of_run hrun
  obtain ⟨hok, hlinks⟩ := of_decide_eq_true hrun
  have hw : Visited ∅ w := by
    refine visited_run (.start _ _ (by decide)) (fun op hop w => ?_) hr
    rw [List.mem_singleton.mp hop]
    trivial
  have hmap : w.paging.map s 0x2000 0x6000 (Flag.present ||| Flag.user) = (.ok (),
      (w.paging.map s 0x2000 0x6000 (Flag.present ||| Flag.user)).2) := Prod.ext hok rfl
  obtain ⟨hfour, -, -, -, hiff⟩ := user_access hw hs 0x2000 0x6000 (Flag.present ||| Flag.user)
    (by decide) (by decide) hmap (by simp)
  exact ⟨w, s, _, _, hw, hs, hmap, hfour, hiff.mpr (by simp [hlinks])⟩

/-- Next to a page that is not for user mode, a page for user mode is mapped through tables whose
links lack the user bit. -/
theorem no_user_access_beside_supervisor_page : ∃ w s s' p',
    Visited ∅ w ∧ w.live[0]? = some s ∧
      w.paging.map s 0x2000 0x6000 (Flag.present ||| Flag.writable ||| Flag.user) =
        (.ok (), s', p') ∧
      (p'.platform.walk s'.root 0x2000).entries.map Entry.user = [false, false, false, true] := by
  have hrun : (((ofFrames 8).run
      [.create, .map 0 0x1000 0x5000 (Flag.present ||| Flag.writable)]).toOption.any fun w =>
        w.live[0]?.any fun s =>
          let r := w.paging.map s 0x2000 0x6000 (Flag.present ||| Flag.writable ||| Flag.user)
          decide (r.1 = .ok () ∧ (r.2.2.platform.walk r.2.1.root 0x2000).entries.map Entry.user =
            [false, false, false, true])) = true := by decide +kernel
  obtain ⟨w, s, hr, hs, hrun⟩ := exists_of_run hrun
  obtain ⟨hok, husers⟩ := of_decide_eq_true hrun
  have hw : Visited ∅ w := by
    refine visited_run (.start _ _ (by decide)) (fun op hop w => ?_) hr
    simp only [List.mem_cons, List.not_mem_nil, or_false] at hop
    rcases hop with rfl | rfl <;> trivial
  exact ⟨w, s, _, _, hw, hs, Prod.ext hok rfl, husers⟩

end Spaces

end KernelCore
