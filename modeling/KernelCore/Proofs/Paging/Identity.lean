import Mathlib
import KernelCore.Proofs.Paging.MapLaw
import KernelCore.Proofs.Paging.Supply

/-!
# Low memory at its own addresses

Mapping low memory page by page, each page at its own address, needs one table for every 512 GiB,
1 GiB and 2 MiB that are begun. A page needs new tables exactly if it is the first one behind one
of these boundaries, so that the free frames decide how far the mapping comes.
-/
namespace KernelCore

/-- The tables of a space that maps the low `limit` bytes, with its root. -/
def tablesFor (limit : Nat) : Nat :=
  1 + Word.ceilDiv limit (2 ^ 39) + Word.ceilDiv limit (2 ^ 30) + Word.ceilDiv limit (2 ^ 21)

/-- The tables on the way to an address that no page below it needs. -/
def newTables (address : Nat) : List Nat → Nat
  | [] => 0
  | shift :: rest =>
    if address % 2 ^ shift = 0 then rest.length + 1 else newTables address rest

theorem tablesFor_add {address : Nat} (hp : address % pageSize = 0) :
    tablesFor (address + pageSize) = tablesFor address + newTables address linkShifts := by
  simp only [tablesFor, Word.ceilDiv, newTables, linkShifts, List.length_cons, List.length_nil]
  rw [show pageSize = 2 ^ 12 from rfl] at hp ⊢
  split
  · omega
  · split
    · omega
    · split <;> omega

theorem tablesFor_mono {a b : Nat} (h : a ≤ b) : tablesFor a ≤ tablesFor b := by
  simp only [tablesFor, Word.ceilDiv]
  omega

theorem tablesFor_pages (limit : Nat) :
    tablesFor (Word.ceilDiv limit pageSize * pageSize) = tablesFor limit := by
  simp only [tablesFor, Word.ceilDiv]
  rw [show pageSize = 2 ^ 12 from rfl]
  omega

/-- The ways to two addresses lead through the same table if they agree in the bits above. -/
theorem agreeAbove_pathOf {shift : Nat} {rest : List Nat} {a b : Nat}
    (hs : shift :: rest <:+ linkShifts) (ha : a < 2 ^ 48) (hb : b < 2 ^ 48) :
    AgreeAbove rest (pathOf a) (pathOf b) ↔ a / 2 ^ shift = b / 2 ^ shift := by
  simp only [linkShifts, List.suffix_cons_iff, List.cons.injEq, List.suffix_nil,
    reduceCtorEq, or_false] at hs
  rcases hs with ⟨rfl, rfl⟩ | ⟨rfl, rfl⟩ | ⟨rfl, rfl⟩ <;>
    simp [AgreeAbove, linkShifts, Fin.ext_iff, pathOf, tableIndex_val] <;> omega

/-- No lower address leads through the table below a level if the address is the first one there. -/
theorem exists_agreeAbove {shift : Nat} {rest : List Nat} {address : Nat}
    (hs : shift :: rest <:+ linkShifts) (hb : address < 2 ^ 48) :
    (∃ v < address, AgreeAbove rest (pathOf v) (pathOf address)) ↔ address % 2 ^ shift ≠ 0 := by
  have hdiv := Nat.div_add_mod address (2 ^ shift)
  constructor
  · rintro ⟨v, hlt, hagree⟩ hfirst
    rw [agreeAbove_pathOf hs (hlt.trans hb) hb] at hagree
    have hle := Nat.mul_div_le v (2 ^ shift)
    rw [hagree] at hle
    omega
  · intro hne
    have hlt : 2 ^ shift * (address / 2 ^ shift) < address := by omega
    refine ⟨_, hlt, (agreeAbove_pathOf hs (hlt.trans hb) hb).mpr ?_⟩
    exact Nat.mul_div_cancel_left _ (Nat.two_pow_pos shift)

theorem Platform.Reaches.exists_above {m : Platform} {root last : Nat} {p : Path}
    {shifts rest : List Nat} (h : m.Reaches root p shifts last) (hs : shifts <:+ rest)
    (hr : rest <:+ linkShifts) : ∃ table, m.Reaches root p rest table := by
  induction h with
  | root =>
    rw [hr.eq_of_length_le hs.length_le]
    exact ⟨_, .root⟩
  | @link shift shifts _ _ above read leads ih =>
    by_cases hl : rest.length = shifts.length
    · rw [← hs.eq_of_length hl.symm]
      exact ⟨_, .link above read leads⟩
    · have hlt := lt_of_le_of_ne hs.length_le (Ne.symm hl)
      exact ih (List.suffix_of_suffix_length_le above.suffix hr hlt)

theorem Platform.leafTarget_make {a : Nat} {flags : BitVec 64} (hp : a % pageSize = 0)
    (hb : a < physicalBound) (hf : flags &&& addressMask = 0) (hpresent : flags.getLsbD 0 = true)
    (v : Nat) : leafTarget (.make a flags) v = .ok (some (a + v % pageSize)) := by
  rw [leafTarget, Entry.present_make, hpresent, if_pos rfl, Entry.physical_page,
    Entry.address_make hp hb hf]

namespace Mapping
open Platform

/-- In a space of its own tables, low memory is mapped at its own addresses up to the given one,
through the tables that this needs, and nothing else is mapped. -/
structure IdentityMapped (lent : Lending) (address : Nat) (w : Mapping) : Prop where
  sound : w.Sound lent
  supplied : w.Supplied
  unlent : ∀ path rest table, ¬ lent path rest table
  unshared : ∀ v, w.space.sharesSlotOf v = false
  linked : ∀ {q shift rest}, shift :: rest <:+ linkShifts →
    ((∃ flags, w.platform.Link w.space.root q rest flags) ↔
      ∃ v < address, AgreeAbove rest (pathOf v) q)
  plain : ∀ {q rest flags}, w.platform.Link w.space.root q rest flags → flags.getLsbD 7 = false
  translate : ∀ v, Canonical v →
    w.platform.translate w.space.root v = .ok (if v < address then some v else none)
  count : w.space.frameCount = tablesFor address

namespace IdentityMapped

variable {lent : Lending} {address table : Nat} {w : Mapping} {shifts : List Nat}

theorem huge_eq_false (h : IdentityMapped lent address w) (hb : address < 2 ^ 47) {shift : Nat}
    {rest : List Nat} {t : Table}
    (hr : w.platform.Reaches w.space.root (pathOf address) (shift :: rest) table)
    (read : w.platform.readTable table = .ok t)
    (present : (t.get (pathOf address shift)).present = true) :
    (t.get (pathOf address shift)).huge = false := by
  by_cases leads : (t.get (pathOf address shift)).leads shift = true
  · have hplain := h.plain ⟨shift, table, t, hr, read, leads, rfl⟩
    rwa [Entry.flags_huge] at hplain
  · -- the address would be mapped by a huge page
    have hhuge : ((t.get (pathOf address shift)).huge && shift != 39) = true := by
      simpa [Entry.leads, present] using leads
    have ht := h.translate address (.inl hb)
    rw [if_neg (Nat.lt_irrefl _), translate_of_reaches hr] at ht
    simp only [pathOf] at present hhuge
    simp only [translateFrom, read, present, hhuge, Bool.not_true, Bool.false_eq_true, if_false,
      if_true, physical] at ht
    split at ht <;> cases ht

theorem passable (h : IdentityMapped lent address w) (hb : address < 2 ^ 47)
    (hr : w.platform.Reaches w.space.root (pathOf address) shifts table) :
    w.Passable address shifts table :=
  h.sound.passable (fun _ _ => h.unlent _ _ _) (h.huge_eq_false hb) hr

/-- The tables that are missing on the way to the next page are those that no page below needs. -/
theorem missingFrom (h : IdentityMapped lent address w) (hb : address < 2 ^ 47)
    (hr : w.platform.Reaches w.space.root (pathOf address) shifts table) :
    w.platform.missingFrom address shifts table = newTables address shifts := by
  induction shifts generalizing table with
  | nil => rfl
  | cons shift rest ih =>
    obtain ⟨t, read⟩ := h.supplied.exists_read (h.passable hb hr)
    have hbound : address < 2 ^ 48 := by omega
    have hfirst := exists_agreeAbove hr.suffix hbound
    rw [← h.linked hr.suffix] at hfirst
    rw [Platform.missingFrom, read, newTables]
    dsimp only
    by_cases present : (t.get (pathOf address shift)).present = true
    · have leads : (t.get (pathOf address shift)).leads shift = true :=
        Entry.leads_of_link present (h.huge_eq_false hb hr read present)
      have hnext := hfirst.mp ⟨_, shift, table, t, hr, read, leads, rfl⟩
      rw [if_pos present, if_neg hnext]
      exact ih (hr.link read leads)
    · have hnone : address % 2 ^ shift = 0 := by
        by_contra hne
        obtain ⟨flags, hlink⟩ := hfirst.mpr hne
        obtain ⟨_, hbelow⟩ := hlink.exists_reaches
        have leads := (hbelow.entry hr read).1
        exact present (Bool.and_eq_true_iff.mp leads).1
      rw [if_neg present, if_pos hnone]

/-- What mapping low memory up to a further address comes to: either the free frames suffice for the
tables that are missing, or an error is reported. -/
inductive Advanced (lent : Lending) (address limit : Nat) (w : Mapping) :
    Except MemoryError Unit × Mapping → Prop
  | done {w' : Mapping} (mapped : IdentityMapped lent limit w')
      (taken : w.frames.free + tablesFor address = w'.frames.free + tablesFor limit) :
      Advanced lent address limit w (.ok (), w')
  | exhausted {e : MemoryError} {w' : Mapping}
      (short : w.frames.free + tablesFor address < tablesFor limit) :
      Advanced lent address limit w (.error e, w')

theorem linked_next {pa : Nat} {flags : BitVec 64} {w' : Mapping}
    (h : IdentityMapped lent address w) (hp : address % pageSize = 0)
    (hm : Mapped lent address pa flags w (.ok ()) w') {q : Path} {shift : Nat} {rest : List Nat}
    (hs : shift :: rest <:+ linkShifts) :
    (∃ flags, w'.platform.Link w.space.root q rest flags) ↔
      ∃ v < address + pageSize, AgreeAbove rest (pathOf v) q := by
  constructor
  · rintro ⟨flags', hlink⟩
    rcases hm.links hlink with hold | ⟨-, hagree⟩
    · obtain ⟨v, hlt, hagree⟩ := (h.linked hs).mp ⟨_, hold⟩
      exact ⟨v, hlt.trans (Nat.lt_add_of_pos_right (by decide)), hagree⟩
    · exact ⟨address, Nat.lt_add_of_pos_right (by decide), hagree⟩
  · rintro ⟨v, hlt, hagree⟩
    by_cases hv : v < address
    · obtain ⟨flags', hold⟩ := (h.linked hs).mpr ⟨v, hv, hagree⟩
      exact ⟨flags', hm.keeps hold⟩
    · -- the way to the page comes through all tables of its addresses
      have hpage : SamePath address v := samePath_of_page (by
        rw [show pageSize = 4096 from rfl] at *
        omega)
      have hsame : AgreeAbove rest (pathOf address) q := fun s hs hn =>
        (hpage s (List.mem_cons_of_mem _ hs)).trans (hagree s hs hn)
      obtain ⟨last, -, hr, -, -⟩ := hm.leaf rfl
      obtain ⟨table, hr⟩ := hr.exists_above (List.nil_suffix ..) ((List.suffix_cons ..).trans hs)
      refine (hr.agree hsame).exists_link ?_
      rintro rfl
      have := hs.length_le
      simp at this

theorem translate_next {w' : Mapping} (h : IdentityMapped lent address w)
    (hp : address % pageSize = 0) (hb : address < 2 ^ 47)
    (hm : Mapped lent address address (Flag.present ||| Flag.writable) w (.ok ()) w') {v : Nat}
    (hv : Canonical v) : w'.platform.translate w.space.root v =
      .ok (if v < address + pageSize then some v else none) := by
  rw [hm.translate v]
  by_cases hs : SamePath address v
  · have hpage := page_of_samePath (.inl hb) hv hs
    have hbound : address < physicalBound := hb.trans (by decide)
    rw [if_pos ⟨rfl, hs⟩, leafTarget_make hp hbound (by decide) (by decide)]
    rw [show pageSize = 4096 from rfl] at *
    rw [if_pos (by omega), show address + v % 4096 = v by omega]
  · have hpage : address / pageSize ≠ v / pageSize := fun hc => hs (samePath_of_page hc)
    have hsame : v < address ↔ v < address + pageSize := by
      rw [show pageSize = 4096 from rfl] at *
      omega
    rw [if_neg fun hc => hs hc.2, h.translate v hv]
    simp only [hsame]

theorem map (h : IdentityMapped lent address w) (hp : address % pageSize = 0)
    (hb : address < 2 ^ 47) :
    Advanced lent address (address + pageSize) w
      (w.map address address (Flag.present ||| Flag.writable)) := by
  have hcompleted := map_completed address (Flag.present ||| Flag.writable) h.supplied
    (h.passable hb .root) (h.unshared address)
  have hm := h.sound.map address address (Flag.present ||| Flag.writable)
    (fun _ _ hl => absurd hl (h.unlent _ _ _)) fun _ _ _ hl => absurd hl (h.unlent _ _ _)
  have hextent := (sameMachine_map w address address (Flag.present ||| Flag.writable)).toSameExtent
  obtain ⟨new, ht⟩ := takes_map w address address (Flag.present ||| Flag.writable)
  have hmore := tablesFor_add hp
  rw [h.missingFrom hb .root] at hcompleted
  generalize w.map address address (Flag.present ||| Flag.writable) = r at *
  obtain ⟨result, w'⟩ := r
  dsimp only at *
  obtain ⟨rfl, hfree⟩ | ⟨⟨e, rfl⟩, hshort⟩ := hcompleted
  · refine .done ⟨hm.sound, h.supplied.mono ht hextent, h.unlent, fun v => ?_, fun hs => ?_,
      fun hlink => ?_, fun v hv => ?_, ?_⟩ (by omega)
    · rw [AddressSpace.sharesSlotOf, ht.shared]
      exact h.unshared v
    · rw [ht.root]
      exact h.linked_next hp hm hs
    · rw [ht.root] at hlink
      rcases hm.links hlink with hold | ⟨rfl, -⟩
      · exact h.plain hold
      · exact linkFlags_huge _
    · rw [ht.root]
      exact h.translate_next hp hb hm hv
    · have hcount := ht.count
      have hold := h.count
      rw [AddressSpace.frameCount] at hold ⊢
      rw [ht.tables, List.length_append]
      omega
  · exact .exhausted (by omega)

/-- The pages are mapped one after the other, as far as the free frames suffice. -/
theorem mapIdentity (h : IdentityMapped lent address w) (hp : address % pageSize = 0) {n : Nat}
    (hb : address + n * pageSize ≤ 2 ^ 47) :
    ∃ r, Mapping.mapIdentity n address w = .ok r ∧
      Advanced lent address (address + n * pageSize) w r := by
  induction n generalizing address w with
  | zero =>
    rw [Nat.zero_mul, Nat.add_zero]
    exact ⟨_, rfl, .done h rfl⟩
  | succ n ih =>
    have hpos : 0 < pageSize := by decide
    have hlimit : address + (n + 1) * pageSize = address + pageSize + n * pageSize := by ring
    rw [hlimit] at hb ⊢
    have hlt : address < 2 ^ 47 := by omega
    have hnext := h.map hp hlt
    rw [Mapping.mapIdentity, if_pos (.inl hlt)]
    generalize w.map address address (Flag.present ||| Flag.writable) = r at hnext ⊢
    cases hnext with
    | exhausted short =>
      have hmono := tablesFor_mono (Nat.le_add_right (address + pageSize) (n * pageSize))
      exact ⟨_, rfl, .exhausted (by omega)⟩
    | done mapped taken =>
      obtain ⟨r, hr, hrest⟩ := ih mapped (by rwa [Nat.add_mod_right]) hb
      refine ⟨r, hr, ?_⟩
      cases hrest with
      | done mapped taken' => exact .done mapped (by omega)
      | exhausted short => exact .exhausted (by omega)

end IdentityMapped

end Mapping

end KernelCore
