import Mathlib
import KernelCore.Proofs.Paging.Operations

/-!
# Shared root entries

Root entries of one space are copied to another, which then reaches the tables behind them through
the same entries. A space shares the kernel's mappings in this way, and the kernel space takes over
the upper half of the tables in use at boot.
-/
namespace KernelCore
open Platform

variable {m m' : Platform} {source target table : Nat} {chosen : Nat → Bool} {copied : Slots}
  {path : Path} {rest : List Nat}

/-- A root table into which the chosen present entries of another one were copied. -/
structure Merged (m : Platform) (source target : Nat) (copied : Slots) (merged : Table) :
    Prop where
  tables : ∃ s t, m.readTable source = .ok s ∧ m.readTable target = .ok t ∧
    (∀ i, copied.get i = true → (s.get i).present = true) ∧
    ∀ i, merged.get i = if copied.get i then s.get i else t.get i

theorem Platform.copyEntries_eq_ok (h : m.copyEntries source target chosen = (.ok copied, m')) :
    ∃ s merged, m.readTable source = .ok s ∧
      (∀ i : Fin 512, copied.get i = (chosen i && (s.get i).present)) ∧
      Merged m.mask source target copied merged ∧ m' = m.mask.writeTable target merged := by
  have hread : ∀ a, m.mask.readTable a = m.readTable a := fun _ => rfl
  unfold Platform.copyEntries at h
  simp only [hread] at h
  cases hs : m.readTable source with
  | error e => simp [hs] at h
  | ok s =>
    cases ht : m.readTable target with
    | error e => simp [hs, ht] at h
    | ok t =>
      simp only [hs, ht, Prod.mk.injEq, Except.ok.injEq] at h
      obtain ⟨rfl, rfl⟩ := h
      refine ⟨s, _, rfl, fun i => by simp [Vector.get_eq_getElem], ?_, rfl⟩
      refine ⟨s, t, hs, ht, fun i hi => ?_, fun i => by simp [Vector.get_eq_getElem]⟩
      simp only [Vector.get_eq_getElem, Vector.getElem_ofFn, Bool.and_eq_true] at hi
      simpa [Vector.get_eq_getElem] using hi.2

theorem Platform.copyEntries_eq_error {e : MemoryError}
    (h : m.copyEntries source target chosen = (.error e, m')) : m' = m.mask := by
  unfold Platform.copyEntries at h
  dsimp only at h
  split at h
  · exact (Prod.mk.inj h).2.symm
  · exact (Prod.mk.inj h).2.symm
  · cases (Prod.mk.inj h).1

theorem Platform.sameMachine_copyEntries (m : Platform) (source target : Nat)
    (chosen : Nat → Bool) : SameMachine m (m.copyEntries source target chosen).2 := by
  have hmask := sameMachine_emit m .masked
  unfold Platform.copyEntries
  dsimp only
  split
  · exact hmask
  · exact hmask
  · exact hmask.trans (sameMachine_writeTable ..)

theorem Merged.through {window : Nat} {merged : Table}
    (h : Merged m source target copied merged) (hw : m.Within window) :
    Merged (m.through window) source target copied merged := by
  obtain ⟨s, t, hs, ht, hcopied⟩ := h.tables
  exact ⟨s, t, readTable_through hw hs, readTable_through hw ht, hcopied⟩

/-- After the copy the target reaches, through a copied entry, what the source reaches there, and
otherwise what it reached before. -/
theorem Merged.reaches {merged : Table} (h : Merged m source target copied merged)
    (honce : ∀ {path rest}, m.Reaches target path rest target → rest = linkShifts)
    (hne : ∀ {path rest}, copied.get (path 39) = true → rest ≠ linkShifts →
      ¬ m.Reaches source path rest target)
    (hr : (m.writeTable target merged).Reaches target path rest table) :
    (table = target ∧ rest = linkShifts) ∨
      rest ≠ linkShifts ∧
        if copied.get (path 39) then m.Reaches source path rest table
        else m.Reaches target path rest table := by
  obtain ⟨s, t, hs, ht, hpres, hget⟩ := h.tables
  have hread := readTable_writeTable ht merged
  induction hr with
  | root => exact .inl ⟨rfl, rfl⟩
  | @link shift rest parent tbl above read leads ih =>
    have hrest : rest ≠ linkShifts := above.ne_linkShifts
    have htop : ∀ {r}, m.Reaches target path r target → r = shift :: rest →
        shift = 39 ∧ rest = [30, 21] := by
      intro r hr he
      have := he.symm.trans (honce hr)
      exact List.cons.inj this
    right
    refine ⟨hrest, ?_⟩
    rcases ih with ⟨rfl, hl⟩ | ⟨hl, hold⟩
    · -- the entry of the root itself
      obtain ⟨rfl, rfl⟩ := htop .root hl.symm
      rw [hread, if_pos rfl] at read
      cases read
      rw [hget] at leads ⊢
      split at leads
      · next hc =>
        rw [if_pos hc, if_pos hc]
        exact Reaches.link .root hs leads
      · next hc =>
        rw [if_neg hc, if_neg hc]
        exact Reaches.link .root ht leads
    · -- an entry of a lower table
      split at hold
      · next hc =>
        have hp : parent ≠ target := by
          rintro rfl
          exact hne hc hl hold
        rw [hread, if_neg hp] at read
        rw [if_pos hc]
        exact hold.link read leads
      · next hc =>
        have hp : parent ≠ target := by
          rintro rfl
          exact hl (honce hold)
        rw [hread, if_neg hp] at read
        rw [if_neg hc]
        exact hold.link read leads

namespace Paging

variable {p p' : Paging} {s s' : AddressSpace} {live others : List AddressSpace} {window : Nat}
  {template : Set Nat}

theorem share_of_kernel {k : AddressSpace} (hk : p.kernelSpace = some k)
    (h : p.share s = (.ok s', p')) :
    ∃ t copied merged, p.platform.readTable k.root = .ok t ∧
      (∀ i, copied.get i = (t.get i).present) ∧
      Merged p.platform.mask k.root s.root copied merged ∧
      s' = { s with shared := s.shared.zipWith (· || ·) copied } ∧
      p' = { p with platform := p.platform.mask.writeTable s.root merged } := by
  unfold share at h
  rw [hk] at h
  dsimp only at h
  split at h
  · cases (Prod.mk.inj h).1
  · next hc =>
    obtain ⟨t, merged, read, hcopied, hm, rfl⟩ := copyEntries_eq_ok hc
    simp only [Prod.mk.injEq, Except.ok.injEq] at h
    exact ⟨t, _, merged, read, by simpa using hcopied, hm, h.1.symm, by rw [hk, h.2]⟩

theorem share_eq_ok (h : p.share s = (.ok s', p')) :
    (p.kernelSpace = none ∧ s' = s ∧ p' = p) ∨
      ∃ k copied merged, p.kernelSpace = some k ∧
        Merged p.platform.mask k.root s.root copied merged ∧
        s' = { s with shared := s.shared.zipWith (· || ·) copied } ∧
        p' = { p with platform := p.platform.mask.writeTable s.root merged } := by
  cases hk : p.kernelSpace with
  | none =>
    unfold share at h
    simp only [hk, Prod.mk.injEq, Except.ok.injEq] at h
    exact .inl ⟨rfl, h.1.symm, h.2.symm⟩
  | some k =>
    obtain ⟨_, copied, merged, -, -, hm, hs, hp⟩ := share_of_kernel hk h
    exact .inr ⟨k, copied, merged, rfl, hm, hs, hk ▸ hp⟩

theorem share_eq_error {e : MemoryError} (h : p.share s = (.error e, p')) :
    p' = { p with platform := p.platform.mask } := by
  unfold share at h
  split at h
  · cases (Prod.mk.inj h).1
  · split at h
    · next hc =>
      rw [← (Prod.mk.inj h).2, copyEntries_eq_error hc]
    · cases (Prod.mk.inj h).1

theorem sameMachine_share (p : Paging) (s : AddressSpace) :
    SameMachine p.platform (p.share s).2.platform := by
  unfold share
  split
  · exact .refl _
  · next k _ =>
    have hcopy := sameMachine_copyEntries p.platform k.root s.root fun _ => true
    split
    · next he =>
      rw [he] at hcopy
      exact hcopy
    · next he =>
      rw [he] at hcopy
      exact hcopy

namespace Separate

section Merge

variable {k t : AddressSpace} {copied : Slots} {merged : Table}

theorem shared_get (s : AddressSpace) (copied : Slots) (i : Fin 512) :
    (s.shared.zipWith (· || ·) copied).get i = (s.shared.get i || copied.get i) := by
  simp [Vector.get_eq_getElem]

theorem undisturbed_writeRoot (h : (p.through window).Separate template (s :: others))
    (hw : p.platform.Within window) (merged : Table) (ht : t ∈ p.kernelSpace.toList ++ others) :
    Undisturbed p { p with platform := p.platform.writeTable s.root merged } t := by
  have hroot := (h.holds_cons.allocated s (List.mem_cons_self ..) s.root
    (List.mem_cons_self ..)).2
  refine ⟨fun hr => (sameOutside_writeTable p.platform s.root merged hroot).readTable fun hc => ?_⟩
  rw [List.mem_singleton.mp hc] at hr
  have hn := h.tail.reached_apart h.holds_cons h.spares_head ht (hr.through hw)
  exact Bool.false_ne_true (hn.symm.trans s.owns_root)

theorem reaches_merged (h : p.Separate template (s :: others)) (hk : k ∈ p.kernelSpace)
    (hm : Merged p.platform k.root s.root copied merged)
    (hr : (p.platform.writeTable s.root merged).Reaches s.root path rest table) :
    (table = s.root ∧ rest = linkShifts) ∨ rest ≠ linkShifts ∧
      if copied.get (path 39) then p.platform.Reaches k.root path rest table
      else p.platform.Reaches s.root path rest table := by
  have hrooted := h.rooted s (List.mem_cons_self ..)
  refine hm.reaches (fun {path rest} hq => ?_) (fun _ _ hq => ?_) hr
  · exact (hrooted.once s.owns_root (Reaches.root (p := path)) hq).1
  · have hn := h.tail.kernel_apart h.holds_cons h.spares_head hk hq
    exact Bool.false_ne_true (hn.symm.trans s.owns_root)

theorem reaches_of_merged (h : p.Separate template (s :: others)) (hk : k ∈ p.kernelSpace)
    (hm : Merged p.platform k.root s.root copied merged) (ho : s.owns table = true)
    (hr : (p.platform.writeTable s.root merged).Reaches s.root path rest table) :
    p.platform.Reaches s.root path rest table := by
  rcases h.reaches_merged hk hm hr with ⟨rfl, rfl⟩ | ⟨-, hr⟩
  · exact .root
  · split at hr
    · have hn := h.tail.kernel_apart h.holds_cons h.spares_head hk hr
      exact absurd (hn.symm.trans ho) Bool.false_ne_true
    · exact hr

theorem merge (h : p.Separate template (s :: others)) (hk : k ∈ p.kernelSpace)
    (hm : Merged p.platform k.root s.root copied merged) :
    Paging.Separate { p with platform := p.platform.writeTable s.root merged } template
      ({ s with shared := s.shared.zipWith (· || ·) copied } :: others) := by
  have hroot := (h.holds_cons.allocated s (List.mem_cons_self ..) s.root
    (List.mem_cons_self ..)).2
  have hrooted := h.rooted s (List.mem_cons_self ..)
  have hu := fun t ht => h.through_window.undisturbed_writeRoot (within_window _) merged (t := t) ht
  have hku := hu k (List.mem_append_left _ (Option.mem_toList.mpr hk))
  have htail : Paging.Separate
      { p with platform := p.platform.writeTable s.root merged } template others := by
    refine h.tail.transport rfl ?_ h.holds_cons.tail hu
    show (p.platform.writeTable s.root merged).limit ≤ physicalBound
    rw [(sameOutside_writeTable p.platform s.root merged hroot).limit]
    exact h.machine
  refine htail.cons (h.holds_cons.congr rfl) h.spares_head
    ⟨fun {path rest table} hr => ?_, fun ho hr hr' => ?_⟩
  · rcases h.reaches_merged hk hm hr with ⟨rfl, -⟩ | ⟨-, hr⟩
    · exact .inl s.owns_root
    · split at hr
      · next hc =>
        refine .inr ⟨?_, k, hk, hku.reaches.mpr hr⟩
        rw [shared_get, hc, Bool.or_true]
      · refine (hrooted.held hr).imp id ?_
        rintro ⟨hsh, k', hk', hkr⟩
        obtain rfl : k = k' := Option.some.inj (hk.symm.trans hk')
        refine ⟨?_, k, hk, hku.reaches.mpr hkr⟩
        rw [shared_get, hsh, Bool.true_or]
  · exact hrooted.once ho (h.reaches_of_merged hk hm ho hr) (h.reaches_of_merged hk hm ho hr')

end Merge

theorem share (h : (p.through window).Separate template (s :: others))
    (hw : p.platform.Within window) (hs : p.share s = (.ok s', p')) :
    (p'.through window).Separate template (s' :: others) := by
  rcases share_eq_ok hs with ⟨-, rfl, rfl⟩ | ⟨k, copied, merged, hk, hm, rfl, rfl⟩
  · exact h
  · have hmasked : p.platform.mask.Within window := hw
    exact h.mask.merge hk (hm.through hmasked)

theorem undisturbed_share (h : (p.through window).Separate template (s :: others))
    (hw : p.platform.Within window) (hs : p.share s = (.ok s', p')) {t : AddressSpace}
    (ht : t ∈ p.kernelSpace.toList ++ others) : Undisturbed p p' t := by
  rcases share_eq_ok hs with ⟨-, rfl, rfl⟩ | ⟨k, copied, merged, hk, hm, rfl, rfl⟩
  · exact ⟨fun _ => rfl⟩
  · have hmask : Undisturbed p { p with platform := p.platform.mask } t := ⟨fun _ => rfl⟩
    have hw' : p.platform.mask.Within window := hw
    exact hmask.trans (undisturbed_writeRoot (p := { p with platform := p.platform.mask })
      h.mask hw' merged ht)

end Separate

end Paging

end KernelCore
