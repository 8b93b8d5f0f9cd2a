import Mathlib
import KernelCore.Proofs.Paging.Run

/-!
# The map law

In every state that a run comes to, mapping a page in a live space decides what the addresses of
that page translate to and leaves the translation of all other pages alone.
-/
namespace KernelCore

theorem Flag.and_twoPow_ne_zero {flags : BitVec 64} {n : Nat} (hn : n < 64) :
    flags &&& BitVec.twoPow 64 n ≠ 0 ↔ flags.getLsbD n = true := by
  have hne : BitVec.twoPow 64 n ≠ 0 := fun hc => by
    have hbit : (BitVec.twoPow 64 n).getLsbD n = true := by simp [hn]
    rw [hc] at hbit
    simp at hbit
  rw [BitVec.and_twoPow]
  split
  · next h =>
    rw [h]
    exact ⟨fun _ => rfl, fun _ => hne⟩
  · next h => exact ⟨fun hc => absurd rfl hc, fun hc => absurd hc h⟩

theorem Flag.and_present_ne_zero {flags : BitVec 64} :
    flags &&& present ≠ 0 ↔ flags.getLsbD 0 = true := and_twoPow_ne_zero (by decide)

theorem Flag.and_user_ne_zero {flags : BitVec 64} :
    flags &&& user ≠ 0 ↔ flags.getLsbD 2 = true := and_twoPow_ne_zero (by decide)

/-- The address that an entry holds is that of the frame, joined by the flag bits between. -/
theorem Entry.address_make_eq (pa : Nat) (flags : BitVec 64) :
    (make pa flags).address = ((BitVec.ofNat 64 pa ||| flags) &&& addressMask).toNat := by
  have hb : ((BitVec.ofNat 64 pa &&& addressMask) ||| flags) &&& addressMask =
      (BitVec.ofNat 64 pa ||| flags) &&& addressMask := by
    ext i
    simp only [BitVec.getElem_and, BitVec.getElem_or]
    cases (BitVec.ofNat 64 pa)[i] <;> cases flags[i] <;> cases addressMask[i] <;> rfl
  rw [address, make, hb]

theorem Entry.physical_page (e : Entry) (v : Nat) :
    physical (e.address + pageOffset v) = .ok (some (e.address + v % pageSize)) := by
  have hp := e.address_mod
  have hb := e.address_lt
  have hlt : e.address + pageOffset v < physicalBound := by
    rw [pageOffset, show pageSize = 4096 from rfl] at *
    rw [show physicalBound = 4096 * 2 ^ 40 from rfl] at *
    omega
  rw [physical, if_pos hlt, pageOffset]

namespace Spaces
open Platform

variable {w : Spaces} {i : Nat} {s : AddressSpace} {m : Platform} {a : FrameAllocator}

/-- After a page was mapped in a live space, its addresses translate to the given frame, or to
nothing if the flags lack the present bit, and exactly this page was flushed. Only memory that
physical addresses can name is reached. -/
theorem translate_map (hm : m.limit ≤ physicalBound)
    (h : Reachable TablesLeftAlone (empty m a) w) (hi : w.live[i]? = some s) {va : Nat}
    (hva : Canonical va) (pa : Nat) (flags : BitVec 64)
    (hok : (w.paging.map s va pa flags).1 = .ok ()) :
    let s' := (w.paging.map s va pa flags).2.1
    let p' := (w.paging.map s va pa flags).2.2
    (∀ v, v / pageSize = va / pageSize → p'.translate s' v =
      .ok (if flags &&& Flag.present ≠ 0 then
        some (((BitVec.ofNat 64 pa ||| flags) &&& addressMask).toNat + v % pageSize) else none)) ∧
    (∀ v, Canonical v → v / pageSize ≠ va / pageSize →
      p'.translate s' v = w.paging.translate s v) ∧
    p'.platform.events = (w.paging.platform.events.push .masked).push (.flush va) := by
  have hmap := ((h.sound hm).perm (live_perm hi)).map va pa flags
  obtain ⟨new, hg⟩ := hmap.grown
  have hok' : ((w.paging.mapping s).map va pa flags).1.isOk = true := by
    change ((w.paging.mapping s).map va pa flags).1 = .ok () at hok
    rw [hok]
    rfl
  have htranslate : ∀ v, (w.paging.map s va pa flags).2.2.translate
      (w.paging.map s va pa flags).2.1 v =
        if SamePath va v then leafTarget (.make pa flags) v else w.paging.translate s v := by
    intro v
    have ht := hmap.translate v
    simp only [hok', true_and] at ht
    rw [Paging.map_eq, Paging.translate, hg.root]
    exact ht
  refine ⟨fun v hv => ?_, fun v hv hne => ?_, ?_⟩
  · rw [htranslate, if_pos (samePath_of_page hv.symm), leafTarget, Entry.physical_page,
      Entry.present_make, Entry.address_make_eq]
    by_cases hp : flags.getLsbD 0 = true
    · rw [if_pos hp, if_pos (Flag.and_present_ne_zero.mpr hp)]
    · rw [if_neg hp, if_neg (mt Flag.and_present_ne_zero.mp hp)]
  · rw [htranslate, if_neg]
    exact fun hs => hne (page_of_samePath hva hv hs).symm
  · have he := hmap.events
    rw [if_pos hok'] at he
    exact he

/-- A page next to one that is mapped already. -/
theorem translate_map_neighbour : ∃ w s,
    Reachable TablesLeftAlone (ofFrames 8) w ∧ w.live[0]? = some s ∧ Canonical 0x1000 ∧
      (w.paging.map s 0x1000 0x5000 Flag.present).1 = .ok () ∧
      (w.paging.map s 0x1000 0x5000 Flag.present).2.2.translate
        (w.paging.map s 0x1000 0x5000 Flag.present).2.1 0x1234 = .ok (some 0x5234) := by
  have hrun : (((ofFrames 8).run [.create, .map 0 0x2000 0x3000 Flag.present]).toOption.any
      fun w => w.live[0]?.any fun s =>
        (w.paging.map s 0x1000 0x5000 Flag.present).1.isOk) = true := by decide +kernel
  obtain ⟨w, s, hr, hs, hisOk⟩ := exists_of_run hrun
  have hw : Reachable TablesLeftAlone (ofFrames 8) w := by
    refine reachable_run .start (fun op hop w => ?_) hr
    simp only [List.mem_cons, List.not_mem_nil, or_false] at hop
    rcases hop with rfl | rfl <;> simp [TablesLeftAlone]
  have hok : (w.paging.map s 0x1000 0x5000 Flag.present).1 = .ok () := by
    cases hm : (w.paging.map s 0x1000 0x5000 Flag.present).1 with
    | error e => simp [hm, Except.isOk, Except.toBool] at hisOk
    | ok _ => rfl
  obtain ⟨hpage, -⟩ := translate_map (by decide) hw hs (by decide) 0x5000 Flag.present hok
  exact ⟨w, s, hw, hs, by decide, hok, hpage 0x1234 (by decide)⟩

end Spaces

end KernelCore
