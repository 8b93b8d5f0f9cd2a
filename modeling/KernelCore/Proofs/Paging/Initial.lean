import Mathlib
import KernelCore.Proofs.Paging.Identity
import KernelCore.Proofs.Paging.InUse
import KernelCore.Proofs.Paging.Setup

/-!
# The initial kernel space

On a machine that shows all frames, the kernel space can be set up exactly if there are as many free
frames as it needs tables. It maps low memory at its own addresses then and nothing else. A setup
that fails gives back whatever it took, on every machine and wherever it fails.
-/
namespace KernelCore.Paging
open Platform Mapping

/-- Low memory is mapped in the kernel space at its own addresses, up to a limit and in whole pages,
and the space is the one in use. -/
structure LowMapped (p : Paging) (limit : Nat) (k : AddressSpace) : Prop where
  kernelSpace : p.kernelSpace = some k
  count : k.frameCount = tablesFor limit
  translate : ∀ v, Canonical v →
    p.translate k v = .ok (if v < Word.roundUp limit pageSize then some v else none)
  root : p.platform.root = k.root
  active : p.active = some k.root
  loaded : p.platform.events.back? = some (.load k.root)

variable {p p' : Paging} {k : AddressSpace} {config : Config} {e : MemoryError}

theorem free_of_create_error (hs : (p.mapping k).Supplied) (hc : p.create = (.error e, p')) :
    p.frames.free = 0 := by
  unfold create at hc
  cases ha : p.frames.allocate with
  | none => exact hs.counted.allocate_eq_none.mp ha
  | some taken =>
    obtain ⟨root, frames⟩ := taken
    obtain ⟨hp, hfree, -⟩ := FrameAllocator.allocate_spec ha
    obtain ⟨t, read⟩ := hs.exists_readTable (FrameAllocator.isFree_iff.mp hfree).1 hp
    have read : p.platform.readTable root = .ok t := read
    simp [ha, read] at hc

theorem identityMapped_create (hm : p.platform.limit ≤ physicalBound) (hn : p.kernelSpace = none)
    (hs : (p.mapping k).Supplied) (hc : p.create = (.ok k, p')) :
    IdentityMapped (p'.lentTo k) 0 (p'.mapping k) ∧ p.frames.free = p'.frames.free + 1 := by
  have hsep : p.Separate ∅ [] := ⟨hm, ⟨by simp [hn], by simp [hn]⟩, by simp, by simp [hn], by simp⟩
  have hn' : p'.kernelSpace = none := (create_ok hc).kernelSpace.trans hn
  have hsound := (hsep.create hc (by simp)).mapping
  obtain ⟨hempty, hsame⟩ := create_platform hc
  obtain ⟨root, frames, t, ha, -, rfl, rfl⟩ := create_eq_ok hc
  obtain ⟨-, -, htotal, hfree, -⟩ := FrameAllocator.allocate_spec ha
  obtain ⟨_, -, -, hcounted, -⟩ := hs.counted.allocate ha
  have hnone : ∀ {q rest flags}, ¬ (p.platform.writeTable root .empty).Link root q rest flags := by
    rintro q rest flags ⟨shift, table, t, above, read, leads, -⟩
    obtain ⟨rfl, -⟩ := reaches_of_empty hempty above
    cases hempty.symm.trans read
    simp [Entry.leads, Table.get_empty, Entry.present_empty] at leads
  refine ⟨⟨hsound, ⟨hcounted, ?_⟩, not_lentTo hn' _, fun v => ?_, fun _ => ?_, fun hlink => ?_,
    fun v _ => ?_, rfl⟩, hfree⟩
  · show frames.total * pageSize ≤ (p.platform.writeTable root .empty).limit
    rw [htotal, hsame.limit]
    exact hs.shown
  · simp [mapping, AddressSpace.sharesSlotOf, Vector.get_eq_getElem]
  · constructor
    · rintro ⟨_, hlink⟩
      exact absurd hlink hnone
    · rintro ⟨v, hlt, -⟩
      exact absurd hlt (Nat.not_lt_zero v)
  · exact absurd hlink hnone
  · rw [if_neg (Nat.not_lt_zero _)]
    show (p.platform.writeTable root .empty).translateFrom v linkShifts root = _
    rw [linkShifts, translateFrom, hempty]
    simp [Table.get_empty, Entry.present_empty]

/-- Without a template, filling a new space comes down to mapping low memory. -/
theorem populate_eq (hi : config.inheritUpperHalf = false) (w : Mapping) (template : Nat) :
    populate w template config =
      Mapping.mapIdentity (Word.ceilDiv config.identityMapLimit pageSize) 0 w := by
  simp [populate, hi]

/-- A setup without a template comes to an end, and it succeeds if the free frames suffice. -/
theorem setUp_lowMapped (hm : p.platform.limit ≤ physicalBound) (hn : p.kernelSpace = none)
    (hc : p.frames.Counted) (hs : p.frames.total * pageSize ≤ p.platform.limit)
    (hi : config.inheritUpperHalf = false) (hl : config.identityMapLimit ≤ 2 ^ 47) :
    ∃ result p', p.setUp config = .ok (result, p') ∧
      (result = .ok () ↔ tablesFor config.identityMapLimit ≤ p.frames.free) ∧
      (result = .ok () → ∃ k, p'.LowMapped config.identityMapLimit k) := by
  have hone : 1 ≤ tablesFor config.identityMapLimit := by
    unfold tablesFor
    omega
  unfold setUp
  rw [if_neg (by simp [hn])]
  dsimp only
  cases hcreate : p.create with
  | mk created p₁ =>
    cases created with
    | error e =>
      have hfree := free_of_create_error (k := { root := 0 }) ⟨hc, hs⟩ hcreate
      exact ⟨_, _, rfl, ⟨nofun, fun hle => by omega⟩, nofun⟩
    | ok k =>
      obtain ⟨hempty, hfree⟩ := identityMapped_create hm hn ⟨hc, hs⟩ hcreate
      have hpages : 0 + Word.ceilDiv config.identityMapLimit pageSize * pageSize ≤ 2 ^ 47 := by
        rw [Word.ceilDiv, show pageSize = 4096 from rfl]
        omega
      obtain ⟨r, hr, hadvanced⟩ := hempty.mapIdentity rfl hpages
      have hzero : tablesFor 0 = 1 := rfl
      have hold : (p₁.mapping k).frames.free = p₁.frames.free := rfl
      have htables := tablesFor_pages config.identityMapLimit
      rw [Nat.zero_add] at hadvanced
      dsimp only
      rw [populate_eq hi, hr]
      cases hadvanced with
      | exhausted short => exact ⟨_, _, rfl, ⟨nofun, fun hle => by omega⟩, nofun⟩
      | @done w mapped taken =>
        refine ⟨_, _, rfl, ⟨fun _ => by omega, fun _ => rfl⟩, fun _ => ⟨w.space, ?_⟩⟩
        refine ⟨rfl, mapped.count.trans (tablesFor_pages _), fun v hv => ?_, rfl, rfl, ?_⟩
        · rw [Word.roundUp, ← mapped.translate v hv]
          exact translate_congr fun _ => rfl
        · simp [switchTo, adopt, Platform.load, Platform.emit]

/-- A setup that fails gives back all frames, and the roots are as they were unless the one that is
recorded was a free frame. -/
theorem setUp_undone (h : p.setUp config = .ok (.error e, p'))
    (ha : ∀ root, p.active = some root → ¬ p.frames.IsFree root) :
    p'.frames.freeFrames = p.frames.freeFrames ∧ p'.active = p.active := by
  cases setUp_spec h with
  | refused _ hc =>
    obtain rfl := create_eq_error hc
    exact ⟨rfl, rfl⟩
  | @undone _ k p₁ w _ hc hp =>
    obtain ⟨new, ht⟩ := takes_populate hp
    obtain ⟨root, frames, t, halloc, -, rfl, rfl⟩ := create_eq_ok hc
    obtain ⟨-, hfree, htotal, -⟩ := FrameAllocator.allocate_spec halloc
    refine ⟨FrameAllocator.freeFrames_congr ((total_destroy ht).trans htotal) fun x => ?_, ?_⟩
    · rw [isAllocated_destroy ht, FrameAllocator.isAllocated_allocate halloc]
      constructor
      · rintro ⟨hx, hne⟩
        exact hx.resolve_right (hne root (List.mem_singleton_self _))
      · intro hx
        refine ⟨.inl hx, fun f hf he => ?_⟩
        obtain rfl := List.mem_singleton.mp hf
        refine FrameAllocator.not_isFree_of_isAllocated hx ?_
        rwa [FrameAllocator.IsFree, he]
    · have hroot : w.space.root = root := ht.root
      refine if_neg fun hc => ha root ?_ hfree
      rw [← hroot]
      exact hc

end KernelCore.Paging

namespace KernelCore.Spaces

/-- In every state that steps come to, setting up the kernel space either does all that it should
or nothing. If all frames of the allocator are shown and no template is wanted, it succeeds exactly
if there are enough free frames. Only memory that physical addresses can name is reached. -/
theorem setUp_exact {w : Spaces} (h : w.Reached) (hn : w.paging.kernelSpace = none) :
    (∀ memory start ops config, FrameAllocator.Built memory start →
      w.paging.frames = start.run ops → w.paging.platform.limit ≤ physicalBound →
      w.paging.frames.total * pageSize ≤ w.paging.platform.limit →
      config.inheritUpperHalf = false → config.identityMapLimit ≤ 2 ^ 47 →
      ∃ result p', w.paging.setUp config = .ok (result, p') ∧
        (result = .ok () ↔
          tablesFor config.identityMapLimit ≤ w.paging.frames.freeFrames.length) ∧
        (result = .ok () → ∃ k, p'.LowMapped config.identityMapLimit k)) ∧
    ∀ config e p', w.paging.setUp config = .ok (.error e, p') →
      p'.frames.freeFrames = w.paging.frames.freeFrames ∧ p'.kernelSpace = none ∧
        p'.active = w.paging.active ∧ p'.platform.root = w.paging.platform.root := by
  refine ⟨fun memory start ops config hb hf hm hs hi hl => ?_, fun config e p' hsetup => ?_⟩
  · have hc : w.paging.frames.Counted := hf ▸ (hb.counted.1.run ops).1
    rw [← FrameAllocator.card_vacant, ← hc.free]
    exact Paging.setUp_lowMapped hm hn hc hs hi hl
  · obtain ⟨hfrees, hactive⟩ := Paging.setUp_undone hsetup fun root => h.not_isFree
    have hnone := (Paging.setUp_error hsetup).2.1
    exact ⟨hfrees, hnone, hactive, (Paging.sameMachine_setUp_error hsetup).root⟩

/-- Two pages, the second of them begun, need four tables: seven free frames suffice for that, and
three do not. -/
theorem setUp_exact_two_pages :
    (∃ p k, (ofFrames 8).paging.setUp { identityMapLimit := 5000 } = .ok (.ok (), p) ∧
      p.LowMapped 5000 k) ∧
    ∃ e p, (ofFrames 4).paging.setUp { identityMapLimit := 5000 } = .ok (.error e, p) ∧
      p.frames.freeFrames = [1, 2, 3] ∧ p.kernelSpace = none ∧ p.active = none ∧
        p.platform.root = 0 := by
  obtain ⟨hseven, -⟩ := setUp_exact (w := ofFrames 8) (.start _ _) rfl
  obtain ⟨hthree, hundone⟩ := setUp_exact (w := ofFrames 4) (.start _ _) rfl
  obtain ⟨result, p, hs, hiff, hlow⟩ := hseven (8 * pageSize) _
    [.releaseRegion pageSize (8 * pageSize)] { identityMapLimit := 5000 } .ofMemory rfl
    (by decide) (by decide +kernel) rfl (by decide)
  obtain rfl := hiff.mpr (by decide +kernel)
  obtain ⟨k, hk⟩ := hlow rfl
  refine ⟨⟨p, k, hs, hk⟩, ?_⟩
  obtain ⟨result, p, hs, hiff, -⟩ := hthree (4 * pageSize) _
    [.releaseRegion pageSize (4 * pageSize)] { identityMapLimit := 5000 } .ofMemory rfl
    (by decide) (by decide +kernel) rfl (by decide)
  have hfew : ¬ tablesFor 5000 ≤ (ofFrames 4).paging.frames.freeFrames.length := by
    decide +kernel
  cases result with
  | ok _ => exact absurd (hiff.mp rfl) hfew
  | error e =>
    obtain ⟨hfrees, hnone, hactive, hroot⟩ := hundone _ _ _ hs
    exact ⟨e, p, hs, hfrees.trans (by decide +kernel), hnone, hactive, hroot⟩

end KernelCore.Spaces
