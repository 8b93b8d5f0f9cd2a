import Mathlib
import KernelCore.Proofs.Heap.Payloads
import KernelCore.Proofs.Heap.Tags

/-!
# Stale handles

As long as no user writes a tag into a payload, a handle is taken for a block only if it is the one
of an allocated block. Handles that were released or merged away, that lie inside of a payload or
that were never handed out have no effect.
-/
namespace KernelCore.Heap

/-- A change puts a tag to an aligned offset where there was none. -/
def PlacesTag (h h' : Heap) : Prop := ∃ x, x % heapAlignment = 0 ∧ ¬ h.Tagged x ∧ h'.Tagged x

def Request.IsWrite : Request → Prop
  | .write .. => True
  | .allocate _ | .free _ => False

/-- The writes among the requests of a run place no tag. -/
def Clean (h : Heap) : List Request → Prop
  | [] => True
  | r :: rs => ∀ h', h.serve r = .ok h' → (r.IsWrite → ¬ h.PlacesTag h') ∧ h'.Clean rs

/-- The blocks of a heap in which tags stand where they start and nowhere else. -/
structure Spotless (h : Heap) (bs : List Block) : Prop where
  formatted : h.Formatted bs
  bare : h.Bare bs

variable {h h' : Heap} {handle : Nat} {bs : List Block}

theorem placesTag_iff : h.PlacesTag h' ↔
    ∃ x < h'.arena.size, x % heapAlignment = 0 ∧ ¬ h.Tagged x ∧ h'.Tagged x :=
  ⟨fun ⟨x, hx, hold, hnew⟩ => ⟨x, hnew.lt, hx, hold, hnew⟩,
    fun ⟨x, _, hx, hold, hnew⟩ => ⟨x, hx, hold, hnew⟩⟩

instance (h h' : Heap) : Decidable (h.PlacesTag h') := decidable_of_iff _ placesTag_iff.symm

instance : DecidablePred Request.IsWrite
  | .write .. => isTrue trivial
  | .allocate _ | .free _ => isFalse id

instance decidableClean : (h : Heap) → (rs : List Request) → Decidable (h.Clean rs)
  | _, [] => isTrue trivial
  | h, r :: rs =>
    match hr : h.serve r with
    | .error _ => isTrue fun _ hs => nomatch hr.symm.trans hs
    | .ok h' =>
      have := decidableClean h' rs
      decidable_of_iff ((r.IsWrite → ¬ h.PlacesTag h') ∧ h'.Clean rs)
        ⟨fun hc _ hs => Except.ok.inj (hr.symm.trans hs) ▸ hc, fun hc => hc h' hr⟩

/-! ### New heaps -/

theorem not_tagged_zeroed (base size x : Nat) : ¬ Tagged ⟨base, Array.replicate size 0⟩ x :=
  not_tagged_of_zero fun i b _ _ hb => by
    rw [Array.getElem?_replicate] at hb
    split at hb
    · exact (Option.some.inj hb).symm
    · cases hb

theorem Formatted.bare_ofArena {base size : Nat}
    (hf : (ofArena base (Array.replicate size 0)).Formatted bs) :
    (ofArena base (Array.replicate size 0)).Bare bs := by
  have hsize : (Array.replicate size (0 : UInt8)).size = size := Array.size_replicate
  by_cases hshort : Word.roundDown size heapAlignment < headerSize
  · intro x _ htag
    rw [ofArena, hsize, if_pos hshort] at htag
    exact absurd htag (not_tagged_zeroed base size x)
  · have hroom : 0 + headerSize ≤ (⟨base, Array.replicate size 0⟩ : Heap).capacity := by
      rw [capacity, hsize]
      omega
    have heq : ofArena base (Array.replicate size 0) =
        (⟨base, Array.replicate size 0⟩ : Heap).withHeader 0
          ⟨tag, true, Word.roundDown size heapAlignment - headerSize, none⟩ := by
      rw [ofArena, hsize, if_neg hshort, withHeader]
    rw [heq] at hf ⊢
    cases hf with
    | short hroom' =>
      rw [(sameOutside_withHeader hroom _).capacity] at hroom'
      omega
    | tiled ht _ =>
      have hfirst : 0 ∈ bs.map Block.offset := by
        obtain ⟨b, cs, rfl, ho⟩ := ht.exists_cons
        simp [ho]
      intro x hx htag
      obtain hold | rfl | rfl := tagged_withHeader hroom rfl hx htag
      · exact absurd hold (not_tagged_zeroed base size x)
      · exact hfirst
      · exact absurd htag (ht.not_tagged hfirst)

theorem spotless_ofArena (base : Nat) {size : Nat} (hmax : size < 2 ^ 63) :
    ∃ bs, (ofArena base (Array.replicate size 0)).Spotless bs := by
  have hsize : (Array.replicate size (0 : UInt8)).size < 2 ^ 63 := by rwa [Array.size_replicate]
  obtain ⟨bs, hf, -⟩ := formatted_ofArena base hsize
  exact ⟨bs, hf, hf.bare_ofArena⟩

/-! ### Requests -/

/-- A handle is found if it is the one of a block, as a tag stands in front of no other. -/
theorem Spotless.find_cases (hs : h.Spotless bs) (hn : ¬ Names bs handle) :
    h.find handle = .ok none ∨ ∃ x, h.find handle = .ok (some x) ∧ x.2.free = true := by
  cases hs.formatted with
  | short hroom => exact .inl (find_short hroom handle)
  | tiled ht _ =>
    obtain hnone | ⟨header, -, hlow, -, hal, hread, htag⟩ := h.find_cases handle
    · exact .inl hnone
    · rw [hread] at htag
      obtain ⟨b, hb, ho⟩ := List.mem_map.mp (hs.bare _ hal (tagged_iff.mpr htag))
      have hp : b.payload = handle := by
        have hbounds := (ht.bounds hb).1
        omega
      refine .inr ⟨_, hp ▸ ht.find hb, ?_⟩
      show b.free = true
      rw [← Bool.not_eq_false]
      exact fun hfree => hn ⟨b, hb, hfree, hp⟩

theorem Spotless.ignores (hs : h.Spotless bs) (hn : ¬ Names bs handle) :
    h.free handle = .ok h ∧ h.payloadSize handle = .ok none := by
  obtain hnone | ⟨x, hfind, hfree⟩ := hs.find_cases hn
  · simp [Heap.free, payloadSize, hnone, bind, Except.bind, pure, Except.pure]
  · simp [Heap.free, payloadSize, hfind, hfree, bind, Except.bind, pure, Except.pure]

theorem Spotless.serve_allocate (hs : h.Spotless bs) (size : Nat) :
    ∃ h' bs', h.serve (.allocate size) = .ok h' ∧ h'.Spotless bs' := by
  cases hs.formatted with
  | short hroom => exact ⟨h, _, serve_short hroom _, hs⟩
  | tiled ht hc =>
    by_cases hsize : size = 0
    · refine ⟨h, bs, ?_, hs⟩
      simp only [Heap.serve, Heap.allocate, if_pos hsize, bind, Except.bind, pure, Except.pure]
    · have hn : Word.roundUp size heapAlignment % heapAlignment = 0 := Nat.mul_mod_left _ _
      rw [Heap.serve, ht.allocate_eq hsize]
      generalize Word.roundUp size heapAlignment = n at hn
      cases hf : bs.find? (Block.serves n) with
      | none => exact ⟨h, bs, rfl, hs⟩
      | some b =>
        obtain ⟨hb, xs, ys, rfl, -⟩ := List.find?_eq_some_iff_append.mp hf
        obtain ⟨hfree, hle⟩ := Block.serves_iff.mp hb
        obtain ⟨h', hplace, ht', -⟩ := place_spec ht hn hle
        dsimp only
        rw [hplace]
        exact ⟨h', _, rfl, .tiled ht' (hc.carve hfree n), hs.bare.carve ht ht' hn hplace⟩

theorem Spotless.serve_free (hs : h.Spotless bs) (handle : Nat) :
    ∃ h' bs', h.serve (.free handle) = .ok h' ∧ h'.Spotless bs' := by
  by_cases hn : Names bs handle
  · obtain ⟨b, hb, hfree, rfl⟩ := hn
    obtain ⟨ht, -⟩ := hs.formatted.tiled_of_mem hb
    obtain ⟨xs, ys, rfl⟩ := List.append_of_mem hb
    obtain ⟨h', hrun, ht', -⟩ := ht.free hfree
    exact ⟨h', _, hrun, .tiled ht' (coalesced_merge _), hs.bare.free ht hfree hrun⟩
  · exact ⟨h, bs, (hs.ignores hn).1, hs⟩

theorem Spotless.serve_write (hs : h.Spotless bs) {handle start : Nat} {bytes : List UInt8}
    (hclean : ∀ h', h.serve (.write handle start bytes) = .ok h' → ¬ h.PlacesTag h') :
    ∃ h' bs', h.serve (.write handle start bytes) = .ok h' ∧ h'.Spotless bs' := by
  by_cases hn : Names bs handle
  · obtain ⟨b, hb, hfree, rfl⟩ := hn
    obtain ⟨ht, hc⟩ := hs.formatted.tiled_of_mem hb
    obtain ⟨h', hw, ht', -⟩ := ht.writePayload hb hfree start bytes
    have hserve : h.serve (.write b.payload start bytes) = .ok (h'.getD h) := by
      simp only [Heap.serve, hw, bind, Except.bind, pure, Except.pure]
    refine ⟨h'.getD h, bs, hserve, .tiled ht' hc, ?_⟩
    refine hs.bare.extend (List.Subset.refl _) fun x hx htag => .inl ?_
    by_contra hold
    exact hclean _ hserve ⟨x, hx, hold, htag⟩
  · refine ⟨h, bs, ?_, hs⟩
    simp only [Heap.serve, writePayload, (hs.ignores hn).2, bind, Except.bind, pure, Except.pure]
    rfl

theorem Spotless.run {rs : List Request} (hs : h.Spotless bs) (hclean : h.Clean rs) :
    ∃ h' bs', rs.foldlM serve h = .ok h' ∧ h'.Spotless bs' := by
  induction rs generalizing h bs with
  | nil => exact ⟨h, bs, rfl, hs⟩
  | cons r rs ih =>
    obtain ⟨h₁, bs₁, hserve, hs₁⟩ : ∃ h₁ bs₁, h.serve r = .ok h₁ ∧ h₁.Spotless bs₁ := by
      cases r with
      | allocate size => exact hs.serve_allocate size
      | free handle => exact hs.serve_free handle
      | write handle start bytes => exact hs.serve_write fun h' hh => (hclean h' hh).1 trivial
    obtain ⟨h', bs', hrun, hs'⟩ := ih hs₁ (hclean h₁ hserve).2
    refine ⟨h', bs', ?_, hs'⟩
    rw [List.foldlM_cons, hserve]
    exact hrun

/-- After every run over a zeroed arena whose writes place no tag, a handle has a payload exactly if
it is the one of an allocated block, and releasing any other handle changes nothing. -/
theorem stale_handles (base : Nat) {size : Nat} (hmax : size < 2 ^ 63) {rs : List Request}
    (hclean : (ofArena base (Array.replicate size 0)).Clean rs) :
    ∃ h bs, rs.foldlM serve (ofArena base (Array.replicate size 0)) = .ok h ∧ h.blocks = .ok bs ∧
      (∀ handle, (∃ bytes, h.payload handle = .ok (some bytes)) ↔ Names bs handle) ∧
      ∀ handle, ¬ Names bs handle → h.payload handle = .ok none ∧ h.free handle = .ok h := by
  obtain ⟨_, hs⟩ := spotless_ofArena base hmax
  obtain ⟨h, bs, hrun, hs⟩ := hs.run hclean
  have hnone : ∀ handle, ¬ Names bs handle → h.payload handle = .ok none := fun handle hn => by
    simp only [Heap.payload, (hs.ignores hn).2, bind, Except.bind, pure, Except.pure,
      Option.map_none]
  refine ⟨h, bs, hrun, hs.formatted.blocks, fun handle => ⟨?_, ?_⟩,
    fun handle hn => ⟨hnone handle hn, (hs.ignores hn).1⟩⟩
  · rintro ⟨bytes, hpay⟩
    by_contra hn
    rw [hnone handle hn] at hpay
    cases hpay
  · rintro ⟨b, hb, hfree, rfl⟩
    obtain ⟨ht, -⟩ := hs.formatted.tiled_of_mem hb
    exact ⟨_, ht.payload hb hfree⟩

/-- The second of two blocks is merged away, and its header comes to lie in the payload of a larger
block. Its handle stays without effect. -/
theorem stale_handle_of_absorbed_block : ∃ h bs,
    [.allocate 16, .allocate 16, .free 80, .free 32, .allocate 96, .write 32 0 [1, 2, 3]].foldlM
      serve (ofArena 0 (Array.replicate 128 0)) = .ok h ∧ h.blocks = .ok bs ∧
        bs = [⟨32, 96, false⟩] ∧ h.payload 80 = .ok none ∧ h.free 80 = .ok h := by
  obtain ⟨h, bs, hrun, hblocks, -, hstale⟩ := stale_handles 0
    (show 128 < 2 ^ 63 by decide)
    (show (ofArena 0 (Array.replicate 128 0)).Clean [.allocate 16, .allocate 16, .free 80, .free 32,
      .allocate 96, .write 32 0 [1, 2, 3]] by decide +kernel)
  have hlisted : ([.allocate 16, .allocate 16, .free 80, .free 32, .allocate 96,
      .write 32 0 [1, 2, 3]].foldlM serve (ofArena 0 (Array.replicate 128 0))).toOption.any
        (fun h => h.blocks.toOption = some [⟨32, 96, false⟩]) = true := by decide +kernel
  rw [hrun, Except.toOption, Option.any_some, decide_eq_true_eq, hblocks] at hlisted
  obtain rfl : bs = [⟨32, 96, false⟩] := Option.some.inj hlisted
  obtain ⟨hpay, hfree⟩ := hstale 80 (by decide)
  exact ⟨h, _, hrun, hblocks, rfl, hpay, hfree⟩

end KernelCore.Heap
