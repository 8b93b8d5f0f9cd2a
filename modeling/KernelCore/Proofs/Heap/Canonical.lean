import Mathlib
import KernelCore.Heap.Shared
import KernelCore.Proofs.Heap.Payloads

/-!
# What the allocated blocks determine

Between allocated blocks, merged free space can be laid out in one way only: an arena that is tiled
without free neighbours has the blocks that its allocated ones leave no choice about. So a heap that
gives back what it handed out has its old blocks again, whatever happened in between.
-/
namespace KernelCore

namespace Heap

variable {start finish : Nat} {b c : Block} {bs bs' cs : List Block} {h h' : Heap}

theorem Laid.lt (hl : Laid start (b :: bs) finish) : start < finish := by
  obtain ⟨hlow, hp, hfin, hhigh⟩ := hl.bounds (List.mem_cons_self ..)
  rw [headerSize] at hp
  omega

/-- A free block ends where an allocated one starts, and that one is no part of another block. -/
theorem Laid.finish_le (hl : Laid start (b :: bs) finish) (hl' : Laid start (c :: cs) finish)
    (hc : Coalesced (b :: bs)) (hb : b.free = true)
    (hsub : ∀ d ∈ bs, d.free = false → d ∈ cs) : c.finish ≤ b.finish := by
  obtain ⟨-, -, -, hle'⟩ := hl'.bounds (List.mem_cons_self ..)
  obtain ⟨-, -, hl⟩ := hl
  obtain ⟨-, -, hl'⟩ := hl'
  cases bs with
  | nil =>
    have hfin : b.finish = finish := hl
    omega
  | cons d ds =>
    have hd : d.free = false := by
      rw [← Bool.not_eq_true]
      exact fun hf => (List.isChain_cons_cons.mp hc).1 ⟨hb, hf⟩
    have hlow := (hl'.bounds (hsub d (List.mem_cons_self ..) hd)).1
    rw [Block.offset, hl.1, Nat.add_sub_cancel] at hlow
    exact hlow

theorem Laid.free_of_free (hl : Laid start (b :: bs) finish) (hl' : Laid start (c :: cs) finish)
    (hb : b.free = true) (hsub : ∀ d ∈ c :: cs, d.free = false → d ∈ b :: bs) :
    c.free = true := by
  rw [← Bool.not_eq_false]
  intro hc
  rcases List.mem_cons.mp (hsub c (List.mem_cons_self ..) hc) with rfl | hmem
  · rw [hb] at hc
    cases hc
  · obtain ⟨hp, -, hl⟩ := hl
    have hlow := (hl.bounds hmem).1
    rw [Block.offset, hl'.1, Nat.add_sub_cancel, Block.finish, hp, headerSize] at hlow
    omega

theorem mem_of_taken_eq (htaken : bs.filter (!·.free) = cs.filter (!·.free)) (hb : b ∈ bs)
    (hfree : b.free = false) : b ∈ cs := by
  have hmem : b ∈ bs.filter (!·.free) := List.mem_filter.mpr ⟨hb, by rw [hfree]; rfl⟩
  rw [htaken] at hmem
  exact List.mem_of_mem_filter hmem

theorem Laid.eq_of_taken_eq (hl : Laid start bs finish) (hl' : Laid start bs' finish)
    (hc : Coalesced bs) (hc' : Coalesced bs')
    (htaken : bs.filter (!·.free) = bs'.filter (!·.free)) : bs = bs' := by
  induction bs generalizing start bs' with
  | nil =>
    cases bs' with
    | nil => rfl
    | cons c cs => exact absurd hl (Nat.ne_of_lt hl'.lt)
  | cons b bs ih =>
    cases bs' with
    | nil => exact absurd hl' (Nat.ne_of_lt hl.lt)
    | cons c cs =>
      have hfree : b.free = true ↔ c.free = true :=
        ⟨fun hb => hl.free_of_free hl' hb fun d hd => mem_of_taken_eq htaken.symm hd,
          fun hf => hl'.free_of_free hl hf fun d hd => mem_of_taken_eq htaken hd⟩
      have hrest : b = c → b :: bs = c :: cs := by
        rintro rfl
        rw [ih hl.2.2 hl'.2.2 (List.isChain_cons.mp hc).2 (List.isChain_cons.mp hc').2]
        rw [List.filter_cons, List.filter_cons] at htaken
        split at htaken
        · exact List.tail_eq_of_cons_eq htaken
        · exact htaken
      apply hrest
      by_cases hb : b.free = true
      · have hf := hfree.mp hb
        rw [List.filter_cons_of_neg (by simp [hb]), List.filter_cons_of_neg (by simp [hf])]
          at htaken
        -- neither of two free blocks ends before the other
        have hle := hl.finish_le hl' hc hb fun d hd => mem_of_taken_eq htaken hd
        have hge := hl'.finish_le hl hc' hf fun d hd => mem_of_taken_eq htaken.symm hd
        have hp := hl.1.trans hl'.1.symm
        rw [Block.finish, Block.finish] at hle hge
        obtain ⟨payload, size, free⟩ := b
        obtain ⟨payload', size', free'⟩ := c
        simp only [Block.mk.injEq] at hb hf hp hle hge ⊢
        exact ⟨hp, by omega, hb.trans hf.symm⟩
      · have hf := mt hfree.mpr hb
        rw [List.filter_cons_of_pos (by simp [hb]), List.filter_cons_of_pos (by simp [hf])]
          at htaken
        exact List.head_eq_of_cons_eq htaken

/-- Merged blocks of arenas of one length are the same when the allocated ones are. -/
theorem Formatted.eq_of_perm (hf : h.Formatted bs) (hf' : h'.Formatted bs')
    (hcap : h'.capacity = h.capacity)
    (hp : (bs.filter (!·.free)).Perm (bs'.filter (!·.free))) : bs' = bs := by
  cases hf with
  | short hroom =>
    cases hf' with
    | short _ => rfl
    | tiled ht' _ => exact absurd ht'.room (by rw [hcap]; omega)
  | tiled ht hc =>
    cases hf' with
    | short hroom => exact absurd ht.room (by rw [← hcap]; omega)
    | tiled ht' hc' =>
      have htaken := hp.eq_of_pairwise (fun b c _ _ hbc hcb => by
        rw [Block.finish, headerSize] at hbc hcb
        omega) (ht.laid.pairwise.filter _) (ht'.laid.pairwise.filter _)
      have hl' := ht'.laid
      rw [hcap] at hl'
      exact (ht.laid.eq_of_taken_eq hl' hc hc' htaken).symm

theorem Formatted.allocate (hf : h.Formatted bs) {size : Nat} (hsize : size ≠ 0) :
    h.allocate size = .ok (.error .heapExhausted, h) ∨
      ∃ b h' bs', h.allocate size = .ok (.ok (some b.payload), h') ∧ h'.Formatted bs' ∧
        (bs'.filter (!·.free)).Perm (b :: bs.filter (!·.free)) ∧ h'.base = h.base ∧
        h'.capacity = h.capacity ∧ size ≤ b.size := by
  cases hf with
  | short hroom =>
    left
    simp only [Heap.allocate, if_neg hsize, chain_short hroom, bind, Except.bind, pure,
      Except.pure, List.find?_nil, ite_self]
  | tiled ht hc =>
    obtain ⟨r, hr, hserved⟩ := ht.allocate hsize
    cases hserved with
    | none _ => exact .inl hr
    | @some xs ys b h' split _ hserves ht' hsame =>
      subst split
      obtain ⟨hfree, hle⟩ := Block.serves_iff.mp hserves
      refine .inr ⟨b.granted (Word.roundUp size heapAlignment), h', _, ?_,
        .tiled ht' (hc.carve hfree _), taken_carve hfree _ xs ys, hsame.base, hsame.capacity, ?_⟩
      · rw [hr, Block.payload_granted]
      · exact (Word.le_roundUp (by decide)).trans (Block.size_granted hle).1

theorem Formatted.free (hf : h.Formatted bs) (hb : b ∈ bs.filter (!·.free)) :
    ∃ h' bs', h.free b.payload = .ok h' ∧ h'.Formatted bs' ∧
      (bs.filter (!·.free)).Perm (b :: bs'.filter (!·.free)) ∧ h'.base = h.base ∧
      h'.capacity = h.capacity ∧ ∀ c ∈ bs', c.free = false → ∀ x, c.offset ≤ x → x < c.finish →
        h'.arena[x]? = h.arena[x]? := by
  obtain ⟨hb, hfree⟩ := List.mem_filter.mp hb
  rw [Bool.not_eq_true'] at hfree
  obtain ⟨ht, -⟩ := hf.tiled_of_mem hb
  obtain ⟨xs, ys, rfl⟩ := List.append_of_mem hb
  obtain ⟨h', hrun, ht', hsame⟩ := ht.free hfree
  exact ⟨h', _, hrun, .tiled ht' (coalesced_merge _), taken_release hfree, hsame.base,
    capacity_congr hsame.size, fun c hc hcfree _ hx hx' =>
      hsame.bytes_of_mem ht.laid.release (mem_of_mem_merge hc hcfree) hcfree hx hx'⟩

theorem Formatted.eq_whole (hf : h.Formatted bs) (hnone : bs.filter (!·.free) = []) :
    bs = if h.capacity < headerSize then [] else [.whole h.capacity] := by
  cases hf with
  | short hroom => rw [if_pos hroom]
  | tiled ht hc =>
    have hroom := ht.room
    have hw := tiled_whole hroom ht.small
    have hsame := sameOutside_withHeader ((Nat.zero_add _).trans_le hroom)
      ((Block.whole h.capacity).header h.capacity)
    rw [if_neg (Nat.not_lt.mpr hroom)]
    refine Formatted.eq_of_perm (.tiled hw (List.isChain_singleton _)) (.tiled ht hc)
      hsame.capacity.symm ?_
    rw [hnone]
    exact .refl _

end Heap

namespace SharedHeap

open Heap

/-- Whether the blocks of the heap tile its arena without free neighbours, once there is one. -/
def WellFormed (s : SharedHeap) : Prop := ∀ h, s.heap = some h → ∃ bs, h.Formatted bs

/-- Well-formed heaps, and the blocks that are allocated in them in any order. -/
inductive Stocked : SharedHeap → List Block → Prop
  | missing : Stocked ⟨none⟩ []
  | installed {h : Heap} {bs taken : List Block} (formatted : h.Formatted bs)
      (perm : (bs.filter (!·.free)).Perm taken) : Stocked ⟨some h⟩ taken

/-- Where the arena lies and how much of it there is for blocks. -/
def extent (s : SharedHeap) : Option (Nat × Nat) := s.heap.map fun h => (h.base, h.capacity)

variable {s s' : SharedHeap} {b c : Block} {taken taken' : List Block} {size : Nat}

theorem WellFormed.exists_stocked (hw : s.WellFormed) : ∃ taken, s.Stocked taken := by
  obtain ⟨_ | h⟩ := s
  · exact ⟨[], .missing⟩
  · obtain ⟨bs, hf⟩ := hw h rfl
    exact ⟨_, .installed hf (.refl _)⟩

theorem wellFormed_ofArena (base : Nat) {arena : Array UInt8} (hmax : arena.size < 2 ^ 63) :
    WellFormed ⟨some (.ofArena base arena)⟩ := by
  intro h hh
  obtain rfl := Option.some.inj hh
  obtain ⟨bs, hf, -⟩ := formatted_ofArena base hmax
  exact ⟨bs, hf⟩

theorem Stocked.of_perm (hs : s.Stocked taken) (hp : taken.Perm taken') : s.Stocked taken' := by
  cases hs with
  | missing =>
    obtain rfl := hp.nil_eq
    exact .missing
  | installed hf hperm => exact .installed hf (hperm.trans hp)

theorem Stocked.free_eq_false (hs : s.Stocked taken) (hb : b ∈ taken) : b.free = false := by
  cases hs with
  | missing => cases hb
  | installed _ hperm => simpa using (List.mem_filter.mp (hperm.mem_iff.mpr hb)).2

theorem Stocked.exists_mem (hs : s.Stocked taken) (hb : b ∈ taken) :
    ∃ h bs, s.heap = some h ∧ h.blocks = .ok bs ∧ b ∈ bs := by
  cases hs with
  | missing => cases hb
  | installed hf hperm =>
    exact ⟨_, _, rfl, hf.blocks, List.mem_of_mem_filter (hperm.mem_iff.mpr hb)⟩

theorem Stocked.pairwise (hs : s.Stocked taken) :
    taken.Pairwise fun b c => Apart b.range c.range := by
  cases hs with
  | missing => exact .nil
  | installed hf hperm =>
    exact (hperm.pairwise_iff Apart.symm).mp ((hf.pairwise.filter _).imp fun hle => .inl hle)

theorem Stocked.nodup_payload (hs : s.Stocked taken) : (taken.map Block.payload).Nodup := by
  refine List.pairwise_map.mpr (hs.pairwise.imp fun hbc heq => ?_)
  simp only [Apart, Block.range, headerSize] at hbc
  omega

/-- The allocated blocks determine all blocks. -/
theorem Stocked.blocks_eq (hs : s.Stocked taken) (hs' : s'.Stocked taken')
    (hp : taken.Perm taken') (he : s'.extent = s.extent) :
    s'.heap.map Heap.blocks = s.heap.map Heap.blocks := by
  cases hs with
  | missing =>
    cases hs' with
    | missing => rfl
    | installed _ _ => cases he
  | installed hf hperm =>
    cases hs' with
    | missing => cases he
    | installed hf' hperm' =>
      have hcap := congrArg Prod.snd (Option.some.inj he)
      have hbs := hf.eq_of_perm hf' hcap (hperm.trans (hp.trans hperm'.symm))
      rw [Option.map_some, Option.map_some, hf'.blocks, hf.blocks, hbs]

theorem extent_congr {h h' : Heap} (hb : h'.base = h.base) (hc : h'.capacity = h.capacity) :
    extent ⟨some h'⟩ = extent ⟨some h⟩ := by
  rw [extent, extent, Option.map_some, Option.map_some, hb, hc]

theorem addressOf_eq (s : SharedHeap) (block : Nat) :
    s.addressOf block = s.extent.map fun x => x.1 + block := by
  rw [addressOf, extent, Option.map_map]
  rfl

theorem addressOf_congr (h : s'.extent = s.extent) (block : Nat) :
    s'.addressOf block = s.addressOf block := by
  rw [addressOf_eq, addressOf_eq, h]

theorem Stocked.exists_address (hs : s.Stocked (b :: taken)) (block : Nat) :
    ∃ address, s.addressOf block = some address := by
  cases hs
  exact ⟨_, rfl⟩

theorem Stocked.allocate (hs : s.Stocked taken) (hsize : size ≠ 0) :
    s.allocate size = .ok (.error .heapExhausted, s) ∨
      ∃ b s', s.allocate size = .ok (.ok (some b.payload), s') ∧ s'.Stocked (b :: taken) ∧
        s'.extent = s.extent ∧ size ≤ b.size := by
  cases hs with
  | missing => exact .inl rfl
  | @installed h bs _ hf hperm =>
    simp only [SharedHeap.allocate, bind, Except.bind, pure, Except.pure]
    obtain hnone | ⟨b, h', bs', hr, hf', hp, hbase, hcap, hle⟩ := hf.allocate hsize
    · left
      rw [hnone]
    · right
      rw [hr]
      exact ⟨b, ⟨some h'⟩, rfl, .installed hf' (hp.trans (hperm.cons _)), extent_congr hbase hcap,
        hle⟩

theorem peek_congr {h h' : Heap} {address n : Nat} (hbase : h'.base = h.base)
    (hbytes : ∀ x, address - h.base ≤ x → x < address - h.base + n →
      h'.arena[x]? = h.arena[x]?) : peek ⟨some h'⟩ address n = peek ⟨some h⟩ address n := by
  rw [peek, peek]
  dsimp only
  rw [hbase]
  exact Bytes.slice_congr hbytes

theorem Stocked.free (hs : s.Stocked (b :: taken)) :
    ∃ s', s.free b.payload = .ok s' ∧ s'.Stocked taken ∧ s'.extent = s.extent ∧
      ∀ c ∈ taken, ∀ address n, s.addressOf c.payload = some address → n ≤ c.size →
        s'.peek address n = s.peek address n := by
  cases hs with
  | @installed h bs _ hf hperm =>
    have hb : b ∈ bs.filter (!·.free) := hperm.mem_iff.mpr (List.mem_cons_self ..)
    obtain ⟨h', bs', hrun, hf', hp, hbase, hcap, hbytes⟩ := hf.free hb
    have hrest := (hp.symm.trans hperm).cons_inv
    refine ⟨⟨some h'⟩, ?_, .installed hf' hrest, extent_congr hbase hcap,
      fun c hc address n haddr hn => peek_congr hbase fun x hx hx' => ?_⟩
    · simp only [SharedHeap.free, hrun, bind, Except.bind, pure, Except.pure]
    · obtain ⟨hc, hfree⟩ := List.mem_filter.mp (hrest.mem_iff.mpr hc)
      have haddr : h.base + c.payload = address := Option.some.inj haddr
      refine hbytes c hc (by simpa using hfree) x ?_ ?_
      · rw [Block.offset]
        omega
      · rw [Block.finish]
        omega

end SharedHeap

end KernelCore
