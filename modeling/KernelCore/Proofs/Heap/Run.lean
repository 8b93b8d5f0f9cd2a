import Mathlib
import KernelCore.Proofs.Heap.Release

/-!
# Runs of the heap

A user of the heap allocates blocks, writes into those that it holds and releases them. Whatever it
does, no step fails, the blocks tile the arena with no free neighbours among them, and the
allocated ones are those that the user holds.
-/
namespace KernelCore.Heap

/-- A heap and the handles that were handed out and not released yet. -/
structure Session where
  heap : Heap
  live : List Nat := []

namespace Session

/-- A step of a user; live handles are named by their index. -/
inductive Operation where
  | allocate (size : Nat)
  | free (i : Nat)
  | write (i start : Nat) (bytes : List UInt8)

def perform (s : Session) : Operation → Except Fault Session
  | .allocate size => do
    match ← s.heap.allocate size with
    | (.ok (some block), heap) => return ⟨heap, block :: s.live⟩
    | (_, heap) => return { s with heap }
  | .free i =>
    match s.live[i]? with
    | none => return s
    | some block => return ⟨← s.heap.free block, s.live.eraseIdx i⟩
  | .write i start bytes =>
    match s.live[i]? with
    | none => return s
    | some block => return { s with heap := (← s.heap.writePayload block start bytes).getD s.heap }

def run (s : Session) (ops : List Operation) : Except Fault Session := ops.foldlM perform s

/-- The blocks tile the arena, free ones are merged, and the live handles are the allocated
blocks. -/
structure Sound (s : Session) (bs : List Block) : Prop where
  tiled : s.heap.Tiled bs
  coalesced : Coalesced bs
  live : s.live.Perm ((bs.filter (!·.free)).map Block.payload)

end Session

variable {h : Heap} {b : Block} {bs xs ys : List Block} {s : Session}

/-- The free block that fills an arena. -/
def Block.whole (capacity : Nat) : Block := ⟨headerSize, capacity - headerSize, true⟩

theorem Block.finish_whole {capacity : Nat} (hc : headerSize ≤ capacity) :
    (whole capacity).finish = capacity :=
  Nat.add_sub_cancel' hc

theorem capacity_mod (h : Heap) : h.capacity % heapAlignment = 0 := Nat.mul_mod_left _ _

theorem tiled_whole (hc : headerSize ≤ h.capacity) (hmax : h.arena.size < 2 ^ 63) :
    (h.withHeader 0 ((Block.whole h.capacity).header h.capacity)).Tiled [.whole h.capacity] := by
  have hfin := Block.finish_whole hc
  have hroom : 0 + headerSize ≤ h.capacity := by rwa [Nat.zero_add]
  have hs := sameOutside_withHeader hroom ((Block.whole h.capacity).header h.capacity)
  have hwritten := headerBytes_withHeader hroom ((Block.whole h.capacity).header h.capacity)
  have hmod := capacity_mod h
  refine ⟨by rw [hs.size]; exact hmax, by rw [hs.capacity]; exact hc, ?_, fun b hb => ?_⟩
  · rw [hs.capacity]
    refine ⟨rfl, ?_, hfin⟩
    show (h.capacity - 32) % 16 = 0
    rw [heapAlignment] at hmod
    omega
  · rw [List.mem_singleton.mp hb, hs.capacity]
    exact hwritten

theorem tiled_ofArena (base : Nat) {arena : Array UInt8} (hmin : headerSize ≤ arena.size)
    (hmax : arena.size < 2 ^ 63) :
    (ofArena base arena).Tiled [.whole (⟨base, arena⟩ : Heap).capacity] := by
  have hc : headerSize ≤ (⟨base, arena⟩ : Heap).capacity := by
    rw [headerSize] at hmin ⊢
    rw [capacity, Word.roundDown, heapAlignment]
    dsimp only
    omega
  have hof : ofArena base arena = (⟨base, arena⟩ : Heap).withHeader 0
      ((Block.whole (⟨base, arena⟩ : Heap).capacity).header
        (⟨base, arena⟩ : Heap).capacity) := by
    have hc' := Nat.not_lt.mpr hc
    rw [capacity] at hc'
    rw [ofArena, if_neg hc', withHeader, Block.header, Block.finish_whole hc,
      if_neg (Nat.lt_irrefl _)]
    rfl
  rw [hof]
  exact tiled_whole hc hmax

theorem Tiled.payloadSize (ht : h.Tiled bs) (hb : b ∈ bs) (hfree : b.free = false) :
    h.payloadSize b.payload = .ok (some b.size) := by
  rw [Heap.payloadSize, ht.find hb]
  simp [bind, Except.bind, pure, Except.pure, Block.header, hfree]

theorem Tiled.writePayload (ht : h.Tiled bs) (hb : b ∈ bs) (hfree : b.free = false) (start : Nat)
    (bytes : List UInt8) :
    ∃ h', h.writePayload b.payload start bytes = .ok h' ∧ (h'.getD h).Tiled bs ∧
      SameOutside b.offset b.finish h (h'.getD h) := by
  rw [Heap.writePayload, ht.payloadSize hb hfree]
  simp only [bind, Except.bind]
  split
  · exact ⟨none, rfl, ht, .refl _ _ h⟩
  · next hle => exact ⟨_, rfl, ht.overwrite hb (Nat.not_lt.mp hle)⟩

namespace Session

theorem Sound.mem_live (hs : s.Sound bs) {i block : Nat} (hi : s.live[i]? = some block) :
    ∃ b ∈ bs, b.free = false ∧ b.payload = block := by
  have hm := hs.live.mem_iff.mp (List.mem_of_getElem? hi)
  obtain ⟨b, hb, hp⟩ := List.mem_map.mp hm
  obtain ⟨hb, hfree⟩ := List.mem_filter.mp hb
  exact ⟨b, hb, by simpa using hfree, hp⟩

theorem live_allocate {live : List Nat} (hfree : b.free = true)
    (hl : live.Perm (((xs ++ b :: ys).filter (!·.free)).map Block.payload)) (n : Nat) :
    (b.payload :: live).Perm (((xs ++ b.carve n ++ ys).filter (!·.free)).map Block.payload) := by
  have hp := (taken_carve hfree n xs ys).map Block.payload
  rw [List.map_cons, Block.payload_granted] at hp
  exact (hl.cons _).trans hp.symm

theorem live_release {live : List Nat} {i : Nat} (hi : live[i]? = some b.payload)
    (hfree : b.free = false)
    (hl : live.Perm (((xs ++ b :: ys).filter (!·.free)).map Block.payload)) :
    (live.eraseIdx i).Perm
      (((merge (xs ++ { b with free := true } :: ys)).filter (!·.free)).map Block.payload) := by
  obtain ⟨hlt, he⟩ := List.getElem?_eq_some_iff.mp hi
  have hfront := (List.getElem_cons_eraseIdx_perm hlt).trans
    (hl.trans ((taken_release hfree).map Block.payload))
  rw [he, List.map_cons] at hfront
  exact hfront.cons_inv

theorem Sound.perform (hs : s.Sound bs) (op : Operation) :
    ∃ s' bs', s.perform op = .ok s' ∧ s'.Sound bs' := by
  cases op with
  | allocate size =>
    by_cases hsize : size = 0
    · refine ⟨s, bs, ?_, hs⟩
      simp only [Session.perform, Heap.allocate, if_pos hsize, bind, Except.bind, pure,
        Except.pure]
    · obtain ⟨r, hr, hserved⟩ := hs.tiled.allocate hsize
      cases hserved with
      | none _ =>
        refine ⟨s, bs, ?_, hs⟩
        simp only [Session.perform, hr, bind, Except.bind, pure, Except.pure]
      | @some xs ys b h' split _ hserves ht _ =>
        subst split
        refine ⟨⟨h', b.payload :: s.live⟩, _, ?_, ht,
          hs.coalesced.carve (Block.serves_iff.mp hserves).1 _, ?_⟩
        · simp only [Session.perform, hr, bind, Except.bind, pure, Except.pure]
        · exact live_allocate (Block.serves_iff.mp hserves).1 hs.live _
  | free i =>
    cases hi : s.live[i]? with
    | none =>
      refine ⟨s, bs, ?_, hs⟩
      simp only [Session.perform, hi, pure, Except.pure]
    | some block =>
      obtain ⟨b, hb, hfree, rfl⟩ := hs.mem_live hi
      obtain ⟨xs, ys, rfl⟩ := List.append_of_mem hb
      obtain ⟨h', hrun, ht, -⟩ := hs.tiled.free hfree
      refine ⟨⟨h', s.live.eraseIdx i⟩, _, ?_, ht, coalesced_merge _, ?_⟩
      · simp only [Session.perform, hi, hrun, bind, Except.bind, pure, Except.pure]
      · exact live_release hi hfree hs.live
  | write i start bytes =>
    cases hi : s.live[i]? with
    | none =>
      refine ⟨s, bs, ?_, hs⟩
      simp only [Session.perform, hi, pure, Except.pure]
    | some block =>
      obtain ⟨b, hb, hfree, rfl⟩ := hs.mem_live hi
      obtain ⟨h, hw, ht, -⟩ := hs.tiled.writePayload hb hfree start bytes
      refine ⟨⟨h.getD s.heap, s.live⟩, bs, ?_, ht, hs.coalesced, hs.live⟩
      simp only [Session.perform, hi, hw, bind, Except.bind, pure, Except.pure]

/-- A user with a new heap. -/
def start (base : Nat) (arena : Array UInt8) : Session := { heap := .ofArena base arena }

theorem Sound.run (hs : s.Sound bs) (ops : List Operation) :
    ∃ s' bs', s.run ops = .ok s' ∧ s'.Sound bs' := by
  induction ops generalizing s bs with
  | nil => exact ⟨s, bs, rfl, hs⟩
  | cons op ops ih =>
    obtain ⟨s₁, bs₁, hp, hs₁⟩ := hs.perform op
    obtain ⟨s', bs', hr, hs'⟩ := ih hs₁
    refine ⟨s', bs', ?_, hs'⟩
    simp only [Session.run, List.foldlM_cons, hp, bind, Except.bind]
    exact hr

theorem sound_start (base : Nat) {arena : Array UInt8} (hmin : headerSize ≤ arena.size)
    (hmax : arena.size < 2 ^ 63) : ∃ bs, (start base arena).Sound bs :=
  ⟨_, tiled_ofArena base hmin hmax, List.isChain_singleton _, .refl _⟩

end Session

/-- A walk along the headers finds blocks that tile the arena, tagged, aligned and linked, and no
two neighbours are free. -/
structure Formed (h : Heap) (chain : List (Nat × Header)) : Prop where
  read : h.chain = .ok chain
  first : chain.head?.map Prod.fst = some 0
  tagged : ∀ x ∈ chain, x.2.tag = tag
  aligned : ∀ x ∈ chain, x.1 % heapAlignment = 0 ∧ x.2.size % heapAlignment = 0
  linked : chain.IsChain fun x y => x.2.next = some y.1 ∧ y.1 = x.1 + headerSize + x.2.size
  last : ∀ x ∈ chain.getLast?, x.2.next = none ∧ x.1 + headerSize + x.2.size = h.capacity
  total : (chain.map fun x => headerSize + x.2.size).sum = h.capacity
  coalesced : chain.IsChain fun x y => ¬ (x.2.free = true ∧ y.2.free = true)

theorem Tiled.formed (ht : h.Tiled bs) (hc : Coalesced bs) :
    h.Formed (bs.map fun b => (b.offset, b.header h.capacity)) where
  read := ht.chain
  first := by
    obtain ⟨b, cs, rfl, ho⟩ := ht.exists_cons
    rw [List.map_cons, List.head?_cons, Option.map_some, ho]
  tagged := List.forall_mem_map.mpr fun _ _ => rfl
  aligned := List.forall_mem_map.mpr fun b hb => ht.laid.aligned rfl hb
  linked := by
    refine (List.isChain_map _).mpr ?_
    refine List.isChain_iff_forall_rel_of_append_cons_cons.mpr fun b c xs ys hsplit => ?_
    subst hsplit
    obtain ⟨hf, -, -, hnext⟩ := ht.next_header
    obtain ⟨hp, hfin, -⟩ := ht.bounds (b := b) (by simp)
    refine ⟨hnext, ?_⟩
    show c.offset = b.offset + headerSize + b.size
    omega
  last := by
    intro x hx
    rw [List.getLast?_map, Option.mem_map] at hx
    obtain ⟨b, hb, rfl⟩ := hx
    obtain ⟨xs, rfl⟩ := List.getLast?_eq_some_iff.mp hb
    obtain ⟨-, hp, -, hfin⟩ := ht.laid.split
    have hfin : b.payload + b.size = h.capacity := hfin
    refine ⟨if_neg ?_, ?_⟩
    · rw [Block.finish, hfin]
      exact Nat.lt_irrefl _
    · show b.offset + headerSize + b.size = h.capacity
      omega
  total := by
    rw [List.map_map]
    exact (Nat.zero_add _).symm.trans ht.laid.sum
  coalesced := (List.isChain_map _).mpr hc

/-- Every run of a user on a new heap has a result, and its headers are well formed. No array of
bytes in memory has 2 ^ 63 or more of them. -/
theorem Session.run_formed (base : Nat) {arena : Array UInt8} (hmin : headerSize ≤ arena.size)
    (hmax : arena.size < 2 ^ 63) (ops : List Operation) :
    ∃ s chain, (start base arena).run ops = .ok s ∧ s.heap.Formed chain := by
  obtain ⟨bs, hs⟩ := sound_start base hmin hmax
  obtain ⟨s', bs', hr, hs'⟩ := hs.run ops
  exact ⟨s', _, hr, hs'.tiled.formed hs'.coalesced⟩

/-- Two blocks of a small arena, the second released after a write into the first. -/
theorem Session.run_formed_small : ∃ s chain,
    (start 0 (Array.replicate 160 0)).run
      [.allocate 5, .allocate 20, .write 0 3 [0xEF, 0xBE], .free 0] = .ok s ∧
      s.heap.Formed chain :=
  run_formed 0 (by simp [headerSize]) (by simp) _

end KernelCore.Heap
