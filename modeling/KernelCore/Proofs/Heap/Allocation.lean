import Mathlib
import KernelCore.Proofs.Heap.Tiling

/-!
# Allocation

The first free block that is large enough serves a request. It is split if the rest can hold a
block, and handed out whole otherwise; nothing changes outside of it.
-/
namespace KernelCore.Heap

/-- No two free blocks follow each other. -/
def Coalesced (bs : List Block) : Prop := bs.IsChain fun b c => ¬ (b.free = true ∧ c.free = true)

namespace Block

/-- Whether a block can serve `n` bytes. -/
def serves (n : Nat) (b : Block) : Bool := b.free && decide (n ≤ b.size)

/-- The allocated part of a block that is split. -/
def front (n : Nat) (b : Block) : Block := { b with size := n, free := false }

/-- The part of a split block that stays free. -/
def rest (n : Nat) (b : Block) : Block :=
  ⟨b.payload + n + headerSize, b.size - n - headerSize, true⟩

/-- What becomes of a block from which `n` bytes are handed out. -/
def carve (n : Nat) (b : Block) : List Block :=
  if b.size < n + headerSize + minSplit then [{ b with free := false }] else [b.front n, b.rest n]

/-- The block that is handed out. -/
def granted (n : Nat) (b : Block) : Block :=
  if b.size < n + headerSize + minSplit then { b with free := false } else b.front n

theorem payload_granted (n : Nat) (b : Block) : (b.granted n).payload = b.payload := by
  unfold granted
  split <;> rfl

theorem size_granted {n : Nat} {b : Block} (hn : n ≤ b.size) :
    n ≤ (b.granted n).size ∧ (b.granted n).size < n + headerSize + minSplit := by
  unfold granted
  split
  · next hlt => exact ⟨hn, hlt⟩
  · exact ⟨Nat.le_refl n, by simp [front, headerSize, Nat.add_assoc]⟩

theorem filter_carve (n : Nat) (b : Block) :
    (b.carve n).filter (!·.free) = [b.granted n] := by
  unfold carve granted
  split <;> rfl

theorem finish_front (n : Nat) (b : Block) : (b.front n).finish = b.payload + n := rfl

theorem offset_rest (n : Nat) (b : Block) : (b.rest n).offset = b.payload + n :=
  Nat.add_sub_cancel ..

theorem payload_rest (n : Nat) (b : Block) :
    (b.rest n).payload = (b.rest n).offset + headerSize := by
  rw [offset_rest, rest]

theorem finish_rest {n : Nat} {b : Block} (hn : n + headerSize ≤ b.size) :
    (b.rest n).finish = b.finish := by
  show b.payload + n + headerSize + (b.size - n - headerSize) = b.payload + b.size
  omega

end Block

variable {start finish n size : Nat} {b c : Block} {bs xs ys : List Block} {h h' : Heap}

theorem coalesced_append : Coalesced (xs ++ ys) ↔
    Coalesced xs ∧ Coalesced ys ∧
      ∀ b ∈ xs.getLast?, ∀ c ∈ ys.head?, ¬ (b.free = true ∧ c.free = true) :=
  List.isChain_append

theorem Coalesced.carve (hc : Coalesced (xs ++ b :: ys)) (hb : b.free = true) (n : Nat) :
    Coalesced (xs ++ b.carve n ++ ys) := by
  obtain ⟨hx, hy, hxy⟩ := coalesced_append.mp hc
  obtain ⟨hby, hy⟩ := List.isChain_cons.mp hy
  have hys : ∀ c ∈ ys.head?, c.free = false := fun c hc => by
    rw [← Bool.not_eq_true]
    exact fun hf => hby c hc ⟨hb, hf⟩
  refine coalesced_append.mpr ⟨coalesced_append.mpr ⟨hx, ?_, ?_⟩, hy, ?_⟩
  · unfold Block.carve
    split
    · exact List.isChain_singleton _
    · exact List.isChain_cons_cons.mpr ⟨by simp [Block.front], List.isChain_singleton _⟩
  · unfold Block.carve
    split <;> simp [Block.front]
  · rintro d - c hc ⟨-, hf⟩
    rw [hys c hc] at hf
    cases hf

theorem taken_carve (hb : b.free = true) (n : Nat) (xs ys : List Block) :
    ((xs ++ b.carve n ++ ys).filter (!·.free)).Perm
      (b.granted n :: (xs ++ b :: ys).filter (!·.free)) := by
  simp only [List.filter_append, List.filter_cons, hb, Bool.not_true, Bool.false_eq_true,
    if_false, Block.filter_carve]
  rw [List.append_assoc]
  exact List.perm_middle

theorem laid_carve (hp : b.payload = b.offset + headerSize) (hs : b.size % heapAlignment = 0)
    (hn : n % heapAlignment = 0) : Laid b.offset (b.carve n) b.finish := by
  unfold Block.carve
  split
  · exact ⟨hp, hs, rfl⟩
  · next hlt =>
    have hle : n + headerSize ≤ b.size := by omega
    refine ⟨hp, hn, ?_, ?_, Block.finish_rest hle⟩
    · rw [Block.payload_rest, Block.offset_rest, Block.finish_front]
    · show (b.size - n - 32) % 16 = 0
      rw [heapAlignment] at hs hn
      omega

/-- Splitting a block takes two headers, both inside of its bytes. -/
theorem Tiled.split_spec (ht : h.Tiled bs) (hb : b ∈ bs) (hn : n + headerSize ≤ b.size) :
    ∃ h₁ h', h.writeHeader (b.rest n).offset ((b.rest n).header h.capacity) = .ok h₁ ∧
      h₁.writeHeader b.offset ((b.front n).header h.capacity) = .ok h' ∧
      h'.headerBytes (b.front n).offset = ((b.front n).header h.capacity).toBytes ∧
      h'.headerBytes (b.rest n).offset = ((b.rest n).header h.capacity).toBytes ∧
      SameOutside b.offset b.finish h h' := by
  obtain ⟨hp, hfin, hcap⟩ := ht.bounds hb
  have hrest := Block.offset_rest n b
  have hroom : b.offset + headerSize ≤ h.capacity := by omega
  have hrroom : (b.rest n).offset + headerSize ≤ h.capacity := by omega
  have hs := sameOutside_withHeader hrroom ((b.rest n).header h.capacity)
  have hwritten := headerBytes_withHeader hrroom ((b.rest n).header h.capacity)
  have hw := writeHeader_eq hrroom ((b.rest n).header h.capacity)
  generalize h.withHeader (b.rest n).offset ((b.rest n).header h.capacity) = h₁
    at hs hwritten hw
  have hroom₁ : b.offset + headerSize ≤ h₁.capacity := by rwa [hs.capacity]
  have hs₁ := sameOutside_withHeader hroom₁ ((b.front n).header h.capacity)
  refine ⟨h₁, _, hw, writeHeader_eq hroom₁ _, headerBytes_withHeader hroom₁ _, ?_,
    (hs.mono (by omega) (by omega)).trans (hs₁.mono le_rfl (by omega))⟩
  rw [hs₁.headerBytes (.inr (by omega)), hwritten]

theorem place_spec (ht : h.Tiled (xs ++ b :: ys)) (hn : n % heapAlignment = 0)
    (hle : n ≤ b.size) :
    ∃ h', h.place b.offset (b.header h.capacity) n = .ok h' ∧
      h'.Tiled (xs ++ b.carve n ++ ys) ∧ SameOutside b.offset b.finish h h' := by
  have hmem : b ∈ xs ++ b :: ys := by simp
  obtain ⟨hx, hp, hsize, -⟩ := ht.laid.split
  obtain ⟨-, hfin, hcap⟩ := ht.bounds hmem
  have hcases := ht.finish_cases hmem
  have hlt := ht.capacity_lt
  have hone : xs ++ b :: ys = xs ++ [b] ++ ys := by simp
  have hmid : Laid b.offset [b] b.finish := ⟨hp, hsize, rfl⟩
  have hz := laid_carve hp hsize hn
  have hword : ¬ Word.maximum < n + headerSize + minSplit := by
    rw [Word.maximum, headerSize, minSplit]
    omega
  unfold place
  rw [if_neg hword]
  unfold Block.carve at hz ⊢
  by_cases hsplit : b.size < n + headerSize + minSplit
  · -- the block is handed out whole
    rw [if_pos hsplit] at hz ⊢
    have hroom : b.offset + headerSize ≤ h.capacity := by omega
    have hs : SameOutside b.offset b.finish h
        (h.withHeader b.offset { b.header h.capacity with free := false }) :=
      (sameOutside_withHeader hroom _).mono le_rfl (by omega)
    rw [hone] at ht
    refine ⟨_, ?_, ht.replace hx hmid hz hs fun z hzm => ?_, hs⟩
    · rw [if_pos (show (b.header h.capacity).size < n + headerSize + minSplit from hsplit)]
      exact writeHeader_eq hroom _
    · rw [List.mem_singleton.mp hzm]
      exact headerBytes_withHeader hroom _
  · -- the rest becomes a block
    rw [if_neg hsplit] at hz ⊢
    have hroom : n + headerSize ≤ b.size := by omega
    obtain ⟨h₁, h', hw, hw', hfront, hrest, hs⟩ := ht.split_spec hmem hroom
    have hat : b.offset + headerSize + n = (b.rest n).offset := by
      rw [Block.offset_rest]
      omega
    have hrh : (⟨tag, true, (b.header h.capacity).size - n - headerSize,
        (b.header h.capacity).next⟩ : Header) = (b.rest n).header h.capacity := by
      rw [Block.header, Block.header, Block.finish_rest hroom]
      rfl
    have hfh : ({ b.header h.capacity with
        free := false, size := n, next := some (b.rest n).offset } : Header) =
          (b.front n).header h.capacity := by
      have hin : b.payload + n < h.capacity := by
        rw [minSplit] at hsplit
        omega
      rw [Block.header, Block.header, Block.finish_front, Block.offset_rest, if_pos hin]
      rfl
    rw [hone] at ht
    refine ⟨h', ?_, ht.replace hx hmid hz hs fun z hzm => ?_, hs⟩
    · rw [if_neg (show ¬ (b.header h.capacity).size < n + headerSize + minSplit from hsplit)]
      simp only [hat, hrh, hfh, hw, hw', bind, Except.bind]
    · rcases List.mem_cons.mp hzm with rfl | hzm
      · exact hfront
      · rw [List.mem_singleton.mp hzm]
        exact hrest

theorem Block.serves_iff : b.serves n = true ↔ b.free = true ∧ n ≤ b.size := by
  simp [Block.serves]

/-- What a request does: it finds no block, or it takes bytes from the first one that serves it. -/
inductive Served (h : Heap) (bs : List Block) (n : Nat) :
    Except MemoryError (Option Nat) × Heap → Prop
  | none (hnone : ∀ b ∈ bs, b.serves n = false) : Served h bs n (.error .heapExhausted, h)
  | some {xs ys : List Block} {b : Block} {h' : Heap} (split : bs = xs ++ b :: ys)
      (before : ∀ c ∈ xs, c.serves n = false) (serves : b.serves n = true)
      (tiled : h'.Tiled (xs ++ b.carve n ++ ys)) (same : SameOutside b.offset b.finish h h') :
      Served h bs n (.ok (some b.payload), h')

/-- A request is served from the first block that serves it. A size that no word holds is no
exception, because no block is that large. -/
theorem Tiled.allocate_eq (ht : h.Tiled bs) (hpos : size ≠ 0) :
    h.allocate size = match bs.find? (Block.serves (Word.roundUp size heapAlignment)) with
      | none => .ok (.error .heapExhausted, h)
      | some b => (h.place b.offset (b.header h.capacity) (Word.roundUp size heapAlignment)).map
          fun h' => (.ok (some b.payload), h') := by
  unfold Heap.allocate
  simp only [if_neg hpos]
  generalize Word.roundUp size heapAlignment = n
  by_cases hword : Word.maximum < n
  · have hnone : bs.find? (Block.serves n) = none := List.find?_eq_none.mpr fun b hb => by
      have hbounds := ht.bounds hb
      have hcap := ht.capacity_lt
      rw [Block.serves_iff]
      rw [Word.maximum] at hword
      omega
    rw [if_pos hword, hnone]
    rfl
  · have hfind : (bs.map fun b => (b.offset, b.header h.capacity)).find?
        (fun x => x.2.free && decide (n ≤ x.2.size)) =
          (bs.find? (Block.serves n)).map fun b => (b.offset, b.header h.capacity) := by
      rw [List.find?_map]
      rfl
    rw [if_neg hword]
    simp only [ht.chain, bind, Except.bind, hfind]
    cases hf : bs.find? (Block.serves n) with
    | none => rfl
    | some b =>
      have hp := (ht.bounds (List.mem_of_find?_eq_some hf)).1
      simp only [Option.map_some, ← hp]
      cases h.place b.offset (b.header h.capacity) n <;> rfl

theorem Tiled.allocate_first (ht : h.Tiled (xs ++ b :: ys)) (hpos : size ≠ 0)
    (hbefore : ∀ c ∈ xs, c.serves (Word.roundUp size heapAlignment) = false)
    (hb : b.serves (Word.roundUp size heapAlignment) = true) :
    ∃ h', h.allocate size = .ok (.ok (some b.payload), h') ∧
      h'.Tiled (xs ++ b.carve (Word.roundUp size heapAlignment) ++ ys) ∧
      SameOutside b.offset b.finish h h' := by
  have hn : Word.roundUp size heapAlignment % heapAlignment = 0 := Nat.mul_mod_left _ _
  rw [ht.allocate_eq hpos]
  generalize Word.roundUp size heapAlignment = n at hn hbefore hb
  have hfind : (xs ++ b :: ys).find? (Block.serves n) = some b :=
    List.find?_eq_some_iff_append.mpr ⟨hb, xs, ys, rfl, by simpa using hbefore⟩
  obtain ⟨h', hplace, ht', hs⟩ := place_spec ht hn (Block.serves_iff.mp hb).2
  refine ⟨h', ?_, ht', hs⟩
  rw [hfind]
  dsimp only
  rw [hplace]
  rfl

theorem Tiled.allocate_none (ht : h.Tiled bs) (hpos : size ≠ 0)
    (hnone : ∀ b ∈ bs, b.serves (Word.roundUp size heapAlignment) = false) :
    h.allocate size = .ok (.error .heapExhausted, h) := by
  rw [ht.allocate_eq hpos, List.find?_eq_none.mpr (by simpa using hnone)]

theorem Tiled.allocate (ht : h.Tiled bs) (hpos : size ≠ 0) :
    ∃ r, h.allocate size = .ok r ∧ Served h bs (Word.roundUp size heapAlignment) r := by
  cases hf : bs.find? (Block.serves (Word.roundUp size heapAlignment)) with
  | none =>
    have hnone := List.find?_eq_none.mp hf
    exact ⟨_, ht.allocate_none hpos (by simpa using hnone), .none (by simpa using hnone)⟩
  | some b =>
    obtain ⟨hb, xs, ys, rfl, hbefore⟩ := List.find?_eq_some_iff_append.mp hf
    obtain ⟨h', hrun, ht', hs⟩ := ht.allocate_first hpos (by simpa using hbefore) hb
    exact ⟨_, hrun, .some rfl (by simpa using hbefore) hb ht' hs⟩

end KernelCore.Heap
