import Mathlib
import KernelCore.Proofs.Heap.Headers

/-!
# Tiled arenas

The blocks of a heap tile its arena: each starts where the one before ends, the last ends with the
arena, and the header of each is what its place, its size and its flag say. Such blocks are what a
walk along the headers finds, and a part of them can be replaced by other blocks in the same bytes.
-/
namespace KernelCore.Heap

namespace Block

/-- Offset of the header. -/
def offset (b : Block) : Nat := b.payload - headerSize

/-- Offset behind the payload. -/
def finish (b : Block) : Nat := b.payload + b.size

/-- The header of a block; the last one has no link. -/
def header (b : Block) (capacity : Nat) : Header :=
  ⟨tag, b.free, b.size, if b.finish < capacity then some b.finish else none⟩

end Block

/-- Blocks that follow each other from one offset to another. -/
def Laid : Nat → List Block → Nat → Prop
  | start, [], finish => start = finish
  | start, b :: bs, finish =>
    b.payload = start + headerSize ∧ b.size % heapAlignment = 0 ∧ Laid b.finish bs finish

variable {start finish : Nat} {b c : Block} {bs xs ys : List Block} {h h' : Heap}

theorem Block.ne_of_free (hb : b.free = false) (hc : c.free = true) : b ≠ c := by
  rintro rfl
  rw [hb] at hc
  cases hc

theorem laid_append :
    Laid start (xs ++ ys) finish ↔ ∃ middle, Laid start xs middle ∧ Laid middle ys finish := by
  induction xs generalizing start with
  | nil => simp [Laid]
  | cons x xs ih => simp [Laid, ih, and_assoc]

theorem Laid.le (hl : Laid start bs finish) : start ≤ finish := by
  induction bs generalizing start with
  | nil => exact hl.le
  | cons b bs ih =>
    obtain ⟨hp, -, hl⟩ := hl
    have hle := ih hl
    rw [Block.finish] at hle
    omega

theorem Laid.unique {finish' : Nat} (hl : Laid start bs finish) (hl' : Laid start bs finish') :
    finish = finish' := by
  induction bs generalizing start with
  | nil => exact hl.symm.trans hl'
  | cons b bs ih => exact ih hl.2.2 hl'.2.2

theorem Laid.split (hl : Laid start (xs ++ b :: ys) finish) :
    Laid start xs b.offset ∧ b.payload = b.offset + headerSize ∧ b.size % heapAlignment = 0 ∧
      Laid b.finish ys finish := by
  obtain ⟨middle, hx, hp, hs, hy⟩ := laid_append.mp hl
  have ho : b.offset = middle := by rw [Block.offset, hp, Nat.add_sub_cancel]
  rw [ho]
  exact ⟨hx, hp, hs, hy⟩

theorem Laid.bounds (hl : Laid start bs finish) (hb : b ∈ bs) :
    start ≤ b.offset ∧ b.payload = b.offset + headerSize ∧ b.finish = b.payload + b.size ∧
      b.finish ≤ finish := by
  obtain ⟨xs, ys, rfl⟩ := List.append_of_mem hb
  obtain ⟨hx, hp, -, hy⟩ := hl.split
  exact ⟨hx.le, hp, rfl, hy.le⟩

theorem Laid.length_le (hl : Laid start bs finish) :
    start + headerSize * bs.length ≤ finish := by
  induction bs generalizing start with
  | nil => exact hl.le
  | cons b bs ih =>
    obtain ⟨hp, -, hl⟩ := hl
    have hle := ih hl
    rw [Block.finish] at hle
    rw [List.length_cons, Nat.mul_add]
    omega

theorem Laid.aligned (hl : Laid start bs finish) (hs : start % heapAlignment = 0) (hb : b ∈ bs) :
    b.offset % heapAlignment = 0 ∧ b.size % heapAlignment = 0 := by
  induction bs generalizing start with
  | nil => cases hb
  | cons c bs ih =>
    obtain ⟨hp, hsize, hl⟩ := hl
    rcases List.mem_cons.mp hb with rfl | hb
    · rw [Block.offset, hp, Nat.add_sub_cancel]
      exact ⟨hs, hsize⟩
    · refine ih hl ?_ hb
      rw [Block.finish, hp]
      rw [heapAlignment] at hs hsize ⊢
      rw [headerSize]
      omega

/-- The sizes of the blocks and of their headers add up to the bytes that they cover. -/
theorem Laid.sum (hl : Laid start bs finish) :
    start + (bs.map fun b => headerSize + b.size).sum = finish := by
  induction bs generalizing start with
  | nil => exact hl
  | cons b bs ih =>
    obtain ⟨hp, -, hl⟩ := hl
    have hsum := ih hl
    rw [Block.finish] at hsum
    rw [List.map_cons, List.sum_cons]
    omega

/-- The blocks fill the arena, and their headers are written in their places. -/
structure Tiled (h : Heap) (bs : List Block) : Prop where
  small : h.arena.size < 2 ^ 63
  room : headerSize ≤ h.capacity
  laid : Laid 0 bs h.capacity
  written : ∀ b ∈ bs, h.headerBytes b.offset = (b.header h.capacity).toBytes

theorem Tiled.capacity_lt (ht : h.Tiled bs) : h.capacity < 2 ^ 63 := h.capacity_le.trans_lt ht.small

theorem Tiled.bounds (ht : h.Tiled bs) (hb : b ∈ bs) :
    b.payload = b.offset + headerSize ∧ b.finish = b.payload + b.size ∧ b.finish ≤ h.capacity :=
  (ht.laid.bounds hb).2

theorem Block.header_fits {capacity : Nat} (hp : b.payload = b.offset + headerSize)
    (hf : b.finish = capacity ∨ b.finish + headerSize ≤ capacity) (hc : capacity < 2 ^ 63) :
    (b.header capacity).Fits capacity b.offset where
  tag := (by decide : tag < 256 ^ 4)
  size := by
    show b.size < 256 ^ 8
    rw [Block.finish] at hf
    omega
  next := by
    intro n hn
    rw [Block.header] at hn
    dsimp only at hn
    split at hn
    · obtain rfl := Option.some.inj hn
      rw [Block.finish, headerSize] at *
      omega
    · cases hn

theorem Tiled.finish_cases (ht : h.Tiled bs) (hb : b ∈ bs) :
    b.finish = h.capacity ∨ b.finish + headerSize ≤ h.capacity := by
  obtain ⟨xs, ys, rfl⟩ := List.append_of_mem hb
  obtain ⟨-, -, -, hy⟩ := ht.laid.split
  cases ys with
  | nil => exact .inl hy
  | cons c ys =>
    obtain ⟨hp, -, hy⟩ := hy
    have hle := hy.le
    rw [Block.finish, hp] at hle
    exact .inr (by omega)

theorem Tiled.headers (ht : h.Tiled bs) (b : Block) (hb : b ∈ bs) :
    h.readHeader b.offset = .ok (b.header h.capacity) := by
  obtain ⟨hp, hfin, hcap⟩ := ht.bounds hb
  have hlt := ht.capacity_lt
  refine readHeader_of_bytes (hlt.le.trans (by decide)) (by omega) ?_ (ht.written b hb)
  exact Block.header_fits hp (ht.finish_cases hb) hlt

theorem chainFrom_of_laid {fuel : Nat} (hl : Laid start bs h.capacity)
    (hh : ∀ b ∈ bs, h.readHeader b.offset = .ok (b.header h.capacity)) (hf : bs.length ≤ fuel) :
    h.chainFrom fuel (if start < h.capacity then some start else none) =
      .ok (bs.map fun b => (b.offset, b.header h.capacity)) := by
  induction bs generalizing start fuel with
  | nil =>
    rw [if_neg (Nat.not_lt.mpr (Nat.le_of_eq hl.symm))]
    cases fuel <;> rfl
  | cons b bs ih =>
    have hb := hl.bounds (List.mem_cons_self ..)
    obtain ⟨hp, -, hl⟩ := hl
    have ho : b.offset = start := by rw [Block.offset, hp, Nat.add_sub_cancel]
    have hlt : start < h.capacity := by
      rw [headerSize] at hb
      omega
    obtain ⟨fuel, rfl⟩ : ∃ n, fuel = n + 1 := ⟨fuel - 1, by rw [List.length_cons] at hf; omega⟩
    have hread := hh b (List.mem_cons_self ..)
    have hrest := ih hl (fun c hc => hh c (List.mem_cons_of_mem _ hc))
      (Nat.le_of_succ_le_succ hf)
    rw [ho] at hread
    rw [if_pos hlt, chainFrom, hread]
    simp only [bind, Except.bind, pure, Except.pure, Block.header] at hrest ⊢
    rw [hrest, List.map_cons, ho]

theorem Tiled.exists_cons (ht : h.Tiled bs) : ∃ b cs, bs = b :: cs ∧ b.offset = 0 := by
  have hl := ht.laid
  cases bs with
  | nil =>
    have hroom := ht.room
    rw [← (hl : 0 = h.capacity)] at hroom
    cases hroom
  | cons b cs =>
    refine ⟨b, cs, rfl, ?_⟩
    rw [Block.offset, hl.1, Nat.add_sub_cancel]

theorem Tiled.first (ht : h.Tiled bs) : h.first = some 0 := by rw [Heap.first, if_pos ht.room]

theorem Tiled.length_le (ht : h.Tiled bs) : bs.length ≤ h.capacity := by
  have hle := ht.laid.length_le
  rw [headerSize] at hle
  omega

theorem Tiled.chain (ht : h.Tiled bs) :
    h.chain = .ok (bs.map fun b => (b.offset, b.header h.capacity)) := by
  have hpos : 0 < h.capacity := Nat.lt_of_lt_of_le (by decide) ht.room
  have hc := chainFrom_of_laid ht.laid ht.headers ht.length_le
  rwa [if_pos hpos, ← ht.first] at hc

theorem Tiled.blocks (ht : h.Tiled bs) : h.blocks = .ok bs := by
  rw [Heap.blocks, ht.chain]
  simp only [bind, Except.bind, pure, Except.pure, List.map_map, Except.ok.injEq]
  refine (List.map_congr_left fun b hb => ?_).trans (List.map_id _)
  have hp := (ht.bounds hb).1
  simp only [Function.comp_apply, Block.header, id_eq]
  rw [← hp]

/-- Blocks in the middle are replaced by others in the same bytes, and the headers of those are
written in their places. -/
theorem Tiled.replace {mid zs : List Block} {start finish : Nat} (ht : h.Tiled (xs ++ mid ++ ys))
    (hx : Laid 0 xs start) (hmid : Laid start mid finish) (hz : Laid start zs finish)
    (hs : SameOutside start finish h h')
    (hh : ∀ z ∈ zs, h'.headerBytes z.offset = (z.header h.capacity).toBytes) :
    h'.Tiled (xs ++ zs ++ ys) := by
  have hy : Laid finish ys h.capacity := by
    obtain ⟨m, hxm, hy⟩ := laid_append.mp ht.laid
    obtain ⟨m', hxm', hmm⟩ := laid_append.mp hxm
    obtain rfl := hx.unique hxm'
    obtain rfl := hmid.unique hmm
    exact hy
  have hcap := hs.capacity
  refine ⟨by rw [hs.size]; exact ht.small, by rw [hcap]; exact ht.room, ?_, fun b hb => ?_⟩
  · rw [hcap]
    exact laid_append.mpr ⟨_, laid_append.mpr ⟨_, hx, hz⟩, hy⟩
  · rw [hcap]
    simp only [List.mem_append] at hb
    rcases hb with (hb | hb) | hb
    · obtain ⟨-, hp, hfin, hle⟩ := hx.bounds hb
      rw [hs.headerBytes (.inl (by omega))]
      exact ht.written b (by simp [hb])
    · exact hh b hb
    · obtain ⟨hle, -⟩ := hy.bounds hb
      rw [hs.headerBytes (.inr hle)]
      exact ht.written b (by simp [hb])

theorem Tiled.overwrite (ht : h.Tiled bs) (hb : b ∈ bs) {start : Nat} {bytes : List UInt8}
    (hle : start + bytes.length ≤ b.size) :
    Tiled { h with arena := Bytes.write h.arena (b.payload + start) bytes } bs ∧
      SameOutside b.offset b.finish h
        { h with arena := Bytes.write h.arena (b.payload + start) bytes } := by
  obtain ⟨xs, ys, rfl⟩ := List.append_of_mem hb
  obtain ⟨hx, hp, hsize, -⟩ := ht.laid.split
  have hbounds := ht.bounds hb
  have hfits : b.payload + start + bytes.length ≤ h.arena.size := by
    have hle := h.capacity_le
    omega
  have hw := sameOutside_write _ _ hfits
  have hs := hw.mono (show b.offset ≤ b.payload + start by omega)
    (show b.payload + start + bytes.length ≤ b.finish by omega)
  have hmid : Laid b.offset [b] b.finish := ⟨hp, hsize, rfl⟩
  have hone : xs ++ b :: ys = xs ++ [b] ++ ys := by simp
  rw [hone] at ht ⊢
  refine ⟨ht.replace hx hmid hmid hs fun z hz => ?_, hs⟩
  rw [List.mem_singleton.mp hz, hw.headerBytes (.inl (by omega))]
  exact ht.written b (by simp)

end KernelCore.Heap
