import Mathlib
import KernelCore.Proofs.Heap.Handles
import KernelCore.Proofs.Heap.Walks

/-!
# Where tags stand

A header is told by its tag. Requests write tags where blocks start and nowhere else, and they wipe
the headers of blocks that are merged away. So if tags stood only where blocks start, they still do.
-/
namespace KernelCore

namespace Bytes

theorem toNat_eq_zero {bs : List UInt8} (hzero : ∀ b ∈ bs, b = 0) : toNat bs = 0 := by
  induction bs with
  | nil => rfl
  | cons b bs ih =>
    rw [toNat, ih fun c hc => hzero c (List.mem_cons_of_mem _ hc), hzero b (List.mem_cons_self ..)]
    rfl

theorem toNat_slice_eq_zero {a : Array UInt8} {offset length : Nat}
    (hzero : ∀ i b, offset ≤ i → i < offset + length → a[i]? = some b → b = 0) :
    toNat (slice a offset length) = 0 := by
  refine toNat_eq_zero fun b hb => ?_
  obtain ⟨i, hi⟩ := List.mem_iff_getElem?.mp hb
  rw [getElem?_slice] at hi
  split at hi
  · exact hzero (offset + i) b (by omega) (by omega) hi
  · cases hi

end Bytes

namespace Heap

/-- The bytes of the tag stand at an offset. -/
def Tagged (h : Heap) (x : Nat) : Prop := Bytes.toNat (Bytes.slice h.arena x 4) = tag

/-- Tags stand only where blocks start. Offsets that are not aligned do not count, as no header is
looked for there. -/
def Bare (h : Heap) (bs : List Block) : Prop :=
  ∀ x, x % heapAlignment = 0 → h.Tagged x → x ∈ bs.map Block.offset

instance (h : Heap) (x : Nat) : Decidable (h.Tagged x) := inferInstanceAs (Decidable (_ = _))

variable {h h' : Heap} {offset n x capacity : Nat} {header : Header} {b c : Block}
variable {bs bs' xs ys : List Block}

/-! ### Tags and headers -/

theorem tagged_iff :
    h.Tagged x ↔ (Header.ofBytes capacity offset (h.headerBytes x)).tag = tag := by
  rw [Tagged, Header.ofBytes, headerBytes]
  dsimp only
  rw [Bytes.take_slice _ _ _ _ (by decide)]

theorem not_tagged_of_zero
    (hzero : ∀ i b, x ≤ i → i < x + 4 → h.arena[i]? = some b → b = 0) : ¬ h.Tagged x := by
  rw [Tagged, Bytes.toNat_slice_eq_zero hzero]
  decide

theorem Tagged.lt (ht : h.Tagged x) : x < h.arena.size := by
  by_contra hge
  refine not_tagged_of_zero (fun i b hi _ hb => ?_) ht
  rw [Array.getElem?_eq_none (by omega)] at hb
  cases hb

theorem SameOutside.tagged_iff {start finish : Nat} (hs : SameOutside start finish h h')
    (hx : x + 4 ≤ start ∨ finish ≤ x) : h'.Tagged x ↔ h.Tagged x := by
  rw [Tagged, Tagged, Bytes.slice_congr fun i _ _ => hs.bytes i (by omega)]

theorem tagged_withHeader (hroom : offset + headerSize ≤ h.capacity)
    (ho : offset % heapAlignment = 0) (hx : x % heapAlignment = 0)
    (ht : (h.withHeader offset header).Tagged x) : h.Tagged x ∨ x = offset ∨ x = offset + 16 := by
  by_cases hout : x + 4 ≤ offset ∨ offset + headerSize ≤ x
  · exact .inl (((sameOutside_withHeader hroom header).tagged_iff hout).mp ht)
  · right
    rw [heapAlignment] at ho hx
    rw [headerSize] at hout
    omega

theorem arena_wipeHeader (h : Heap) (offset : Nat) : (h.wipeHeader offset).arena =
    Bytes.write h.arena offset (List.replicate headerSize 0) := by
  simp only [wipeHeader]

theorem tagged_wipeHeader (hroom : offset + headerSize ≤ h.capacity)
    (ho : offset % heapAlignment = 0) (hx : x % heapAlignment = 0)
    (ht : (h.wipeHeader offset).Tagged x) : h.Tagged x ∧ x ≠ offset := by
  by_cases hout : x + 4 ≤ offset ∨ offset + headerSize ≤ x
  · refine ⟨((sameOutside_wipeHeader hroom).tagged_iff hout).mp ht, ?_⟩
    rw [headerSize] at hout
    omega
  · refine absurd ht (not_tagged_of_zero fun i b hi hi' hb => ?_)
    have hfits : offset + (List.replicate headerSize (0 : UInt8)).length ≤ h.arena.size := by
      rw [List.length_replicate]
      exact hroom.trans h.capacity_le
    have hin : offset ≤ i ∧ i < offset + (List.replicate headerSize (0 : UInt8)).length := by
      rw [List.length_replicate, headerSize]
      rw [heapAlignment] at ho hx
      rw [headerSize] at hout
      omega
    rw [arena_wipeHeader, Bytes.getElem?_write h.arena offset _ i hfits, if_pos hin] at hb
    exact List.eq_of_mem_replicate (List.mem_of_getElem? hb)

/-- In the second half of a header there is its link, which is no tag. -/
theorem Tiled.not_tagged (ht : h.Tiled bs) (hx : x ∈ bs.map Block.offset) :
    ¬ h.Tagged (x + 16) := by
  obtain ⟨b, hb, rfl⟩ := List.mem_map.mp hx
  exact fun htag => ht.tag_ne (x := 0) hb (tagged_iff.mp htag)

theorem Bare.extend (hbare : h.Bare bs) (hsub : bs.map Block.offset ⊆ bs'.map Block.offset)
    (htags : ∀ x, x % heapAlignment = 0 → h'.Tagged x →
      h.Tagged x ∨ x ∈ bs'.map Block.offset) : h'.Bare bs' :=
  fun x hx ht => (htags x hx ht).elim (fun ht => hsub (hbare x hx ht)) id

/-! ### Requests that get a block -/

theorem writeHeader_eq_ok : h.writeHeader offset header = .ok h' ↔
    offset + headerSize ≤ h.capacity ∧ h' = h.withHeader offset header := by
  rw [writeHeader]
  split_ifs with hroom
  · simp [hroom, withHeader, eq_comm]
  · simp [hroom]

theorem tagged_place (hplace : h.place offset header n = .ok h')
    (ho : offset % heapAlignment = 0) (hn : n % heapAlignment = 0) (hx : x % heapAlignment = 0)
    (ht : h'.Tagged x) : h.Tagged x ∨ (x = offset ∨ x = offset + 16) ∨
      n + headerSize + minSplit ≤ header.size ∧
        (x = offset + headerSize + n ∨ x = offset + headerSize + n + 16) := by
  rw [place] at hplace
  split_ifs at hplace with hwide hsmall
  · obtain ⟨hroom, rfl⟩ := writeHeader_eq_ok.mp hplace
    exact (tagged_withHeader hroom ho hx ht).imp_right .inl
  · obtain ⟨h₁, hrest, hfront⟩ := Fault.of_bind_eq_ok hplace
    obtain ⟨hroom₁, rfl⟩ := writeHeader_eq_ok.mp hrest
    obtain ⟨hroom, rfl⟩ := writeHeader_eq_ok.mp hfront
    have ho₁ : (offset + headerSize + n) % heapAlignment = 0 := by
      rw [heapAlignment] at *
      rw [headerSize]
      omega
    obtain ht | hfront := tagged_withHeader hroom ho hx ht
    · exact (tagged_withHeader hroom₁ ho₁ hx ht).imp_right fun hrest =>
        .inr ⟨Nat.not_lt.mp hsmall, hrest⟩
    · exact .inr (.inl hfront)

theorem Bare.carve (hbare : h.Bare (xs ++ b :: ys)) (ht : h.Tiled (xs ++ b :: ys))
    (ht' : h'.Tiled (xs ++ b.carve n ++ ys)) (hn : n % heapAlignment = 0)
    (hplace : h.place b.offset (b.header h.capacity) n = .ok h') :
    h'.Bare (xs ++ b.carve n ++ ys) := by
  have hmem : b ∈ xs ++ b :: ys := by simp
  obtain ⟨hp, -, -⟩ := ht.bounds hmem
  have ho := (ht.laid.aligned rfl hmem).1
  have hfront : b.offset ∈ (xs ++ b.carve n ++ ys).map Block.offset := by
    have hcarve : b.offset ∈ (b.carve n).map Block.offset := by
      rw [Block.carve]
      split_ifs <;> simp [Block.front, Block.offset]
    simp [hcarve]
  have hrest : n + headerSize + minSplit ≤ b.size →
      b.offset + headerSize + n ∈ (xs ++ b.carve n ++ ys).map Block.offset := fun hlarge => by
    have hcarve : b.rest n ∈ xs ++ b.carve n ++ ys := by
      simp [Block.carve, Nat.not_lt.mpr hlarge]
    have hat := List.mem_map_of_mem (f := Block.offset) hcarve
    rwa [Block.offset_rest, hp] at hat
  refine hbare.extend (fun x hx => ?_) fun x hx htag => ?_
  · simp only [List.map_append, List.map_cons, List.mem_append, List.mem_cons] at hx hfront ⊢
    obtain hx | rfl | hx := hx
    · exact .inl (.inl hx)
    · exact hfront
    · exact .inr hx
  · obtain htag | (rfl | rfl) | ⟨hlarge, rfl | rfl⟩ := tagged_place hplace ho hn hx htag
    · exact .inl htag
    · exact .inr hfront
    · exact absurd htag (ht'.not_tagged hfront)
    · exact .inr (hrest hlarge)
    · exact absurd htag (ht'.not_tagged (hrest hlarge))

/-! ### Releases -/

theorem coalesceStep_joined (ht : h.Tiled (xs ++ b :: c :: ys)) (hb : b.free = true)
    (hc : c.free = true) :
    h.coalesceStep b.offset = .ok (some (h.joined b.offset c.offset, b.offset)) ∧
      (h.joined b.offset c.offset).Tiled (xs ++ b.join c :: ys) := by
  obtain ⟨h', hstep, ht', -⟩ := coalesceStep_join ht hb hc
  obtain ⟨hp, hfin, hcap⟩ := ht.bounds (b := b) (by simp)
  obtain ⟨-, -, -, hnext⟩ := ht.next_header
  have hroom : b.offset + headerSize ≤ h.capacity := by omega
  have hread := ht.headers b (by simp)
  rw [readHeader_eq_headerAt hroom] at hread
  have hlink : (h.headerAt b.offset).next = some c.offset := by
    rw [Except.ok.inj hread, hnext]
  have hlt := (link_headerAt hlink).1
  have heq := coalesceStep_eq hroom hlink
  rw [hstep] at heq
  split_ifs at heq
  · cases heq
    exact ⟨hstep, ht'⟩
  · simp only [Except.ok.injEq, Option.some.injEq, Prod.mk.injEq] at heq
    omega

theorem Bare.join (hbare : h.Bare (xs ++ b :: c :: ys)) (ht : h.Tiled (xs ++ b :: c :: ys))
    (ht' : (h.joined b.offset c.offset).Tiled (xs ++ b.join c :: ys)) :
    (h.joined b.offset c.offset).Bare (xs ++ b.join c :: ys) := by
  intro x hx htag
  obtain ⟨hp, hfin, hcap⟩ := ht.bounds (b := b) (by simp)
  obtain ⟨hadj, hroomc, hcapc, -⟩ := ht.next_header
  have hroom : b.offset + headerSize ≤ h.capacity := by omega
  have hob := (ht.laid.aligned rfl (b := b) (by simp)).1
  have hoc := (ht.laid.aligned rfl (b := c) (by simp)).1
  have hfront : b.offset ∈ (xs ++ b.join c :: ys).map Block.offset := by
    simp [Block.join, Block.offset]
  have hroom' : c.offset + headerSize ≤
      (h.withHeader b.offset ((h.headerAt b.offset).join (h.headerAt c.offset))).capacity := by
    rw [capacity_withHeader]
    omega
  obtain ⟨htag', hne⟩ := tagged_wipeHeader hroom' hoc hx htag
  obtain hold | rfl | rfl := tagged_withHeader hroom hob hx htag'
  · have hmem := hbare x hx hold
    simp only [List.map_append, List.map_cons, List.mem_append, List.mem_cons] at hmem hfront ⊢
    obtain hmem | rfl | rfl | hmem := hmem
    · exact .inl hmem
    · exact hfront
    · exact absurd rfl hne
    · exact .inr (.inr hmem)
  · exact hfront
  · exact absurd htag (ht'.not_tagged hfront)

/-- The pass from a block on wipes every header that it merges away. -/
theorem Bare.coalesceFrom {fuel : Nat} (hbare : h.Bare (xs ++ b :: ys))
    (ht : h.Tiled (xs ++ b :: ys)) (hf : ys.length ≤ fuel)
    (hrun : h.coalesceFrom b.offset fuel = .ok h') : h'.Bare (xs ++ absorb b ys) := by
  induction ys generalizing xs b h fuel with
  | nil =>
    cases fuel with
    | zero =>
      cases hrun
      exact hbare
    | succ fuel =>
      rw [Heap.coalesceFrom, coalesceStep_last ht] at hrun
      cases hrun
      exact hbare
  | cons c ys ih =>
    obtain ⟨fuel, rfl⟩ : ∃ n, fuel = n + 1 := ⟨fuel - 1, by rw [List.length_cons] at hf; omega⟩
    have hf := Nat.le_of_succ_le_succ hf
    rw [absorb]
    by_cases hboth : (b.free && c.free) = true
    · rw [if_pos hboth]
      rw [Bool.and_eq_true] at hboth
      obtain ⟨hstep, ht'⟩ := coalesceStep_joined ht hboth.1 hboth.2
      rw [Heap.coalesceFrom, hstep] at hrun
      exact ih (hbare.join ht ht') ht' hf hrun
    · rw [if_neg hboth]
      rw [Bool.not_eq_true] at hboth
      rw [Heap.coalesceFrom, coalesceStep_move ht hboth] at hrun
      rw [List.append_cons] at ht hbare
      have hrest := ih hbare ht hf hrun
      rwa [← List.append_cons] at hrest

theorem Bare.coalesce (hbare : h.Bare bs) (ht : h.Tiled bs) (hrun : h.coalesce = .ok h') :
    h'.Bare (merge bs) := by
  have hlen := ht.length_le
  rw [Heap.coalesce, ht.first] at hrun
  obtain ⟨b, cs, rfl, ho⟩ := ht.exists_cons
  rw [← ho] at hrun
  rw [← List.nil_append (b :: cs)] at hbare ht
  exact hbare.coalesceFrom ht ((Nat.le_succ _).trans hlen) hrun

theorem Bare.freed (hbare : h.Bare (xs ++ b :: ys)) (ht : h.Tiled (xs ++ b :: ys)) :
    (h.freed b).Bare (xs ++ { b with free := true } :: ys) := by
  obtain ⟨hp, hfin, hcap⟩ := ht.bounds (b := b) (by simp)
  have hroom : b.offset + headerSize ≤ h.capacity := by omega
  have ho := (ht.laid.aligned rfl (b := b) (by simp)).1
  have hsame : (xs ++ { b with free := true } :: ys).map Block.offset =
      (xs ++ b :: ys).map Block.offset := by simp [Block.offset]
  have hfront : b.offset ∈ (xs ++ { b with free := true } :: ys).map Block.offset := by
    rw [hsame]
    simp
  refine hbare.extend (fun x hx => hsame ▸ hx) fun x hx htag => ?_
  obtain htag | rfl | rfl := tagged_withHeader hroom ho hx htag
  · exact .inl htag
  · exact .inr hfront
  · exact absurd htag (ht.freed.1.not_tagged hfront)

theorem Bare.free (hbare : h.Bare (xs ++ b :: ys)) (ht : h.Tiled (xs ++ b :: ys))
    (hfree : b.free = false) (hrun : h.free b.payload = .ok h') :
    h'.Bare (merge (xs ++ { b with free := true } :: ys)) := by
  rw [ht.free_eq (by simp) hfree] at hrun
  exact (hbare.freed ht).coalesce ht.freed.1 hrun

end Heap

end KernelCore
