import Mathlib
import KernelCore.Proofs.Heap.Allocation

/-!
# Release

A released block is marked free, and a pass over all blocks merges neighbours that are free. The
pass changes no byte outside of free blocks, and the allocated blocks stay what and where they are.
-/
namespace KernelCore.Heap

/-- A block that has taken in the one behind it. -/
def Block.join (b c : Block) : Block := { b with size := b.size + (headerSize + c.size) }

/-- Merges a block with the free ones behind it, and those behind with each other. -/
def absorb (b : Block) : List Block → List Block
  | [] => [b]
  | c :: cs => if b.free && c.free then absorb (b.join c) cs else b :: absorb c cs

/-- All free neighbours merged. -/
def merge : List Block → List Block
  | [] => []
  | b :: bs => absorb b bs

variable {b c : Block} {bs xs ys : List Block} {h h' h'' : Heap}

theorem absorb_head (b : Block) (bs : List Block) :
    ∃ c cs, absorb b bs = c :: cs ∧ c.free = b.free ∧ c.payload = b.payload := by
  induction bs generalizing b with
  | nil => exact ⟨b, [], rfl, rfl, rfl⟩
  | cons c cs ih =>
    rw [absorb]
    split
    · obtain ⟨d, ds, hd, hf, hp⟩ := ih (b.join c)
      exact ⟨d, ds, hd, hf, hp⟩
    · exact ⟨b, _, rfl, rfl, rfl⟩

theorem coalesced_absorb (b : Block) (bs : List Block) : Coalesced (absorb b bs) := by
  induction bs generalizing b with
  | nil => exact List.isChain_singleton _
  | cons c cs ih =>
    rw [absorb]
    split
    · exact ih _
    · next hno =>
      refine List.isChain_cons.mpr ⟨fun d hd hboth => hno ?_, ih c⟩
      obtain ⟨e, es, he, hf, -⟩ := absorb_head c cs
      rw [he, List.head?_cons] at hd
      obtain rfl := Option.mem_some_iff.mp hd
      rw [Bool.and_eq_true, ← hf]
      exact hboth

theorem coalesced_merge (bs : List Block) : Coalesced (merge bs) := by
  cases bs with
  | nil => exact List.isChain_nil
  | cons b bs => exact coalesced_absorb b bs

theorem filter_absorb (b : Block) (bs : List Block) :
    (absorb b bs).filter (!·.free) = (b :: bs).filter (!·.free) := by
  induction bs generalizing b with
  | nil => rfl
  | cons c cs ih =>
    rw [absorb]
    split
    · next hfree =>
      rw [Bool.and_eq_true] at hfree
      rw [ih]
      simp [Block.join, hfree.1, hfree.2]
    · rw [List.filter_cons, List.filter_cons, ih]

theorem filter_merge (bs : List Block) :
    (merge bs).filter (!·.free) = bs.filter (!·.free) := by
  cases bs with
  | nil => rfl
  | cons b bs => exact filter_absorb b bs

theorem taken_release (hb : b.free = false) :
    ((xs ++ b :: ys).filter (!·.free)).Perm
      (b :: (merge (xs ++ { b with free := true } :: ys)).filter (!·.free)) := by
  rw [filter_merge]
  simp only [List.filter_append, List.filter_cons, hb, Bool.not_true, Bool.not_false,
    Bool.false_eq_true, if_false, if_true]
  exact List.perm_middle

/-- Two heaps differ at most in the bytes of free blocks. -/
structure SameTaken (bs : List Block) (h h' : Heap) : Prop where
  base : h'.base = h.base
  size : h'.arena.size = h.arena.size
  bytes : ∀ x, (∀ b ∈ bs, b.free = true → x < b.offset ∨ b.finish ≤ x) →
    h'.arena[x]? = h.arena[x]?

theorem SameTaken.refl (bs : List Block) (h : Heap) : SameTaken bs h h := ⟨rfl, rfl, fun _ _ => rfl⟩

theorem Tiled.next_header (ht : h.Tiled (xs ++ b :: c :: ys)) :
    b.finish = c.offset ∧ c.offset + headerSize ≤ c.finish ∧ c.finish ≤ h.capacity ∧
      (b.header h.capacity).next = some c.offset := by
  obtain ⟨-, -, -, hy⟩ := ht.laid.split
  obtain ⟨hp, hfin, hcap⟩ := ht.bounds (b := c) (by simp)
  have hf : b.finish = c.offset := by
    rw [Block.offset, hy.1, Nat.add_sub_cancel]
  have hlt : b.finish < h.capacity := by
    rw [headerSize] at hp
    omega
  refine ⟨hf, by omega, hcap, ?_⟩
  rw [Block.header, if_pos hlt, hf]

theorem coalesceStep_last (ht : h.Tiled (xs ++ [b])) : h.coalesceStep b.offset = .ok none := by
  obtain ⟨-, -, -, hy⟩ := ht.laid.split
  have hfin : b.finish = h.capacity := hy
  rw [coalesceStep, ht.headers b (by simp)]
  simp only [bind, Except.bind, Block.header, hfin, Nat.lt_irrefl, if_false]
  rfl

theorem coalesceStep_move (ht : h.Tiled (xs ++ b :: c :: ys)) (hno : (b.free && c.free) = false) :
    h.coalesceStep b.offset = .ok (some (h, c.offset)) := by
  obtain ⟨-, -, -, hnext⟩ := ht.next_header
  rw [coalesceStep, ht.headers b (by simp)]
  simp only [bind, Except.bind, hnext, ht.headers c (by simp)]
  have hcond : (!((b.header h.capacity).free && (c.header h.capacity).free)) = true := by
    show (!(b.free && c.free)) = true
    rw [hno]
    rfl
  rw [if_pos hcond]
  rfl

theorem Block.finish_join (hf : b.finish = c.offset) (hp : c.payload = c.offset + headerSize) :
    (b.join c).finish = c.finish := by
  show b.payload + (b.size + (headerSize + c.size)) = c.payload + c.size
  have hfin : b.finish = b.payload + b.size := rfl
  omega

theorem laid_join (h : Laid b.offset [b, c] c.finish) (hj : (b.join c).finish = c.finish) :
    Laid b.offset [b.join c] c.finish := by
  obtain ⟨hp, hsb, -, hsc, -⟩ := h
  refine ⟨hp, ?_, hj⟩
  show (b.size + (headerSize + c.size)) % heapAlignment = 0
  rw [heapAlignment] at hsb hsc ⊢
  rw [headerSize]
  omega

/-- The header of the joined block takes the place of the first one, and the second is wiped. -/
theorem Tiled.join_spec (ht : h.Tiled (xs ++ b :: c :: ys)) :
    ∃ h₁, h.writeHeader b.offset ((b.join c).header h.capacity) = .ok h₁ ∧
      (h₁.wipeHeader c.offset).Tiled (xs ++ b.join c :: ys) ∧
      SameOutside b.offset c.finish h (h₁.wipeHeader c.offset) := by
  obtain ⟨hf, hroom, hcap, -⟩ := ht.next_header
  obtain ⟨hx, hp, hsb, -, hsc, -⟩ := ht.laid.split
  have hfb : b.finish = b.payload + b.size := rfl
  obtain ⟨hpc, hfc, -⟩ := ht.bounds (b := c) (by simp)
  have hjf := Block.finish_join hf hpc
  have hbroom : b.offset + headerSize ≤ h.capacity := by omega
  have hs := sameOutside_withHeader hbroom ((b.join c).header h.capacity)
  have hw := writeHeader_eq hbroom ((b.join c).header h.capacity)
  have hjr := headerBytes_withHeader hbroom ((b.join c).header h.capacity)
  generalize h.withHeader b.offset ((b.join c).header h.capacity) = h₁ at hs hw hjr
  have hcroom : c.offset + headerSize ≤ h₁.capacity := by
    rw [hs.capacity]
    omega
  have hs₁ := sameOutside_wipeHeader hcroom
  have hs₂ : SameOutside b.offset c.finish h (h₁.wipeHeader c.offset) :=
    (hs.mono le_rfl (by omega)).trans (hs₁.mono (by omega) (by omega))
  have hmid : Laid b.offset [b, c] c.finish := ⟨hp, hsb, by rw [hpc, hf], hsc, rfl⟩
  have htwo : xs ++ b :: c :: ys = xs ++ [b, c] ++ ys := by simp
  have hone : xs ++ b.join c :: ys = xs ++ [b.join c] ++ ys := by simp
  rw [htwo] at ht
  rw [hone]
  refine ⟨h₁, hw, ht.replace hx hmid (laid_join hmid hjf) hs₂ fun z hz => ?_, hs₂⟩
  rw [List.mem_singleton.mp hz]
  have hr : (h₁.wipeHeader c.offset).headerBytes b.offset = h₁.headerBytes b.offset :=
    hs₁.headerBytes (.inl (by omega))
  exact hr.trans hjr

theorem coalesceStep_join (ht : h.Tiled (xs ++ b :: c :: ys)) (hb : b.free = true)
    (hc : c.free = true) :
    ∃ h', h.coalesceStep b.offset = .ok (some (h', b.offset)) ∧
      h'.Tiled (xs ++ b.join c :: ys) ∧ SameOutside b.offset c.finish h h' := by
  obtain ⟨hf, hroom, hcap, hnext⟩ := ht.next_header
  obtain ⟨hp, -⟩ := ht.bounds (b := b) (by simp)
  obtain ⟨hpc, hfc, -⟩ := ht.bounds (b := c) (by simp)
  obtain ⟨h₁, hw, ht', hs⟩ := ht.join_spec
  have hfb : b.finish = b.payload + b.size := rfl
  have hlt := ht.capacity_lt
  have hread := ht.headers b (by simp)
  have hreadc := ht.headers c (by simp)
  have hjoined : (⟨(b.header h.capacity).tag, (b.header h.capacity).free,
      (b.header h.capacity).size + (headerSize + (c.header h.capacity).size),
      (c.header h.capacity).next⟩ : Header) = (b.join c).header h.capacity := by
    rw [Block.header, Block.header, Block.header, Block.finish_join hf hpc]
    rfl
  -- none of the checks of the pass stops it
  have hboth : (!((b.header h.capacity).free && (c.header h.capacity).free)) = false := by
    show (!(b.free && c.free)) = false
    rw [hb, hc]
    rfl
  have hsum : ¬ Word.maximum < b.offset + headerSize + (b.header h.capacity).size := by
    show ¬ Word.maximum < b.offset + headerSize + b.size
    rw [Word.maximum]
    omega
  have hadj : ¬ b.offset + headerSize + (b.header h.capacity).size ≠ c.offset := by
    show ¬ b.offset + headerSize + b.size ≠ c.offset
    omega
  have hsize : ¬ Word.maximum < (b.header h.capacity).size +
      (headerSize + (c.header h.capacity).size) := by
    show ¬ Word.maximum < b.size + (headerSize + c.size)
    rw [Word.maximum]
    omega
  refine ⟨h₁.wipeHeader c.offset, ?_, ht', hs⟩
  rw [coalesceStep, hread]
  simp only [bind, Except.bind, hnext, hreadc, hboth, hsum, hadj, hsize, if_false,
    Bool.false_eq_true]
  rw [hjoined, hw]
  rfl

theorem coalesceFrom_spec {fuel : Nat} (ht : h.Tiled (xs ++ b :: ys)) (hf : ys.length ≤ fuel) :
    ∃ h', h.coalesceFrom b.offset fuel = .ok h' ∧ h'.Tiled (xs ++ absorb b ys) ∧
      SameTaken (b :: ys) h h' := by
  induction ys generalizing xs b h fuel with
  | nil =>
    refine ⟨h, ?_, ht, .refl _ h⟩
    cases fuel with
    | zero => rfl
    | succ fuel =>
      rw [coalesceFrom, coalesceStep_last ht]
      rfl
  | cons c ys ih =>
    obtain ⟨fuel, rfl⟩ : ∃ n, fuel = n + 1 := ⟨fuel - 1, by rw [List.length_cons] at hf; omega⟩
    have hf := Nat.le_of_succ_le_succ hf
    rw [coalesceFrom, absorb]
    by_cases hboth : (b.free && c.free) = true
    · rw [if_pos hboth]
      rw [Bool.and_eq_true] at hboth
      obtain ⟨h₁, hstep, ht₁, hs₁⟩ := coalesceStep_join ht hboth.1 hboth.2
      obtain ⟨h', hrun, ht', hs⟩ := ih ht₁ hf
      obtain ⟨hadj, hroom, -⟩ := ht.next_header
      have hfc : (b.join c).finish = c.finish := by
        obtain ⟨hpc, hfin, -⟩ := ht.bounds (b := c) (by simp)
        have hfb : b.finish = b.payload + b.size := rfl
        show b.payload + (b.size + (headerSize + c.size)) = c.finish
        omega
      refine ⟨h', ?_, ht', hs.base.trans hs₁.base, hs.size.trans hs₁.size, fun x hx => ?_⟩
      · rw [hstep]
        exact hrun
      · -- a byte outside of both blocks is outside of the joined one
        have hxb := hx b (by simp) hboth.1
        have hxc := hx c (by simp) hboth.2
        have hout : x < b.offset ∨ c.finish ≤ x := by omega
        refine (hs.bytes x fun d hd hfree => ?_).trans (hs₁.bytes x hout)
        rcases List.mem_cons.mp hd with rfl | hd
        · rw [hfc]
          exact hout
        · exact hx d (by simp [hd]) hfree
    · rw [if_neg hboth]
      rw [Bool.not_eq_true] at hboth
      have hsplit : xs ++ b :: c :: ys = (xs ++ [b]) ++ c :: ys := by simp
      have hstep := coalesceStep_move ht hboth
      rw [hsplit] at ht
      obtain ⟨h', hrun, ht', hs⟩ := ih ht hf
      refine ⟨h', ?_, by simpa using ht', hs.base, hs.size, fun x hx => ?_⟩
      · rw [hstep]
        exact hrun
      · exact hs.bytes x fun d hd => hx d (List.mem_cons_of_mem _ hd)

theorem Tiled.coalesce (ht : h.Tiled bs) :
    ∃ h', h.coalesce = .ok h' ∧ h'.Tiled (merge bs) ∧ SameTaken bs h h' := by
  have hlen := ht.length_le
  obtain ⟨b, cs, rfl, ho⟩ := ht.exists_cons
  have hfuel : cs.length ≤ h.capacity := (Nat.le_succ _).trans hlen
  have hempty : b :: cs = [] ++ b :: cs := rfl
  rw [hempty] at ht
  have hc := coalesceFrom_spec ht hfuel
  rw [ho] at hc
  rwa [Heap.coalesce, ht.first]

theorem Tiled.find (ht : h.Tiled bs) (hb : b ∈ bs) :
    h.find b.payload = .ok (some (b.offset, b.header h.capacity)) := by
  obtain ⟨hp, hfin, hcap⟩ := ht.bounds hb
  have hal := (ht.laid.aligned rfl hb).1
  have ho : b.payload - headerSize = b.offset := rfl
  have hin : ¬ (b.payload < headerSize ∨ b.offset % heapAlignment ≠ 0 ∨
      h.capacity < b.payload) := by omega
  have hnext : b.payload + b.size = (b.header h.capacity).next.getD h.capacity := by
    rw [Block.header]
    dsimp only
    split
    · rfl
    · show b.payload + b.size = h.capacity
      omega
  have hok : (b.header h.capacity).tag = tag ∧
      b.payload + (b.header h.capacity).size = (b.header h.capacity).next.getD h.capacity :=
    ⟨rfl, hnext⟩
  rw [Heap.find]
  simp only [ho, if_neg hin, ht.headers b hb, bind, Except.bind, if_pos hok]
  rfl

/-- The heap after a block was marked free. -/
def freed (h : Heap) (b : Block) : Heap :=
  h.withHeader b.offset (({ b with free := true } : Block).header h.capacity)

/-- A release marks the block and merges. -/
theorem Tiled.free_eq (ht : h.Tiled bs) (hb : b ∈ bs) (hfree : b.free = false) :
    h.free b.payload = (h.freed b).coalesce := by
  obtain ⟨hp, hfin, hcap⟩ := ht.bounds hb
  have hroom : b.offset + headerSize ≤ h.capacity := by omega
  have hnot : ¬ (b.header h.capacity).free = true := by
    show ¬ b.free = true
    rw [hfree]
    exact Bool.false_ne_true
  have hw : h.writeHeader b.offset { b.header h.capacity with free := true } =
      .ok (h.freed b) := writeHeader_eq hroom _
  rw [Heap.free, ht.find hb]
  simp only [bind, Except.bind, hnot, hw]
  rfl

theorem Tiled.freed (ht : h.Tiled (xs ++ b :: ys)) :
    (h.freed b).Tiled (xs ++ { b with free := true } :: ys) ∧
      SameOutside b.offset b.finish h (h.freed b) := by
  have hmem : b ∈ xs ++ b :: ys := by simp
  obtain ⟨hx, hp, hsize, -⟩ := ht.laid.split
  obtain ⟨-, hfin, hcap⟩ := ht.bounds hmem
  have hroom : b.offset + headerSize ≤ h.capacity := by omega
  have hs : SameOutside b.offset b.finish h (h.freed b) :=
    (sameOutside_withHeader hroom _).mono le_rfl (by omega)
  have hone : xs ++ b :: ys = xs ++ [b] ++ ys := by simp
  have htwo : xs ++ { b with free := true } :: ys = xs ++ [{ b with free := true }] ++ ys := by simp
  have hmid : Laid b.offset [b] b.finish := ⟨hp, hsize, rfl⟩
  have hz : Laid b.offset [{ b with free := true }] b.finish := ⟨hp, hsize, rfl⟩
  rw [hone] at ht
  rw [htwo]
  refine ⟨ht.replace hx hmid hz hs fun z hzm => ?_, hs⟩
  rw [List.mem_singleton.mp hzm]
  exact headerBytes_withHeader hroom _

theorem Tiled.free (ht : h.Tiled (xs ++ b :: ys)) (hb : b.free = false) :
    ∃ h', h.free b.payload = .ok h' ∧ h'.Tiled (merge (xs ++ { b with free := true } :: ys)) ∧
      SameTaken (xs ++ { b with free := true } :: ys) h h' := by
  obtain ⟨ht₁, hs⟩ := ht.freed
  obtain ⟨h', hrun, ht', hs'⟩ := ht₁.coalesce
  rw [ht.free_eq (by simp) hb]
  refine ⟨h', hrun, ht', hs'.base.trans hs.base, hs'.size.trans hs.size, fun x hx => ?_⟩
  exact (hs'.bytes x hx).trans (hs.bytes x (hx { b with free := true } (by simp) rfl))

end KernelCore.Heap
