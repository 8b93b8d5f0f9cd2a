import Mathlib
import KernelCore.Proofs.Heap.Payloads

/-!
# First fit

The size of the largest free block tells which requests are served. One that is gets the lowest
block that is large enough, and no other block changes; one that is not changes nothing at all.
-/
namespace KernelCore.Heap

/-- The size of the largest free block, or 0 if there is none. -/
def Block.largest (bs : List Block) : Nat := ((bs.filter (·.free)).map Block.size).foldl max 0

/-- A block is the lowest of the free ones that have `n` bytes. -/
structure Block.IsFirstFit (b : Block) (bs : List Block) (n : Nat) : Prop where
  mem : b ∈ bs
  free : b.free = true
  large : n ≤ b.size
  lowest : ∀ c ∈ bs, c.free = true → n ≤ c.size → b.payload ≤ c.payload

/-- What a request for `size` bytes does to a heap whose largest free block has `largest`: it takes
its bytes, rounded up, from the first block that fits, or it is refused. -/
inductive Answered (h : Heap) (bs : List Block) (largest size : Nat) :
    Except MemoryError (Option Nat) × Heap → Prop
  | granted {xs ys : List Block} {b : Block} {h' : Heap} (small : size ≤ largest)
      (split : bs = xs ++ b :: ys) (first : b.IsFirstFit bs (Word.roundUp size heapAlignment))
      (blocks : h'.blocks = .ok (xs ++ b.carve (Word.roundUp size heapAlignment) ++ ys)) :
      Answered h bs largest size (.ok (some b.payload), h')
  | refused (large : largest < size) : Answered h bs largest size (.error .heapExhausted, h)

variable {h : Heap} {b : Block} {bs : List Block} {n size : Nat}

theorem le_foldl_max {l : List Nat} {a : Nat} :
    n ≤ l.foldl max a ↔ n ≤ a ∨ ∃ x ∈ l, n ≤ x := by
  induction l generalizing a with
  | nil => simp
  | cons x l ih => simp [ih, or_assoc]

theorem Block.le_largest (hn : 0 < n) :
    n ≤ largest bs ↔ ∃ b ∈ bs, b.free = true ∧ n ≤ b.size := by
  rw [largest, le_foldl_max, or_iff_right (Nat.not_le.mpr hn)]
  simp [and_assoc]

theorem largestFree_eq (hbs : h.blocks = .ok bs) : h.largestFree = .ok (Block.largest bs) := by
  rw [largestFree, hbs]
  rfl

/-- Blocks are as long as multiples of the alignment, so rounding a request up excludes none. -/
theorem Block.roundUp_le_size (hb : b.size % heapAlignment = 0) :
    Word.roundUp size heapAlignment ≤ b.size ↔ size ≤ b.size := by
  rw [heapAlignment] at *
  rw [Word.roundUp, Word.ceilDiv]
  omega

theorem Tiled.largest_lt (ht : h.Tiled bs) : Block.largest bs < 2 ^ 63 := by
  by_contra hge
  obtain ⟨b, hb, -, hsize⟩ := (Block.le_largest (by decide)).mp (Nat.not_lt.mp hge)
  have hbounds := ht.bounds hb
  have hcap := ht.capacity_lt
  omega

theorem Served.answered {r : Except MemoryError (Option Nat) × Heap} (ht : h.Tiled bs)
    (hpos : 0 < size) (hs : Served h bs (Word.roundUp size heapAlignment) r) :
    Answered h bs (Block.largest bs) size r := by
  cases hs with
  | none hnone =>
    refine .refused (Nat.not_le.mp fun hle => ?_)
    obtain ⟨b, hb, hfree, hsize⟩ := (Block.le_largest hpos).mp hle
    have hfits := (Block.roundUp_le_size (ht.laid.aligned rfl hb).2).mpr hsize
    have hserves := Block.serves_iff.mpr ⟨hfree, hfits⟩
    rw [hnone b hb] at hserves
    cases hserves
  | @some xs ys b h' split before serves tiled same =>
    obtain ⟨hfree, hfits⟩ := Block.serves_iff.mp serves
    have hb : b ∈ bs := by simp [split]
    have hsize := (Block.roundUp_le_size (ht.laid.aligned rfl hb).2).mp hfits
    refine .granted ((Block.le_largest hpos).mpr ⟨b, hb, hfree, hsize⟩) split
      ⟨hb, hfree, hfits, fun c hc hcfree hcfits => ?_⟩ tiled.blocks
    -- the blocks in front do not fit, and those behind lie higher
    have hserves := Block.serves_iff.mpr ⟨hcfree, hcfits⟩
    rw [split, List.mem_append, List.mem_cons] at hc
    obtain hc | rfl | hc := hc
    · rw [before c hc] at hserves
      cases hserves
    · exact le_rfl
    · have hlaid := ht.laid.pairwise
      rw [split, List.pairwise_append, List.pairwise_cons] at hlaid
      have hbehind := hlaid.2.1.1 c hc
      rw [Block.finish] at hbehind
      omega

theorem Formatted.largest_lt (hf : h.Formatted bs) : Block.largest bs < 2 ^ 63 := by
  cases hf with
  | tiled ht _ => exact ht.largest_lt
  | short _ => decide

theorem Formatted.answered (hf : h.Formatted bs) (hpos : 0 < size) :
    ∃ r, h.allocate size = .ok r ∧ Answered h bs (Block.largest bs) size r := by
  cases hf with
  | tiled ht _ =>
    obtain ⟨r, hr, hserved⟩ := ht.allocate hpos.ne'
    exact ⟨r, hr, hserved.answered ht hpos⟩
  | short hroom =>
    refine ⟨_, ?_, .refused hpos⟩
    simp only [Heap.allocate, if_neg hpos.ne', chain_short hroom, bind, Except.bind, pure,
      Except.pure, List.find?_nil, ite_self]

/-- After every run of a user on a new heap, a request is served exactly if the largest free block
is large enough, by the lowest block that is, and otherwise it is refused and changes nothing. The
largest requests that a word holds are among those that are refused. -/
theorem first_fit_of_run (base : Nat) {arena : Array UInt8} (hmax : arena.size < 2 ^ 63)
    (ops : List Session.Operation) :
    ∃ l bs largest, (Ledger.start base arena).run ops = .ok l ∧ l.heap.blocks = .ok bs ∧
      l.heap.largestFree = .ok largest ∧ largest < 2 ^ 63 ∧
      ∀ size, 0 < size → ∃ r, l.heap.allocate size = .ok r ∧ Answered l.heap bs largest size r := by
  obtain ⟨_, hk⟩ := Ledger.kept_start base hmax
  obtain ⟨l, bs, hrun, hk⟩ := hk.run ops
  have hf := hk.formatted
  exact ⟨l, bs, _, hrun, hf.blocks, largestFree_eq hf.blocks, hf.largest_lt,
    fun size hpos => hf.answered hpos⟩

/-- Two gaps of 16 bytes: a small request goes into the lower one. -/
theorem first_fit_in_two_gaps : ∃ l bs largest r,
    (Ledger.start 0 (Array.replicate 160 0)).run [.allocate 5, .allocate 20, .free 1] = .ok l ∧
      l.heap.blocks = .ok bs ∧ l.heap.largestFree = .ok largest ∧
      bs = [⟨32, 16, true⟩, ⟨80, 32, false⟩, ⟨144, 16, true⟩] ∧ l.heap.allocate 10 = .ok r ∧
      Answered l.heap bs largest 10 r := by
  obtain ⟨l, bs, largest, hrun, hblocks, hlargest, -, hrequest⟩ :=
    first_fit_of_run 0 (show (Array.replicate 160 (0 : UInt8)).size < 2 ^ 63 by simp)
      [.allocate 5, .allocate 20, .free 1]
  obtain ⟨r, hr, hanswered⟩ := hrequest 10 (by decide)
  have hlisted : ((Ledger.start 0 (Array.replicate 160 0)).run
      [.allocate 5, .allocate 20, .free 1]).toOption.any (fun l => l.heap.blocks.toOption =
        some [⟨32, 16, true⟩, ⟨80, 32, false⟩, ⟨144, 16, true⟩]) = true := by decide +kernel
  rw [hrun, Except.toOption, Option.any_some, decide_eq_true_eq, hblocks] at hlisted
  exact ⟨l, bs, largest, r, hrun, hblocks, hlargest, Option.some.inj hlisted, hr, hanswered⟩

end KernelCore.Heap
