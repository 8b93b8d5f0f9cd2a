import Mathlib
import KernelCore.Proofs.Heap.Walks

/-!
# Walks come to an end

Whatever the bytes of the arena are: a walk along the headers, and a search that stops at the first
block that suits, come by ascending offsets inside the arena. The pass that merges free blocks moves
its cursor on, or makes the link at its cursor lead further; so it has fewer steps than the arena
has bytes, and only an overflow keeps it from the last header.
-/
namespace KernelCore.Heap

/-- The headers along the links from a cursor on. -/
inductive Walk (h : Heap) : Option Nat → List Nat → Prop
  | done : Walk h none []
  | visit {offset : Nat} {rest : List Nat} (onward : Walk h (h.headerAt offset).next rest) :
      Walk h (some offset) (offset :: rest)

/-- The block behind a header is free and large enough. -/
def Suits (h : Heap) (size offset : Nat) : Prop :=
  (h.headerAt offset).free = true ∧ size ≤ (h.headerAt offset).size

instance (h : Heap) (size offset : Nat) : Decidable (h.Suits size offset) :=
  inferInstanceAs (Decidable (_ ∧ _))

/-- The headers along the links from a cursor on up to the first that suits, and that one. -/
inductive Search (h : Heap) (size : Nat) : Option Nat → List Nat → Option Nat → Prop
  | exhausted : Search h size none [] none
  | found {offset : Nat} (suits : h.Suits size offset) :
      Search h size (some offset) [offset] (some offset)
  | miss {offset : Nat} {rest : List Nat} {result : Option Nat} (tight : ¬ h.Suits size offset)
      (onward : Search h size (h.headerAt offset).next rest result) :
      Search h size (some offset) (offset :: rest) result

/-- Offsets of whole headers, each behind the one before. -/
structure Ascending (h : Heap) (offsets : List Nat) : Prop where
  sorted : offsets.Pairwise (· < ·)
  room : ∀ offset ∈ offsets, offset + headerSize ≤ h.capacity

/-- The block behind a header. -/
def blockBehind (h : Heap) (offset : Nat) : Block :=
  ⟨offset + headerSize, (h.headerAt offset).size, (h.headerAt offset).free⟩

/-- The link that a header holds: the largest word if it leads nowhere. -/
def link (h : Heap) (offset : Nat) : Nat := (h.headerAt offset).next.getD noLink

/-- A step of the pass leads from one heap and cursor to others. -/
def Steps (r r' : Heap × Nat) : Prop := r.1.coalesceStep r.2 = .ok (some r')

/-- The heap stays and the cursor moves to a later header of the arena, or the cursor stays and its
header gets a larger link. The arena keeps its length. -/
def Advances (r r' : Heap × Nat) : Prop :=
  r'.1.capacity = r.1.capacity ∧
    (r'.1 = r.1 ∧ r.2 < r'.2 ∧ r'.2 + headerSize ≤ r.1.capacity ∨
      r'.2 = r.2 ∧ r.1.link r.2 < r'.1.link r'.2)

variable {h h' : Heap} {offset next fuel size : Nat} {cursor found : Option Nat}
variable {offsets visited : List Nat} {l : List (Nat × Header)} {states : List (Heap × Nat)}

/-! ### Along the links -/

theorem Walk.ascending (hw : h.Walk cursor offsets)
    (hroom : ∀ offset, cursor = some offset → offset + headerSize ≤ h.capacity) :
    h.Ascending offsets ∧ ∀ first, cursor = some first → ∀ offset ∈ offsets, first ≤ offset := by
  induction hw with
  | done => exact ⟨⟨.nil, by simp⟩, by simp⟩
  | @visit offset rest onward ih =>
    obtain ⟨hrest, hfrom⟩ := ih fun next hlink => (link_headerAt hlink).2
    have hbehind : ∀ later ∈ rest, offset < later := by
      intro later hlater
      cases hlink : (h.headerAt offset).next with
      | none =>
        rw [hlink] at onward
        cases onward
        cases hlater
      | some next => exact (link_headerAt hlink).1.trans_le (hfrom next hlink later hlater)
    refine ⟨⟨.cons hbehind hrest.sorted, ?_⟩, ?_⟩
    · exact List.forall_mem_cons.mpr ⟨hroom offset rfl, hrest.room⟩
    · rintro first ⟨⟩
      exact List.forall_mem_cons.mpr ⟨le_rfl, fun later hlater => (hbehind later hlater).le⟩

/-- The fuel of a walk along the links is enough, because the offsets grow. -/
theorem exists_walk
    (hroom : ∀ offset, cursor = some offset → offset + headerSize ≤ h.capacity)
    (hfuel : ∀ offset, cursor = some offset → h.capacity ≤ fuel + offset) :
    ∃ offsets, h.Walk cursor offsets ∧
      h.chainFrom fuel cursor = .ok (offsets.map fun offset => (offset, h.headerAt offset)) := by
  induction fuel generalizing cursor with
  | zero =>
    cases cursor with
    | none => exact ⟨[], .done, rfl⟩
    | some offset =>
      have hhere := hroom offset rfl
      have hend := hfuel offset rfl
      rw [headerSize] at hhere
      omega
  | succ fuel ih =>
    cases cursor with
    | none => exact ⟨[], .done, rfl⟩
    | some offset =>
      have hend := hfuel offset rfl
      obtain ⟨rest, hrest, hchain⟩ := @ih (h.headerAt offset).next
        (fun next hlink => (link_headerAt hlink).2) fun next hlink => by
          have hnext := (link_headerAt hlink).1
          omega
      refine ⟨offset :: rest, .visit hrest, ?_⟩
      rw [chainFrom, readHeader_eq_headerAt (hroom offset rfl)]
      simp only [bind, Except.bind, hchain, pure, Except.pure, List.map_cons]

theorem exists_walk_first (h : Heap) : ∃ offsets, h.Walk h.first offsets ∧ h.Ascending offsets ∧
    h.chain = .ok (offsets.map fun offset => (offset, h.headerAt offset)) := by
  have hroom : ∀ offset, h.first = some offset → offset + headerSize ≤ h.capacity :=
    fun _ hfirst => room_of_first hfirst
  have hfuel : ∀ offset, h.first = some offset → h.capacity ≤ h.capacity + offset :=
    fun _ _ => Nat.le_add_right ..
  obtain ⟨offsets, hwalk, hchain⟩ := exists_walk hroom hfuel
  exact ⟨offsets, hwalk, (hwalk.ascending hroom).1, hchain⟩

theorem Walk.search (hw : h.Walk cursor offsets) (size : Nat) :
    ∃ visited, h.Search size cursor visited (offsets.find? fun x => decide (h.Suits size x)) ∧
      visited.Sublist offsets := by
  induction hw with
  | done => exact ⟨[], .exhausted, .slnil⟩
  | @visit offset rest onward ih =>
    obtain ⟨visited, hsearch, hsub⟩ := ih
    by_cases hsuits : h.Suits size offset
    · refine ⟨[offset], ?_, List.singleton_sublist.mpr (List.mem_cons_self ..)⟩
      rw [List.find?_cons_of_pos (by simpa using hsuits)]
      exact .found hsuits
    · refine ⟨offset :: visited, ?_, hsub.cons_cons offset⟩
      rw [List.find?_cons_of_neg (by simpa using hsuits)]
      exact .miss hsuits hsearch

theorem Ascending.sublist (ha : h.Ascending offsets) (hsub : visited.Sublist offsets) :
    h.Ascending visited :=
  ⟨ha.sorted.sublist hsub, fun offset hoffset => ha.room offset (hsub.subset hoffset)⟩

/-- What a request for `n` bytes, a multiple of the alignment, gets from the block that a search
found. -/
def serveFrom (h : Heap) (n : Nat) : Option Nat →
    Except Fault (Except MemoryError (Option Nat) × Heap)
  | none => .ok (.error .heapExhausted, h)
  | some offset => (h.place offset (h.headerAt offset) n).map fun h' =>
      (.ok (some (offset + headerSize)), h')

theorem find?_headers {test : Nat × Header → Bool}
    (htest : ∀ offset header,
      test (offset, header) = (header.free && decide (size ≤ header.size))) :
    (offsets.map fun offset => (offset, h.headerAt offset)).find? test =
      (offsets.find? fun x => decide (h.Suits size x)).map
        fun offset => (offset, h.headerAt offset) := by
  rw [List.find?_map]
  congr 2
  funext x
  rw [Function.comp_apply, htest, Bool.eq_iff_iff, Bool.and_eq_true, decide_eq_true_eq,
    decide_eq_true_eq]
  rfl

theorem allocate_of_chain (hzero : size ≠ 0)
    (hword : Word.roundUp size heapAlignment ≤ Word.maximum)
    (hchain : h.chain = .ok (offsets.map fun offset => (offset, h.headerAt offset))) :
    h.allocate size = h.serveFrom (Word.roundUp size heapAlignment)
      (offsets.find? fun x => decide (h.Suits (Word.roundUp size heapAlignment) x)) := by
  simp only [allocate, if_neg hzero, if_neg hword.not_gt, hchain, bind, Except.bind]
  rw [find?_headers fun _ _ => rfl]
  cases offsets.find? fun x => decide (h.Suits (Word.roundUp size heapAlignment) x) with
  | none => rfl
  | some offset =>
    cases hplace : h.place offset (h.headerAt offset) (Word.roundUp size heapAlignment) <;>
      simp [serveFrom, hplace, Except.map, pure, Except.pure]

/-! ### Along the pass -/

theorem link_of_next (hlink : (h.headerAt offset).next = some next) : h.link offset = next := by
  rw [link, hlink, Option.getD_some]

theorem steps_iff (hroom : offset + headerSize ≤ h.capacity) {r : Heap × Nat} :
    Steps (h, offset) r ↔ PassStep (h, offset) r :=
  coalesceStep_eq_some hroom

theorem PassStep.advances (hmax : h.capacity ≤ Word.maximum)
    (hstep : PassStep (h, offset) (h', next)) : Advances (h, offset) (h', next) := by
  cases hstep with
  | move linked within apart => exact ⟨rfl, .inl ⟨rfl, link_headerAt linked⟩⟩
  | @join _ _ following linked within touches =>
    refine ⟨h.capacity_joined offset following, .inr ⟨rfl, ?_⟩⟩
    have hnext := (link_headerAt linked).2
    show h.link offset < (h.joined offset following).link offset
    rw [link_of_next linked, link, headerAt_joined hmax linked within touches, Header.join]
    cases hlast : (h.headerAt following).next with
    | none =>
      rw [headerSize] at hnext
      rw [Option.getD_none, noLink]
      omega
    | some later => exact (link_headerAt hlast).1

/-- The front of the pass moves with every step and stays in the arena, so it counts the steps. -/
theorem isChain_steps (hmax : h.capacity ≤ Word.maximum)
    (hroom : offset + headerSize ≤ h.capacity)
    (hchain : List.IsChain Steps ((h, offset) :: states)) :
    List.IsChain Advances ((h, offset) :: states) ∧
      states.length + h.front offset ≤ h.capacity := by
  induction states generalizing h offset with
  | nil => exact ⟨.singleton _, by simpa using h.front_le offset⟩
  | cons r states ih =>
    obtain ⟨h', next⟩ := r
    obtain ⟨hstep, hrest⟩ := List.isChain_cons_cons.mp hchain
    have hpass := (steps_iff hroom).mp hstep
    obtain ⟨hcap, hnext, hlt⟩ := hpass.progress hmax
    obtain ⟨hadvances, hlength⟩ := ih (hcap.trans_le hmax) (hnext.trans_eq hcap.symm) hrest
    refine ⟨List.isChain_cons_cons.mpr ⟨hpass.advances hmax, hadvances⟩, ?_⟩
    rw [List.length_cons]
    omega

/-- The fuel of the pass is enough: it ends at a last header, unless sizes overflow on its way. -/
theorem exists_of_coalesceFrom (hmax : h.capacity ≤ Word.maximum)
    (hroom : offset + headerSize ≤ h.capacity) (hfuel : h.capacity ≤ fuel + h.front offset) :
    ∃ h' last, Relation.ReflTransGen Steps (h, offset) (h', last) ∧
      (h'.coalesceStep last = .ok none ∧ h.coalesceFrom offset fuel = .ok h' ∨
        h'.coalesceStep last = .error .overflow ∧
          h.coalesceFrom offset fuel = .error .overflow) := by
  induction fuel generalizing h offset with
  | zero =>
    have hlast := last_of_front (Nat.zero_add (h.front offset) ▸ hfuel)
    exact ⟨h, offset, .refl, .inl ⟨coalesceStep_of_last hroom hlast, rfl⟩⟩
  | succ fuel ih =>
    rw [coalesceFrom]
    cases hstep : h.coalesceStep offset with
    | error fault =>
      obtain ⟨rfl, -⟩ := (coalesceStep_eq_error hroom).mp hstep
      exact ⟨h, offset, .refl, .inr ⟨hstep, rfl⟩⟩
    | ok r =>
      cases r with
      | none => exact ⟨h, offset, .refl, .inl ⟨hstep, rfl⟩⟩
      | some r =>
        obtain ⟨h', next⟩ := r
        obtain ⟨hcap, hnext, hlt⟩ := ((steps_iff hroom).mp hstep).progress hmax
        obtain ⟨h'', last, hrun, hend⟩ := ih (hcap.trans_le hmax) (hnext.trans_eq hcap.symm)
          (by omega)
        exact ⟨h'', last, hrun.head hstep, hend⟩

theorem capacity_of_arena (hmin : headerSize ≤ h.arena.size) : headerSize ≤ h.capacity := by
  rw [capacity, Word.roundDown, heapAlignment]
  rw [headerSize] at *
  omega

/-- Over any bytes, the headers that a listing and a search come by have ascending offsets inside
the arena. A pass has fewer steps than the arena has bytes, each of which advances, and ends at a
last header or at an overflow. -/
theorem walks_end (hmin : headerSize ≤ h.arena.size) (hmax : h.arena.size < 2 ^ 63) :
    (∃ offsets, h.Walk (some 0) offsets ∧ h.Ascending offsets ∧
      h.blocks = .ok (offsets.map h.blockBehind)) ∧
    (∀ size, size ≠ 0 → Word.roundUp size heapAlignment ≤ Word.maximum → ∃ visited found,
      h.Search (Word.roundUp size heapAlignment) (some 0) visited found ∧ h.Ascending visited ∧
        h.allocate size = h.serveFrom (Word.roundUp size heapAlignment) found) ∧
    (∀ states, List.IsChain Steps ((h, 0) :: states) →
      List.IsChain Advances ((h, 0) :: states) ∧ states.length < h.capacity) ∧
    ∃ h' last, Relation.ReflTransGen Steps (h, 0) (h', last) ∧
      (h'.coalesceStep last = .ok none ∧ h.coalesce = .ok h' ∨
        h'.coalesceStep last = .error .overflow ∧ h.coalesce = .error .overflow) := by
  have hcap := capacity_of_arena hmin
  have hroom : 0 + headerSize ≤ h.capacity := by rwa [Nat.zero_add]
  have hword : h.capacity ≤ Word.maximum := by
    have hle := h.capacity_le
    rw [Word.maximum]
    omega
  obtain ⟨offsets, hwalk, hascending, hchain⟩ := h.exists_walk_first
  have hfirst : h.first = some 0 := if_pos hcap
  rw [hfirst] at hwalk
  refine ⟨⟨offsets, hwalk, hascending, ?_⟩, fun size hzero hfits => ?_, fun states hstates => ?_,
    ?_⟩
  · rw [blocks, hchain]
    simp only [bind, Except.bind, pure, Except.pure, List.map_map]
    rfl
  · obtain ⟨visited, hsearch, hsub⟩ := hwalk.search (Word.roundUp size heapAlignment)
    exact ⟨visited, _, hsearch, hascending.sublist hsub, allocate_of_chain hzero hfits hchain⟩
  · obtain ⟨hadvances, hlength⟩ := isChain_steps hword hroom hstates
    have hpos := lt_front hroom
    exact ⟨hadvances, by omega⟩
  · rw [coalesce, hfirst]
    exact exists_of_coalesceFrom hword hroom (Nat.le_add_right ..)

/-- Headers that the heap did not write, without tags, are merged in one step. -/
theorem walks_end_after_merge : ∃ h h' : Heap, headerSize ≤ h.arena.size ∧ h.arena.size < 2 ^ 63 ∧
    Steps (h, 0) (h', 0) ∧ Advances (h, 0) (h', 0) ∧
      ∀ states, List.IsChain Steps ((h, 0) :: states) → states.length < h.capacity := by
  let h : Heap := ⟨0, (((Array.replicate 64 0).set! 4 1).set! 16 32).set! 36 1⟩
  have hmin : headerSize ≤ h.arena.size := by decide
  have hmax : h.arena.size < 2 ^ 63 := by decide
  have hmerge : (h.coalesceStep 0).toOption.any
      (fun r => r.any fun r => decide (r.2 = 0)) = true := by decide +kernel
  obtain ⟨r, hstep, hr⟩ := Fault.exists_of_any hmerge
  obtain ⟨⟨h', next⟩, rfl, hnext⟩ := Option.any_eq_true _ _ |>.mp hr
  obtain rfl : next = 0 := of_decide_eq_true hnext
  obtain ⟨-, -, hpass, -⟩ := walks_end hmin hmax
  have hadvances := (hpass [(h', 0)] (List.isChain_pair.mpr hstep)).1
  exact ⟨h, h', hmin, hmax, hstep, List.isChain_pair.mp hadvances, fun states hstates =>
    (hpass states hstates).2⟩

end KernelCore.Heap
