import Mathlib
import KernelCore.Proofs.Heap.Handles
import KernelCore.Proofs.Heap.Walks

/-!
# Forged sizes

A link in the arena is checked before it is followed, but a size is not. So over any bytes, walks
stay inside, and what can go wrong is told by sizes alone: a block is split behind the end of the
arena, or sizes add up to more than a word holds.
-/
namespace KernelCore.Heap

/-- What a heap is asked for, over any bytes. -/
inductive Call where
  | allocate (size : Nat)
  | free (handle : Nat)
  | freeBytes
  | usedBytes
  | largestFree

/-- Whether a call goes through. -/
def Call.run (h : Heap) : Call → Except Fault Unit
  | .allocate size => (h.allocate size).map fun _ => ()
  | .free handle => (h.free handle).map fun _ => ()
  | .freeBytes => h.freeBytes.map fun _ => ()
  | .usedBytes => h.usedBytes.map fun _ => ()
  | .largestFree => h.largestFree.map fun _ => ()

/-- A request is served from the block behind the header at an offset. -/
def Chooses (h : Heap) (size offset : Nat) (header : Header) : Prop :=
  size ≠ 0 ∧ Word.roundUp size heapAlignment ≤ Word.maximum ∧ ∃ l, h.chain = .ok l ∧
    l.find? (fun (_, header) =>
      header.free && decide (Word.roundUp size heapAlignment ≤ header.size)) = some (offset, header)

/-- A handle is taken for an allocated block behind a header. -/
def Accepts (h : Heap) (handle : Nat) (header : Header) : Prop :=
  h.find handle = .ok (some (handle - headerSize, header)) ∧ header.free = false

/-- The heap after the header in front of a handle was marked free. -/
def marked (h : Heap) (handle : Nat) (header : Header) : Heap :=
  h.withHeader (handle - headerSize) { header with free := true }

/-- A call gets to sizes that reach too far. -/
inductive Overreach (h : Heap) : Call → Fault → Prop
  /-- The rest of a block would start where the arena has no room for a header. -/
  | split {size offset : Nat} {header : Header} (chosen : h.Chooses size offset header)
      (large : Word.roundUp size heapAlignment + headerSize + minSplit ≤ header.size)
      (outside : h.capacity <
        offset + headerSize + Word.roundUp size heapAlignment + headerSize) :
      Overreach h (.allocate size) .headerOutOfArena
  /-- A block is chosen for a request to which no word can add a header and a rest. -/
  | wide {size offset : Nat} {header : Header} (chosen : h.Chooses size offset header)
      (large : Word.maximum < Word.roundUp size heapAlignment + headerSize + minSplit) :
      Overreach h (.allocate size) .overflow
  /-- Two free blocks are compared or merged whose sizes overflow. -/
  | merge {handle : Nat} {header : Header} (accepted : h.Accepts handle header)
      (pass : (h.marked handle header).PassOverflows 0) : Overreach h (.free handle) .overflow
  | freeTotal {bs : List Block} (listed : h.blocks = .ok bs)
      (large : Word.maximum < ((bs.filter (·.free)).map Block.size).sum) :
      Overreach h .freeBytes .overflow
  | usedTotal {bs : List Block} (listed : h.blocks = .ok bs)
      (large : Word.maximum < ((bs.filter (!·.free)).map Block.size).sum) :
      Overreach h .usedBytes .overflow

/-- The size of a header reaches past the header that its link leads to, or past the end of the
arena if it has none. -/
def Overlong (h : Heap) (offset : Nat) : Prop :=
  h.front offset < offset + headerSize + (h.headerAt offset).size

/-- A call comes to a header whose size is overlong. -/
def Misled (h : Heap) : Call → Prop
  | .allocate size => ∃ offset header, h.Chooses size offset header ∧ h.Overlong offset
  | .free handle => ∃ header h' cursor next, h.Accepts handle header ∧
      Pass (h.marked handle header, 0) (h', cursor) ∧ (h'.headerAt cursor).next = some next ∧
        (h'.Overlong cursor ∨ h'.Overlong next)
  | .freeBytes | .usedBytes => ∃ l, h.chain = .ok l ∧ ∃ x ∈ l, h.Overlong x.1
  | .largestFree => False

variable {h h' : Heap} {size offset handle next n fuel : Nat} {header : Header} {fault : Fault}
variable {cursor : Option Nat} {bs : List Block} {l : List (Nat × Header)} {call : Call}

theorem map_eq_error {α β : Type} {x : Except Fault α} {f : α → β} :
    x.map f = .error fault ↔ x = .error fault := by
  cases x <;> simp [Except.map]

theorem total_eq (ns : List Nat) :
    total ns = if ns.sum ≤ Word.maximum then .ok ns.sum else .error .overflow := by
  induction ns with
  | nil => rfl
  | cons n ns ih =>
    rw [total, ih, List.sum_cons]
    by_cases hrest : ns.sum ≤ Word.maximum
    · simp only [if_pos hrest, bind, Except.bind, Word.add?]
      split_ifs <;> rfl
    · rw [if_neg hrest, if_neg (by omega)]
      rfl

theorem total_eq_error {ns : List Nat} :
    total ns = .error fault ↔ fault = .overflow ∧ Word.maximum < ns.sum := by
  rw [total_eq]
  split_ifs with hsum
  · simp [Nat.not_lt.mpr hsum]
  · simp [Nat.not_le.mp hsum, eq_comm]

theorem blocks_total (h : Heap) : ∃ bs, h.blocks = .ok bs := by
  obtain ⟨l, hl, -⟩ := h.chain_total
  exact ⟨_, by rw [blocks, hl]; rfl⟩

theorem writeHeader_eq_error : h.writeHeader offset header = .error fault ↔
    fault = .headerOutOfArena ∧ h.capacity < offset + headerSize := by
  rw [writeHeader]
  split_ifs with hroom
  · simp [Nat.not_lt.mpr hroom]
  · simp [Nat.not_le.mp hroom, eq_comm]

theorem bind_eq_error {α β : Type} {x : Except Fault α} {f : α → Except Fault β} :
    x >>= f = .error fault ↔ x = .error fault ∨ ∃ a, x = .ok a ∧ f a = .error fault := by
  cases x <;> simp [bind, Except.bind]

/-- Placing a block fails if a word is too narrow for the sum or if the rest has no room for its
header; the header of the block itself has its place. -/
theorem place_eq_error (hroom : offset + headerSize ≤ h.capacity)
    (hsize : header.size ≤ Word.maximum) : h.place offset header n = .error fault ↔
      fault = .overflow ∧ Word.maximum < n + headerSize + minSplit ∨
      fault = .headerOutOfArena ∧ n + headerSize + minSplit ≤ header.size ∧
        h.capacity < offset + headerSize + n + headerSize := by
  rw [place]
  by_cases hwide : Word.maximum < n + headerSize + minSplit
  · rw [if_pos hwide]
    constructor
    · intro herror
      exact .inl ⟨(Except.error.inj herror).symm, hwide⟩
    · rintro (⟨rfl, -⟩ | ⟨-, hlarge, -⟩)
      · rfl
      · omega
  rw [if_neg hwide]
  by_cases hsmall : header.size < n + headerSize + minSplit
  · rw [if_pos hsmall, writeHeader_eq_error]
    constructor
    · rintro ⟨-, hout⟩
      omega
    · rintro (⟨-, hlarge⟩ | ⟨-, hlarge, -⟩) <;> omega
  · rw [if_neg hsmall, bind_eq_error, writeHeader_eq_error]
    constructor
    · rintro (⟨rfl, hout⟩ | ⟨h₁, hwritten, herror⟩)
      · exact .inr ⟨rfl, Nat.not_lt.mp hsmall, hout⟩
      · rw [writeHeader_eq_error, capacity_writeHeader hwritten] at herror
        omega
    · rintro (⟨-, hlarge⟩ | ⟨rfl, -, hout⟩)
      · omega
      · exact .inl ⟨rfl, hout⟩

theorem allocate_eq_error : h.allocate size = .error fault ↔ ∃ offset header,
    h.Chooses size offset header ∧
      h.place offset header (Word.roundUp size heapAlignment) = .error fault := by
  obtain ⟨l, hl, -⟩ := h.chain_total
  by_cases hzero : size = 0
  · simp [allocate, Chooses, hzero, pure, Except.pure]
  by_cases hwide : Word.maximum < Word.roundUp size heapAlignment
  · simp [allocate, Chooses, hzero, hwide, pure, Except.pure, Nat.not_le.mpr hwide]
  have hchooses : ∀ offset header, h.Chooses size offset header ↔
      l.find? (fun (_, header) =>
        header.free && decide (Word.roundUp size heapAlignment ≤ header.size)) =
          some (offset, header) := by
    intro offset header
    simp [Chooses, hzero, Nat.not_lt.mp hwide, hl]
  simp only [hchooses, allocate, if_neg hzero, if_neg hwide, hl]
  cases hfound : l.find? (fun (_, header) =>
      header.free && decide (Word.roundUp size heapAlignment ≤ header.size)) with
  | none => simp [bind, Except.bind, pure, Except.pure, hfound]
  | some x =>
    obtain ⟨offset, header⟩ := x
    simp only [bind, Except.bind, pure, Except.pure, hfound, Option.some.injEq, Prod.mk.injEq]
    cases hplace : h.place offset header (Word.roundUp size heapAlignment) <;> simp [hplace]

theorem free_eq_error : h.free handle = .error fault ↔ ∃ header, h.Accepts handle header ∧
    (h.marked handle header).coalesce = .error fault := by
  obtain hnone | ⟨header, hfound, hlow, hhigh, -⟩ := h.find_cases handle
  · simp [free, Accepts, hnone, bind, Except.bind, pure, Except.pure]
  · have hroom : handle - headerSize + headerSize ≤ h.capacity := by omega
    have hwrite := writeHeader_eq hroom { header with free := true }
    cases hfree : header.free with
    | true => simp [free, Accepts, hfound, hfree, bind, Except.bind, pure, Except.pure]
    | false =>
      simp [free, Accepts, hfound, hfree, bind, Except.bind, hwrite, marked]

theorem freeBytes_eq_error (hbs : h.blocks = .ok bs) :
    h.freeBytes = .error fault ↔
      fault = .overflow ∧ Word.maximum < ((bs.filter (·.free)).map Block.size).sum := by
  rw [freeBytes, hbs, ← total_eq_error]
  rfl

theorem usedBytes_eq_error (hbs : h.blocks = .ok bs) :
    h.usedBytes = .error fault ↔
      fault = .overflow ∧ Word.maximum < ((bs.filter (!·.free)).map Block.size).sum := by
  rw [usedBytes, hbs, ← total_eq_error]
  rfl

theorem Chooses.spec (hc : h.Chooses size offset header) :
    offset + headerSize ≤ h.capacity ∧ header = h.headerAt offset ∧
      Word.roundUp size heapAlignment ≤ header.size := by
  obtain ⟨-, -, l, hl, hfound⟩ := hc
  obtain ⟨l', hl', hmem⟩ := h.chain_total
  rw [hl] at hl'
  cases hl'
  obtain ⟨hroom, hread⟩ := hmem _ (List.mem_of_find?_eq_some hfound)
  have hfits := List.find?_some hfound
  simp only [Bool.and_eq_true, decide_eq_true_eq] at hfits
  exact ⟨hroom, hread, hfits.2⟩

theorem Chooses.place_eq_error (hc : h.Chooses size offset header) :
    h.place offset header (Word.roundUp size heapAlignment) = .error fault ↔
      fault = .overflow ∧ Word.maximum < Word.roundUp size heapAlignment + headerSize + minSplit ∨
      fault = .headerOutOfArena ∧
        Word.roundUp size heapAlignment + headerSize + minSplit ≤ header.size ∧
        h.capacity < offset + headerSize + Word.roundUp size heapAlignment + headerSize := by
  obtain ⟨hroom, rfl, -⟩ := hc.spec
  exact Heap.place_eq_error hroom (h.size_headerAt offset)

theorem Accepts.room (ha : h.Accepts handle header) :
    headerSize ≤ h.capacity ∧ (h.marked handle header).capacity = h.capacity := by
  refine ⟨?_, capacity_withHeader ..⟩
  obtain hnone | ⟨_, -, hlow, hhigh, -⟩ := h.find_cases handle
  · rw [ha.1] at hnone
    cases hnone
  · exact hlow.trans hhigh

theorem Accepts.coalesce_eq_error (ha : h.Accepts handle header)
    (hmax : h.capacity ≤ Word.maximum) : (h.marked handle header).coalesce = .error fault ↔
      fault = .overflow ∧ (h.marked handle header).PassOverflows 0 := by
  obtain ⟨hmin, hcap⟩ := ha.room
  exact Heap.coalesce_eq_error (hcap.trans_le hmax) (hmin.trans_eq hcap.symm)

/-! ### Faults are overreaches -/

theorem fault_allocate : Call.run h (.allocate size) = .error fault ↔
    h.Overreach (.allocate size) fault := by
  rw [Call.run, map_eq_error, allocate_eq_error]
  constructor
  · rintro ⟨offset, header, hchosen, herror⟩
    obtain ⟨rfl, hwide⟩ | ⟨rfl, hlarge, hout⟩ := hchosen.place_eq_error.mp herror
    · exact .wide hchosen hwide
    · exact .split hchosen hlarge hout
  · intro hover
    cases hover with
    | split chosen large outside =>
      exact ⟨_, _, chosen, chosen.place_eq_error.mpr (.inr ⟨rfl, large, outside⟩)⟩
    | wide chosen large => exact ⟨_, _, chosen, chosen.place_eq_error.mpr (.inl ⟨rfl, large⟩)⟩

theorem fault_free (hmax : h.capacity ≤ Word.maximum) :
    Call.run h (.free handle) = .error fault ↔ h.Overreach (.free handle) fault := by
  rw [Call.run, map_eq_error, free_eq_error]
  constructor
  · rintro ⟨header, haccepts, herror⟩
    obtain ⟨rfl, hpass⟩ := (haccepts.coalesce_eq_error hmax).mp herror
    exact .merge haccepts hpass
  · intro hover
    cases hover with
    | merge accepted pass => exact ⟨_, accepted, (accepted.coalesce_eq_error hmax).mpr ⟨rfl, pass⟩⟩

theorem fault_freeBytes : Call.run h .freeBytes = .error fault ↔ h.Overreach .freeBytes fault := by
  obtain ⟨bs, hbs⟩ := h.blocks_total
  rw [Call.run, map_eq_error, freeBytes_eq_error hbs]
  constructor
  · rintro ⟨rfl, hlarge⟩
    exact .freeTotal hbs hlarge
  · intro hover
    cases hover with
    | freeTotal listed large =>
      cases hbs.symm.trans listed
      exact ⟨rfl, large⟩

theorem fault_usedBytes : Call.run h .usedBytes = .error fault ↔ h.Overreach .usedBytes fault := by
  obtain ⟨bs, hbs⟩ := h.blocks_total
  rw [Call.run, map_eq_error, usedBytes_eq_error hbs]
  constructor
  · rintro ⟨rfl, hlarge⟩
    exact .usedTotal hbs hlarge
  · intro hover
    cases hover with
    | usedTotal listed large =>
      cases hbs.symm.trans listed
      exact ⟨rfl, large⟩

theorem fault_largestFree :
    Call.run h .largestFree = .error fault ↔ h.Overreach .largestFree fault := by
  obtain ⟨bs, hbs⟩ := h.blocks_total
  rw [Call.run, map_eq_error, largestFree, hbs]
  constructor
  · intro herror
    cases herror
  · intro hover
    cases hover

/-! ### Overreaches come from overlong sizes -/

theorem overlong_of_capacity_lt
    (hreach : h.capacity < offset + headerSize + (h.headerAt offset).size) : h.Overlong offset :=
  (h.front_le offset).trans_lt hreach

theorem sum_chainFrom (hl : h.chainFrom fuel (some offset) = .ok l)
    (hroom : offset + headerSize ≤ h.capacity) (hshort : ∀ x ∈ l, ¬ h.Overlong x.1) :
    (l.map (·.2.size)).sum + offset ≤ h.capacity := by
  induction fuel generalizing offset l with
  | zero =>
    cases hl
    simp only [List.map_nil, List.sum_nil]
    omega
  | succ fuel ih =>
    rw [chainFrom, readHeader_eq_headerAt hroom] at hl
    obtain ⟨_, hread, hl⟩ := Fault.of_bind_eq_ok hl
    cases hread
    obtain ⟨rest, hrest, hl⟩ := Fault.of_bind_eq_ok hl
    cases hl
    have hhere : ¬ h.Overlong offset := hshort _ (List.mem_cons_self ..)
    rw [Overlong, Nat.not_lt] at hhere
    simp only [List.map_cons, List.sum_cons]
    cases hlink : (h.headerAt offset).next with
    | none =>
      have hnil : rest = [] := by
        rw [hlink] at hrest
        cases fuel <;> cases hrest <;> rfl
      have hle := h.front_le offset
      subst hnil
      simp only [List.map_nil, List.sum_nil]
      omega
    | some next =>
      rw [hlink] at hrest
      have hnext := ih hrest (link_headerAt hlink).2
        fun x hx => hshort x (List.mem_cons_of_mem _ hx)
      rw [front_of_link hlink] at hhere
      omega

theorem sum_blocks (hl : h.chain = .ok l) (hbs : h.blocks = .ok bs)
    (hshort : ∀ x ∈ l, ¬ h.Overlong x.1) (p : Block → Bool) :
    ((bs.filter p).map Block.size).sum ≤ h.capacity := by
  have hsizes : bs.map Block.size = l.map (·.2.size) := by
    rw [blocks, hl] at hbs
    cases hbs
    rw [List.map_map]
    rfl
  have hall : (l.map (·.2.size)).sum ≤ h.capacity := by
    rw [chain] at hl
    cases hfirst : h.first with
    | none =>
      rw [hfirst] at hl
      have hnil : l = [] := by
        cases hfuel : h.capacity <;> rw [hfuel] at hl <;> cases hl <;> rfl
      simp [hnil]
    | some offset =>
      rw [hfirst] at hl
      have hsum := sum_chainFrom hl (room_of_first hfirst) hshort
      omega
  refine le_trans ?_ (hsizes ▸ hall)
  exact (List.filter_sublist.map Block.size).sum_le_sum fun _ _ => Nat.zero_le _

theorem misled_of_sum (hmax : h.capacity ≤ Word.maximum) (hbs : h.blocks = .ok bs)
    (p : Block → Bool) (hlarge : Word.maximum < ((bs.filter p).map Block.size).sum) :
    ∃ l, h.chain = .ok l ∧ ∃ x ∈ l, h.Overlong x.1 := by
  obtain ⟨l, hl, -⟩ := h.chain_total
  refine ⟨l, hl, ?_⟩
  by_contra hnone
  have hshort : ∀ x ∈ l, ¬ h.Overlong x.1 := fun x hx hover => hnone ⟨x, hx, hover⟩
  have hsum := sum_blocks hl hbs hshort p
  omega

theorem Overreach.misled (hmax : h.arena.size < 2 ^ 63) (hover : h.Overreach call fault) :
    h.Misled call := by
  have hcap : h.capacity < 2 ^ 63 := h.capacity_le.trans_lt hmax
  have hword : h.capacity ≤ Word.maximum := by
    rw [Word.maximum]
    omega
  cases hover with
  | split chosen large outside =>
    obtain ⟨-, rfl, -⟩ := chosen.spec
    exact ⟨_, _, chosen, overlong_of_capacity_lt (by omega)⟩
  | wide chosen large =>
    obtain ⟨-, rfl, hfits⟩ := chosen.spec
    rw [Word.maximum, headerSize, minSplit] at large
    exact ⟨_, _, chosen, overlong_of_capacity_lt (by omega)⟩
  | merge accepted pass =>
    obtain ⟨h', cursor, next, hpass, hlink, -, -, hlarge⟩ := pass
    obtain ⟨hmin, hmarked⟩ := accepted.room
    have hcap' : h'.capacity = h.capacity :=
      (hpass.room (hmarked.trans_le hword) (by rwa [hmarked, Nat.zero_add])).1.trans hmarked
    refine ⟨_, h', cursor, next, accepted, hpass, hlink, ?_⟩
    obtain hend | ⟨hadjacent, hsize⟩ := hlarge
    · exact .inl (overlong_of_capacity_lt (by omega))
    · exact .inr (overlong_of_capacity_lt (by omega))
  | freeTotal listed large => exact misled_of_sum hword listed _ large
  | usedTotal listed large => exact misled_of_sum hword listed _ large

/-- Over any bytes, a call fails exactly if its sizes reach too far, which takes a size that is
overlong; and the pass of a release reads, rewrites and wipes headers inside the arena only. -/
theorem fault_iff_overreach (hmax : h.arena.size < 2 ^ 63) :
    (∀ call fault, Call.run h call = .error fault ↔ h.Overreach call fault) ∧
    (∀ call fault, h.Overreach call fault → h.Misled call) ∧
    ∀ handle header h' cursor next, h.Accepts handle header →
      Pass (h.marked handle header, 0) (h', cursor) → (h'.headerAt cursor).next = some next →
        cursor + headerSize ≤ h.capacity ∧ next + headerSize ≤ h.capacity := by
  have hcap := h.capacity_le.trans_lt hmax
  have hword : h.capacity ≤ Word.maximum := by
    rw [Word.maximum]
    omega
  refine ⟨fun call fault => ?_, fun call fault hover => hover.misled hmax, ?_⟩
  · cases call with
    | allocate size => exact fault_allocate
    | free handle => exact fault_free hword
    | freeBytes => exact fault_freeBytes
    | usedBytes => exact fault_usedBytes
    | largestFree => exact fault_largestFree
  · intro handle header h' cursor next haccepts hpass hlink
    obtain ⟨hmin, hmarked⟩ := haccepts.room
    have hstart : 0 + headerSize ≤ (h.marked handle header).capacity := by
      rwa [hmarked, Nat.zero_add]
    obtain ⟨hcap', hroom⟩ := hpass.room (hmarked.trans_le hword) hstart
    have hnext := (link_headerAt hlink).2
    omega

/-- Requests after which the size of the last block is a forged one. A header forged in the first
payload makes the handle 64 valid, and what is written there lands in the header of that block. -/
def forge (size : List UInt8) : List Request :=
  [.allocate 48, .write 32 0 [0xEF, 0xBE, 0xAD, 0xDE, 0, 0, 0, 0, 64], .write 64 24 size]

/-- Once the size of the last block is the largest word, the block in front of it cannot be
released. -/
theorem overreach_of_forged_size : ∃ h,
    (forge (List.replicate 8 255)).foldlM serve (ofArena 0 (Array.replicate 128 0)) = .ok h ∧
      h.arena.size < 2 ^ 63 ∧ h.Overreach (.free 32) .overflow ∧ h.Misled (.free 32) := by
  have hrun : ((forge (List.replicate 8 255)).foldlM serve
      (ofArena 0 (Array.replicate 128 0))).toOption.any (fun h => decide (h.arena.size = 128) &&
        match Call.run h (.free 32) with
        | .error .overflow => true
        | _ => false) = true := by decide +kernel
  obtain ⟨h, hh, hfault⟩ := Fault.exists_of_any hrun
  obtain ⟨hsize, hfault⟩ := Bool.and_eq_true_iff.mp hfault
  have hmax : h.arena.size < 2 ^ 63 := by
    rw [of_decide_eq_true hsize]
    decide
  have herror : Call.run h (.free 32) = .error .overflow := by
    split at hfault
    · assumption
    · cases hfault
  obtain ⟨hiff, hmisled, -⟩ := fault_iff_overreach hmax
  have hover := (hiff _ _).mp herror
  exact ⟨h, hh, hmax, hover, hmisled _ _ hover⟩

/-- A request is served from a block whose forged size reaches out of the arena, and the header of
the rest would stand behind the end. -/
theorem split_behind_arena : ∃ h,
    (forge [64]).foldlM serve (ofArena 0 (Array.replicate 128 0)) = .ok h ∧
      Call.run h (.allocate 16) = .error .headerOutOfArena := by
  have hrun : ((forge [64]).foldlM serve (ofArena 0 (Array.replicate 128 0))).toOption.any (fun h =>
      match Call.run h (.allocate 16) with
      | .error .headerOutOfArena => true
      | _ => false) = true := by decide +kernel
  obtain ⟨h, hh, hfault⟩ := Fault.exists_of_any hrun
  refine ⟨h, hh, ?_⟩
  split at hfault
  · assumption
  · cases hfault

end KernelCore.Heap
