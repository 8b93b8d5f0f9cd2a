import Mathlib
import KernelCore.Proofs.Heap.Canonical
import KernelCore.Proofs.Heap.Forgery

/-!
# Memory by address and layout

A client asks for memory by layout and gives it back by address. Its grants are aligned as the
layouts ask, they lie inside the arena that was handed over first, and they do not overlap. A grant
that is given back is one allocated block less and changes no byte of the others, and once the
client holds nothing, all of the arena is free.
-/
namespace KernelCore

/-- Memory that was handed out for a layout. -/
structure Grant where
  address : Nat
  layout : Layout
  deriving DecidableEq, Repr

/-- Address behind the bytes of the layout. -/
def Grant.finish (g : Grant) : Nat := g.address + g.layout.size

/-- The shared heap and the grants that were not given back yet. -/
structure Client where
  heap : SharedHeap := {}
  live : List Grant := []

namespace Client

inductive Operation where
  | install (address : Nat) (arena : Array UInt8)
  | alloc (layout : Layout)
  | dealloc (i : Nat)
  | write (i start : Nat) (bytes : List UInt8)

/-- Layouts have a size, their alignment is a power of two, and an arena fits the address space. -/
def Operation.Valid : Operation → Prop
  | .install _ arena => arena.size < 2 ^ 63
  | .alloc layout => layout.size ≠ 0 ∧ layout.align.isPowerOfTwo
  | .dealloc _ | .write .. => True

instance : (op : Operation) → Decidable op.Valid
  | .install _ arena => inferInstanceAs (Decidable (arena.size < 2 ^ 63))
  | .alloc layout => inferInstanceAs (Decidable (layout.size ≠ 0 ∧ layout.align.isPowerOfTwo))
  | .dealloc _ | .write .. => inferInstanceAs (Decidable True)

/-- The arena that is handed over, by its address and length. -/
def Operation.arena? : Operation → Option (Nat × Nat)
  | .install address arena => some (address, arena.size)
  | .alloc _ | .dealloc _ | .write .. => none

/-- A step of a client. It names a grant by its index and writes where the bytes fit only. -/
def perform (c : Client) : Operation → Except Fault Client
  | .install address arena => return { c with heap := c.heap.install address arena }
  | .alloc layout => do
    match ← c.heap.alloc layout with
    | (none, heap) => return { c with heap }
    | (some address, heap) => return ⟨heap, ⟨address, layout⟩ :: c.live⟩
  | .dealloc i =>
    match c.live[i]? with
    | none => return c
    | some g => return ⟨← c.heap.dealloc g.address, c.live.eraseIdx i⟩
  | .write i start bytes =>
    match c.live[i]? with
    | none => return c
    | some g =>
      if g.layout.size < start + bytes.length then return c
      else return { c with heap := c.heap.poke (g.address + start) bytes }

def run (c : Client) (ops : List Operation) : Except Fault Client := ops.foldlM perform c

/-- The first arena that is handed over. -/
def given (ops : List Operation) : Option (Nat × Nat) := ops.findSome? Operation.arena?

end Client

/-- Addresses and sizes of the allocated blocks. -/
def SharedHeap.allocated (s : SharedHeap) : Except Fault (List (Nat × Nat)) := do
  match s.heap with
  | none => return []
  | some h =>
    return ((← h.blocks).filter (!·.free)).map fun b => (h.addressOf b.payload, b.size)

namespace Client

/-- Giving back a grant takes its block, and no other, from the allocated ones. The other grants
keep their bytes. -/
def Releases (c : Client) (i : Nat) (g : Grant) : Prop :=
  ∃ heap before after size, c.heap.dealloc g.address = .ok heap ∧
    c.heap.allocated = .ok before ∧ heap.allocated = .ok after ∧
    before.Perm ((g.address, size) :: after) ∧ g.layout.size ≤ size ∧
    ∀ g' ∈ c.live.eraseIdx i,
      heap.peek g'.address g'.layout.size = c.heap.peek g'.address g'.layout.size

/-- What a client may rely on, given the first arena. -/
structure Honored (c : Client) (arena : Option (Nat × Nat)) : Prop where
  aligned : ∀ g ∈ c.live, g.layout.align ∣ g.address
  inside : ∀ g ∈ c.live, ∃ address length, arena = some (address, length) ∧
    address ≤ g.address ∧ g.finish ≤ address + length
  apart : c.live.Pairwise fun g g' => g.finish ≤ g'.address ∨ g'.finish ≤ g.address
  releases : ∀ i g, c.live[i]? = some g → c.Releases i g
  refuses : ∀ layout, heapAlignment < layout.align ∨ arena = none →
    c.heap.alloc layout = .ok (none, c.heap)
  installed : arena ≠ none → ∀ address bytes, c.heap.install address bytes = c.heap
  restored : c.live = [] → ∀ h, c.heap.heap = some h → Heap.headerSize ≤ h.capacity →
    h.freeBytes = .ok (h.capacity - Heap.headerSize)

end Client

namespace SharedHeap

open Heap

variable {s s' : SharedHeap} {b : Block} {taken : List Block} {address base room start : Nat}

/-- The part of an arena, by address and length, that holds blocks. -/
def usable (address length : Nat) : Nat × Nat :=
  (address + skipped address length,
    Word.roundDown (length - skipped address length) heapAlignment)

theorem usable_inside (address length : Nat) : address ≤ (usable address length).1 ∧
    (usable address length).1 + (usable address length).2 ≤ address + length := by
  have hskip : skipped address length ≤ length := Nat.min_le_right _ _
  have hround := Word.roundDown_le (length - skipped address length) heapAlignment
  rw [usable]
  dsimp only
  omega

/-- Blocks start at an aligned address; otherwise all of the arena was skipped. -/
theorem usable_aligned {address length : Nat} (hroom : 0 < (usable address length).2) :
    heapAlignment ∣ (usable address length).1 := by
  have hle : address ≤ Word.roundUp address heapAlignment := Word.le_roundUp (by decide)
  rw [usable] at hroom ⊢
  dsimp only at hroom ⊢
  rcases Nat.le_total (Word.roundUp address heapAlignment - address) length with hfits | hfits
  · rw [skipped, Nat.min_eq_left hfits, Nat.add_sub_cancel' hle]
    exact Nat.dvd_mul_left ..
  · rw [skipped, Nat.min_eq_right hfits, Nat.sub_self] at hroom
    cases hroom

theorem extent_install (address : Nat) (arena : Array UInt8) :
    (install ⟨none⟩ address arena).extent = some (usable address arena.size) := by
  have hsize : (arena.extract (skipped address arena.size) arena.size).size =
      arena.size - skipped address arena.size := by
    rw [Array.size_extract, Nat.min_self]
  rw [install, extent, Option.map_some, ofArena, hsize, usable]
  split_ifs <;> simp only [capacity, Bytes.size_write, hsize]

theorem stocked_install (address : Nat) {arena : Array UInt8} (hmax : arena.size < 2 ^ 63) :
    (install ⟨none⟩ address arena).Stocked [] := by
  have hmax' : (arena.extract (skipped address arena.size) arena.size).size < 2 ^ 63 := by
    rw [Array.size_extract]
    omega
  obtain ⟨bs, hf, hnone⟩ := formatted_ofArena (address + skipped address arena.size) hmax'
  exact .installed hf (.of_eq hnone)

theorem Stocked.bounds (hs : s.Stocked taken) (hb : b ∈ taken)
    (he : s.extent = some (base, room)) :
    heapAlignment ∣ b.payload ∧ b.finish ≤ room := by
  cases hs with
  | missing => cases hb
  | @installed h bs _ hf hperm =>
    obtain ⟨hb, -⟩ := List.mem_filter.mp (hperm.mem_iff.mpr hb)
    obtain ⟨ht, -⟩ := hf.tiled_of_mem hb
    obtain ⟨hp, -, hcap⟩ := ht.bounds hb
    have hoff := (ht.laid.aligned rfl hb).1
    rw [extent, Option.map_some, Option.some.injEq, Prod.mk.injEq] at he
    rw [heapAlignment, headerSize] at *
    omega

theorem Stocked.allocated (hs : s.Stocked taken) (he : s.extent = some (base, room)) :
    ∃ ranges, s.allocated = .ok ranges ∧
      ranges.Perm (taken.map fun b => (base + b.payload, b.size)) := by
  cases hs with
  | missing => cases he
  | installed hf hperm =>
    obtain ⟨rfl, -⟩ := Prod.mk.inj (Option.some.inj he)
    refine ⟨_, ?_, hperm.map _⟩
    rw [SharedHeap.allocated]
    dsimp only
    rw [hf.blocks]
    rfl

theorem alloc_refused {layout : Layout}
    (h : heapAlignment < layout.align ∨ s.extent = none) : s.alloc layout = .ok (none, s) := by
  by_cases hwide : heapAlignment < layout.align
  · rw [SharedHeap.alloc, if_pos hwide]
    rfl
  · obtain ⟨_ | h⟩ := s
    · rw [SharedHeap.alloc, if_neg hwide]
      rfl
    · exact absurd (h.resolve_left hwide) (Option.some_ne_none _)

theorem Stocked.alloc {layout : Layout} (hs : s.Stocked taken) (hsize : layout.size ≠ 0) :
    s.alloc layout = .ok (none, s) ∨ ∃ b s' address, s.alloc layout = .ok (some address, s') ∧
      layout.align ≤ heapAlignment ∧ s'.Stocked (b :: taken) ∧ s'.extent = s.extent ∧
      s'.addressOf b.payload = some address ∧ layout.size ≤ b.size := by
  by_cases hwide : heapAlignment < layout.align
  · exact .inl (alloc_refused (.inl hwide))
  · simp only [SharedHeap.alloc, if_neg hwide, bind, Except.bind, pure, Except.pure]
    obtain hnone | ⟨b, s', hrun, hs', hextent, hle⟩ := hs.allocate hsize
    · left
      rw [hnone]
    · right
      obtain ⟨address, ha⟩ := hs'.exists_address b.payload
      refine ⟨b, s', address, ?_, Nat.le_of_not_lt hwide, hs', hextent, ha, hle⟩
      rw [hrun]
      dsimp only
      rw [ha]

theorem Stocked.dealloc_eq (hs : s.Stocked taken) (hb : b ∈ taken) (hpos : 0 < b.size)
    (ha : s.addressOf b.payload = some address) : s.dealloc address = s.free b.payload := by
  cases hs with
  | missing => cases hb
  | @installed h bs _ hf hperm =>
    obtain ⟨-, hfin⟩ := (Stocked.installed hf hperm).bounds hb rfl
    have ha : h.base + b.payload = address := Option.some.inj ha
    have hat : h.blockAt address = some b.payload := by
      rw [Block.finish] at hfin
      rw [← ha, Heap.blockAt, Nat.add_sub_cancel_left, if_pos (by omega)]
    rw [SharedHeap.dealloc, Option.bind_some, hat]

theorem Stocked.poke {bytes : List UInt8} (hs : s.Stocked taken) (hb : b ∈ taken)
    (ha : s.addressOf b.payload = some address) (hle : start + bytes.length ≤ b.size) :
    (s.poke (address + start) bytes).Stocked taken ∧
      (s.poke (address + start) bytes).extent = s.extent := by
  cases hs with
  | missing => cases hb
  | @installed h bs _ hf hperm =>
    obtain ⟨hb, -⟩ := List.mem_filter.mp (hperm.mem_iff.mpr hb)
    obtain ⟨ht, hc⟩ := hf.tiled_of_mem hb
    obtain ⟨ht', hsame⟩ := ht.overwrite hb hle
    have ha : h.base + b.payload = address := Option.some.inj ha
    rw [SharedHeap.poke]
    dsimp only
    rw [← ha, Nat.add_assoc, Nat.add_sub_cancel_left]
    exact ⟨.installed (.tiled ht' hc) hperm, extent_congr rfl hsame.capacity⟩

theorem install_of_extent (he : s.extent ≠ none) (address : Nat) (arena : Array UInt8) :
    s.install address arena = s := by
  obtain ⟨_ | h⟩ := s
  · exact absurd rfl he
  · rfl

end SharedHeap

namespace Client

open Heap SharedHeap

/-- The block behind a grant. -/
structure Backs (s : SharedHeap) (b : Block) (g : Grant) : Prop where
  address : s.addressOf b.payload = some g.address
  positive : 0 < g.layout.size
  fits : g.layout.size ≤ b.size
  align : g.layout.align ∣ heapAlignment

/-- The allocated blocks are those behind the grants, in the arena that came first. -/
structure Kept (c : Client) (arena : Option (Nat × Nat)) (held : List (Grant × Block)) : Prop where
  live : c.live = held.map Prod.fst
  stocked : c.heap.Stocked (held.map Prod.snd)
  extent : c.heap.extent = arena.map fun x => usable x.1 x.2
  backed : ∀ x ∈ held, Backs c.heap x.2 x.1

variable {c : Client} {arena : Option (Nat × Nat)} {held : List (Grant × Block)}
variable {s s' : SharedHeap} {b : Block} {g : Grant} {i : Nat} {x : Grant × Block}

theorem Backs.congr (hb : Backs s b g) (he : s'.extent = s.extent) : Backs s' b g :=
  ⟨(addressOf_congr he _).trans hb.address, hb.positive, hb.fits, hb.align⟩

theorem dvd_heapAlignment {n : Nat} (hn : n.isPowerOfTwo) (hle : n ≤ heapAlignment) :
    n ∣ heapAlignment := by
  obtain ⟨k, rfl⟩ := hn
  have hk : k ≤ 4 := (Nat.pow_le_pow_iff_right (by decide)).mp hle
  exact Nat.pow_dvd_pow 2 hk

theorem Kept.start : Kept {} none [] := ⟨rfl, .missing, rfl, fun _ hx => by cases hx⟩

theorem Kept.exists_block (hk : c.Kept arena held) (hi : c.live[i]? = some g) :
    ∃ b, (g, b) ∈ held ∧ held.Perm ((g, b) :: held.eraseIdx i) := by
  rw [hk.live, List.getElem?_map, Option.map_eq_some_iff] at hi
  obtain ⟨⟨_, b⟩, hi, rfl⟩ := hi
  obtain ⟨hlt, hget⟩ := List.getElem?_eq_some_iff.mp hi
  have hperm := (List.getElem_cons_eraseIdx_perm hlt).symm
  rw [hget] at hperm
  exact ⟨b, List.mem_of_getElem? hi, hperm⟩

/-- A grant that is given back leaves the others with their blocks and bytes. -/
theorem Kept.dealloc (hk : c.Kept arena held) (hi : c.live[i]? = some g) :
    ∃ heap, c.heap.dealloc g.address = .ok heap ∧
      Kept ⟨heap, c.live.eraseIdx i⟩ arena (held.eraseIdx i) ∧
      ∀ x ∈ held.eraseIdx i, heap.peek x.1.address x.1.layout.size =
        c.heap.peek x.1.address x.1.layout.size := by
  obtain ⟨b, hmem, hperm⟩ := hk.exists_block hi
  have hb := hk.backed _ hmem
  have hrest : ∀ x ∈ held.eraseIdx i, Backs c.heap x.2 x.1 :=
    fun x hx => hk.backed x (List.mem_of_mem_eraseIdx hx)
  have hs := hk.stocked.of_perm (hperm.map Prod.snd)
  obtain ⟨heap, hrun, hs', hextent, hbytes⟩ := hs.free
  refine ⟨heap, ?_, ⟨?_, hs', hextent.trans hk.extent, fun x hx => (hrest x hx).congr hextent⟩,
    fun x hx => ?_⟩
  · rw [hk.stocked.dealloc_eq (List.mem_map_of_mem hmem) (hb.positive.trans_le hb.fits) hb.address]
    exact hrun
  · rw [hk.live, List.eraseIdx_map]
  · exact hbytes x.2 (List.mem_map_of_mem hx) _ _ (hrest x hx).address (hrest x hx).fits

theorem Kept.install (hk : c.Kept arena held) (address : Nat) {bytes : Array UInt8}
    (hmax : bytes.size < 2 ^ 63) :
    Kept { c with heap := c.heap.install address bytes }
      (arena.or (some (address, bytes.size))) held := by
  obtain ⟨⟨heap⟩, live⟩ := c
  cases arena with
  | none =>
    obtain rfl : heap = none := Option.map_eq_none_iff.mp hk.extent
    -- no block is allocated before there is an arena
    have hnone : held = [] := by
      cases held with
      | nil => rfl
      | cons x held =>
        cases hk.stocked
    subst hnone
    exact ⟨hk.live, stocked_install address hmax, extent_install address bytes,
      fun _ hx => by cases hx⟩
  | some x =>
    have he : SharedHeap.extent ⟨heap⟩ ≠ none := by
      rw [hk.extent]
      exact Option.some_ne_none _
    rw [install_of_extent he]
    exact hk

theorem Kept.alloc (hk : c.Kept arena held) {layout : Layout} (hsize : layout.size ≠ 0)
    (halign : layout.align.isPowerOfTwo) :
    ∃ c' held', c.perform (.alloc layout) = .ok c' ∧ c'.Kept arena held' := by
  simp only [perform, bind, Except.bind, pure, Except.pure]
  obtain hnone | ⟨b, s, address, hrun, hle, hs, hextent, ha, hfits⟩ := hk.stocked.alloc hsize
  · rw [hnone]
    exact ⟨c, held, rfl, hk⟩
  · rw [hrun]
    refine ⟨_, (⟨address, layout⟩, b) :: held, rfl, ?_, hs, hextent.trans hk.extent,
      List.forall_mem_cons.mpr ⟨?_, fun x hx => (hk.backed x hx).congr hextent⟩⟩
    · rw [hk.live, List.map_cons]
    · exact ⟨ha, Nat.pos_of_ne_zero hsize, hfits, dvd_heapAlignment halign hle⟩

theorem Kept.write (hk : c.Kept arena held) (i start : Nat) (bytes : List UInt8) :
    ∃ c', c.perform (.write i start bytes) = .ok c' ∧ c'.Kept arena held := by
  rw [perform]
  cases hi : c.live[i]? with
  | none => exact ⟨c, rfl, hk⟩
  | some g =>
    dsimp only
    by_cases hlong : g.layout.size < start + bytes.length
    · rw [if_pos hlong]
      exact ⟨c, rfl, hk⟩
    · rw [if_neg hlong]
      obtain ⟨b, hmem, -⟩ := hk.exists_block hi
      have hb := hk.backed _ hmem
      obtain ⟨hs, hextent⟩ := hk.stocked.poke (List.mem_map_of_mem hmem) hb.address
        ((Nat.le_of_not_lt hlong).trans hb.fits)
      exact ⟨_, rfl, hk.live, hs, hextent.trans hk.extent,
        fun x hx => (hk.backed x hx).congr hextent⟩

theorem Kept.perform {op : Operation} (hk : c.Kept arena held) (hv : op.Valid) :
    ∃ c' held', c.perform op = .ok c' ∧ c'.Kept (arena.or op.arena?) held' := by
  cases op with
  | install address bytes => exact ⟨_, held, rfl, hk.install address hv⟩
  | alloc layout =>
    rw [Operation.arena?, Option.or_none]
    exact hk.alloc hv.1 hv.2
  | dealloc i =>
    rw [Operation.arena?, Option.or_none]
    cases hi : c.live[i]? with
    | none =>
      refine ⟨c, held, ?_, hk⟩
      simp only [Client.perform, hi, pure, Except.pure]
    | some g =>
      obtain ⟨heap, hrun, hk', -⟩ := hk.dealloc hi
      refine ⟨_, _, ?_, hk'⟩
      simp only [Client.perform, hi, hrun, bind, Except.bind, pure, Except.pure]
  | write i start bytes =>
    rw [Operation.arena?, Option.or_none]
    obtain ⟨c', hrun, hk'⟩ := hk.write i start bytes
    exact ⟨c', held, hrun, hk'⟩

theorem Kept.run {ops : List Operation} (hk : c.Kept arena held) (hv : ∀ op ∈ ops, op.Valid) :
    ∃ c' held', c.run ops = .ok c' ∧ c'.Kept (arena.or (given ops)) held' := by
  induction ops generalizing c arena held with
  | nil =>
    rw [given, List.findSome?_nil, Option.or_none]
    exact ⟨c, held, rfl, hk⟩
  | cons op ops ih =>
    obtain ⟨hop, hops⟩ := List.forall_mem_cons.mp hv
    obtain ⟨c₁, held₁, hrun₁, hk₁⟩ := hk.perform hop
    obtain ⟨c', held', hrun, hk'⟩ := ih hk₁ hops
    have hgiven : given (op :: ops) = op.arena?.or (given ops) := by
      rw [given, List.findSome?_cons]
      cases op.arena? <;> rfl
    refine ⟨c', held', ?_, ?_⟩
    · rw [Client.run, List.foldlM_cons, hrun₁]
      exact hrun
    · rwa [hgiven, ← Option.or_assoc]

theorem Kept.located (hk : c.Kept arena held) (hx : x ∈ held) :
    ∃ address length, arena = some (address, length) ∧
      c.heap.extent = some (usable address length) ∧
      x.1.address = (usable address length).1 + x.2.payload ∧
      heapAlignment ∣ x.2.payload ∧ x.2.finish ≤ (usable address length).2 := by
  have ha := (hk.backed x hx).address
  have he := hk.extent
  cases arena with
  | none =>
    rw [addressOf_eq, he] at ha
    cases ha
  | some arena =>
    obtain ⟨address, length⟩ := arena
    rw [addressOf_eq, he] at ha
    obtain ⟨hdvd, hfin⟩ := hk.stocked.bounds (List.mem_map_of_mem hx) he
    exact ⟨address, length, rfl, he, (Option.some.inj ha).symm, hdvd, hfin⟩

theorem Kept.apart (hk : c.Kept arena held) :
    c.live.Pairwise fun g g' => g.finish ≤ g'.address ∨ g'.finish ≤ g.address := by
  rw [hk.live]
  refine List.pairwise_map.mpr
    ((List.pairwise_map.mp hk.stocked.pairwise).imp_of_mem fun {x y} hx hy hxy => ?_)
  have hfx := (hk.backed x hx).fits
  have hfy := (hk.backed y hy).fits
  obtain ⟨address, length, rfl, -, hax, -⟩ := hk.located hx
  obtain ⟨_, _, harena, -, hay, -⟩ := hk.located hy
  cases harena
  rw [Grant.finish, Grant.finish]
  simp only [Apart, Block.range] at hxy
  omega

theorem Kept.releases (hk : c.Kept arena held) (hi : c.live[i]? = some g) : c.Releases i g := by
  obtain ⟨b, hmem, hperm⟩ := hk.exists_block hi
  obtain ⟨heap, hrun, hk', hbytes⟩ := hk.dealloc hi
  obtain ⟨address, length, rfl, hextent, hat, -⟩ := hk.located hmem
  have hextent' := hk'.extent
  obtain ⟨before, hbefore, hp⟩ := hk.stocked.allocated hextent
  obtain ⟨after, hafter, hp'⟩ := hk'.stocked.allocated hextent'
  refine ⟨heap, before, after, b.size, hrun, hbefore, hafter, ?_, (hk.backed _ hmem).fits,
    fun g' hg' => ?_⟩
  · have hall := (hperm.map Prod.snd).map fun b => ((usable address length).1 + b.payload, b.size)
    rw [List.map_cons, List.map_cons, ← hat] at hall
    exact hp.trans (hall.trans (hp'.symm.cons _))
  · rw [hk.live, List.eraseIdx_map] at hg'
    obtain ⟨x, hx, rfl⟩ := List.mem_map.mp hg'
    exact hbytes x hx

theorem Kept.honored (hk : c.Kept arena held) : c.Honored arena where
  aligned g hg := by
    rw [hk.live] at hg
    obtain ⟨x, hx, rfl⟩ := List.mem_map.mp hg
    obtain ⟨address, length, -, -, hat, hdvd, hfin⟩ := hk.located hx
    have hb := hk.backed x hx
    have hroom : 0 < (usable address length).2 := by
      have hpos := hb.positive.trans_le hb.fits
      rw [Block.finish] at hfin
      omega
    rw [hat]
    exact hb.align.trans (Nat.dvd_add (usable_aligned hroom) hdvd)
  inside g hg := by
    rw [hk.live] at hg
    obtain ⟨x, hx, rfl⟩ := List.mem_map.mp hg
    obtain ⟨address, length, harena, -, hat, -, hfin⟩ := hk.located hx
    have hfits := (hk.backed x hx).fits
    obtain ⟨hlow, hhigh⟩ := usable_inside address length
    refine ⟨address, length, harena, ?_, ?_⟩
    · omega
    · rw [Grant.finish]
      rw [Block.finish] at hfin
      omega
  apart := hk.apart
  releases i g hi := hk.releases hi
  refuses layout h := by
    refine alloc_refused (h.imp_right fun hnone => ?_)
    rw [hk.extent, hnone]
    rfl
  installed hsome := by
    refine install_of_extent fun hnone => hsome ?_
    rw [hk.extent, Option.map_eq_none_iff] at hnone
    exact hnone
  restored hnone h hh hroom := by
    obtain ⟨⟨heap⟩, live⟩ := c
    obtain rfl : heap = some h := hh
    have hheld : held = [] := List.map_eq_nil_iff.mp (hk.live.symm.trans hnone)
    subst hheld
    cases hk.stocked with
    | installed hf hperm =>
      have hbs := hf.eq_whole hperm.eq_nil
      rw [if_neg (Nat.not_lt.mpr hroom)] at hbs
      subst hbs
      obtain ⟨ht, -⟩ := hf.tiled_of_mem (List.mem_singleton.mpr rfl)
      have hlt := ht.capacity_lt
      have hword : h.capacity - headerSize ≤ Word.maximum := by
        rw [Word.maximum]
        omega
      rw [freeBytes, hf.blocks]
      show total [h.capacity - headerSize] = _
      rw [total_eq, List.sum_singleton, if_pos hword]

/-- After every run of a client that starts without an arena, its grants are aligned, inside of the
first arena and apart from each other, and a grant that it gives back is released, and nothing
else. -/
theorem grants_of_run {ops : List Operation} (hv : ∀ op ∈ ops, op.Valid) :
    ∃ c, run {} ops = .ok c ∧ c.Honored (given ops) := by
  obtain ⟨c, held, hrun, hk⟩ := Kept.start.run hv
  exact ⟨c, hrun, hk.honored⟩

/-- An arena that starts in front of an aligned address. Of two grants, one is written to and the
other is given back; the arena that comes after them is not taken. -/
theorem grants_in_skewed_arena : ∃ c,
    run {} [.install 4099 (Array.replicate 300 0), .alloc ⟨24, 16⟩, .alloc ⟨5, 1⟩,
      .install 0 (Array.replicate 64 0), .write 0 2 [0xEF, 0xBE, 0xAD], .dealloc 1] = .ok c ∧
    c.live = [⟨4208, ⟨5, 1⟩⟩] ∧ c.Honored (some (4099, 300)) := by
  obtain ⟨c, hrun, hc⟩ := grants_of_run (show ∀ op ∈ [.install 4099 (Array.replicate 300 0),
    .alloc ⟨24, 16⟩, .alloc ⟨5, 1⟩, .install 0 (Array.replicate 64 0),
    .write 0 2 [0xEF, 0xBE, 0xAD], .dealloc 1], Operation.Valid op by decide +kernel)
  have hlive : (run {} [.install 4099 (Array.replicate 300 0), .alloc ⟨24, 16⟩, .alloc ⟨5, 1⟩,
      .install 0 (Array.replicate 64 0), .write 0 2 [0xEF, 0xBE, 0xAD],
      .dealloc 1]).toOption.any (fun c => c.live = [⟨4208, ⟨5, 1⟩⟩]) = true := by decide +kernel
  rw [hrun, Except.toOption, Option.any_some, decide_eq_true_eq] at hlive
  rw [given, List.findSome?_cons, Operation.arena?, Array.size_replicate] at hc
  exact ⟨c, hrun, hlive, hc⟩

end Client

end KernelCore
