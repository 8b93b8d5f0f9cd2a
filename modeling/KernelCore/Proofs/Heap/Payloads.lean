import Mathlib
import KernelCore.Proofs.Heap.Handles

/-!
# Payloads

A user who keeps a ledger of the blocks that it holds finds the payload of each as long as it was
when it was handed out, apart from the other payloads and from all headers. Nothing but a write into
a payload changes its bytes.
-/
namespace KernelCore.Heap

/-- A block as the ledger has it: its handle, the bytes asked for, and the length of its payload
when it was handed out. -/
structure Holding where
  block : Nat
  requested : Nat
  length : Nat
  deriving DecidableEq, Repr

/-- A heap and the blocks that were handed out and not released yet. -/
structure Ledger where
  heap : Heap
  held : List Holding := []

/-- Offset behind the payload. -/
def Holding.finish (x : Holding) : Nat := x.block + x.length

/-- Where the payload starts, and its length. -/
def Holding.range (x : Holding) : Nat × Nat := (x.block, x.length)

def Block.range (b : Block) : Nat × Nat := (b.payload, b.size)

/-- Between two ranges there is room for a header. -/
def Apart (p q : Nat × Nat) : Prop := p.1 + p.2 + headerSize ≤ q.1 ∨ q.1 + q.2 + headerSize ≤ p.1

/-- The payload has the bytes asked for, and a few more at most. -/
def Holding.Fits (x : Holding) : Prop :=
  x.requested ≤ x.length ∧ x.length < Word.roundUp x.requested heapAlignment + 48

namespace Ledger

/-- A user with a new heap. -/
def start (base : Nat) (arena : Array UInt8) : Ledger := { heap := .ofArena base arena }

/-- A step of a user; blocks that it holds are named by their index. -/
def perform (l : Ledger) : Session.Operation → Except Fault Ledger
  | .allocate size => do
    match ← l.heap.allocate size with
    | (.ok (some block), heap) =>
      let length := ((← heap.payload block).map List.length).getD 0
      return ⟨heap, ⟨block, size, length⟩ :: l.held⟩
    | (_, heap) => return { l with heap }
  | .free i =>
    match l.held[i]? with
    | none => return l
    | some x => return ⟨← l.heap.free x.block, l.held.eraseIdx i⟩
  | .write i start bytes =>
    match l.held[i]? with
    | none => return l
    | some x =>
      return { l with heap := (← l.heap.writePayload x.block start bytes).getD l.heap }

def run (l : Ledger) (ops : List Session.Operation) : Except Fault Ledger := ops.foldlM perform l

/-- The payloads lie apart in the arena and outside of all headers, and each is read back with the
length that it had at first. -/
structure Intact (l : Ledger) : Prop where
  apart : l.held.Pairwise fun x y => x.finish ≤ y.block ∨ y.finish ≤ x.block
  inside : ∀ x ∈ l.held, x.finish ≤ l.heap.arena.size
  headers : ∃ headers, l.heap.chain = .ok headers ∧ ∀ x ∈ l.held, ∀ y ∈ headers,
    y.1 + headerSize ≤ x.block ∨ x.finish ≤ y.1
  payload : ∀ x ∈ l.held, ∃ bytes, l.heap.payload x.block = .ok (some bytes) ∧
    bytes.length = x.length
  fits : ∀ x ∈ l.held, x.Fits

/-- The payloads that are held before and after a step and are not written by it have the same
bytes. -/
def Preserves (l : Ledger) (op : Session.Operation) (l' : Ledger) : Prop :=
  ∀ x ∈ l.held, x ∈ l'.held →
    (∀ i start bytes, op = .write i start bytes → l.held[i]? ≠ some x) →
      l'.heap.payload x.block = l.heap.payload x.block

/-- The blocks that are held are the allocated ones. -/
structure Kept (l : Ledger) (bs : List Block) : Prop where
  formatted : l.heap.Formatted bs
  held : (l.held.map Holding.range).Perm ((bs.filter (!·.free)).map Block.range)
  fits : ∀ x ∈ l.held, x.Fits

/-- A step has a result, and it does what steps may do. -/
def Steps (l : Ledger) (op : Session.Operation) : Prop :=
  ∃ l' bs', l.perform op = .ok l' ∧ l'.Kept bs' ∧ l.Preserves op l'

end Ledger

variable {b c : Block} {bs bs' xs ys : List Block} {h h' : Heap} {l l' : Ledger} {x y : Holding}

theorem Apart.symm {p q : Nat × Nat} (hpq : Apart p q) : Apart q p := Or.symm hpq

theorem length_slice {a : Array UInt8} {offset length : Nat} (hfits : offset + length ≤ a.size) :
    (Bytes.slice a offset length).length = length := by
  simp only [Bytes.slice, Array.length_toList, Array.size_extract]
  omega

theorem Tiled.payload (ht : h.Tiled bs) (hb : b ∈ bs) (hfree : b.free = false) :
    h.payload b.payload = .ok (some (Bytes.slice h.arena b.payload b.size)) := by
  rw [Heap.payload, ht.payloadSize hb hfree]
  rfl

theorem Tiled.length_payload (ht : h.Tiled bs) (hb : b ∈ bs) :
    (Bytes.slice h.arena b.payload b.size).length = b.size := by
  obtain ⟨-, hfin, hcap⟩ := ht.bounds hb
  have hle := h.capacity_le
  exact length_slice (by omega)

theorem Tiled.payload_granted {n : Nat} (ht : h.Tiled (xs ++ b.carve n ++ ys))
    (hfree : b.free = true) :
    ∃ bytes, h.payload b.payload = .ok (some bytes) ∧ bytes.length = (b.granted n).size := by
  obtain ⟨hmem, hgranted⟩ :=
    List.mem_filter.mp ((taken_carve hfree n xs ys).mem_iff.mpr (List.mem_cons_self ..))
  rw [← Block.payload_granted n b]
  exact ⟨_, ht.payload hmem (by simpa using hgranted), ht.length_payload hmem⟩

theorem Tiled.payload_congr (ht : h.Tiled bs) (ht' : h'.Tiled bs') (hb : b ∈ bs) (hb' : b ∈ bs')
    (hfree : b.free = false)
    (hbytes : ∀ i, b.offset ≤ i → i < b.finish → h'.arena[i]? = h.arena[i]?) :
    h'.payload b.payload = h.payload b.payload := by
  obtain ⟨hp, hfin, -⟩ := ht.bounds hb
  rw [ht.payload hb hfree, ht'.payload hb' hfree]
  congr 2
  exact Bytes.slice_congr fun i hi hi' => hbytes i (by omega) (by omega)

theorem Tiled.payload_same (ht : h.Tiled bs) (ht' : h'.Tiled bs') (hb : b ∈ bs) (hb' : b ∈ bs')
    (hfree : b.free = false) (hc : c ∈ bs) (hne : b ≠ c)
    (hs : SameOutside c.offset c.finish h h') : h'.payload b.payload = h.payload b.payload := by
  refine ht.payload_congr ht' hb hb' hfree fun i hi hi' => hs.bytes i ?_
  have hapart := ht.laid.apart hb hc hne
  omega

theorem Laid.pairwise {start finish : Nat} (hl : Laid start bs finish) :
    bs.Pairwise fun b c => b.finish + headerSize ≤ c.payload := by
  induction bs generalizing start with
  | nil => exact .nil
  | cons b bs ih =>
    obtain ⟨-, -, hl⟩ := hl
    refine .cons (fun c hc => ?_) (ih hl)
    obtain ⟨ho, hp, -⟩ := hl.bounds hc
    omega

theorem Laid.release {start finish : Nat} (hl : Laid start (xs ++ b :: ys) finish) :
    Laid start (xs ++ { b with free := true } :: ys) finish := by
  obtain ⟨middle, hx, hp, hs, hy⟩ := laid_append.mp hl
  exact laid_append.mpr ⟨middle, hx, hp, hs, hy⟩

/-- Merging is about free blocks only, so an allocated one was there before it. -/
theorem mem_of_mem_merge (hb : b ∈ merge bs) (hfree : b.free = false) : b ∈ bs := by
  have hmem : b ∈ (merge bs).filter (!·.free) := List.mem_filter.mpr ⟨hb, by simp [hfree]⟩
  rw [filter_merge] at hmem
  exact List.mem_of_mem_filter hmem

theorem Formatted.tiled_of_mem (hf : h.Formatted bs) (hb : b ∈ bs) :
    h.Tiled bs ∧ Coalesced bs := by
  cases hf with
  | tiled ht hc => exact ⟨ht, hc⟩
  | short _ => cases hb

theorem Formatted.pairwise (hf : h.Formatted bs) :
    bs.Pairwise fun b c => b.finish + headerSize ≤ c.payload := by
  cases hf with
  | tiled ht _ => exact ht.laid.pairwise
  | short _ => exact .nil

namespace Ledger

theorem Kept.exists_block (hk : l.Kept bs) (hx : x ∈ l.held) :
    ∃ b ∈ bs, b.free = false ∧ b.payload = x.block ∧ b.size = x.length := by
  have hmem := hk.held.mem_iff.mp (List.mem_map_of_mem hx)
  obtain ⟨b, hb, heq⟩ := List.mem_map.mp hmem
  obtain ⟨hb, hfree⟩ := List.mem_filter.mp hb
  exact ⟨b, hb, by simpa using hfree, congrArg Prod.fst heq, congrArg Prod.snd heq⟩

/-- What is held before and after a step is the same block. -/
theorem Kept.exists_common (hk : l.Kept bs) (hk' : l'.Kept bs') (hx : x ∈ l.held)
    (hx' : x ∈ l'.held) :
    ∃ b ∈ bs, b ∈ bs' ∧ b.free = false ∧ b.payload = x.block ∧ b.size = x.length := by
  obtain ⟨b, hb, hfree, hp, hs⟩ := hk.exists_block hx
  obtain ⟨c, hc, hfree', hp', hs'⟩ := hk'.exists_block hx'
  obtain rfl : b = c := by
    cases b
    cases c
    simp_all
  exact ⟨b, hb, hc, hfree, hp, hs⟩

theorem Kept.pairwise (hk : l.Kept bs) : l.held.Pairwise fun x y => Apart x.range y.range := by
  have hblocks : ((bs.filter (!·.free)).map Block.range).Pairwise Apart :=
    List.pairwise_map.mpr ((hk.formatted.pairwise.filter _).imp fun hle => .inl hle)
  exact List.pairwise_map.mp ((hk.held.pairwise_iff Apart.symm).mpr hblocks)

theorem Kept.eq_of_block (hk : l.Kept bs) (hx : x ∈ l.held) (hy : y ∈ l.held)
    (heq : x.block = y.block) : x = y := by
  have hnodup : (l.held.map Holding.block).Nodup := by
    refine List.pairwise_map.mpr (hk.pairwise.imp fun hxy heq => ?_)
    simp only [Apart, Holding.range, headerSize] at hxy
    omega
  exact List.inj_on_of_nodup_map hnodup hx hy heq

theorem Kept.intact (hk : l.Kept bs) : l.Intact where
  apart := hk.pairwise.imp fun hxy => hxy.imp Nat.le_of_add_right_le Nat.le_of_add_right_le
  inside x hx := by
    obtain ⟨b, hb, -, hp, hs⟩ := hk.exists_block hx
    obtain ⟨ht, -⟩ := hk.formatted.tiled_of_mem hb
    obtain ⟨-, hfin, hcap⟩ := ht.bounds hb
    have hle := l.heap.capacity_le
    rw [Holding.finish]
    omega
  headers := by
    cases hk.formatted with
    | short hroom => exact ⟨[], chain_short hroom, fun _ _ _ hy => by cases hy⟩
    | tiled ht _ =>
      refine ⟨_, ht.chain, fun x hx y hy => ?_⟩
      obtain ⟨c, hc, rfl⟩ := List.mem_map.mp hy
      obtain ⟨b, hb, -, hp, hs⟩ := hk.exists_block hx
      obtain ⟨hpb, hfb, -⟩ := ht.bounds hb
      obtain ⟨hpc, hfc, -⟩ := ht.bounds hc
      show c.offset + headerSize ≤ x.block ∨ x.block + x.length ≤ c.offset
      by_cases hbc : b = c
      · subst hbc
        omega
      · have hapart := ht.laid.apart hb hc hbc
        omega
  payload x hx := by
    obtain ⟨b, hb, hfree, hp, hs⟩ := hk.exists_block hx
    obtain ⟨ht, -⟩ := hk.formatted.tiled_of_mem hb
    rw [← hp]
    exact ⟨_, ht.payload hb hfree, (ht.length_payload hb).trans hs⟩
  fits := hk.fits

theorem Kept.steps_of_same {op : Session.Operation} (hk : l.Kept bs)
    (hp : l.perform op = .ok l) : l.Steps op :=
  ⟨l, bs, hp, hk, fun _ _ _ _ => rfl⟩

theorem Kept.grant {size : Nat} (hk : l.Kept (xs ++ b :: ys))
    (hserves : b.serves (Word.roundUp size heapAlignment) = true)
    (ht : h.Tiled (xs ++ b.carve (Word.roundUp size heapAlignment) ++ ys)) :
    Kept ⟨h, ⟨b.payload, size, (b.granted (Word.roundUp size heapAlignment)).size⟩ :: l.held⟩
      (xs ++ b.carve (Word.roundUp size heapAlignment) ++ ys) := by
  obtain ⟨hfree, hle⟩ := Block.serves_iff.mp hserves
  obtain ⟨-, hc⟩ := hk.formatted.tiled_of_mem (b := b) (by simp)
  obtain ⟨hlow, hhigh⟩ := Block.size_granted hle
  refine ⟨.tiled ht (hc.carve hfree _), ?_, List.forall_mem_cons.mpr ⟨⟨?_, hhigh⟩, hk.fits⟩⟩
  · have hp := (taken_carve hfree (Word.roundUp size heapAlignment) xs ys).map Block.range
    rw [List.map_cons, Block.range, Block.payload_granted] at hp
    exact (hk.held.cons _).trans hp.symm
  · exact (Word.le_roundUp (by simp [heapAlignment])).trans hlow

theorem Kept.release {i : Nat} (hk : l.Kept (xs ++ b :: ys)) (hi : l.held[i]? = some x)
    (hfree : b.free = false) (hrange : b.range = x.range)
    (ht : h.Tiled (merge (xs ++ { b with free := true } :: ys))) :
    Kept ⟨h, l.held.eraseIdx i⟩ (merge (xs ++ { b with free := true } :: ys)) := by
  obtain ⟨hlt, hget⟩ := List.getElem?_eq_some_iff.mp hi
  refine ⟨.tiled ht (coalesced_merge _), ?_, fun y hy => hk.fits y (List.mem_of_mem_eraseIdx hy)⟩
  have hfront := ((List.getElem_cons_eraseIdx_perm hlt).map Holding.range).trans
    (hk.held.trans ((taken_release hfree).map Block.range))
  rw [hget, List.map_cons, List.map_cons, hrange] at hfront
  exact hfront.cons_inv

theorem Kept.steps_allocate (hk : l.Kept bs) (size : Nat) : l.Steps (.allocate size) := by
  cases hk.formatted with
  | short hroom =>
    refine hk.steps_of_same ?_
    simp only [perform, Heap.allocate, chain_short hroom, bind, Except.bind, pure, Except.pure]
    split_ifs <;> rfl
  | tiled ht _ =>
    by_cases hsize : size = 0
    · refine hk.steps_of_same ?_
      simp only [perform, Heap.allocate, if_pos hsize, bind, Except.bind, pure, Except.pure]
    · obtain ⟨r, hr, hserved⟩ := ht.allocate hsize
      cases hserved with
      | none _ =>
        refine hk.steps_of_same ?_
        simp only [perform, hr, bind, Except.bind, pure, Except.pure]
      | @some xs ys b h' split _ hserves ht' hs =>
        subst split
        obtain ⟨hfree, -⟩ := Block.serves_iff.mp hserves
        obtain ⟨bytes, hpay, hlen⟩ := ht'.payload_granted hfree
        have hk' := hk.grant hserves ht'
        refine ⟨_, _, ?_, hk', fun x hx hx' _ => ?_⟩
        · simp only [perform, hr, hpay, bind, Except.bind, pure, Except.pure, Option.map_some,
            Option.getD_some, hlen]
        · obtain ⟨c, hc, hc', hcfree, hp, -⟩ := hk.exists_common hk' hx hx'
          have hne := Block.ne_of_free hcfree hfree
          exact hp ▸ ht.payload_same ht' hc hc' hcfree (by simp) hne hs

theorem Kept.steps_free (hk : l.Kept bs) (i : Nat) : l.Steps (.free i) := by
  cases hi : l.held[i]? with
  | none =>
    refine hk.steps_of_same ?_
    simp only [perform, hi, pure, Except.pure]
  | some y =>
    obtain ⟨b, hb, hfree, hp, hs⟩ := hk.exists_block (List.mem_of_getElem? hi)
    obtain ⟨ht, -⟩ := hk.formatted.tiled_of_mem hb
    obtain ⟨xs, ys, rfl⟩ := List.append_of_mem hb
    obtain ⟨h', hrun, ht', htaken⟩ := ht.free hfree
    rw [hp] at hrun
    have hk' := hk.release hi hfree (Prod.ext hp hs) ht'
    refine ⟨_, _, ?_, hk', fun x hx hx' _ => ?_⟩
    · simp only [perform, hi, hrun, bind, Except.bind, pure, Except.pure]
    · obtain ⟨c, hc, hc', hcfree, hpc, -⟩ := hk.exists_common hk' hx hx'
      rw [← hpc]
      exact ht.payload_congr ht' hc hc' hcfree fun _ hj hj' =>
        htaken.bytes_of_mem ht.laid.release (mem_of_mem_merge hc' hcfree) hcfree hj hj'

theorem Kept.steps_write (hk : l.Kept bs) (i start : Nat) (bytes : List UInt8) :
    l.Steps (.write i start bytes) := by
  cases hi : l.held[i]? with
  | none =>
    refine hk.steps_of_same ?_
    simp only [perform, hi, pure, Except.pure]
  | some y =>
    have hy := List.mem_of_getElem? hi
    obtain ⟨b, hb, hfree, hp, hs⟩ := hk.exists_block hy
    obtain ⟨ht, hc⟩ := hk.formatted.tiled_of_mem hb
    obtain ⟨h', hw, ht', hsame⟩ := ht.writePayload hb hfree start bytes
    rw [hp] at hw
    have hk' : Kept ⟨h'.getD l.heap, l.held⟩ bs := ⟨.tiled ht' hc, hk.held, hk.fits⟩
    refine ⟨_, bs, ?_, hk', fun x hx hx' hother => ?_⟩
    · simp only [perform, hi, hw, bind, Except.bind, pure, Except.pure]
    · obtain ⟨c, hc, hc', hcfree, hpc, -⟩ := hk.exists_common hk' hx hx'
      have hne : c ≠ b := by
        rintro rfl
        have hxy := hk.eq_of_block hx hy (hpc.symm.trans hp)
        exact hother i start bytes rfl (hxy ▸ hi)
      exact hpc ▸ ht.payload_same ht' hc hc' hcfree hb hne hsame

theorem Kept.steps (hk : l.Kept bs) (op : Session.Operation) : l.Steps op := by
  cases op with
  | allocate size => exact hk.steps_allocate size
  | free i => exact hk.steps_free i
  | write i start bytes => exact hk.steps_write i start bytes

theorem Kept.run (hk : l.Kept bs) (ops : List Session.Operation) :
    ∃ l' bs', l.run ops = .ok l' ∧ l'.Kept bs' := by
  induction ops generalizing l bs with
  | nil => exact ⟨l, bs, rfl, hk⟩
  | cons op ops ih =>
    obtain ⟨l₁, bs₁, hp, hk₁, -⟩ := hk.steps op
    obtain ⟨l', bs', hr, hk'⟩ := ih hk₁
    refine ⟨l', bs', ?_, hk'⟩
    simp only [Ledger.run, List.foldlM_cons, hp, bind, Except.bind]
    exact hr

theorem kept_start (base : Nat) {arena : Array UInt8} (hmax : arena.size < 2 ^ 63) :
    ∃ bs, (start base arena).Kept bs := by
  obtain ⟨bs, hf, hfree⟩ := formatted_ofArena base hmax
  refine ⟨bs, hf, ?_, fun x hx => by cases hx⟩
  rw [hfree]
  exact .refl _

/-- After every run of a user on a new heap, the payloads of the blocks that it holds lie apart
from each other and from all headers and have the length that they had at first, and the next step
has a result and leaves the bytes of all payloads that it does not write. -/
theorem payloads_of_run (base : Nat) {arena : Array UInt8} (hmax : arena.size < 2 ^ 63)
    (ops : List Session.Operation) :
    ∃ l, (start base arena).run ops = .ok l ∧ l.Intact ∧
      ∀ op, ∃ l', l.perform op = .ok l' ∧ l.Preserves op l' := by
  obtain ⟨bs, hk⟩ := kept_start base hmax
  obtain ⟨l, bs', hrun, hk'⟩ := hk.run ops
  refine ⟨l, hrun, hk'.intact, fun op => ?_⟩
  obtain ⟨l', -, hp, -, hsame⟩ := hk'.steps op
  exact ⟨l', hp, hsame⟩

/-- A request of 20 bytes gets a payload of 32. What is written there stays when the block in front
is released. -/
theorem payloads_of_two_blocks : ∃ l l',
    (start 0 (Array.replicate 160 0)).run
      [.allocate 5, .allocate 20, .write 0 3 [0xEF, 0xBE]] = .ok l ∧ l.Intact ∧
      l.held = [⟨80, 20, 32⟩, ⟨32, 5, 16⟩] ∧ l.perform (.free 1) = .ok l' ∧
      l'.held = [⟨80, 20, 32⟩] ∧ l'.heap.payload 80 = l.heap.payload 80 := by
  have hheld : ((start 0 (Array.replicate 160 0)).run
      [.allocate 5, .allocate 20, .write 0 3 [0xEF, 0xBE]]).toOption.any (fun l =>
        l.held = [⟨80, 20, 32⟩, ⟨32, 5, 16⟩] ∧
          (l.perform (.free 1)).toOption.any fun l' => l'.held = [⟨80, 20, 32⟩]) = true := by
    decide +kernel
  obtain ⟨l, hrun, hintact, hstep⟩ :=
    payloads_of_run 0 (show (Array.replicate 160 (0 : UInt8)).size < 2 ^ 63 by simp)
      [.allocate 5, .allocate 20, .write 0 3 [0xEF, 0xBE]]
  obtain ⟨l', hp, hsame⟩ := hstep (.free 1)
  rw [hrun, Except.toOption, Option.any_some, decide_eq_true_eq, hp, Except.toOption,
    Option.any_some, decide_eq_true_eq] at hheld
  obtain ⟨hheld, hheld'⟩ := hheld
  refine ⟨l, l', hrun, hintact, hheld, hp, hheld', ?_⟩
  exact hsame ⟨80, 20, 32⟩ (by simp [hheld]) (by simp [hheld']) fun _ _ _ hop => by cases hop

end Ledger

end KernelCore.Heap
