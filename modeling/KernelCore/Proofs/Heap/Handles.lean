import Mathlib
import KernelCore.Proofs.Heap.Run

/-!
# Handles that name no allocated block

Payloads hold any bytes, and among them headers that the heap did not write. Releasing a handle
behind such a header changes no block and no bytes of the others, as long as the header does not
reach from a payload into the header of the next block.
-/
namespace KernelCore

namespace Bytes

theorem drop_slice (a : Array UInt8) (offset length n : Nat) :
    (slice a offset length).drop n = slice a (offset + n) (length - n) := by
  refine List.ext_getElem? fun i => ?_
  rw [List.getElem?_drop, getElem?_slice, getElem?_slice, Nat.add_assoc]
  by_cases hi : n + i < length
  · rw [if_pos hi, if_pos (by omega)]
  · rw [if_neg hi, if_neg (by omega)]

theorem take_slice (a : Array UInt8) (offset length n : Nat) (hn : n ≤ length) :
    (slice a offset length).take n = slice a offset n := by
  refine List.ext_getElem? fun i => ?_
  rw [List.getElem?_take, getElem?_slice, getElem?_slice]
  by_cases hi : i < n
  · rw [if_pos hi, if_pos hi, if_pos (by omega)]
  · rw [if_neg hi, if_neg hi]

end Bytes

namespace Heap

/-- Whether a handle is the one of an allocated block. -/
def Names (bs : List Block) (handle : Nat) : Prop := ∃ b ∈ bs, b.free = false ∧ b.payload = handle

/-- Whether the header in front of a handle would start in a block. -/
def Block.Covers (b : Block) (handle : Nat) : Prop :=
  b.offset + headerSize ≤ handle ∧ handle < b.finish + headerSize

/-- The bytes in front of a handle reach into the header of a block, and the heap takes them for
the header of an allocated one. -/
structure Straddles (h : Heap) (bs : List Block) (handle : Nat) : Prop where
  across : ∃ b ∈ bs, b.offset < handle ∧ handle < b.payload
  accepted : ∃ x, h.find handle = .ok (some x) ∧ x.2.free = false

/-- What a user does who may pass any handle. -/
inductive Request where
  | allocate (size : Nat)
  | free (handle : Nat)
  | write (handle start : Nat) (bytes : List UInt8)

def serve (h : Heap) : Request → Except Fault Heap
  | .allocate size => return (← h.allocate size).2
  | .free handle => h.free handle
  | .write handle start bytes => return (← h.writePayload handle start bytes).getD h

/-- Payloads of allocated blocks may be written, and all handles may be released but those behind a
header that straddles. -/
def Allowed (h : Heap) (bs : List Block) : Request → Prop
  | .allocate _ => True
  | .free handle => ¬ h.Straddles bs handle
  | .write handle _ _ => Names bs handle

/-- The heaps that allowed requests lead to. -/
inductive Reachable (start : Heap) : Heap → Prop
  | start : Reachable start start
  | step {h h' : Heap} {bs : List Block} {r : Request} (before : Reachable start h)
      (listed : h.blocks = .ok bs) (allowed : h.Allowed bs r) (served : h.serve r = .ok h') :
      Reachable start h'

variable {start finish handle n x : Nat} {b c : Block} {bs : List Block} {h h' : Heap}

theorem Laid.exists_of_lt (hl : Laid start bs finish) (hs : start ≤ x) (hf : x < finish) :
    ∃ b ∈ bs, b.offset ≤ x ∧ x < b.finish := by
  induction bs generalizing start with
  | nil =>
    have heq : start = finish := hl
    omega
  | cons b bs ih =>
    obtain ⟨hp, -, hl⟩ := hl
    by_cases hb : x < b.finish
    · refine ⟨b, List.mem_cons_self .., ?_, hb⟩
      rw [Block.offset, hp]
      omega
    · obtain ⟨c, hc, hx⟩ := ih hl (by omega)
      exact ⟨c, List.mem_cons_of_mem _ hc, hx⟩

theorem Laid.apart (hl : Laid start bs finish) (hb : b ∈ bs) (hc : c ∈ bs) (hne : b ≠ c) :
    b.finish ≤ c.offset ∨ c.finish ≤ b.offset := by
  induction bs generalizing start with
  | nil => cases hb
  | cons d ds ih =>
    have hd := hl.bounds (List.mem_cons_self ..)
    obtain ⟨-, -, hl⟩ := hl
    rcases List.mem_cons.mp hb with rfl | hb' <;> rcases List.mem_cons.mp hc with rfl | hc'
    · exact absurd rfl hne
    · exact .inl (hl.bounds hc').1
    · exact .inr (hl.bounds hb').1
    · exact ih hl hb' hc'

theorem SameTaken.bytes_of_mem (hs : SameTaken bs h h') (hl : Laid start bs finish) (hb : b ∈ bs)
    (hfree : b.free = false) (ho : b.offset ≤ x) (hf : x < b.finish) :
    h'.arena[x]? = h.arena[x]? := by
  refine hs.bytes x fun c hc hcfree => ?_
  have hapart := hl.apart hb hc (Block.ne_of_free hfree hcfree)
  omega

theorem absorb_of_coalesced (hc : Coalesced (b :: bs)) : absorb b bs = b :: bs := by
  induction bs generalizing b with
  | nil => rfl
  | cons c cs ih =>
    obtain ⟨hbc, hcs⟩ := List.isChain_cons_cons.mp hc
    rw [absorb, if_neg (by rwa [Bool.and_eq_true]), ih hcs]

theorem Coalesced.merge (hc : Coalesced bs) : merge bs = bs := by
  cases bs with
  | nil => rfl
  | cons b bs => exact absorb_of_coalesced hc

/-- The link of a header that the heap wrote is no tag: it is a multiple of the alignment, or all
its bits are set. -/
theorem Tiled.tag_ne (ht : h.Tiled bs) (hb : b ∈ bs) :
    (Header.ofBytes h.capacity x (h.headerBytes (b.offset + 16))).tag ≠ tag := by
  obtain ⟨hp, hfin, -⟩ := ht.bounds hb
  obtain ⟨hoff, hsize⟩ := ht.laid.aligned rfl hb
  have hlink : (h.headerBytes (b.offset + 16)).take 4 =
      Bytes.ofNat 4 ((b.header h.capacity).next.getD noLink) := by
    have hw : ((h.headerBytes b.offset).drop 16).take 4 =
        Bytes.ofNat 4 ((b.header h.capacity).next.getD noLink) := by
      rw [ht.written b hb]
      simp [Header.toBytes, Bytes.ofNat]
    rw [headerBytes, Bytes.drop_slice, Bytes.take_slice _ _ _ _ (by decide)] at hw
    rwa [headerBytes, Bytes.take_slice _ _ _ _ (by decide)]
  rw [Header.ofBytes]
  dsimp only
  rw [hlink, Bytes.toNat_ofNat, Block.header]
  dsimp only
  split
  · rw [heapAlignment] at hoff hsize
    rw [Option.getD_some, tag, hfin, hp, headerSize]
    omega
  · decide

theorem find_cases (h : Heap) (handle : Nat) : h.find handle = .ok none ∨
    ∃ header, h.find handle = .ok (some (handle - headerSize, header)) ∧
      headerSize ≤ handle ∧ handle ≤ h.capacity ∧ (handle - headerSize) % heapAlignment = 0 ∧
      header = .ofBytes h.capacity (handle - headerSize)
        (h.headerBytes (handle - headerSize)) ∧ header.tag = tag := by
  by_cases hin : handle < headerSize ∨ (handle - headerSize) % heapAlignment ≠ 0 ∨
      h.capacity < handle
  · left
    simp [find, if_pos hin, pure, Except.pure]
  · have hroom : handle - headerSize + headerSize ≤ h.capacity := by omega
    simp only [find, if_neg hin, readHeader_eq hroom, bind, Except.bind, pure, Except.pure]
    split
    · next hok => exact .inr ⟨_, rfl, by omega, by omega, by omega, rfl, hok.1⟩
    · exact .inl rfl

/-- A header that is taken for the one of an allocated block and is none lies in a payload. -/
theorem Tiled.free_cases (ht : h.Tiled bs) (hn : ¬ Names bs handle)
    (hs : ¬ h.Straddles bs handle) : h.free handle = .ok h ∨
      ∃ header, h.find handle = .ok (some (handle - headerSize, header)) ∧ header.free = false ∧
        ∃ b ∈ bs, b.payload + headerSize ≤ handle ∧ handle ≤ b.finish := by
  rcases h.find_cases handle with hnone | ⟨header, hfind, hlow, hcap, hal, hread, htag⟩
  · left
    simp only [Heap.free, hnone, bind, Except.bind, pure, Except.pure]
  cases hfree : header.free with
  | true =>
    left
    simp only [Heap.free, hfind, hfree, bind, Except.bind, pure, Except.pure, if_true]
  | false =>
    refine .inr ⟨header, hfind, hfree, ?_⟩
    obtain ⟨b, hb, hle, hlt⟩ := ht.laid.exists_of_lt (Nat.zero_le (handle - headerSize))
      (by rw [headerSize] at hlow ⊢; omega)
    obtain ⟨hp, hfin, -⟩ := ht.bounds hb
    obtain ⟨hoff, hsize⟩ := ht.laid.aligned rfl hb
    -- the header starts with the one of the block, in the middle of it or behind it
    have hcases : handle - headerSize = b.offset ∨ handle - headerSize = b.offset + 16 ∨
        b.payload ≤ handle - headerSize := by
      rw [heapAlignment] at hal hoff
      rw [headerSize] at *
      omega
    rcases hcases with heq | heq | hge
    · have hpay : b.payload = handle := by omega
      have hbf : b.free = false := by
        rw [← hpay, ht.find hb] at hfind
        cases hfind
        exact hfree
      exact absurd ⟨b, hb, hbf, hpay⟩ hn
    · refine absurd ?_ (ht.tag_ne (x := handle - headerSize) hb)
      rw [← heq, ← hread, htag]
    · refine ⟨b, hb, by omega, Nat.le_of_not_lt fun hgt => hs ⟨?_, _, hfind, hfree⟩⟩
      -- the block ends inside of the header, so another one starts there
      obtain ⟨c, hc, hcle, hclt⟩ := ht.laid.exists_of_lt (Nat.zero_le b.finish) (by omega)
      have hcp := (ht.bounds hc).1
      have hne : b ≠ c := by
        rintro rfl
        omega
      have hapart := ht.laid.apart hb hc hne
      exact ⟨c, hc, by omega, by omega⟩

/-- Releasing such a header changes no block, and it changes bytes in one block at most. -/
theorem Tiled.free_forged (ht : h.Tiled bs) (hc : Coalesced bs) (hn : ¬ Names bs handle)
    (hs : ¬ h.Straddles bs handle) : ∃ h', h.free handle = .ok h' ∧ h'.Tiled bs ∧
      ∀ b ∈ bs, b.free = false → ¬ b.Covers handle → ∀ x, b.offset ≤ x → x < b.finish →
        h'.arena[x]? = h.arena[x]? := by
  rcases ht.free_cases hn hs with hsame | ⟨header, hfind, hfree, b, hb, hlo, hhi⟩
  · exact ⟨h, hsame, ht, fun _ _ _ _ _ _ _ => rfl⟩
  obtain ⟨hp, hfin, hcap⟩ := ht.bounds hb
  have hroom : handle - headerSize + headerSize ≤ h.capacity := by omega
  have hw := writeHeader_eq hroom { header with free := true }
  have hout := sameOutside_withHeader hroom { header with free := true }
  have hinside : handle - headerSize - b.payload +
      ({ header with free := true } : Header).toBytes.length ≤ b.size := by
    rw [Header.length_toBytes]
    omega
  have hat : b.payload + (handle - headerSize - b.payload) = handle - headerSize := by omega
  obtain ⟨ht₁, -⟩ := ht.overwrite hb hinside
  rw [hat] at ht₁
  obtain ⟨h', hrun, ht', htaken⟩ := Tiled.coalesce ht₁
  rw [hc.merge] at ht'
  refine ⟨h', ?_, ht', fun c hcm hcf hcov x hx hx' => ?_⟩
  · simp only [Heap.free, hfind, hfree, hw, bind, Except.bind, if_false, Bool.false_eq_true]
    exact hrun
  · have hne : b ≠ c := by
      rintro rfl
      exact hcov ⟨by omega, hhi.trans_lt (Nat.lt_add_of_pos_right (by decide))⟩
    have hapart := ht.laid.apart hb hcm hne
    exact (htaken.bytes_of_mem ht.laid hcm hcf hx hx').trans (hout.bytes x (by omega))

/-- The blocks of a heap that an owner may use: they tile the arena with no free neighbours, or
the arena is too short for a block. -/
inductive Formatted (h : Heap) : List Block → Prop
  | tiled {bs : List Block} (tiled : h.Tiled bs) (coalesced : Coalesced bs) : Formatted h bs
  | short (room : h.capacity < headerSize) : Formatted h []

theorem chain_short (hroom : h.capacity < headerSize) : h.chain = .ok [] := by
  rw [chain, first, if_neg (Nat.not_le.mpr hroom)]
  cases h.capacity <;> rfl

theorem find_short (hroom : h.capacity < headerSize) (handle : Nat) :
    h.find handle = .ok none := by
  rcases h.find_cases handle with hnone | ⟨header, -, hlow, hcap, -⟩
  · exact hnone
  · omega

theorem Formatted.blocks (hf : h.Formatted bs) : h.blocks = .ok bs := by
  cases hf with
  | tiled ht _ => exact ht.blocks
  | short hroom =>
    rw [Heap.blocks, chain_short hroom]
    rfl

theorem formatted_ofArena (base : Nat) {arena : Array UInt8} (hmax : arena.size < 2 ^ 63) :
    ∃ bs, (ofArena base arena).Formatted bs ∧ bs.filter (!·.free) = [] := by
  by_cases hmin : headerSize ≤ arena.size
  · exact ⟨_, .tiled (tiled_ofArena base hmin hmax) (List.isChain_singleton _), rfl⟩
  · have hle := Word.roundDown_le arena.size heapAlignment
    have hshort : Word.roundDown arena.size heapAlignment < headerSize := by omega
    refine ⟨[], .short ?_, rfl⟩
    rw [ofArena, if_pos hshort]
    exact hshort

theorem Served.formatted {r : Except MemoryError (Option Nat) × Heap} (ht : h.Tiled bs)
    (hc : Coalesced bs) (hs : Served h bs n r) : ∃ bs', r.2.Formatted bs' := by
  cases hs with
  | none _ => exact ⟨bs, .tiled ht hc⟩
  | some split _ hserves ht' _ =>
    rw [split] at hc
    exact ⟨_, .tiled ht' (hc.carve (Block.serves_iff.mp hserves).1 _)⟩

theorem serve_short (hroom : h.capacity < headerSize) (r : Request) : h.serve r = .ok h := by
  have hfind := find_short hroom
  cases r with
  | allocate size =>
    simp only [serve, Heap.allocate, chain_short hroom, bind, Except.bind, pure, Except.pure]
    split_ifs <;> rfl
  | free handle => simp only [serve, Heap.free, hfind, bind, Except.bind, pure, Except.pure]
  | write handle start bytes =>
    simp only [serve, writePayload, payloadSize, hfind, bind, Except.bind, pure, Except.pure]
    rfl

theorem Formatted.serve {r : Request} (hf : h.Formatted bs) (ha : h.Allowed bs r)
    (hs : h.serve r = .ok h') : ∃ bs', h'.Formatted bs' := by
  cases hf with
  | short hroom =>
    rw [serve_short hroom] at hs
    cases hs
    exact ⟨[], .short hroom⟩
  | tiled ht hc =>
    cases r with
    | allocate size =>
      by_cases hsize : size = 0
      · simp only [Heap.serve, Heap.allocate, if_pos hsize, bind, Except.bind, pure,
          Except.pure] at hs
        cases hs
        exact ⟨bs, .tiled ht hc⟩
      · obtain ⟨r, hr, hserved⟩ := ht.allocate hsize
        simp only [Heap.serve, hr, bind, Except.bind, pure, Except.pure] at hs
        cases hs
        exact hserved.formatted ht hc
    | free handle =>
      by_cases hn : Names bs handle
      · obtain ⟨b, hb, hfree, rfl⟩ := hn
        obtain ⟨xs, ys, rfl⟩ := List.append_of_mem hb
        obtain ⟨h₁, hrun, ht₁, -⟩ := ht.free hfree
        rw [Heap.serve, hrun] at hs
        cases hs
        exact ⟨_, .tiled ht₁ (coalesced_merge _)⟩
      · obtain ⟨h₁, hrun, ht₁, -⟩ := ht.free_forged hc hn ha
        rw [Heap.serve, hrun] at hs
        cases hs
        exact ⟨bs, .tiled ht₁ hc⟩
    | write handle start bytes =>
      obtain ⟨b, hb, hfree, rfl⟩ := ha
      obtain ⟨h₁, hw, ht₁, -⟩ := ht.writePayload hb hfree start bytes
      simp only [Heap.serve, hw, bind, Except.bind, pure, Except.pure] at hs
      cases hs
      exact ⟨bs, .tiled ht₁ hc⟩

theorem Reachable.formatted {start : Heap} (hstart : ∃ bs, start.Formatted bs)
    (hr : Reachable start h) : ∃ bs, h.Formatted bs := by
  induction hr with
  | start => exact hstart
  | step _ listed allowed served ih =>
    obtain ⟨bs, hf⟩ := ih
    rw [hf.blocks] at listed
    cases listed
    exact hf.serve allowed served

instance (bs : List Block) (handle : Nat) : Decidable (Names bs handle) :=
  inferInstanceAs (Decidable (∃ b ∈ bs, b.free = false ∧ b.payload = handle))

theorem straddles_iff : h.Straddles bs handle ↔ (∃ b ∈ bs, b.offset < handle ∧ handle < b.payload) ∧
    ((h.find handle).toOption.join.any fun x => !x.2.free) = true := by
  refine ⟨fun ⟨ha, x, hf, hx⟩ => ⟨ha, ?_⟩, fun ⟨ha, hx⟩ => ⟨ha, ?_⟩⟩
  · rw [hf]
    simp [Except.toOption, hx]
  · cases hf : h.find handle with
    | error e => simp [hf, Except.toOption] at hx
    | ok x =>
      cases x with
      | none => simp [hf, Except.toOption] at hx
      | some x => exact ⟨x, rfl, by simpa [hf, Except.toOption] using hx⟩

instance (h : Heap) (bs : List Block) (handle : Nat) : Decidable (h.Straddles bs handle) :=
  decidable_of_iff _ straddles_iff.symm

instance (h : Heap) (bs : List Block) : (r : Request) → Decidable (h.Allowed bs r)
  | .allocate _ => inferInstanceAs (Decidable True)
  | .free handle => inferInstanceAs (Decidable (¬ h.Straddles bs handle))
  | .write handle _ _ => inferInstanceAs (Decidable (Names bs handle))

/-- Whether a request is allowed and leads to a heap with a property. -/
def leads (h : Heap) (r : Request) (p : Heap → Bool) : Bool :=
  (h.blocks.toOption.any fun bs => decide (h.Allowed bs r)) && (h.serve r).toOption.any p

theorem Reachable.leads {start : Heap} {r : Request} {p : Heap → Bool} (hr : Reachable start h)
    (hl : h.leads r p = true) : ∃ h', Reachable start h' ∧ p h' = true := by
  obtain ⟨hallowed, hserved⟩ := Bool.and_eq_true_iff.mp hl
  obtain ⟨bs, hb, ha⟩ := Fault.exists_of_any hallowed
  obtain ⟨h', hs, hp⟩ := Fault.exists_of_any hserved
  exact ⟨h', hr.step hb (of_decide_eq_true ha) hs, hp⟩

/-- Releasing a handle that names no allocated block leaves the list of blocks as it is, and every
allocated block but the one in which the header of the handle would start. The only handles that
this leaves out are those behind a header that straddles. -/
theorem free_bad_handle (base : Nat) {arena : Array UInt8} (hmax : arena.size < 2 ^ 63)
    (hr : Reachable (ofArena base arena) h) :
    ∃ bs, h.blocks = .ok bs ∧ ∀ handle, ¬ Names bs handle → ¬ h.Straddles bs handle →
      ∃ h', h.free handle = .ok h' ∧ h'.blocks = .ok bs ∧
        ∀ b ∈ bs, b.free = false → ¬ b.Covers handle → ∀ x, b.offset ≤ x → x < b.finish →
          h'.arena[x]? = h.arena[x]? := by
  obtain ⟨bs₀, hf₀, -⟩ := formatted_ofArena base hmax
  obtain ⟨bs, hf⟩ := hr.formatted ⟨bs₀, hf₀⟩
  refine ⟨bs, hf.blocks, fun handle hn hs => ?_⟩
  cases hf with
  | tiled ht hc =>
    obtain ⟨h', hrun, ht', hbytes⟩ := ht.free_forged hc hn hs
    exact ⟨h', hrun, ht'.blocks, hbytes⟩
  | short hroom =>
    refine ⟨h, ?_, Formatted.blocks (.short hroom), fun b hb => nomatch hb⟩
    rw [Heap.free, find_short hroom]
    rfl

/-- A header that was forged inside of a payload is marked free there, and nothing else happens. -/
theorem free_inside_payload : ∃ h bs h', Reachable (ofArena 0 (Array.replicate 80 0)) h ∧
    h.blocks = .ok bs ∧ ¬ Names bs 64 ∧ ¬ h.Straddles bs 64 ∧ h.free 64 = .ok h' ∧
      h'.arena ≠ h.arena ∧ h'.blocks = .ok bs := by
  have hrun : ((ofArena 0 (Array.replicate 80 0)).leads (.allocate 48) fun h =>
      h.leads (.write 32 0 [0xEF, 0xBE, 0xAD, 0xDE, 0, 0, 0, 0, 16]) fun h =>
        h.blocks.toOption.any fun bs => decide (¬ Names bs 64 ∧ ¬ h.Straddles bs 64) &&
          (h.free 64).toOption.any fun h' => h'.arena != h.arena) = true := by decide +kernel
  obtain ⟨h₁, hr₁, hrun⟩ := Reachable.start.leads hrun
  obtain ⟨h, hr, hrun⟩ := hr₁.leads hrun
  obtain ⟨bs, hb, hforged⟩ := Fault.exists_of_any hrun
  obtain ⟨hno, hfree⟩ := Bool.and_eq_true_iff.mp hforged
  obtain ⟨hn, hs⟩ := of_decide_eq_true hno
  obtain ⟨h', hf, hne⟩ := Fault.exists_of_any hfree
  obtain ⟨bs', hb', hall⟩ := free_bad_handle 0 (by simp) hr
  rw [hb] at hb'
  cases hb'
  obtain ⟨h'', hf', hblocks, -⟩ := hall 64 hn hs
  rw [hf] at hf'
  cases hf'
  exact ⟨h, bs, h', hr, hb, hn, hs, hf, by simpa using hne, hblocks⟩

/-- A header that was forged at the end of a payload takes the header behind it with it. -/
theorem free_across_payload : ∃ h bs h', Reachable (ofArena 0 (Array.replicate 96 0)) h ∧
    h.blocks = .ok bs ∧ ¬ Names bs 64 ∧ h.free 64 = .ok h' ∧ h'.blocks ≠ .ok bs := by
  have hrun : ((ofArena 0 (Array.replicate 96 0)).leads (.allocate 16) fun h =>
      h.leads (.write 32 0 [0xEF, 0xBE, 0xAD, 0xDE, 0, 0, 0, 0, 32]) fun h =>
        h.blocks.toOption.any fun bs => decide (¬ Names bs 64) &&
          (h.free 64).toOption.any fun h' => h'.blocks.toOption != some bs) = true := by
    decide +kernel
  obtain ⟨h₁, hr₁, hrun⟩ := Reachable.start.leads hrun
  obtain ⟨h, hr, hrun⟩ := hr₁.leads hrun
  obtain ⟨bs, hb, hforged⟩ := Fault.exists_of_any hrun
  obtain ⟨hno, hfree⟩ := Bool.and_eq_true_iff.mp hforged
  obtain ⟨h', hf, hne⟩ := Fault.exists_of_any hfree
  refine ⟨h, bs, h', hr, hb, of_decide_eq_true hno, hf, fun hsame => ?_⟩
  rw [hsame] at hne
  simp [Except.toOption] at hne

end Heap

end KernelCore
