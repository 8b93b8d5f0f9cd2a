import Mathlib
import KernelCore.Proofs.Heap.Payloads
import KernelCore.Proofs.Heap.Walks

/-!
# What a handle exposes

A handle may be any number, and the header in front of it may be any bytes. A payload has to end
where the link of its header leads, and a link that leads out of the arena is not followed. So
whoever wrote the header, the handle is refused or it stands for bytes of the arena, and nothing but
the header decides which.
-/
namespace KernelCore.Heap

/-- Two arenas of one length have the same bytes from one offset to another. -/
structure SameWithin (start finish : Nat) (h h' : Heap) : Prop where
  size : h'.arena.size = h.arena.size
  bytes : ∀ x, start ≤ x → x < finish → h'.arena[x]? = h.arena[x]?

/-- There is no payload to read or to write at a handle. -/
structure Refuses (h : Heap) (handle : Nat) : Prop where
  unsized : h.payloadSize handle = .ok none
  payload : h.payload handle = .ok none
  write : ∀ start bytes, h.writePayload handle start bytes = .ok none

/-- The payload at a handle lies in the arena, behind room for a header. All of it can be read and
written, and a write into it changes only the bytes that it covers. -/
structure Exposes (h : Heap) (handle size : Nat) : Prop where
  sized : h.payloadSize handle = .ok (some size)
  behind : headerSize ≤ handle
  inside : handle + size ≤ h.capacity
  payload : ∃ payload, h.payload handle = .ok (some payload) ∧ payload.length = size ∧
    ∀ i < size, payload[i]? = h.arena[handle + i]?
  write : ∀ start bytes, start + bytes.length ≤ size → ∃ h',
    h.writePayload handle start bytes = .ok (some h') ∧
      SameOutside (handle + start) (handle + start + bytes.length) h h' ∧
        ∀ i < bytes.length, h'.arena[handle + start + i]? = bytes[i]?
  long : ∀ start bytes, size < start + bytes.length →
    h.writePayload handle start bytes = .ok none

/-- What stands in front of a handle is taken for the header of an allocated block. -/
structure Vouched (h : Heap) (handle : Nat) : Prop where
  behind : headerSize ≤ handle
  within : handle ≤ h.capacity
  aligned : (handle - headerSize) % heapAlignment = 0
  tagged : (h.headerAt (handle - headerSize)).tag = tag
  ends : handle + (h.headerAt (handle - headerSize)).size = h.front (handle - headerSize)
  taken : (h.headerAt (handle - headerSize)).free = false

variable {h h' : Heap} {handle size start finish offset : Nat}

/-! ### The header in front of a handle -/

theorem SameWithin.capacity (hs : SameWithin start finish h h') : h'.capacity = h.capacity :=
  capacity_congr hs.size

theorem SameWithin.symm (hs : SameWithin start finish h h') : SameWithin start finish h' h :=
  ⟨hs.size.symm, fun x hx hx' => (hs.bytes x hx hx').symm⟩

theorem SameWithin.headerAt (hs : SameWithin start finish h h') (hstart : start ≤ offset)
    (hfinish : offset + headerSize ≤ finish) : h'.headerAt offset = h.headerAt offset := by
  have hbytes : h'.headerBytes offset = h.headerBytes offset :=
    Bytes.slice_congr fun x hx hx' => hs.bytes x (by omega) (by omega)
  rw [Heap.headerAt, Heap.headerAt, hs.capacity, hbytes]

theorem find_of_room (hbehind : headerSize ≤ handle) (hwithin : handle ≤ h.capacity)
    (haligned : (handle - headerSize) % heapAlignment = 0) :
    h.find handle = .ok (if (h.headerAt (handle - headerSize)).tag = tag ∧
        handle + (h.headerAt (handle - headerSize)).size = h.front (handle - headerSize)
      then some (handle - headerSize, h.headerAt (handle - headerSize)) else none) := by
  have hin : ¬ (handle < headerSize ∨ (handle - headerSize) % heapAlignment ≠ 0 ∨
      h.capacity < handle) := by omega
  have hread := readHeader_eq_headerAt ((Nat.sub_add_cancel hbehind).trans_le hwithin)
  simp only [find, if_neg hin, hread, bind, Except.bind, pure, Except.pure]
  rw [← front]
  split <;> rfl

theorem Vouched.payloadSize (hv : h.Vouched handle) :
    h.payloadSize handle = .ok (some (h.headerAt (handle - headerSize)).size) := by
  rw [Heap.payloadSize, find_of_room hv.behind hv.within hv.aligned, if_pos ⟨hv.tagged, hv.ends⟩]
  simp [bind, Except.bind, pure, Except.pure, hv.taken]

theorem payloadSize_of_not_vouched (hv : ¬ h.Vouched handle) : h.payloadSize handle = .ok none := by
  by_cases hin : handle < headerSize ∨ (handle - headerSize) % heapAlignment ≠ 0 ∨
      h.capacity < handle
  · simp [Heap.payloadSize, find, if_pos hin, bind, Except.bind, pure, Except.pure]
  have hbehind : headerSize ≤ handle := by omega
  have hwithin : handle ≤ h.capacity := by omega
  have haligned : (handle - headerSize) % heapAlignment = 0 := by omega
  rw [Heap.payloadSize, find_of_room hbehind hwithin haligned]
  split_ifs with hok
  · cases hfree : (h.headerAt (handle - headerSize)).free with
    | true => simp [bind, Except.bind, pure, Except.pure, hfree]
    | false => exact absurd ⟨hbehind, hwithin, haligned, hok.1, hok.2, hfree⟩ hv
  · rfl

theorem Vouched.inside (hv : h.Vouched handle) :
    handle + (h.headerAt (handle - headerSize)).size ≤ h.capacity :=
  hv.ends.trans_le (h.front_le _)

/-- The header in front of a handle alone makes it a block. -/
theorem SameWithin.vouched (hs : SameWithin (handle - headerSize) (min handle h.capacity) h h')
    (hv : h.Vouched handle) : h'.Vouched handle ∧
      h'.headerAt (handle - headerSize) = h.headerAt (handle - headerSize) := by
  have hread : h'.headerAt (handle - headerSize) = h.headerAt (handle - headerSize) := by
    refine hs.headerAt le_rfl ?_
    rw [Nat.sub_add_cancel hv.behind, min_eq_left hv.within]
  refine ⟨⟨hv.behind, hs.capacity ▸ hv.within, hv.aligned, hread ▸ hv.tagged, ?_, hread ▸ hv.taken⟩,
    hread⟩
  rw [front, hread, hs.capacity]
  exact hv.ends

theorem SameWithin.payloadSize
    (hs : SameWithin (handle - headerSize) (min handle h.capacity) h h') :
    h'.payloadSize handle = h.payloadSize handle := by
  by_cases hv : h.Vouched handle
  · obtain ⟨hv', hread⟩ := hs.vouched hv
    rw [hv.payloadSize, hv'.payloadSize, hread]
  · have hback : SameWithin (handle - headerSize) (min handle h'.capacity) h' h :=
      hs.capacity ▸ hs.symm
    have hv' : ¬ h'.Vouched handle := fun hv' => hv (hback.vouched hv').1
    rw [payloadSize_of_not_vouched hv, payloadSize_of_not_vouched hv']

/-! ### The payload behind it -/

theorem refuses_of_payloadSize (hsize : h.payloadSize handle = .ok none) : h.Refuses handle where
  unsized := hsize
  payload := by
    rw [payload, hsize]
    rfl
  write start bytes := by
    rw [writePayload, hsize]
    rfl

theorem exposes_of_payloadSize (hsize : h.payloadSize handle = .ok (some size))
    (hbehind : headerSize ≤ handle) (hinside : handle + size ≤ h.capacity) :
    h.Exposes handle size where
  sized := hsize
  behind := hbehind
  inside := hinside
  payload := by
    refine ⟨Bytes.slice h.arena handle size, ?_, length_slice (hinside.trans h.capacity_le), ?_⟩
    · rw [payload, hsize]
      rfl
    · intro i hi
      rw [Bytes.getElem?_slice, if_pos hi]
  write start bytes hfits := by
    have hroom : handle + start + bytes.length ≤ h.arena.size := by
      have hle := h.capacity_le
      omega
    refine ⟨_, ?_, sameOutside_write (handle + start) bytes hroom, fun i hi => ?_⟩
    · rw [writePayload, hsize]
      simp only [bind, Except.bind, if_neg hfits.not_gt, pure, Except.pure]
    · rw [Bytes.getElem?_write h.arena (handle + start) bytes _ hroom, if_pos (by omega),
        Nat.add_sub_cancel_left]
  long start bytes hlong := by
    rw [writePayload, hsize]
    simp only [bind, Except.bind, if_pos hlong, pure, Except.pure]

/-- Over any bytes, a handle is refused or it exposes bytes of the arena only; which of them it does
is read from no bytes but those of the arena right in front of it. -/
theorem payload_inside (h : Heap) (handle : Nat) :
    (h.Refuses handle ∨ ∃ size, h.Exposes handle size) ∧
      ∀ h', SameWithin (handle - headerSize) (min handle h.capacity) h h' →
        h'.payloadSize handle = h.payloadSize handle := by
  refine ⟨?_, fun h' hs => hs.payloadSize⟩
  by_cases hv : h.Vouched handle
  · exact .inr ⟨_, exposes_of_payloadSize hv.payloadSize hv.behind hv.inside⟩
  · exact .inl (refuses_of_payloadSize (payloadSize_of_not_vouched hv))

/-- A forged header in front of 32 bytes: no size but theirs is taken, not even one that wraps. -/
example : ([32, 33, 2 ^ 64 - 1].map fun size => (⟨0, Bytes.write (Array.replicate 64 0) 0
    (Header.toBytes ⟨tag, false, size, none⟩)⟩ : Heap).payloadSize 32) =
      [.ok (some 32), .ok none, .ok none] := by decide +kernel

end KernelCore.Heap
