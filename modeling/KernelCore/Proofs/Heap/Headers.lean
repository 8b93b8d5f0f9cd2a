import Mathlib
import KernelCore.Heap.Basic

/-!
# Headers in the arena

A header that was written is read back, and it stays what it is as long as its own bytes are left
alone.
-/
namespace KernelCore

namespace Bytes

theorem toNat_ofNat (width n : Nat) : toNat (ofNat width n) = n % 256 ^ width := by
  induction width generalizing n with
  | zero => simp [ofNat, toNat, Nat.mod_one]
  | succ width ih =>
    rw [ofNat, toNat, ih, Nat.pow_succ, Nat.mul_comm (256 ^ width), Nat.mod_mul]
    simp

theorem getElem?_slice (a : Array UInt8) (offset length i : Nat) :
    (slice a offset length)[i]? = if i < length then a[offset + i]? else none := by
  simp only [slice, Array.getElem?_toList, Array.getElem?_extract]
  by_cases hi : i < length
  · rw [if_pos hi]
    by_cases ha : offset + i < a.size
    · rw [if_pos (by omega)]
    · rw [if_neg (by omega), Array.getElem?_eq_none (by omega)]
  · rw [if_neg hi, if_neg (by omega)]

theorem slice_congr {a a' : Array UInt8} {offset length : Nat}
    (h : ∀ x, offset ≤ x → x < offset + length → a'[x]? = a[x]?) :
    slice a' offset length = slice a offset length := by
  refine List.ext_getElem? fun i => ?_
  rw [getElem?_slice, getElem?_slice]
  split
  · next hi => exact h _ (by omega) (by omega)
  · rfl

theorem slice_write (a : Array UInt8) (offset : Nat) (bs : List UInt8)
    (hfits : offset + bs.length ≤ a.size) : slice (write a offset bs) offset bs.length = bs := by
  refine List.ext_getElem? fun i => ?_
  rw [getElem?_slice, getElem?_write a offset bs _ hfits]
  by_cases hi : i < bs.length
  · rw [if_pos hi, if_pos (by omega), Nat.add_sub_cancel_left]
  · rw [if_neg hi, List.getElem?_eq_none (by omega)]

theorem getElem?_write_of_outside {a : Array UInt8} {offset x : Nat} {bs : List UInt8}
    (hfits : offset + bs.length ≤ a.size) (hx : x < offset ∨ offset + bs.length ≤ x) :
    (write a offset bs)[x]? = a[x]? := by
  rw [getElem?_write a offset bs x hfits, if_neg (by omega)]

end Bytes

namespace Heap

/-- What a header can hold without loss at an offset. -/
structure Header.Fits (header : Header) (capacity offset : Nat) : Prop where
  tag : header.tag < 256 ^ 4
  size : header.size < 256 ^ 8
  next : ∀ n, header.next = some n → offset < n ∧ n + headerSize ≤ capacity

theorem Header.ofBytes_toBytes {header : Header} {capacity offset : Nat}
    (hc : capacity ≤ Word.maximum) (h : header.Fits capacity offset) :
    Header.ofBytes capacity offset header.toBytes = header := by
  have ht : Bytes.toNat (header.toBytes.take 4) = header.tag := by
    have he : header.toBytes.take 4 = Bytes.ofNat 4 header.tag := by
      simp [Header.toBytes, Bytes.length_ofNat]
    rw [he, Bytes.toNat_ofNat, Nat.mod_eq_of_lt h.tag]
  have hf : (header.toBytes.getD 4 0 != 0) = header.free := by
    cases hfree : header.free <;>
      simp [Header.toBytes, Bytes.ofNat, hfree]
  have hs : Bytes.toNat ((header.toBytes.drop 8).take 8) = header.size := by
    have he : (header.toBytes.drop 8).take 8 = Bytes.ofNat 8 header.size := by
      simp [Header.toBytes, List.drop_append, List.take_append, Bytes.length_ofNat]
    rw [he, Bytes.toNat_ofNat, Nat.mod_eq_of_lt h.size]
  have hn : link? capacity offset (Bytes.toNat ((header.toBytes.drop 16).take 8)) =
      header.next := by
    have hd : ∀ width n k, width ≤ k → (Bytes.ofNat width n).drop k = [] := fun _ _ _ hk =>
      List.drop_eq_nil_of_le (by rwa [Bytes.length_ofNat])
    have he : (header.toBytes.drop 16).take 8 = Bytes.ofNat 8 (header.next.getD noLink) := by
      simp [Header.toBytes, List.drop_append, Bytes.length_ofNat, hd]
    rw [he, Bytes.toNat_ofNat]
    cases hnext : header.next with
    | none =>
      have hl : ¬ (offset < noLink ∧ noLink + headerSize ≤ capacity) := by
        simp only [noLink, headerSize]
        omega
      rw [Option.getD_none, Nat.mod_eq_of_lt (by decide), link?, if_neg hl]
    | some n =>
      obtain ⟨hlt, hle⟩ := h.next n hnext
      have hmod : n < 256 ^ 8 := by
        simp only [Word.maximum, headerSize] at hc hle
        omega
      rw [Option.getD_some, Nat.mod_eq_of_lt hmod, link?, if_pos ⟨hlt, hle⟩]
  rw [Header.ofBytes, ht, hf, hs, hn]

variable {h h' : Heap} {offset : Nat} {header : Header}

theorem capacity_le (h : Heap) : h.capacity ≤ h.arena.size := Word.roundDown_le _ _

theorem capacity_congr (hs : h'.arena.size = h.arena.size) : h'.capacity = h.capacity := by
  rw [capacity, capacity, hs]

/-- The bytes in which the header at an offset is kept. -/
def headerBytes (h : Heap) (offset : Nat) : List UInt8 := Bytes.slice h.arena offset headerSize

/-- The heap after a header was written at an offset inside. -/
def withHeader (h : Heap) (offset : Nat) (header : Header) : Heap :=
  { h with arena := Bytes.write h.arena offset header.toBytes }

theorem arena_withHeader (h : Heap) (offset : Nat) (header : Header) :
    (h.withHeader offset header).arena = Bytes.write h.arena offset header.toBytes := by
  simp only [withHeader]

theorem writeHeader_eq (hb : offset + headerSize ≤ h.capacity) (header : Header) :
    h.writeHeader offset header = .ok (h.withHeader offset header) := by
  rw [writeHeader, if_pos hb, withHeader]

/-- Two heaps differ at most in the bytes from one offset to another. -/
structure SameOutside (start finish : Nat) (h h' : Heap) : Prop where
  base : h'.base = h.base
  size : h'.arena.size = h.arena.size
  bytes : ∀ x, x < start ∨ finish ≤ x → h'.arena[x]? = h.arena[x]?

theorem SameOutside.capacity {start finish : Nat} (hs : SameOutside start finish h h') :
    h'.capacity = h.capacity :=
  capacity_congr hs.size

theorem SameOutside.refl (start finish : Nat) (h : Heap) : SameOutside start finish h h :=
  ⟨rfl, rfl, fun _ _ => rfl⟩

theorem SameOutside.trans {start finish : Nat} {h'' : Heap} (hs : SameOutside start finish h h')
    (hs' : SameOutside start finish h' h'') : SameOutside start finish h h'' :=
  ⟨hs'.base.trans hs.base, hs'.size.trans hs.size,
    fun x hx => (hs'.bytes x hx).trans (hs.bytes x hx)⟩

theorem SameOutside.mono {start finish start' finish' : Nat}
    (hs : SameOutside start finish h h') (h₁ : start' ≤ start) (h₂ : finish ≤ finish') :
    SameOutside start' finish' h h' :=
  ⟨hs.base, hs.size, fun x hx => hs.bytes x (by omega)⟩

theorem sameOutside_write (start : Nat) (bs : List UInt8)
    (hb : start + bs.length ≤ h.arena.size) :
    SameOutside start (start + bs.length) h { h with arena := Bytes.write h.arena start bs } :=
  ⟨rfl, Bytes.size_write .., fun _ hx => Bytes.getElem?_write_of_outside hb hx⟩

theorem sameOutside_withHeader (hb : offset + headerSize ≤ h.capacity) (header : Header) :
    SameOutside offset (offset + headerSize) h (h.withHeader offset header) := by
  rw [← header.length_toBytes] at hb ⊢
  exact sameOutside_write _ _ (hb.trans h.capacity_le)

theorem sameOutside_wipeHeader (hb : offset + headerSize ≤ h.capacity) :
    SameOutside offset (offset + headerSize) h (h.wipeHeader offset) := by
  have hl : (List.replicate headerSize (0 : UInt8)).length = headerSize := List.length_replicate
  have hw := sameOutside_write offset (List.replicate headerSize 0)
    (by rw [hl]; exact hb.trans h.capacity_le)
  rwa [hl] at hw

theorem SameOutside.headerBytes {start finish : Nat} (hs : SameOutside start finish h h')
    (ho : offset + headerSize ≤ start ∨ finish ≤ offset) :
    h'.headerBytes offset = h.headerBytes offset :=
  Bytes.slice_congr fun x _ _ => hs.bytes x (by omega)

theorem headerBytes_withHeader (hb : offset + headerSize ≤ h.capacity) (header : Header) :
    (h.withHeader offset header).headerBytes offset = header.toBytes := by
  have hw := Bytes.slice_write h.arena offset header.toBytes
  rw [header.length_toBytes] at hw
  rw [headerBytes, arena_withHeader]
  exact hw (hb.trans h.capacity_le)

theorem readHeader_eq (hb : offset + headerSize ≤ h.capacity) :
    h.readHeader offset = .ok (.ofBytes h.capacity offset (h.headerBytes offset)) := by
  rw [readHeader, if_pos hb, headerBytes]

theorem readHeader_of_bytes (hc : h.capacity ≤ Word.maximum)
    (hb : offset + headerSize ≤ h.capacity) (hf : header.Fits h.capacity offset)
    (hw : h.headerBytes offset = header.toBytes) : h.readHeader offset = .ok header := by
  rw [readHeader_eq hb, hw, Header.ofBytes_toBytes hc hf]

end Heap

end KernelCore
