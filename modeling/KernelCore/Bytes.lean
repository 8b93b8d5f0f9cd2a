/-!
# Bytes

Numbers as little-endian bytes, and slices of a byte array read and written as lists.
-/
namespace KernelCore.Bytes

/-- The `width` low bytes of `n`, the lowest first. -/
def ofNat : Nat → Nat → List UInt8
  | 0, _ => []
  | width + 1, n => UInt8.ofNat n :: ofNat width (n / 256)

/-- The number whose bytes these are, the lowest first. -/
def toNat : List UInt8 → Nat
  | [] => 0
  | b :: bs => b.toNat + 256 * toNat bs

/-- Up to `length` bytes from `offset` on. -/
def slice (a : Array UInt8) (offset length : Nat) : List UInt8 :=
  (a.extract offset (offset + length)).toList

/-- Overwrites the bytes from `offset` on; what would lie beyond the end is dropped. -/
def write (a : Array UInt8) (offset : Nat) : List UInt8 → Array UInt8
  | [] => a
  | b :: bs => write (a.setIfInBounds offset b) (offset + 1) bs

theorem length_ofNat (width n : Nat) : (ofNat width n).length = width := by
  induction width generalizing n with
  | zero => rfl
  | succ width ih => simp [ofNat, ih]

theorem size_write (a : Array UInt8) (offset : Nat) (bs : List UInt8) :
    (write a offset bs).size = a.size := by
  induction bs generalizing a offset with
  | nil => rfl
  | cons b bs ih => simp [write, ih]

/-- A write changes the bytes it covers and no other. -/
theorem getElem?_write (a : Array UInt8) (offset : Nat) (bs : List UInt8) (i : Nat)
    (fits : offset + bs.length ≤ a.size) :
    (write a offset bs)[i]? =
      if offset ≤ i ∧ i < offset + bs.length then bs[i - offset]? else a[i]? := by
  induction bs generalizing a offset with
  | nil =>
    have outside : ¬ (offset ≤ i ∧ i < offset) := by omega
    simp [write, outside]
  | cons b bs ih =>
    simp only [List.length_cons] at fits ⊢
    rw [write, ih _ _ (by simp; omega), Array.getElem?_setIfInBounds]
    by_cases same : offset = i
    · subst same
      have inside : offset < a.size := by omega
      have past : ¬ (offset + 1 ≤ offset ∧ offset < offset + 1 + bs.length) := by omega
      have whole : offset ≤ offset ∧ offset < offset + (bs.length + 1) := by omega
      rw [if_neg past, if_pos whole]
      simp [inside]
    · rw [if_neg same]
      by_cases after : offset + 1 ≤ i ∧ i < offset + 1 + bs.length
      · have whole : offset ≤ i ∧ i < offset + (bs.length + 1) := by omega
        have shift : i - offset = i - (offset + 1) + 1 := by omega
        rw [if_pos after, if_pos whole, shift, List.getElem?_cons_succ]
      · have outside : ¬ (offset ≤ i ∧ i < offset + (bs.length + 1)) := by omega
        rw [if_neg after, if_neg outside]

end KernelCore.Bytes
