import Mathlib
import KernelCore.Proofs.Heap.Headers

/-!
# Walks over any bytes

Whatever the bytes of the arena are, the links that are followed lead forward and stay inside, so a
walk along the headers comes to an end and reads nothing else. The pass that merges free blocks
rewrites headers on its way; with every step the link at its cursor grows.
-/
namespace KernelCore

theorem Bytes.toNat_lt (bs : List UInt8) : toNat bs < 256 ^ bs.length := by
  induction bs with
  | nil => simp [toNat]
  | cons b bs ih =>
    have hb := b.toNat_lt
    rw [toNat, List.length_cons, Nat.pow_succ]
    omega

namespace Heap

/-- The header that the bytes at an offset stand for, whoever wrote them. -/
def headerAt (h : Heap) (offset : Nat) : Header :=
  .ofBytes h.capacity offset (h.headerBytes offset)

/-- The header of a block that took in the one behind it. -/
def Header.join (header following : Header) : Header :=
  { header with size := header.size + (headerSize + following.size), next := following.next }

/-- The heap after the block at `offset` took in the one at `next`. -/
def joined (h : Heap) (offset next : Nat) : Heap :=
  (h.withHeader offset ((h.headerAt offset).join (h.headerAt next))).wipeHeader next

/-- The blocks at two offsets are free, and one ends where the other starts. -/
def Touches (h : Heap) (offset next : Nat) : Prop :=
  (h.headerAt offset).free = true ∧ (h.headerAt next).free = true ∧
    offset + headerSize + (h.headerAt offset).size = next

/-- The blocks at two offsets are free, and no word holds the end of the first or the size of both
together. -/
def Overflows (h : Heap) (offset next : Nat) : Prop :=
  (h.headerAt offset).free = true ∧ (h.headerAt next).free = true ∧
    (Word.maximum < offset + headerSize + (h.headerAt offset).size ∨
      offset + headerSize + (h.headerAt offset).size = next ∧
        Word.maximum < (h.headerAt offset).size + (headerSize + (h.headerAt next).size))

instance (h : Heap) (offset next : Nat) : Decidable (h.Touches offset next) :=
  inferInstanceAs (Decidable (_ ∧ _))

instance (h : Heap) (offset next : Nat) : Decidable (h.Overflows offset next) :=
  inferInstanceAs (Decidable (_ ∧ _))

/-- A step of the pass that merges free blocks, from a heap and a cursor. -/
inductive PassStep : Heap × Nat → Heap × Nat → Prop
  | move {h : Heap} {offset next : Nat} (linked : (h.headerAt offset).next = some next)
      (within : ¬ h.Overflows offset next) (apart : ¬ h.Touches offset next) :
      PassStep (h, offset) (h, next)
  | join {h : Heap} {offset next : Nat} (linked : (h.headerAt offset).next = some next)
      (within : ¬ h.Overflows offset next) (touches : h.Touches offset next) :
      PassStep (h, offset) (h.joined offset next, offset)

/-- A run of the pass. -/
abbrev Pass : Heap × Nat → Heap × Nat → Prop := Relation.ReflTransGen PassStep

/-- The pass from an offset on comes to two blocks whose sizes overflow. -/
def PassOverflows (h : Heap) (offset : Nat) : Prop :=
  ∃ h' cursor next, Pass (h, offset) (h', cursor) ∧ (h'.headerAt cursor).next = some next ∧
    h'.Overflows cursor next

/-- How far the pass has looked: the link at its cursor, or the end of the arena. -/
def front (h : Heap) (offset : Nat) : Nat := (h.headerAt offset).next.getD h.capacity

variable {h h' : Heap} {offset next fuel : Nat} {header : Header} {cursor : Option Nat}
variable {fault : Fault}

theorem readHeader_eq_headerAt (hroom : offset + headerSize ≤ h.capacity) :
    h.readHeader offset = .ok (h.headerAt offset) :=
  readHeader_eq hroom

theorem link_headerAt (hlink : (h.headerAt offset).next = some next) :
    offset < next ∧ next + headerSize ≤ h.capacity :=
  (link?_eq_some.mp hlink).2

theorem tag_headerAt (h : Heap) (offset : Nat) : (h.headerAt offset).tag < 256 ^ 4 := by
  have hlt := Bytes.toNat_lt ((h.headerBytes offset).take 4)
  have hpow : 256 ^ ((h.headerBytes offset).take 4).length ≤ 256 ^ 4 :=
    Nat.pow_le_pow_right (by decide) (List.length_take_le 4 _)
  exact hlt.trans_le hpow

theorem size_headerAt (h : Heap) (offset : Nat) : (h.headerAt offset).size ≤ Word.maximum := by
  have hlt := Bytes.toNat_lt (((h.headerBytes offset).drop 8).take 8)
  have hpow : 256 ^ (((h.headerBytes offset).drop 8).take 8).length ≤ 256 ^ 8 :=
    Nat.pow_le_pow_right (by decide) (List.length_take_le 8 _)
  exact Nat.le_of_lt_succ (hlt.trans_le hpow)

/-! ### Along the links -/

theorem room_of_first (hfirst : h.first = some offset) : offset + headerSize ≤ h.capacity := by
  unfold first at hfirst
  split at hfirst
  · cases hfirst
    omega
  · cases hfirst

theorem chainFrom_total
    (hroom : ∀ offset, cursor = some offset → offset + headerSize ≤ h.capacity) :
    ∃ l, h.chainFrom fuel cursor = .ok l ∧
      ∀ x ∈ l, x.1 + headerSize ≤ h.capacity ∧ x.2 = h.headerAt x.1 := by
  induction fuel generalizing cursor with
  | zero => exact ⟨[], rfl, by simp⟩
  | succ fuel ih =>
    cases cursor with
    | none => exact ⟨[], rfl, by simp⟩
    | some offset =>
      have hhere := hroom offset rfl
      obtain ⟨l, hl, hmem⟩ := ih fun next hlink =>
        (show offset < next ∧ next + headerSize ≤ h.capacity from link_headerAt hlink).2
      refine ⟨(offset, h.headerAt offset) :: l, ?_, ?_⟩
      · rw [chainFrom, readHeader_eq_headerAt hhere]
        simp only [bind, Except.bind, hl, pure, Except.pure]
      · exact List.forall_mem_cons.mpr ⟨⟨hhere, rfl⟩, hmem⟩

/-- The walk along the links never leaves the arena. -/
theorem chain_total (h : Heap) : ∃ l, h.chain = .ok l ∧
    ∀ x ∈ l, x.1 + headerSize ≤ h.capacity ∧ x.2 = h.headerAt x.1 :=
  chainFrom_total fun _ hfirst => room_of_first hfirst

/-! ### One step of the pass -/

theorem capacity_withHeader (h : Heap) (offset : Nat) (header : Header) :
    (h.withHeader offset header).capacity = h.capacity := by
  refine capacity_congr ?_
  rw [arena_withHeader, Bytes.size_write]

theorem capacity_joined (h : Heap) (offset next : Nat) :
    (h.joined offset next).capacity = h.capacity := by
  rw [joined, capacity_wipeHeader, capacity_withHeader]

theorem coalesceStep_eq (hroom : offset + headerSize ≤ h.capacity)
    (hlink : (h.headerAt offset).next = some next) :
    h.coalesceStep offset =
      if h.Overflows offset next then .error .overflow
      else if h.Touches offset next then .ok (some (h.joined offset next, offset))
      else .ok (some (h, next)) := by
  have hnext := (link_headerAt hlink).2
  have hwrite := writeHeader_eq hroom ((h.headerAt offset).join (h.headerAt next))
  rw [Header.join] at hwrite
  rw [coalesceStep, readHeader_eq_headerAt hroom]
  simp only [bind, Except.bind, hlink, readHeader_eq_headerAt hnext]
  by_cases hfree : (h.headerAt offset).free = true ∧ (h.headerAt next).free = true
  · have hboth : ¬ (!((h.headerAt offset).free && (h.headerAt next).free)) = true := by simp [hfree]
    rw [if_neg hboth]
    by_cases hend : Word.maximum < offset + headerSize + (h.headerAt offset).size
    · rw [if_pos hend, if_pos ⟨hfree.1, hfree.2, .inl hend⟩]
      rfl
    by_cases hadjacent : offset + headerSize + (h.headerAt offset).size = next
    · rw [if_neg hend, if_neg (not_not_intro hadjacent)]
      by_cases hsize : Word.maximum <
          (h.headerAt offset).size + (headerSize + (h.headerAt next).size)
      · rw [if_pos hsize, if_pos ⟨hfree.1, hfree.2, .inr ⟨hadjacent, hsize⟩⟩]
        rfl
      · have hwithin : ¬ h.Overflows offset next := fun hover =>
          hover.2.2.elim hend fun hboth => hsize hboth.2
        rw [if_neg hsize, if_neg hwithin, if_pos ⟨hfree.1, hfree.2, hadjacent⟩, hwrite]
        rfl
    · have hwithin : ¬ h.Overflows offset next := fun hover =>
        hover.2.2.elim hend fun hboth => hadjacent hboth.1
      rw [if_neg hend, if_pos hadjacent, if_neg hwithin, if_neg fun ht => hadjacent ht.2.2]
      rfl
  · have hboth : (!((h.headerAt offset).free && (h.headerAt next).free)) = true := by
      rwa [Bool.not_eq_true', Bool.eq_false_iff, ne_eq, Bool.and_eq_true]
    rw [if_pos hboth, if_neg fun hover => hfree ⟨hover.1, hover.2.1⟩,
      if_neg fun ht => hfree ⟨ht.1, ht.2.1⟩]
    rfl

theorem coalesceStep_of_last (hroom : offset + headerSize ≤ h.capacity)
    (hlast : (h.headerAt offset).next = none) : h.coalesceStep offset = .ok none := by
  rw [coalesceStep, readHeader_eq_headerAt hroom]
  simp only [bind, Except.bind, hlast]
  rfl

theorem coalesceStep_eq_error (hroom : offset + headerSize ≤ h.capacity) :
    h.coalesceStep offset = .error fault ↔
      fault = .overflow ∧
        ∃ next, (h.headerAt offset).next = some next ∧ h.Overflows offset next := by
  cases hlink : (h.headerAt offset).next with
  | none => simp [coalesceStep_of_last hroom hlink]
  | some next =>
    rw [coalesceStep_eq hroom hlink]
    split_ifs with hover <;> simp [hover, eq_comm]

theorem coalesceStep_eq_some (hroom : offset + headerSize ≤ h.capacity) {r : Heap × Nat} :
    h.coalesceStep offset = .ok (some r) ↔ PassStep (h, offset) r := by
  constructor
  · intro hstep
    cases hlink : (h.headerAt offset).next with
    | none =>
      rw [coalesceStep_of_last hroom hlink] at hstep
      cases hstep
    | some next =>
      rw [coalesceStep_eq hroom hlink] at hstep
      split_ifs at hstep with hover htouches
      · cases hstep
        exact .join hlink hover htouches
      · cases hstep
        exact .move hlink hover htouches
  · intro hstep
    cases hstep with
    | move linked within apart => rw [coalesceStep_eq hroom linked, if_neg within, if_neg apart]
    | join linked within touches =>
      rw [coalesceStep_eq hroom linked, if_neg within, if_pos touches]

/-! ### The whole pass -/

theorem front_of_link (hlink : (h.headerAt offset).next = some next) : h.front offset = next := by
  rw [front, hlink, Option.getD_some]

theorem lt_front (hroom : offset + headerSize ≤ h.capacity) : offset < h.front offset := by
  rw [front]
  cases hlink : (h.headerAt offset).next with
  | none =>
    rw [headerSize] at hroom
    rw [Option.getD_none]
    omega
  | some next => exact (link_headerAt hlink).1

theorem front_le (h : Heap) (offset : Nat) : h.front offset ≤ h.capacity := by
  rw [front]
  cases hlink : (h.headerAt offset).next with
  | none => exact le_rfl
  | some next =>
    have hnext := (link_headerAt hlink).2
    rw [Option.getD_some]
    omega

theorem last_of_front (hend : h.capacity ≤ h.front offset) : (h.headerAt offset).next = none := by
  cases hlink : (h.headerAt offset).next with
  | none => rfl
  | some next =>
    have hnext := (link_headerAt hlink).2
    rw [front_of_link hlink, headerSize] at *
    omega

/-- The joined header is read back, because the wiped one lies behind it. -/
theorem headerAt_joined (hmax : h.capacity ≤ Word.maximum)
    (hlink : (h.headerAt offset).next = some next) (hwithin : ¬ h.Overflows offset next)
    (htouches : h.Touches offset next) :
    (h.joined offset next).headerAt offset = (h.headerAt offset).join (h.headerAt next) := by
  obtain ⟨hfree, hfree', hadjacent⟩ := htouches
  obtain ⟨hlt, hnext⟩ := link_headerAt hlink
  have hroom : offset + headerSize ≤ h.capacity := by omega
  have hfits : ((h.headerAt offset).join (h.headerAt next)).Fits h.capacity offset := by
    refine ⟨h.tag_headerAt offset, ?_, fun n hn => ?_⟩
    · have hsize : ¬ Word.maximum < (h.headerAt offset).size +
          (headerSize + (h.headerAt next).size) :=
        fun hsize => hwithin ⟨hfree, hfree', .inr ⟨hadjacent, hsize⟩⟩
      rw [Word.maximum] at hsize
      show (h.headerAt offset).size + (headerSize + (h.headerAt next).size) < 256 ^ 8
      omega
    · obtain ⟨hlt', hn⟩ : next < n ∧ n + headerSize ≤ h.capacity := link_headerAt hn
      exact ⟨hlt.trans hlt', hn⟩
  have hwipe := sameOutside_wipeHeader (h := h.withHeader offset _)
    (hnext.trans_eq
      (h.capacity_withHeader offset ((h.headerAt offset).join (h.headerAt next))).symm)
  have hbytes : (h.joined offset next).headerBytes offset =
      ((h.headerAt offset).join (h.headerAt next)).toBytes := by
    rw [joined, hwipe.headerBytes (.inl (by omega)), headerBytes_withHeader hroom]
  rw [headerAt, capacity_joined, hbytes, Header.ofBytes_toBytes hmax hfits]

/-- A step of the pass looks further than the one before, and no further than the arena. -/
theorem PassStep.progress (hmax : h.capacity ≤ Word.maximum)
    (hstep : PassStep (h, offset) (h', next)) :
    h'.capacity = h.capacity ∧ next + headerSize ≤ h.capacity ∧
      h.front offset < h'.front next := by
  cases hstep with
  | move linked within apart =>
    have hnext := (link_headerAt linked).2
    rw [front_of_link linked]
    exact ⟨rfl, hnext, lt_front hnext⟩
  | @join _ _ following linked within touches =>
    obtain ⟨hlt, hnext⟩ := link_headerAt linked
    have hread := headerAt_joined hmax linked within touches
    have hfront : (h.joined offset following).front offset = h.front following := by
      rw [front, hread, capacity_joined]
      rfl
    rw [front_of_link linked, hfront]
    exact ⟨h.capacity_joined offset following, by omega, lt_front hnext⟩

/-- In front of the pass, and of everything that it wipes, there is a whole header of the arena. -/
theorem Pass.room (hmax : h.capacity ≤ Word.maximum) (hroom : offset + headerSize ≤ h.capacity)
    (hpass : Pass (h, offset) (h', next)) :
    h'.capacity = h.capacity ∧ next + headerSize ≤ h.capacity := by
  generalize hr : (h', next) = r at hpass
  induction hpass generalizing h' next with
  | refl =>
    cases hr
    exact ⟨rfl, hroom⟩
  | @tail r r' _ hstep ih =>
    obtain ⟨h₁, cursor⟩ := r
    subst hr
    obtain ⟨hcap, -⟩ := ih rfl
    obtain ⟨hcap', hroom', -⟩ := hstep.progress (hcap ▸ hmax)
    exact ⟨hcap'.trans hcap, hroom'.trans_eq hcap⟩

theorem passOverflows_iff (hroom : offset + headerSize ≤ h.capacity) : h.PassOverflows offset ↔
    h.coalesceStep offset = .error .overflow ∨
      ∃ r, h.coalesceStep offset = .ok (some r) ∧ r.1.PassOverflows r.2 := by
  have herror : h.coalesceStep offset = .error .overflow ↔ _ := coalesceStep_eq_error hroom
  rw [herror]
  constructor
  · rintro ⟨h', cursor, next, hpass, hlink, hover⟩
    obtain heq | ⟨r, hstep, hpass⟩ := hpass.cases_head
    · cases heq
      exact .inl ⟨rfl, next, hlink, hover⟩
    · exact .inr ⟨r, (coalesceStep_eq_some hroom).mpr hstep, h', cursor, next, hpass, hlink, hover⟩
  · rintro (⟨-, next, hlink, hover⟩ | ⟨r, hstep, h', cursor, next, hpass, hlink, hover⟩)
    · exact ⟨h, offset, next, .refl, hlink, hover⟩
    · exact ⟨h', cursor, next, hpass.head ((coalesceStep_eq_some hroom).mp hstep), hlink, hover⟩

/-- The pass stops at an overflow and for nothing else. The fuel is enough, because the front moves
with every step. -/
theorem coalesceFrom_eq_error (hmax : h.capacity ≤ Word.maximum)
    (hroom : offset + headerSize ≤ h.capacity) (hfuel : h.capacity ≤ fuel + h.front offset) :
    h.coalesceFrom offset fuel = .error fault ↔ fault = .overflow ∧ h.PassOverflows offset := by
  rw [passOverflows_iff hroom]
  induction fuel generalizing h offset with
  | zero =>
    have hlast := last_of_front (Nat.zero_add (h.front offset) ▸ hfuel)
    simp [coalesceFrom, coalesceStep_of_last hroom hlast]
  | succ fuel ih =>
    rw [coalesceFrom]
    cases hstep : h.coalesceStep offset with
    | error fault' =>
      obtain ⟨rfl, -⟩ := (coalesceStep_eq_error hroom).mp hstep
      simp [bind, Except.bind, eq_comm]
    | ok r =>
      cases r with
      | none => simp [bind, Except.bind, pure, Except.pure]
      | some r =>
        obtain ⟨h', next⟩ := r
        obtain ⟨hcap, hnext, hlt⟩ := ((coalesceStep_eq_some hroom).mp hstep).progress hmax
        have hrest := ih (hcap.trans_le hmax) (hnext.trans_eq hcap.symm)
          (by rw [hcap]; omega)
        rw [← passOverflows_iff (hnext.trans_eq hcap.symm)] at hrest
        simpa [bind, Except.bind] using hrest

theorem coalesce_eq_error (hmax : h.capacity ≤ Word.maximum) (hmin : headerSize ≤ h.capacity) :
    h.coalesce = .error fault ↔ fault = .overflow ∧ h.PassOverflows 0 := by
  rw [coalesce, first, if_pos hmin]
  exact coalesceFrom_eq_error hmax (by omega) (Nat.le_add_right _ _)

end Heap

end KernelCore
