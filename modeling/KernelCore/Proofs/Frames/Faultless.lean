import Mathlib
import KernelCore.Paging.Table
import KernelCore.Proofs.Frames.Counting

/-!
# Frames without faults

A machine keeps counters and addresses in words, and it stops where an index leaves the bitmap, a
difference goes below zero or an address is no physical one. The operations with all these checks
do what those without them do, in every state that a run over a physical memory leads to.
-/
namespace KernelCore.FrameAllocator

namespace Checked

def add (m n : Nat) : Except Fault Nat :=
  if m + n ≤ Word.maximum then .ok (m + n) else .error .overflow

def sub (m n : Nat) : Except Fault Nat := if n ≤ m then .ok (m - n) else .error .overflow

def mul (m n : Nat) : Except Fault Nat :=
  if m * n ≤ Word.maximum then .ok (m * n) else .error .overflow

def test (a : FrameAllocator) (i : Nat) : Except Fault Bool :=
  if i / 64 < a.bitmap.size then .ok (a.bit i) else .error .indexOutOfRange

def set (a : FrameAllocator) (i : Nat) : Except Fault FrameAllocator := do
  if a.bitmap.size ≤ i / 64 then throw .indexOutOfRange
  return { a.setBit i with free := ← sub a.free 1 }

def clear (a : FrameAllocator) (i : Nat) : Except Fault FrameAllocator := do
  if a.bitmap.size ≤ i / 64 then throw .indexOutOfRange
  return { a.clearBit i with free := ← add a.free 1 }

def releaseFrom (a : FrameAllocator) (i : Nat) : Nat → Except Fault (Nat × FrameAllocator)
  | 0 => .ok (0, a)
  | n + 1 => do
    if ← test a i then
      let (changed, a) ← releaseFrom (← clear a i) (i + 1) n
      return (← add changed 1, a)
    else releaseFrom a (i + 1) n

def reserveFrom (a : FrameAllocator) (i : Nat) : Nat → Except Fault (Nat × FrameAllocator)
  | 0 => .ok (0, a)
  | n + 1 => do
    if ← test a i then reserveFrom a (i + 1) n
    else
      let (changed, a) ← reserveFrom (← set a i) (i + 1) n
      return (← add changed 1, a)

/-- The bounds of the region are rounded without a sum, and its end saturates. -/
def releaseRegion (a : FrameAllocator) (start size : Nat) : Except Fault (Nat × FrameAllocator) :=
  let first := Word.ceilDiv start pageSize
  let finish := min (Word.saturatingAdd start size / pageSize) a.total
  releaseFrom a first (finish - first)

def reserveRegion (a : FrameAllocator) (start size : Nat) : Except Fault (Nat × FrameAllocator) :=
  let first := start / pageSize
  let finish := min (Word.ceilDiv (Word.saturatingAdd start size) pageSize) a.total
  reserveFrom a first (finish - first)

def seed (a : FrameAllocator) (regions : List Region) : Except Fault FrameAllocator := do
  let released ← (regions.filter Region.isUsable).foldlM
    (fun a r => return (← releaseRegion a r.start r.size).2) a
  (regions.filter (!·.isUsable)).foldlM
    (fun a r => return (← reserveRegion a r.start r.size).2) released

/-- A word shifts by less than 64, and the address of a frame has to be a physical one. -/
def allocate (a : FrameAllocator) : Except Fault (Option (Nat × FrameAllocator)) := do
  if a.free = 0 then return none
  match a.bitmap.findIdx? (· != BitVec.allOnes 64) with
  | none => return none
  | some w =>
    let low := lowestClear (a.bitmap.getD w 0)
    let i ← add (← mul w 64) low
    if a.total ≤ i then return none
    if 64 ≤ low then throw .overflow
    let address ← mul i pageSize
    if physicalBound ≤ address then throw .physicalAddressTooLarge
    return some (address, ← set a i)

def release (a : FrameAllocator) (address : Nat) : Except Fault (Bool × FrameAllocator) := do
  let i := address / pageSize
  if a.total ≤ i then return (false, a)
  if ← test a i then return (true, ← clear a i)
  return (false, a)

def freeBytes (a : FrameAllocator) : Except Fault Nat := mul a.free pageSize

def usedBytes (a : FrameAllocator) : Except Fault Nat := do mul (← sub a.total a.free) pageSize

def perform (a : FrameAllocator) : Operation → Except Fault FrameAllocator
  | .allocate => return ((← allocate a).map Prod.snd).getD a
  | .release address => return (← release a address).2
  | .releaseRegion start size => return (← releaseRegion a start size).2
  | .reserveRegion start size => return (← reserveRegion a start size).2
  | .seed regions => seed a regions

def run (a : FrameAllocator) (ops : List Operation) : Except Fault FrameAllocator :=
  ops.foldlM perform a

end Checked

/-- The frames are those of a physical memory. -/
def Physical (a : FrameAllocator) : Prop := a.total * pageSize ≤ physicalBound

/-- No check stops an operation. -/
structure Faultless (a : FrameAllocator) : Prop where
  allocate : Checked.allocate a = .ok a.allocate
  release : ∀ address, Checked.release a address = .ok (a.release address)
  releaseRegion : ∀ start size,
    Checked.releaseRegion a start size = .ok (a.releaseRegion start size)
  reserveRegion : ∀ start size,
    Checked.reserveRegion a start size = .ok (a.reserveRegion start size)
  seed : ∀ regions, Checked.seed a regions = .ok (a.seed regions)
  freeBytes : Checked.freeBytes a = .ok a.freeBytes
  usedBytes : Checked.usedBytes a = .ok a.usedBytes

variable {a : FrameAllocator} {i m n memory : Nat}

theorem Checked.add_eq (h : m + n ≤ Word.maximum) : add m n = .ok (m + n) := if_pos h

theorem Checked.sub_eq (h : n ≤ m) : sub m n = .ok (m - n) := if_pos h

theorem Checked.mul_eq (h : m * n ≤ Word.maximum) : mul m n = .ok (m * n) := if_pos h

theorem Checked.test_eq (h : i / 64 < a.bitmap.size) : test a i = .ok (a.bit i) := if_pos h

theorem Checked.set_eq (h : i / 64 < a.bitmap.size) (hpos : 0 < a.free) :
    set a i = .ok (a.setBit i) := by
  rw [set, if_neg (Nat.not_le.mpr h), sub_eq hpos]
  rfl

theorem Checked.clear_eq (h : i / 64 < a.bitmap.size) (hmax : a.free < Word.maximum) :
    clear a i = .ok (a.clearBit i) := by
  rw [clear, if_neg (Nat.not_le.mpr h), add_eq hmax]
  rfl

theorem Physical.mul_le (hp : a.Physical) (hn : n ≤ a.total) : n * pageSize ≤ Word.maximum :=
  ((Nat.mul_le_mul_right pageSize hn).trans hp).trans (by decide)

namespace Counted

theorem free_lt (h : a.Counted) (hp : a.Physical) : a.free < Word.maximum := by
  have hle := h.free_le
  rw [Physical, pageSize, physicalBound] at hp
  rw [Word.maximum]
  omega

theorem checked_releaseFrom (h : a.Counted) (hp : a.Physical)
    (hn : ∀ j, i ≤ j → j < i + n → j < a.total) :
    Checked.releaseFrom a i n = .ok (a.releaseFrom i n) := by
  induction n generalizing a i with
  | zero => rfl
  | succ n ih =>
    have hi : i < a.total := hn i (Nat.le_refl i) (by omega)
    have hrest : ∀ j, i + 1 ≤ j → j < i + 1 + n → j < a.total :=
      fun j hle hlt => hn j (by omega) (by omega)
    have hword := h.word_lt hi
    rw [Checked.releaseFrom, FrameAllocator.releaseFrom, Checked.test_eq hword]
    by_cases hb : a.bit i = true
    · have hc := h.clearBit hi hb
      have hr := hc.releaseFrom hrest
      -- the number of frames that changed is part of the counter
      have hmax := hr.counted.free_lt (show Physical _ by rwa [Physical, hr.total])
      have hcount : ((a.clearBit i).releaseFrom (i + 1) n).1 + 1 ≤ Word.maximum := by
        rw [hr.count] at hmax
        omega
      have hstep := ih hc (show (a.clearBit i).Physical from hp) hrest
      simp only [bind, Except.bind, hb, if_true, Checked.clear_eq hword (h.free_lt hp), hstep,
        Checked.add_eq hcount]
      rfl
    · simp only [bind, Except.bind, hb, if_false, ih h hp hrest, Bool.false_eq_true]

theorem checked_reserveFrom (h : a.Counted) (hp : a.Physical)
    (hn : ∀ j, i ≤ j → j < i + n → j < a.total) :
    Checked.reserveFrom a i n = .ok (a.reserveFrom i n) := by
  induction n generalizing a i with
  | zero => rfl
  | succ n ih =>
    have hi : i < a.total := hn i (Nat.le_refl i) (by omega)
    have hrest : ∀ j, i + 1 ≤ j → j < i + 1 + n → j < a.total :=
      fun j hle hlt => hn j (by omega) (by omega)
    have hword := h.word_lt hi
    rw [Checked.reserveFrom, FrameAllocator.reserveFrom, Checked.test_eq hword]
    by_cases hb : a.bit i = true
    · simp only [bind, Except.bind, hb, if_true, ih h hp hrest]
    · have hclear : a.bit i = false := by simpa using hb
      have hpos := h.free_pos (mem_vacant.mpr ⟨hi, hclear⟩)
      have hs := h.setBit hi hclear
      have hr := hs.reserveFrom hrest
      have hcount : ((a.setBit i).reserveFrom (i + 1) n).1 + 1 ≤ Word.maximum := by
        have hle : ((a.setBit i).reserveFrom (i + 1) n).1 ≤ a.free - 1 :=
          (Nat.le_add_left _ _).trans_eq hr.count
        have hmax := h.free_lt hp
        omega
      have hstep := ih hs (show (a.setBit i).Physical from hp) hrest
      simp only [bind, Except.bind, hb, if_false, Checked.set_eq hword hpos, hstep,
        Checked.add_eq hcount, Bool.false_eq_true]
      rfl

theorem checked_releaseRegion (h : a.Counted) (hp : a.Physical) (start size : Nat) :
    Checked.releaseRegion a start size = .ok (a.releaseRegion start size) :=
  h.checked_releaseFrom hp (by omega)

theorem checked_reserveRegion (h : a.Counted) (hp : a.Physical) (start size : Nat) :
    Checked.reserveRegion a start size = .ok (a.reserveRegion start size) :=
  h.checked_reserveFrom hp (by omega)

/-- Where no check stops one step, none stops a list of them. -/
theorem foldlM_eq_foldl {α : Type} {check : FrameAllocator → α → Except Fault FrameAllocator}
    {step : FrameAllocator → α → FrameAllocator}
    (hstep : ∀ a x, a.Counted → a.Physical → check a x = .ok (step a x) ∧ (step a x).Counted ∧
      (step a x).total = a.total) (h : a.Counted) (hp : a.Physical) (xs : List α) :
    xs.foldlM check a = .ok (xs.foldl step a) := by
  induction xs generalizing a with
  | nil => rfl
  | cons x xs ih =>
    obtain ⟨hcheck, hcounted, htotal⟩ := hstep a x h hp
    rw [List.foldlM_cons, hcheck]
    exact ih hcounted (by rwa [Physical, htotal])

theorem checked_seed (h : a.Counted) (hp : a.Physical) (regions : List Region) :
    Checked.seed a regions = .ok (a.seed regions) := by
  have hrelease : ∀ (a : FrameAllocator) (r : Region), a.Counted → a.Physical →
      (do return (← Checked.releaseRegion a r.start r.size).2 : Except Fault FrameAllocator) =
        .ok (a.releaseRegion r.start r.size).2 ∧
      (a.releaseRegion r.start r.size).2.Counted ∧
      (a.releaseRegion r.start r.size).2.total = a.total := by
    intro a r h hp
    have hr := h.releaseRegion r.start r.size
    rw [h.checked_releaseRegion hp]
    exact ⟨rfl, hr.counted, hr.total⟩
  have hreserve : ∀ (a : FrameAllocator) (r : Region), a.Counted → a.Physical →
      (do return (← Checked.reserveRegion a r.start r.size).2 : Except Fault FrameAllocator) =
        .ok (a.reserveRegion r.start r.size).2 ∧
      (a.reserveRegion r.start r.size).2.Counted ∧
      (a.reserveRegion r.start r.size).2.total = a.total := by
    intro a r h hp
    have hr := h.reserveRegion r.start r.size
    rw [h.checked_reserveRegion hp]
    exact ⟨rfl, hr.counted, hr.total⟩
  obtain ⟨released, hrun, hcounted, htotal, -⟩ := h.releaseRegions (regions.filter Region.isUsable)
  rw [Checked.seed, foldlM_eq_foldl hrelease h hp, FrameAllocator.seed, hrun]
  exact foldlM_eq_foldl hreserve hcounted (by rwa [Physical, htotal]) _

theorem checked_allocate (h : a.Counted) (hp : a.Physical) :
    Checked.allocate a = .ok a.allocate := by
  rw [Checked.allocate, FrameAllocator.allocate, FrameAllocator.firstClear]
  by_cases hfree : a.free = 0
  · rw [if_pos hfree, if_pos hfree]
    rfl
  rw [if_neg hfree, if_neg hfree]
  cases hw : a.bitmap.findIdx? (· != BitVec.allOnes 64) with
  | none => rfl
  | some w =>
    obtain ⟨hs, hword, -⟩ := Array.findIdx?_eq_some_iff_getElem.mp hw
    have hne : a.bitmap.getD w 0 ≠ BitVec.allOnes 64 := by
      simpa [Array.getD, hs] using hword
    have hlow := (getLsbD_lowestClear hne).1
    -- the bitmap has few words, because the memory is a physical one
    have hwords := le_wordsFor a.total
    rw [← h.size] at hwords
    rw [Physical, pageSize, physicalBound] at hp
    have hmul : w * 64 ≤ Word.maximum := by rw [Word.maximum]; omega
    have hadd : w * 64 + lowestClear (a.bitmap.getD w 0) ≤ Word.maximum := by
      rw [Word.maximum]; omega
    simp only [bind, Except.bind, Checked.mul_eq hmul, Checked.add_eq hadd, Option.map_some,
      Nat.mul_comm 64 w]
    by_cases hi : w * 64 + lowestClear (a.bitmap.getD w 0) < a.total
    · have hset := Checked.set_eq (h.word_lt hi) (Nat.pos_of_ne_zero hfree)
      have haddress : (w * 64 + lowestClear (a.bitmap.getD w 0)) * pageSize < physicalBound := by
        rw [pageSize, physicalBound]
        omega
      have hmax : (w * 64 + lowestClear (a.bitmap.getD w 0)) * pageSize ≤ Word.maximum :=
        haddress.le.trans (by decide)
      simp only [if_pos hi, if_neg (Nat.not_le.mpr hi), if_neg (Nat.not_le.mpr hlow),
        Checked.mul_eq hmax, if_neg (Nat.not_le.mpr haddress), hset, pure, Except.pure]
    · simp only [if_neg hi, if_pos (Nat.not_lt.mp hi), pure, Except.pure]

theorem checked_release (h : a.Counted) (hp : a.Physical) (address : Nat) :
    Checked.release a address = .ok (a.release address) := by
  rw [Checked.release, FrameAllocator.release, isAllocated]
  by_cases hi : address / pageSize < a.total
  · rw [if_neg (Nat.not_le.mpr hi), Checked.test_eq (h.word_lt hi)]
    by_cases hb : a.bit (address / pageSize) = true
    · simp only [bind, Except.bind, hb, if_true, Checked.clear_eq (h.word_lt hi) (h.free_lt hp),
        decide_eq_true hi, Bool.and_self, pure, Except.pure]
    · simp [bind, Except.bind, hb, pure, Except.pure]
  · simp [if_pos (Nat.not_lt.mp hi), hi, pure, Except.pure]

theorem checked_freeBytes (h : a.Counted) (hp : a.Physical) :
    Checked.freeBytes a = .ok a.freeBytes := Checked.mul_eq (hp.mul_le h.free_le)

theorem checked_usedBytes (h : a.Counted) (hp : a.Physical) :
    Checked.usedBytes a = .ok a.usedBytes := by
  rw [Checked.usedBytes, Checked.sub_eq h.free_le]
  exact Checked.mul_eq (hp.mul_le (Nat.sub_le _ _))

theorem faultless (h : a.Counted) (hp : a.Physical) : a.Faultless where
  allocate := h.checked_allocate hp
  release := h.checked_release hp
  releaseRegion := h.checked_releaseRegion hp
  reserveRegion := h.checked_reserveRegion hp
  seed := h.checked_seed hp
  freeBytes := h.checked_freeBytes hp
  usedBytes := h.checked_usedBytes hp

end Counted

theorem Faultless.perform (h : a.Faultless) (op : Operation) :
    Checked.perform a op = .ok (a.perform op) := by
  cases op with
  | allocate =>
    rw [Checked.perform, h.allocate]
    rfl
  | release address =>
    rw [Checked.perform, h.release]
    rfl
  | releaseRegion start size =>
    rw [Checked.perform, h.releaseRegion]
    rfl
  | reserveRegion start size =>
    rw [Checked.perform, h.reserveRegion]
    rfl
  | seed regions => exact h.seed regions

theorem Counted.checked_run (h : a.Counted) (hp : a.Physical) (ops : List Operation) :
    Checked.run a ops = .ok (a.run ops) :=
  foldlM_eq_foldl (fun _ op h hp => ⟨(h.faultless hp).perform op, h.perform op⟩) h hp ops

/-- The counters agree with the bitmap and with what the operations report. -/
structure Tallied (a : FrameAllocator) : Prop where
  free : a.free = a.freeFrames.length
  tail : ∀ i, a.total ≤ i → i < 64 * a.bitmap.size → a.bit i = true
  bytes : a.freeBytes + a.usedBytes = a.total * pageSize
  released : ∀ start size, (a.releaseRegion start size).2.free =
    a.free + (a.releaseRegion start size).1
  reserved : ∀ start size, (a.reserveRegion start size).2.free + (a.reserveRegion start size).1 =
    a.free

theorem Counted.tallied (h : a.Counted) : a.Tallied where
  free := h.free.trans a.card_vacant
  tail := h.tail
  bytes := by
    rw [freeBytes, usedBytes, ← Nat.add_mul, Nat.add_sub_cancel' h.free_le]
  released := fun start size => (h.releaseRegion start size).count
  reserved := fun start size => (h.reserveRegion start size).count

/-- Over a physical memory, every run goes through with all checks, its counters agree with the
bitmap, and no check stops what comes next. -/
theorem counters_of_run {start : FrameAllocator} (built : Built memory start)
    (hm : memory ≤ physicalBound) (ops : List Operation) :
    ∃ a, Checked.run start ops = .ok a ∧ a = start.run ops ∧ a.total = memory / pageSize ∧
      a.Tallied ∧ a.Faultless := by
  obtain ⟨hcounted, htotal⟩ := built.counted
  have hp : start.Physical := by
    rw [Physical, htotal]
    exact (Nat.div_mul_le_self _ _).trans hm
  obtain ⟨hcounted', htotal'⟩ := hcounted.run ops
  have hp' : (start.run ops).Physical := by rwa [Physical, htotal']
  exact ⟨_, hcounted.checked_run hp ops, rfl, htotal'.trans htotal, hcounted'.tallied,
    hcounted'.faultless hp'⟩

/-- The storage has a word too many, the last word in use is partial, and the regions overlap, wrap
around and reach behind the memory. -/
theorem counters_in_given_storage : ∃ start a, Built (70 * pageSize + 5) start ∧
    Checked.run start [.seed [⟨3, 70 * pageSize, .usable⟩, ⟨60 * pageSize, 4097, .reserved⟩],
      .allocate, .releaseRegion (69 * pageSize) Word.maximum, .release (64 * pageSize),
      .reserveRegion (Word.maximum - 1) 7] = .ok a ∧
    a.total = 70 ∧ a.free = 66 ∧ a.Tallied ∧ a.Faultless := by
  have built : Built (70 * pageSize + 5) ⟨#[BitVec.allOnes 64, BitVec.allOnes 64], 70, 0⟩ :=
    .ofStorage (show ofStorage #[0, 5, 7] (70 * pageSize + 5) = .ok _ by
      simp [ofStorage, wordsFor, Word.ceilDiv, pageSize])
  obtain ⟨a, hrun, ha, htotal, htallied, hfaultless⟩ :=
    counters_of_run built (by decide) [.seed [⟨3, 70 * pageSize, .usable⟩,
      ⟨60 * pageSize, 4097, .reserved⟩], .allocate, .releaseRegion (69 * pageSize) Word.maximum,
      .release (64 * pageSize), .reserveRegion (Word.maximum - 1) 7]
  have hfree : a.free = 66 := by
    rw [ha]
    decide +kernel
  exact ⟨_, a, built, hrun, htotal, hfree, htallied, hfaultless⟩

end KernelCore.FrameAllocator
