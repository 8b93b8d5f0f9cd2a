import Mathlib
import KernelCore.Processor.Window

/-!
# What the window shows

An address below the limit appears at its sum with the offset, if that is a canonical address. A sum
that no word holds stops the machine: it is added before it is looked at. A frame of which the first
and the last byte appear is there as a whole, byte behind byte.
-/
namespace KernelCore

theorem Canonical.between {va n i : Nat} (hlow : Canonical va) (hhigh : Canonical (va + n))
    (hpage : n < pageSize) (hi : i ≤ n) : Canonical (va + i) := by
  rw [pageSize] at hpage
  rw [Canonical] at *
  omega

namespace PhysicalWindow

/-- An address appears in the window. -/
def Shows (w : PhysicalWindow) (address : Nat) : Prop :=
  address < w.limit ∧ Canonical (w.offset + address)

/-- An address is below the limit, but no word holds its sum with the offset. -/
def Overflows (w : PhysicalWindow) (address : Nat) : Prop :=
  address < w.limit ∧ Word.maximum < w.offset + address

instance (w : PhysicalWindow) (address : Nat) : Decidable (w.Shows address) :=
  inferInstanceAs (Decidable (_ ∧ _))

instance (w : PhysicalWindow) (address : Nat) : Decidable (w.Overflows address) :=
  inferInstanceAs (Decidable (_ ∧ _))

variable {w : PhysicalWindow} {address va n i : Nat} {e : PlatformError} {fault : Fault}

theorem Shows.not_overflows (h : w.Shows address) : ¬ w.Overflows address := by
  obtain ⟨-, hcanonical⟩ := h
  rintro ⟨-, hover⟩
  rw [Canonical] at hcanonical
  rw [Word.maximum] at hover
  omega

theorem Shows.between (h : w.Shows address) (hlast : w.Shows (address + n)) (hpage : n < pageSize)
    (hi : i ≤ n) : w.Shows (address + i) := by
  refine ⟨?_, ?_⟩
  · have hlimit := hlast.1
    omega
  · rw [← Nat.add_assoc]
    exact h.2.between (Nat.add_assoc .. ▸ hlast.2) hpage hi

/-- What reaching for an address comes to. -/
inductive Reached (w : PhysicalWindow) (address : Nat) :
    Except Fault (Except PlatformError Nat) → Prop
  | shown (shows : w.Shows address) : Reached w address (.ok (.ok (w.offset + address)))
  | refused (hidden : ¬ w.Shows address) (within : ¬ w.Overflows address) :
      Reached w address (.ok (.error .outOfWindow))
  | stopped (overflows : w.Overflows address) : Reached w address (.error .overflow)

theorem reach_spec (w : PhysicalWindow) (address : Nat) :
    Reached w address (w.reach address).run := by
  rw [reach, Nat.add_comm address]
  split_ifs with houtside hover hcanonical
  · exact .refused (fun hshows => houtside.not_gt hshows.1) fun hover => houtside.not_gt hover.1
  · exact .stopped ⟨Nat.lt_of_not_le houtside, hover⟩
  · exact .shown ⟨Nat.lt_of_not_le houtside, hcanonical⟩
  · exact .refused (fun hshows => hcanonical hshows.2) fun hover' => hover hover'.2

theorem reach_eq_ok : (w.reach address).run = .ok (.ok va) ↔
    w.Shows address ∧ va = w.offset + address := by
  have hspec := w.reach_spec address
  generalize (w.reach address).run = r at hspec
  cases hspec with
  | shown shows => simp [shows, eq_comm]
  | refused hidden within => simp [hidden]
  | stopped overflows => simp [show ¬ w.Shows address from fun h => h.not_overflows overflows]

theorem reach_eq_refused : (w.reach address).run = .ok (.error e) ↔
    e = .outOfWindow ∧ ¬ w.Shows address ∧ ¬ w.Overflows address := by
  have hspec := w.reach_spec address
  generalize (w.reach address).run = r at hspec
  cases hspec with
  | shown shows => simp [shows]
  | refused hidden within => simp [hidden, within, eq_comm]
  | stopped overflows => simp [overflows]

theorem reach_eq_fault : (w.reach address).run = .error fault ↔
    fault = .overflow ∧ w.Overflows address := by
  have hspec := w.reach_spec address
  generalize (w.reach address).run = r at hspec
  cases hspec with
  | shown shows => simp [shows.not_overflows]
  | refused hidden within => simp [within]
  | stopped overflows => simp [overflows, eq_comm]

/-! ### Frames -/

/-- Both ends of the frame at an address appear in the window. -/
def ShowsFrame (w : PhysicalWindow) (address : Nat) : Prop :=
  w.Shows address ∧ w.Shows (address + (pageSize - 1))

/-- The first byte of the frame at an address overflows, or the last one if the first appears. -/
def FrameOverflows (w : PhysicalWindow) (address : Nat) : Prop :=
  w.Overflows address ∨ w.Shows address ∧ w.Overflows (address + (pageSize - 1))

/-- What reaching for the table in a frame comes to. -/
inductive FrameReached (w : PhysicalWindow) (address : Nat) :
    Except Fault (Except PlatformError Nat) → Prop
  | misaligned (between : address % pageSize ≠ 0) :
      FrameReached w address (.ok (.error .misaligned))
  | shown (aligned : address % pageSize = 0) (shows : w.ShowsFrame address) :
      FrameReached w address (.ok (.ok (w.offset + address)))
  | refused (aligned : address % pageSize = 0) (hidden : ¬ w.ShowsFrame address)
      (within : ¬ w.FrameOverflows address) : FrameReached w address (.ok (.error .outOfWindow))
  | stopped (aligned : address % pageSize = 0) (overflows : w.FrameOverflows address) :
      FrameReached w address (.error .overflow)

theorem tableAt_run (w : PhysicalWindow) (address : Nat) : (w.tableAt address).run =
    if address % pageSize ≠ 0 then .ok (.error .misaligned)
    else (w.reach address).run.bind fun
      | .error e => .ok (.error e)
      | .ok first => (w.reach (address + (pageSize - 1))).run.map fun last =>
          last.map fun _ => first := by
  rw [tableAt, reachFrame]
  split_ifs with haligned
  · rfl
  · rw [ExceptT.run_bind]
    refine congrArg (Except.bind (w.reach address).run) (funext fun r => ?_)
    cases r with
    | error e => rfl
    | ok first =>
      show (w.reach (address + (pageSize - 1)) >>= fun _ => pure first).run = _
      rw [ExceptT.run_bind]
      rcases (w.reach (address + (pageSize - 1))).run with fault | e | last <;> rfl

theorem tableAt_spec (w : PhysicalWindow) (address : Nat) :
    FrameReached w address (w.tableAt address).run := by
  rw [tableAt_run]
  split_ifs with hbetween
  · exact .misaligned hbetween
  have haligned : address % pageSize = 0 := Decidable.of_not_not hbetween
  have hfirst := w.reach_spec address
  have hlast := w.reach_spec (address + (pageSize - 1))
  generalize (w.reach address).run = first at hfirst
  generalize (w.reach (address + (pageSize - 1))).run = last at hlast
  cases hfirst with
  | refused hidden within =>
    exact .refused haligned (fun hshows => hidden hshows.1) fun hover =>
      hover.elim within fun hshown => hidden hshown.1
  | stopped overflows => exact .stopped haligned (.inl overflows)
  | shown shows =>
    cases hlast with
    | shown shows' => exact .shown haligned ⟨shows, shows'⟩
    | stopped overflows => exact .stopped haligned (.inr ⟨shows, overflows⟩)
    | refused hidden within =>
      exact .refused haligned (fun hshows => hidden hshows.2) fun hover =>
        hover.elim shows.not_overflows fun hover' => within hover'.2

theorem tableAt_eq_ok : (w.tableAt address).run = .ok (.ok va) ↔
    address % pageSize = 0 ∧ w.ShowsFrame address ∧ va = w.offset + address := by
  have hspec := w.tableAt_spec address
  generalize (w.tableAt address).run = r at hspec
  cases hspec with
  | misaligned between => simp [between]
  | shown aligned shows => simp [aligned, shows, eq_comm]
  | refused aligned hidden within => simp [hidden]
  | stopped aligned overflows =>
    have hhidden : ¬ w.ShowsFrame address := fun hshows =>
      overflows.elim hshows.1.not_overflows fun hover => hshows.2.not_overflows hover.2
    simp [hhidden]

theorem tableAt_eq_misaligned : (w.tableAt address).run = .ok (.error .misaligned) ↔
    address % pageSize ≠ 0 := by
  have hspec := w.tableAt_spec address
  generalize (w.tableAt address).run = r at hspec
  cases hspec with
  | misaligned between => simp [between]
  | shown aligned shows => simp [aligned]
  | refused aligned hidden within => simp [aligned]
  | stopped aligned overflows => simp [aligned]

theorem tableAt_eq_fault : (w.tableAt address).run = .error fault ↔
    fault = .overflow ∧ address % pageSize = 0 ∧ w.FrameOverflows address := by
  have hspec := w.tableAt_spec address
  generalize (w.tableAt address).run = r at hspec
  cases hspec with
  | misaligned between => simp [between]
  | shown aligned shows =>
    have hwithin : ¬ w.FrameOverflows address := fun hover =>
      hover.elim shows.1.not_overflows fun hover' => shows.2.not_overflows hover'.2
    simp [hwithin]
  | refused aligned hidden within => simp [within]
  | stopped aligned overflows => simp [aligned, overflows, eq_comm]

theorem frame_lt_physicalBound (hphysical : address < physicalBound)
    (haligned : address % pageSize = 0) (hi : i < pageSize) : address + i < physicalBound := by
  rw [physicalBound, pageSize] at *
  omega

/-- An address below the limit is answered by its sum with the offset if that is canonical, and it
stops the machine exactly if the sum is no word. A table is there exactly if its frame is aligned
and both ends of it appear, and then all of it appears in one piece. -/
theorem window_exact (w : PhysicalWindow) {address : Nat} (hphysical : address < physicalBound) :
    (∀ va, (w.reach address).run = .ok (.ok va) ↔ w.Shows address ∧ va = w.offset + address) ∧
    (∀ e, (w.reach address).run = .ok (.error e) ↔
      e = .outOfWindow ∧ ¬ w.Shows address ∧ ¬ w.Overflows address) ∧
    (∀ fault, (w.reach address).run = .error fault ↔ fault = .overflow ∧ w.Overflows address) ∧
    (∀ va, (w.tableAt address).run = .ok (.ok va) ↔
      address % pageSize = 0 ∧ w.ShowsFrame address ∧ va = w.offset + address) ∧
    ((w.tableAt address).run = .ok (.error .misaligned) ↔ address % pageSize ≠ 0) ∧
    (∀ fault, (w.tableAt address).run = .error fault ↔
      fault = .overflow ∧ address % pageSize = 0 ∧ w.FrameOverflows address) ∧
    ∀ va, (w.tableAt address).run = .ok (.ok va) → va % pageSize = w.offset % pageSize ∧
      ∀ i < pageSize, address + i < physicalBound ∧
        (w.reach (address + i)).run = .ok (.ok (va + i)) := by
  refine ⟨fun _ => reach_eq_ok, fun _ => reach_eq_refused, fun _ => reach_eq_fault,
    fun _ => tableAt_eq_ok, tableAt_eq_misaligned, fun _ => tableAt_eq_fault, fun va hva => ?_⟩
  obtain ⟨haligned, ⟨hfirst, hlast⟩, rfl⟩ := tableAt_eq_ok.mp hva
  refine ⟨?_, fun i hi => ⟨frame_lt_physicalBound hphysical haligned hi, ?_⟩⟩
  · rw [Nat.add_mod, haligned, Nat.add_zero, Nat.mod_mod]
  · exact reach_eq_ok.mpr ⟨hfirst.between hlast (by decide) (Nat.le_sub_one_of_lt hi),
      Nat.add_assoc ..⟩

/-- The last frame below the limit appears in the upper half, byte behind byte. -/
theorem window_exact_at_limit : 0x1000 < physicalBound ∧
    (tableAt ⟨0xFFFF800000000000, 0x2000⟩ 0x1000).run = .ok (.ok 0xFFFF800000001000) ∧
    ∀ i < pageSize, (reach ⟨0xFFFF800000000000, 0x2000⟩ (0x1000 + i)).run =
      .ok (.ok (0xFFFF800000001000 + i)) := by
  have hphysical : 0x1000 < physicalBound := by decide
  obtain ⟨-, -, -, htable, -, -, himages⟩ :=
    window_exact ⟨0xFFFF800000000000, 0x2000⟩ hphysical
  have hva := (htable 0xFFFF800000001000).mpr ⟨by decide, ⟨by decide, by decide⟩, rfl⟩
  exact ⟨hphysical, hva, fun i hi => ((himages _ hva).2 i hi).2⟩

/-- An address that does not appear is not always refused: this one is below the limit, and its sum
with the offset is one more than the largest word. -/
theorem stopped_below_limit : 0x800000000000 < physicalBound ∧
    ¬ Shows ⟨0xFFFF800000000000, physicalBound⟩ 0x800000000000 ∧
    (reach ⟨0xFFFF800000000000, physicalBound⟩ 0x800000000000).run ≠ .ok (.error .outOfWindow) ∧
    (reach ⟨0xFFFF800000000000, physicalBound⟩ 0x800000000000).run = .error .overflow := by
  have hover : Overflows ⟨0xFFFF800000000000, physicalBound⟩ 0x800000000000 := by decide
  refine ⟨by decide, by decide, fun hrefused => ?_, reach_eq_fault.mpr ⟨rfl, hover⟩⟩
  exact (reach_eq_refused.mp hrefused).2.2 hover

end PhysicalWindow

end KernelCore
