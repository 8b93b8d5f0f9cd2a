import Mathlib
import KernelCore.Proofs.Scheduler.Queue
import KernelCore.Proofs.Scheduler.Turns

/-!
# The search for the next process

The search goes round the run queue once. It starts behind the current process, goes on at the head
after the tail and ends with the current process itself; the first ready process on the way is the
one that it picks.
-/
namespace KernelCore

section TurnOrder

variable {α : Type} [DecidableEq α] {l xs ys : List α} {c : α}
variable {current : Option α}

/-- A list from behind one of its members round to that member. -/
def turnOrder (l : List α) : Option α → List α
  | none => l
  | some c =>
    (l.dropWhile (· ≠ c)).tail ++ (l.takeWhile (· ≠ c) ++ (l.dropWhile (· ≠ c)).take 1)

theorem turnOrder_split (hc : c ∉ xs) :
    turnOrder (xs ++ c :: ys) (some c) = ys ++ (xs ++ [c]) := by
  have hxs : ∀ x ∈ xs, decide (x ≠ c) = true := fun x hx => by
    simpa using ne_of_mem_of_not_mem hx hc
  have htake : (xs ++ c :: ys).takeWhile (· ≠ c) = xs := by
    rw [List.takeWhile_append_of_pos hxs, List.takeWhile_cons_of_neg (by simp), List.append_nil]
  have hdrop : (xs ++ c :: ys).dropWhile (· ≠ c) = c :: ys := by
    rw [List.dropWhile_append_of_pos hxs, List.dropWhile_cons_of_neg (by simp)]
  rw [turnOrder, htake, hdrop]
  rfl

theorem turnOrder_of_not_mem (hc : c ∉ l) : turnOrder l (some c) = l := by
  have hl : ∀ x ∈ l, decide (x ≠ c) = true := fun x hx => by
    simpa using ne_of_mem_of_not_mem hx hc
  rw [turnOrder, List.takeWhile_eq_self_iff.mpr hl, List.dropWhile_eq_nil_iff.mpr hl]
  simp

theorem turnOrder_perm (l : List α) (current : Option α) : (turnOrder l current).Perm l := by
  cases current with
  | none => exact .refl l
  | some c =>
    by_cases hc : c ∈ l
    · obtain ⟨xs, ys, rfl, hxs⟩ := List.eq_append_cons_of_mem hc
      rw [turnOrder_split hxs, List.append_cons xs c ys]
      exact List.perm_append_comm
    · rw [turnOrder_of_not_mem hc]

theorem turnOrder_turnOrder (hl : l.Nodup) {a : α} (ha : a ∈ l) :
    turnOrder (turnOrder l current) (some a) = turnOrder l (some a) := by
  cases current with
  | none => rfl
  | some c =>
    by_cases hc : c ∈ l
    · obtain ⟨xs, ys, rfl, hxs⟩ := List.eq_append_cons_of_mem hc
      rw [turnOrder_split hxs]
      obtain ⟨-, hcy, hdisjoint⟩ := List.nodup_append'.mp hl
      obtain ⟨hcys, -⟩ := List.nodup_cons.mp hcy
      rcases List.mem_append.mp ha with hax | hacy
      · have hay : a ∉ ys := fun hay => hdisjoint hax (List.mem_cons_of_mem c hay)
        obtain ⟨us, vs, rfl, hau⟩ := List.eq_append_cons_of_mem hax
        have hleft : ys ++ (us ++ a :: vs ++ [c]) = (ys ++ us) ++ a :: (vs ++ [c]) := by simp
        have hright : us ++ a :: vs ++ c :: ys = us ++ a :: (vs ++ c :: ys) := by simp
        rw [hleft, hright, turnOrder_split (by simp [hay, hau]), turnOrder_split hau]
        simp
      rcases List.mem_cons.mp hacy with rfl | hay
      · have hleft : ys ++ (xs ++ [a]) = (ys ++ xs) ++ a :: [] := by simp
        rw [hleft, turnOrder_split (by simp [hcys, hxs]), turnOrder_split hxs]
        simp
      · have hax : a ∉ xs := fun hax => hdisjoint hax hacy
        have hac : a ≠ c := ne_of_mem_of_not_mem hay hcys
        obtain ⟨us, vs, rfl, hau⟩ := List.eq_append_cons_of_mem hay
        have hleft : us ++ a :: vs ++ (xs ++ [c]) = us ++ a :: (vs ++ (xs ++ [c])) := by simp
        have hright : xs ++ c :: (us ++ a :: vs) = (xs ++ c :: us) ++ a :: vs := by simp
        rw [hleft, hright, turnOrder_split hau, turnOrder_split (by simp [hax, hac, hau])]
        simp
    · rw [turnOrder_of_not_mem hc]

end TurnOrder

namespace Scheduler

/-- Whether the process in a slot is ready. -/
def readyAt (s : Scheduler) (slot : Nat) : Bool := (s.process? slot).any (·.state = .ready)

/-- The search goes on from one slot to another. -/
def Follows (s : Scheduler) (head slot next : Nat) : Prop :=
  ∃ p, s.process? slot = some p ∧ p.next.getD head = next

variable {s : Scheduler} {head start slot : Nat} {first last next : Option Nat}
variable {l xs ys rest : List Nat}

theorem exists_of_readyAt (h : s.readyAt slot = true) :
    ∃ p, s.process? slot = some p ∧ p.state = .ready := by
  obtain ⟨p, hp, hr⟩ := (Option.any_eq_true _ _).mp h
  exact ⟨p, hp, of_decide_eq_true hr⟩

theorem Segment.follows (h : s.Segment first l last) (head : Nat) :
    (l ++ [last.getD head]).IsChain (s.Follows head) ∧
      (l ++ [last.getD head]).head? = some (first.getD head) := by
  induction h with
  | nil first => exact ⟨List.isChain_singleton _, rfl⟩
  | @cons slot next last l link _ ih =>
    obtain ⟨p, hp, rfl⟩ := Option.map_eq_some_iff.mp link
    obtain ⟨hchain, hhead⟩ := ih
    refine ⟨List.isChain_cons.mpr ⟨fun i hi => ⟨p, hp, ?_⟩, hchain⟩, rfl⟩
    exact Option.some.inj (hhead.symm.trans hi)

theorem firstReady_eq_find? {fuel : Nat} (hc : (slot :: rest ++ [start]).IsChain (s.Follows head))
    (hstart : start ∉ rest) (hf : rest.length < fuel) :
    s.firstReady head start fuel slot = (slot :: rest).find? s.readyAt := by
  induction rest generalizing slot fuel with
  | nil =>
    obtain ⟨fuel, rfl⟩ : ∃ n, fuel = n + 1 := ⟨fuel - 1, by omega⟩
    obtain ⟨p, hp, hnext⟩ := List.isChain_cons.mp hc |>.1 start rfl
    simp only [firstReady, hp, hnext, if_true, List.find?_cons, readyAt, Option.any_some]
    by_cases hr : p.state = .ready <;> simp [hr]
  | cons next rest ih =>
    obtain ⟨fuel, rfl⟩ : ∃ n, fuel = n + 1 := ⟨fuel - 1, by omega⟩
    obtain ⟨hlink, hc⟩ := List.isChain_cons.mp hc
    obtain ⟨p, hp, hnext⟩ := hlink next rfl
    rw [List.mem_cons, not_or] at hstart
    have hrest := ih hc hstart.2 (Nat.lt_of_succ_lt_succ hf)
    simp only [firstReady, hp, hnext, if_neg (Ne.symm hstart.1), hrest]
    rw [List.find?_cons (a := slot)]
    by_cases hr : p.state = .ready <;> simp [readyAt, hp, hr]

/-- From the slots behind the current one on, the search comes back to where it started. -/
theorem Segment.follows_round (hx : s.Segment (some head) xs next) (hy : s.Segment next ys none) :
    (ys ++ (xs ++ [next.getD head])).IsChain (s.Follows head) ∧
      (ys ++ (xs ++ [next.getD head])).head? = some (next.getD head) := by
  obtain ⟨hxs, hxhead⟩ := hx.follows head
  obtain ⟨hys, hyhead⟩ := hy.follows head
  obtain ⟨round, hround⟩ := List.head?_eq_some_iff.mp hxhead
  simp only [Option.getD_some] at hround
  simp only [Option.getD_none] at hys hyhead
  rw [hround] at hxs ⊢
  constructor
  · rw [← List.singleton_append] at hxs ⊢
    have hchain := hys.append_overlap hxs (List.cons_ne_nil _ _)
    rwa [List.append_assoc] at hchain
  · rw [← hyhead, List.head?_append, List.head?_append]
    rfl

namespace Threaded

theorem scanStart_of_mem (h : s.Threaded l) {c : Nat} (hc : s.current = some c) (hmem : c ∈ l)
    (head : Nat) :
    ∃ p, s.process? c = some p ∧ s.scanStart head = p.next.getD head := by
  obtain ⟨p, hp⟩ := Option.isSome_iff_exists.mp (h.isSome hmem)
  have hq : p.queued = true := (h.queued c p hp).mpr hmem
  refine ⟨p, hp, ?_⟩
  rw [scanStart, currentProcess, hc, Option.bind_some, hp, Option.filter_some, if_pos hq]
  rfl

theorem scanStart_of_not_mem (h : s.Threaded l) {c : Nat} (hc : s.current = some c)
    (hmem : c ∉ l) (head : Nat) : s.scanStart head = head := by
  have hnone : s.currentProcess.filter (·.queued) = none := by
    rw [currentProcess, hc, Option.bind_some, Option.filter_eq_none_iff]
    exact fun p hp hq => hmem ((h.queued c p hp).mp hq)
  rw [scanStart, hnone]
  rfl

theorem turnOrder_round (h : s.Threaded l) (hhead : s.head = some head) :
    (turnOrder l s.current ++ [s.scanStart head]).IsChain (s.Follows head) ∧
      (turnOrder l s.current).head? = some (s.scanStart head) := by
  have hlinks := h.links
  rw [hhead] at hlinks
  obtain ⟨tail, rfl⟩ : ∃ tail, l = head :: tail := by
    cases hlinks with
    | cons link rest => exact ⟨_, rfl⟩
  have hfromHead : s.scanStart head = head → turnOrder (head :: tail) s.current = head :: tail →
      (turnOrder (head :: tail) s.current ++ [s.scanStart head]).IsChain (s.Follows head) ∧
        (turnOrder (head :: tail) s.current).head? = some (s.scanStart head) := by
    intro hstart horder
    rw [hstart, horder]
    exact ⟨(hlinks.follows head).1, rfl⟩
  cases hc : s.current with
  | none =>
    rw [hc] at hfromHead
    exact hfromHead (by rw [scanStart, currentProcess, hc]; rfl) rfl
  | some c =>
    rw [hc] at hfromHead
    by_cases hmem : c ∈ head :: tail
    · obtain ⟨p, hp, hstart⟩ := h.scanStart_of_mem hc hmem head
      obtain ⟨xs, ys, hl, hxs⟩ := List.eq_append_cons_of_mem hmem
      rw [hl] at h hlinks ⊢
      obtain ⟨middle, hx, hy⟩ := segment_append.mp hlinks
      have hxc : s.Segment (some head) (xs ++ [c]) p.next := by
        refine segment_append.mpr ⟨middle, hx, ?_⟩
        cases hy with
        | cons link rest => exact segment_singleton (by rw [linkOf, hp, Option.map_some])
      obtain ⟨hchain, hfirst⟩ := hxc.follows_round (h.next_eq hp)
      rw [turnOrder_split hxs, hstart]
      rw [← List.append_assoc] at hchain hfirst
      have hne : ys ++ (xs ++ [c]) ≠ [] := by simp
      exact ⟨hchain, (List.head?_append_of_ne_nil _ hne).symm.trans hfirst⟩
    · exact hfromHead (h.scanStart_of_not_mem hc hmem head) (turnOrder_of_not_mem hmem)

theorem firstReady_eq (h : s.Threaded l) (hhead : s.head = some head) :
    s.firstReady head (s.scanStart head) s.slots.size (s.scanStart head) =
      (turnOrder l s.current).find? s.readyAt := by
  obtain ⟨hchain, hfirst⟩ := h.turnOrder_round hhead
  have hperm := turnOrder_perm l s.current
  obtain ⟨rest, hrest⟩ := List.head?_eq_some_iff.mp hfirst
  rw [hrest] at hchain hperm ⊢
  have hnodup := hperm.nodup_iff.mpr h.nodup
  have hlength := hperm.length_eq.trans_le h.length_le
  exact firstReady_eq_find? hchain (List.nodup_cons.mp hnodup).1 hlength

theorem next_turn (h : s.Threaded l) :
    s.next = match (turnOrder l s.current).find? s.readyAt with
      | some slot => ((s.promote slot).currentPid, s.promote slot)
      | none => (if l = [] then none else s.currentPid, s) := by
  have hl := h.links.first_eq
  unfold next
  cases hhead : s.head with
  | none =>
    obtain rfl : l = [] := List.head?_eq_none_iff.mp (hl.symm.trans hhead)
    have hnil : turnOrder [] s.current = [] := (turnOrder_perm [] s.current).eq_nil
    simp [hnil]
  | some head =>
    dsimp only
    have hne : l ≠ [] := by
      rintro rfl
      rw [hhead] at hl
      cases hl
    rw [h.firstReady_eq hhead]
    cases (turnOrder l s.current).find? s.readyAt with
    | some slot => rfl
    | none => simp [hne]

end Threaded

end Scheduler

end KernelCore
