import Mathlib
import KernelCore.Scheduler.Lifecycle

/-!
# The links of the run queue

The run queue is threaded through the slots of the process table: the links lead from its head
through the queued processes, each once, to its tail. Linking puts a slot at the end, and unlinking
takes one out wherever it is.
-/
namespace KernelCore

/-- What a process holds for the run queue. -/
def Process.hook (p : Process) : Option Nat × Bool := (p.next, p.queued)

/-- Enters the run queue at its end. -/
def Process.enter (p : Process) : Process := { p with queued := true, next := none }

/-- Leaves the run queue. -/
def Process.leave (p : Process) : Process := { p with queued := false, next := none }

/-- Links to another process. -/
def Process.linkTo (next : Option Nat) (p : Process) : Process := { p with next }

namespace Scheduler

/-- The link of the process in a slot. -/
def linkOf (s : Scheduler) (slot : Nat) : Option (Option Nat) := (s.process? slot).map (·.next)

/-- The links lead from `first` through the given slots to `last`. -/
inductive Segment (s : Scheduler) : Option Nat → List Nat → Option Nat → Prop
  | nil (first : Option Nat) : Segment s first [] first
  | cons {slot : Nat} {next last : Option Nat} {l : List Nat} (link : s.linkOf slot = some next)
      (rest : Segment s next l last) : Segment s (some slot) (slot :: l) last

/-- The links lead through the given slots, which are those of the queued processes. -/
structure Threaded (s : Scheduler) (l : List Nat) : Prop where
  links : s.Segment s.head l none
  nodup : l.Nodup
  tail : s.tail = l.getLast?
  queued : ∀ slot p, s.process? slot = some p → (p.queued = true ↔ slot ∈ l)
  unlinked : ∀ slot p, s.process? slot = some p → p.queued = false → p.next = none

/-- The process of a slot was replaced, and the one in front of it got a new link. -/
def Rewired (s s' : Scheduler) (slot : Nat) (p : Process) (before next : Option Nat) : Prop :=
  ∀ i, s'.process? i = if i = slot then some p
    else if before = some i then (s.process? i).map (·.linkTo next) else s.process? i

variable {s s' : Scheduler} {first last next before : Option Nat} {l xs ys : List Nat}
variable {slot i t : Nat} {p : Process}

theorem segment_append : s.Segment first (xs ++ ys) last ↔
    ∃ middle, s.Segment first xs middle ∧ s.Segment middle ys last := by
  induction xs generalizing first with
  | nil =>
    refine ⟨fun h => ⟨first, .nil first, h⟩, fun ⟨middle, hx, hy⟩ => ?_⟩
    cases hx
    exact hy
  | cons x xs ih =>
    constructor
    · rintro (_ | ⟨link, rest⟩)
      obtain ⟨middle, hx, hy⟩ := ih.mp rest
      exact ⟨middle, .cons link hx, hy⟩
    · rintro ⟨middle, _ | ⟨link, rest⟩, hy⟩
      exact .cons link (ih.mpr ⟨middle, rest, hy⟩)

theorem segment_singleton (link : s.linkOf slot = some next) :
    s.Segment (some slot) [slot] next := .cons link (.nil next)

theorem Segment.first_eq (h : s.Segment first l none) : first = l.head? := by
  cases h <;> rfl

theorem Segment.congr (h : s.Segment first l last) (hl : ∀ i ∈ l, s'.linkOf i = s.linkOf i) :
    s'.Segment first l last := by
  induction h with
  | nil => exact .nil _
  | @cons slot _ _ l link _ ih =>
    refine .cons ?_ (ih fun i hi => hl i (List.mem_cons_of_mem _ hi))
    rw [hl slot (List.mem_cons_self ..), link]

theorem Segment.isSome (h : s.Segment first l last) (hi : i ∈ l) : (s.process? i).isSome := by
  induction h with
  | nil => cases hi
  | cons link _ ih =>
    rcases List.mem_cons.mp hi with rfl | hi
    · rw [← Option.isSome_map, ← linkOf, link]
      rfl
    · exact ih hi

/-- The links behind the slots `xs` are replaced: only the last one of these gets another link. -/
theorem Segment.splice {zs : List Nat} (h : s.Segment first (xs ++ zs) none)
    (hnew : s'.Segment next ys none) (hnodup : xs.Nodup)
    (hlast : ∀ t, xs.getLast? = some t → s'.linkOf t = some next)
    (hsame : ∀ i ∈ xs, xs.getLast? ≠ some i → s'.linkOf i = s.linkOf i) :
    s'.Segment (xs ++ ys).head? (xs ++ ys) none := by
  rcases List.eq_nil_or_concat' xs with rfl | ⟨xs, t, rfl⟩
  · obtain rfl := hnew.first_eq
    exact hnew
  · obtain ⟨m, hx, -⟩ := segment_append.mp h
    obtain ⟨m', hx, ht⟩ := segment_append.mp hx
    have hm' : m' = some t := by
      cases ht
      rfl
    have hfirst : first = (xs ++ [t] ++ ys).head? := by
      rw [h.first_eq]
      simp
    have hkept : ∀ i ∈ xs, s'.linkOf i = s.linkOf i := fun i hi => by
      refine hsame i (by simp [hi]) fun heq => ?_
      have hdisjoint := List.disjoint_of_nodup_append hnodup
      obtain rfl : t = i := by simpa using heq
      exact hdisjoint hi (by simp)
    rw [← hfirst, List.append_assoc]
    refine segment_append.mpr ⟨m', hx.congr hkept, ?_⟩
    rw [hm']
    exact .cons (hlast t (by simp)) hnew

theorem Segment.linksFrom {fuel : Nat} (h : s.Segment first l none) (hf : l.length ≤ fuel) :
    s.linksFrom fuel first = l := by
  induction l generalizing first fuel with
  | nil =>
    cases h
    cases fuel <;> rfl
  | cons slot l ih =>
    obtain ⟨fuel, rfl⟩ : ∃ n, fuel = n + 1 := ⟨fuel - 1, by rw [List.length_cons] at hf; omega⟩
    cases h with
    | cons link rest =>
      obtain ⟨p, hp, rfl⟩ := Option.map_eq_some_iff.mp link
      rw [Scheduler.linksFrom, hp]
      exact congrArg _ (ih rest (Nat.le_of_succ_le_succ hf))

theorem lt_size_of_isSome (h : (s.process? slot).isSome) : slot < s.slots.size := by
  by_contra hge
  rw [process?, Array.getElem?_eq_none (Nat.not_lt.mp hge)] at h
  cases h

theorem Rewired.linkOf_slot (h : s.Rewired s' slot p before next) :
    s'.linkOf slot = some p.next := by
  rw [linkOf, h, if_pos rfl, Option.map_some]

theorem Rewired.linkOf_before (h : s.Rewired s' slot p before next) (hne : t ≠ slot)
    (ht : before = some t) (hsome : (s.process? t).isSome) : s'.linkOf t = some next := by
  obtain ⟨q, hq⟩ := Option.isSome_iff_exists.mp hsome
  rw [linkOf, h, if_neg hne, if_pos ht, hq]
  rfl

theorem Rewired.linkOf_of_ne (h : s.Rewired s' slot p before next) (hi : i ≠ slot)
    (hb : before ≠ some i) : s'.linkOf i = s.linkOf i := by
  rw [linkOf, h, if_neg hi, if_neg hb, linkOf]

theorem link_of_empty (hp : s.process? slot = some p) (hq : p.queued = false)
    (ht : s.tail = none) : s.link slot =
      (true, { s.update slot .enter with head := some slot, tail := some slot }) := by
  have htail : ∀ f, (s.update slot f).tail = none := fun _ => ht
  simp only [link, hp, hq, htail, Option.filter_none]
  rfl

theorem link_of_tail (hp : s.process? slot = some p) (hq : p.queued = false)
    (ht : s.tail = some t) (hne : t ≠ slot) (hlive : (s.process? t).isSome) : s.link slot =
      (true,
        { (s.update slot .enter).update t (·.linkTo (some slot)) with tail := some slot }) := by
  have htail : ∀ f, (s.update slot f).tail = some t := fun _ => ht
  have hkept : ∀ f, (s.update slot f).process? t = s.process? t := fun f => by
    rw [process?_update, if_neg hne.symm]
  simp only [link, hp, hq, htail, hkept, hlive, Option.filter_some]
  rfl

theorem unlink_of_first (hp : s.process? slot = some p) (hq : p.queued = true)
    (hb : (s.order.takeWhile (· != slot)).getLast? = none) : s.unlink slot =
      (true, { s.update slot .leave with
        head := p.next, tail := if s.tail = some slot then none else s.tail }) := by
  have htail : ∀ f, (s.update slot f).tail = s.tail := fun _ => rfl
  simp only [unlink, hp, hq, hb, htail, Bool.not_true, Bool.false_eq_true, if_false]
  by_cases ht : s.tail = some slot
  · simp only [if_pos ht]
    rfl
  · simp only [if_neg ht]
    rfl

theorem unlink_of_behind (hp : s.process? slot = some p) (hq : p.queued = true)
    (hb : (s.order.takeWhile (· != slot)).getLast? = some t) : s.unlink slot =
      (true, { (s.update slot .leave).update t (·.linkTo p.next) with
        tail := if s.tail = some slot then some t else s.tail }) := by
  have htail : ∀ f g, ((s.update slot f).update t g).tail = s.tail := fun _ _ => rfl
  simp only [unlink, hp, hq, hb, htail, Bool.not_true, Bool.false_eq_true, if_false]
  by_cases ht : s.tail = some slot
  · simp only [if_pos ht]
    rfl
  · simp only [if_neg ht]
    rfl

namespace Threaded

theorem isSome (h : s.Threaded l) (hi : i ∈ l) : (s.process? i).isSome := h.links.isSome hi

theorem length_le (h : s.Threaded l) : l.length ≤ s.slots.size := by
  have hsub : l ⊆ List.range s.slots.size := fun i hi =>
    List.mem_range.mpr (lt_size_of_isSome (h.isSome hi))
  have hle := (h.nodup.subperm hsub).length_le
  rwa [List.length_range] at hle

theorem order_eq (h : s.Threaded l) : s.order = l := h.links.linksFrom h.length_le

theorem not_mem (h : s.Threaded l) (hp : s.process? slot = some p) (hq : p.queued = false) :
    slot ∉ l := fun hi => by
  rw [(h.queued slot p hp).mpr hi] at hq
  cases hq

theorem agree (h : s.Threaded l) (hhead : s'.head = s.head) (htail : s'.tail = s.tail)
    (hlinks : ∀ i ∈ l, s'.linkOf i = s.linkOf i)
    (hhooks : ∀ i p', s'.process? i = some p' →
      (∃ p, s.process? i = some p ∧ p'.hook = p.hook) ∨ i ∉ l ∧ p'.hook = (none, false)) :
    s'.Threaded l where
  links := by
    rw [hhead]
    exact h.links.congr hlinks
  nodup := h.nodup
  tail := htail.trans h.tail
  queued i p' hp' := by
    rcases hhooks i p' hp' with ⟨p, hp, hhook⟩ | ⟨hi, hhook⟩
    · have hq : p'.queued = p.queued := congrArg Prod.snd hhook
      rw [hq, h.queued i p hp]
    · have hq : p'.queued = false := congrArg Prod.snd hhook
      simp [hq, hi]
  unlinked i p' hp' hq' := by
    rcases hhooks i p' hp' with ⟨p, hp, hhook⟩ | ⟨-, hhook⟩
    · have hq : p'.queued = p.queued := congrArg Prod.snd hhook
      have hn : p'.next = p.next := congrArg Prod.fst hhook
      rw [hn]
      exact h.unlinked i p hp (hq.symm.trans hq')
    · exact congrArg Prod.fst hhook

/-- A change of the queue at one slot keeps it threaded if the new links lead through the new list
and the flag of the slot is right. -/
theorem rewired {l' : List Nat} (h : s.Threaded l) (hr : s.Rewired s' slot p before next)
    (hbefore : ∀ t, before = some t → t ∈ l) (hlinks : s'.Segment s'.head l' none)
    (hnodup : l'.Nodup) (htail : s'.tail = l'.getLast?) (hmem : ∀ i, i ≠ slot → (i ∈ l' ↔ i ∈ l))
    (hqueued : p.queued = true ↔ slot ∈ l') (hnext : p.next = none) : s'.Threaded l' := by
  -- the other processes keep their flags, and their links but for the one in front
  have hother : ∀ i q, i ≠ slot → s'.process? i = some q →
      ∃ p, s.process? i = some p ∧ q.queued = p.queued ∧ (before = some i ∨ q.next = p.next) := by
    intro i q hi hq
    rw [hr, if_neg hi] at hq
    split at hq
    · next hb =>
      obtain ⟨p, hp, rfl⟩ := Option.map_eq_some_iff.mp hq
      exact ⟨p, hp, rfl, .inl hb⟩
    · exact ⟨q, hq, rfl, .inr rfl⟩
  refine ⟨hlinks, hnodup, htail, fun i q hi => ?_, fun i q hi hf => ?_⟩
  · by_cases hs : i = slot
    · subst hs
      rw [hr, if_pos rfl] at hi
      cases hi
      exact hqueued
    · obtain ⟨p, hp, hqp, -⟩ := hother i q hs hi
      rw [hqp, h.queued i p hp, hmem i hs]
  · by_cases hs : i = slot
    · subst hs
      rw [hr, if_pos rfl] at hi
      cases hi
      exact hnext
    · obtain ⟨p, hp, hqp, hb | hn⟩ := hother i q hs hi
      · exact absurd (hbefore i hb) (h.not_mem hp (hqp.symm.trans hf))
      · exact hn.trans (h.unlinked i p hp (hqp.symm.trans hf))

theorem link_spec (h : s.Threaded l) (hp : s.process? slot = some p) (hq : p.queued = false) :
    (s.link slot).1 = true ∧ (s.link slot).2.head = (l ++ [slot]).head? ∧
      (s.link slot).2.tail = some slot ∧
      s.Rewired (s.link slot).2 slot p.enter l.getLast? (some slot) := by
  have hslot := h.not_mem hp hq
  have henter := fun i => s.process?_update slot i Process.enter
  have htail := h.tail
  cases hlast : l.getLast? with
  | none =>
    obtain rfl := List.getLast?_eq_none_iff.mp hlast
    rw [link_of_empty hp hq (htail.trans hlast)]
    refine ⟨rfl, rfl, rfl, fun i => (henter i).trans ?_⟩
    by_cases hi : i = slot
    · simp [hi, hp]
    · simp [hi, Ne.symm hi]
  | some t =>
    obtain ⟨xs, rfl⟩ := List.getLast?_eq_some_iff.mp hlast
    have hne : t ≠ slot := by
      rintro rfl
      exact hslot (by simp)
    have hhead : s.head = (xs ++ [t] ++ [slot]).head? := by
      rw [h.links.first_eq]
      simp
    rw [link_of_tail hp hq (htail.trans hlast) hne (h.isSome (by simp))]
    refine ⟨rfl, hhead, rfl, fun i => (process?_update ..).trans ?_⟩
    rw [henter]
    by_cases hi : i = slot
    · simp [hi, hne, hp]
    · simp [hi, Ne.symm hi]

theorem link (h : s.Threaded l) (hp : s.process? slot = some p) (hq : p.queued = false) :
    (s.link slot).2.Threaded (l ++ [slot]) := by
  have hslot := h.not_mem hp hq
  obtain ⟨-, hhead, htail, hr⟩ := h.link_spec hp hq
  generalize (s.link slot).2 = s' at *
  have hlinks := h.links
  rw [← List.append_nil l] at hlinks
  refine h.rewired hr (fun t ht => List.mem_of_getLast? ht) ?_ ?_ (by simp [htail])
    (fun i hi => by simp [hi]) (by simp [Process.enter]) rfl
  · rw [hhead]
    refine hlinks.splice (segment_singleton hr.linkOf_slot) h.nodup (fun t ht => ?_)
      fun i hi hne => hr.linkOf_of_ne (ne_of_mem_of_not_mem hi hslot) hne
    have hmem := List.mem_of_getLast? ht
    exact hr.linkOf_before (ne_of_mem_of_not_mem hmem hslot) ht (h.isSome hmem)
  · rw [List.nodup_append_comm]
    exact List.nodup_cons.mpr ⟨hslot, h.nodup⟩

theorem next_eq (h : s.Threaded (xs ++ slot :: ys)) (hp : s.process? slot = some p) :
    s.Segment p.next ys none := by
  obtain ⟨m, -, hy⟩ := segment_append.mp h.links
  cases hy with
  | cons link rest =>
    rw [linkOf, hp] at link
    obtain rfl := Option.some.inj link
    exact rest

theorem unlink_spec (h : s.Threaded (xs ++ slot :: ys)) (hp : s.process? slot = some p) :
    (s.unlink slot).1 = true ∧ (s.unlink slot).2.head = (xs ++ ys).head? ∧
      (s.unlink slot).2.tail = (xs ++ ys).getLast? ∧
      s.Rewired (s.unlink slot).2 slot p.leave xs.getLast? p.next := by
  have hq : p.queued = true := (h.queued slot p hp).mpr (by simp)
  have hleave := fun i => s.process?_update slot i Process.leave
  obtain ⟨-, hcons, hdisjoint⟩ := List.nodup_append'.mp h.nodup
  have hxslot : slot ∉ xs := fun hi => hdisjoint hi (by simp)
  have hyslot : slot ∉ ys := (List.nodup_cons.mp hcons).1
  have hbefore : (s.order.takeWhile (· != slot)).getLast? = xs.getLast? := by
    have htake : xs.takeWhile (· != slot) = xs :=
      List.takeWhile_eq_self_iff.mpr fun i hi => by
        simpa using ne_of_mem_of_not_mem hi hxslot
    rw [h.order_eq, List.takeWhile_append, htake]
    simp
  have htail : (if s.tail = some slot then xs.getLast? else s.tail) = (xs ++ ys).getLast? := by
    rw [h.tail]
    cases hl : ys.getLast? with
    | none =>
      obtain rfl := List.getLast?_eq_none_iff.mp hl
      simp
    | some t =>
      have hne : t ≠ slot := ne_of_mem_of_not_mem (List.mem_of_getLast? hl) hyslot
      simp [List.getLast?_cons, hl, hne]
  cases hlast : xs.getLast? with
  | none =>
    obtain rfl := List.getLast?_eq_none_iff.mp hlast
    rw [unlink_of_first hp hq (hbefore.trans hlast)]
    rw [hlast] at htail
    refine ⟨rfl, (h.next_eq hp).first_eq, htail, fun i => (hleave i).trans ?_⟩
    by_cases hi : i = slot
    · simp [hi, hp]
    · simp [hi, Ne.symm hi]
  | some t =>
    have hne : t ≠ slot := ne_of_mem_of_not_mem (List.mem_of_getLast? hlast) hxslot
    have hhead : s.head = (xs ++ ys).head? := by
      obtain ⟨xs, rfl⟩ := List.getLast?_eq_some_iff.mp hlast
      rw [h.links.first_eq]
      simp
    rw [unlink_of_behind hp hq (hbefore.trans hlast)]
    rw [hlast] at htail
    refine ⟨rfl, hhead, htail, fun i => (process?_update ..).trans ?_⟩
    rw [hleave]
    by_cases hi : i = slot
    · simp [hi, hne, hp]
    · simp [hi, Ne.symm hi]

theorem unlink (h : s.Threaded (xs ++ slot :: ys)) (hp : s.process? slot = some p) :
    (s.unlink slot).2.Threaded (xs ++ ys) := by
  have hsegment := h.next_eq hp
  have hsplit := h.links
  obtain ⟨-, hhead, htail, hr⟩ := h.unlink_spec hp
  generalize (s.unlink slot).2 = s' at *
  obtain ⟨hx, hcons, hdisjoint⟩ := List.nodup_append'.mp h.nodup
  obtain ⟨hyslot, hy⟩ := List.nodup_cons.mp hcons
  have hxslot : slot ∉ xs := fun hi => hdisjoint hi (by simp)
  have hnew : s'.Segment p.next ys none := hsegment.congr fun i hi =>
    hr.linkOf_of_ne (ne_of_mem_of_not_mem hi hyslot) fun heq =>
      hdisjoint (List.mem_of_getLast? heq) (List.mem_cons_of_mem _ hi)
  refine h.rewired hr (fun t ht => List.mem_append_left _ (List.mem_of_getLast? ht)) ?_ ?_ htail
    (fun i hi => by simp [hi]) (by simp [Process.leave, hxslot, hyslot]) rfl
  · rw [hhead]
    refine hsplit.splice hnew hx (fun t ht => ?_) fun i hi hne =>
      hr.linkOf_of_ne (ne_of_mem_of_not_mem hi hxslot) hne
    have hmem := List.mem_of_getLast? ht
    exact hr.linkOf_before (ne_of_mem_of_not_mem hmem hxslot) ht
      (h.isSome (List.mem_append_left _ hmem))
  · exact List.nodup_append'.mpr ⟨hx, hy, fun i hi hi' => hdisjoint hi (by simp [hi'])⟩

end Threaded

end Scheduler

end KernelCore
