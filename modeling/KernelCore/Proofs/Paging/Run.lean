import Mathlib
import KernelCore.Proofs.Paging.Setup

/-!
# Runs of paging operations

The live spaces are listed beside the paging state. In a run, operations on the spaces alternate
with writes of others to the memory. As long as those leave the tables alone, every state that a run
comes to is sound.
-/
namespace KernelCore
open Platform

/-- The paging state and the spaces that were created and not destroyed yet. -/
structure Spaces where
  paging : Paging
  live : List AddressSpace := []

namespace Spaces

/-- A step of a run; live spaces are named by their index. -/
inductive Operation where
  | setUp (config : Config)
  | create
  | share (i : Nat)
  | map (i va pa : Nat) (flags : BitVec 64)
  | unmap (i va : Nat)
  | destroy (i : Nat)
  | switchTo (i : Nat)
  | switchToKernel
  /-- Somebody else overwrites a frame. -/
  | write (frame : Nat) (t : Table)

/-- No space yet, any memory and any frames. -/
def empty (m : Platform) (a : FrameAllocator) : Spaces where
  paging := { platform := m, frames := a }

/-- Uses a live space; without one nothing happens. -/
def withSpace (w : Spaces) (i : Nat) (f : AddressSpace → Spaces) : Spaces :=
  match w.live[i]? with
  | some s => f s
  | none => w

def perform (w : Spaces) : Operation → Except Fault Spaces
  | .setUp config => do
    let (_, paging) ← w.paging.setUp config
    return { w with paging }
  | .create => .ok <| match w.paging.create with
    | (.ok s, paging) => ⟨paging, s :: w.live⟩
    | (.error _, paging) => { w with paging }
  | .share i => .ok <| w.withSpace i fun s => match w.paging.share s with
    | (.ok s, paging) => ⟨paging, w.live.set i s⟩
    | (.error _, paging) => { w with paging }
  | .map i va pa flags => .ok <| w.withSpace i fun s =>
    let (_, s, paging) := w.paging.map s va pa flags
    ⟨paging, w.live.set i s⟩
  | .unmap i va => .ok <| w.withSpace i fun s => { w with paging := w.paging.unmap s va }
  | .destroy i => .ok <| w.withSpace i fun s => ⟨w.paging.destroy s, w.live.eraseIdx i⟩
  | .switchTo i => .ok <| w.withSpace i fun s => { w with paging := w.paging.switchTo s }
  | .switchToKernel => .ok { w with paging := w.paging.switchToKernel.2 }
  | .write frame t => .ok
    { w with paging := { w.paging with
        platform := w.paging.platform.writeTable (frame * pageSize) t } }

/-- The states that steps with a property come to. -/
inductive Reachable (permits : Spaces → Operation → Prop) (start : Spaces) : Spaces → Prop
  | start : Reachable permits start start
  | step {w w' : Spaces} {op : Operation} (before : Reachable permits start w)
      (permitted : permits w op) (performed : w.perform op = .ok w') :
      Reachable permits start w'

/-- Several steps in a row. -/
def run (w : Spaces) (ops : List Operation) : Except Fault Spaces := ops.foldlM perform w

/-- A machine with `n` zeroed frames, all free but the first. -/
def ofFrames (n : Nat) : Spaces := empty (.ofFrames n) (.ofFrames n)

/-- A frame that holds no table of a space and none that the kernel space reaches. -/
def HoldsNoTable (w : Spaces) (frame : Nat) : Prop :=
  (∀ s ∈ w.paging.kernelSpace.toList ++ w.live, s.owns (frame * pageSize) = false) ∧
    ∀ k ∈ w.paging.kernelSpace, ∀ path rest,
      ¬ w.paging.platform.Reaches k.root path rest (frame * pageSize)

/-- Nobody else writes tables, and inherited tables belong to nobody here. -/
def TablesLeftAlone (w : Spaces) : Operation → Prop
  | .setUp config => w.paging.kernelSpace = none → config.inheritUpperHalf = true →
      w.paging.TemplateApart w.live
  | .write frame _ => w.HoldsNoTable frame
  | _ => True

variable {w w' start : Spaces} {op : Operation} {i : Nat} {s s' : AddressSpace}
  {m : Platform} {a : FrameAllocator}

theorem reachable_run {permits : Spaces → Operation → Prop} {ops : List Operation}
    (h : Reachable permits start w) (hp : ∀ op ∈ ops, ∀ w, permits w op)
    (hr : w.run ops = .ok w') : Reachable permits start w' := by
  induction ops generalizing w with
  | nil =>
    cases hr
    exact h
  | cons op ops ih =>
    rw [run, List.foldlM_cons] at hr
    obtain ⟨w₁, hs, hr⟩ := Fault.of_bind_eq_ok hr
    exact ih (h.step (hp op (List.mem_cons_self ..) _) hs)
      (fun op hm => hp op (List.mem_cons_of_mem _ hm)) hr

theorem exists_of_run {ops : List Operation} {check : Spaces → AddressSpace → Bool}
    (h : ((start.run ops).toOption.any fun w => w.live[i]?.any (check w)) = true) :
    ∃ w s, start.run ops = .ok w ∧ w.live[i]? = some s ∧ check w s = true := by
  obtain ⟨w, hr, hc⟩ := Fault.exists_of_any h
  obtain ⟨s, hs, hc⟩ := (Option.any_eq_true _ _).mp hc
  exact ⟨w, s, hr, hs, hc⟩

theorem live_perm (h : w.live[i]? = some s) : w.live.Perm (s :: w.live.eraseIdx i) := by
  obtain ⟨hi, rfl⟩ := List.getElem?_eq_some_iff.mp h
  exact (List.getElem_cons_eraseIdx_perm hi).symm

theorem set_perm (h : w.live[i]? = some s) (s' : AddressSpace) :
    (s' :: w.live.eraseIdx i).Perm (w.live.set i s') := by
  obtain ⟨hi, -⟩ := List.getElem?_eq_some_iff.mp h
  exact (List.set_perm_cons_eraseIdx hi s').symm

theorem mem_eraseIdx {j : Nat} {t : AddressSpace} (hne : j ≠ i) (hj : w.live[j]? = some t) :
    t ∈ w.live.eraseIdx i := by
  obtain ⟨hlt, rfl⟩ := List.getElem?_eq_some_iff.mp hj
  exact List.mem_eraseIdx_iff_getElem.mpr ⟨j, hlt, hne, rfl⟩

/-- All spaces that hold frames. -/
def all (w : Spaces) : List AddressSpace := w.paging.kernelSpace.toList ++ w.live

theorem all_perm (h : w.live[i]? = some s) :
    w.all.Perm (s :: (w.paging.kernelSpace.toList ++ w.live.eraseIdx i)) :=
  ((live_perm h).append_left _).trans List.perm_middle

theorem perm_all_set (h : w.live[i]? = some s) (s' : AddressSpace) :
    (s' :: (w.paging.kernelSpace.toList ++ w.live.eraseIdx i)).Perm
      (w.paging.kernelSpace.toList ++ w.live.set i s') :=
  List.perm_middle.symm.trans ((set_perm h s').append_left _)

/-- What a step can do. Nothing happens without the space that it names, or without a frame for a
new one. -/
inductive Performed (w : Spaces) : Operation → Spaces → Prop
  | setUp {config : Config} {result : Except MemoryError Unit} {p' : Paging}
      (setUp : w.paging.setUp config = .ok (result, p')) :
      Performed w (.setUp config) { w with paging := p' }
  | created {s : AddressSpace} {p' : Paging} (create : w.paging.create = (.ok s, p')) :
      Performed w .create ⟨p', s :: w.live⟩
  | idle {op : Operation} : Performed w op w
  | shared {i : Nat} {s s' : AddressSpace} {p' : Paging} (live : w.live[i]? = some s)
      (share : w.paging.share s = (.ok s', p')) : Performed w (.share i) ⟨p', w.live.set i s'⟩
  | unshared {i : Nat} {s : AddressSpace} (live : w.live[i]? = some s) :
      Performed w (.share i)
        { w with paging := { w.paging with platform := w.paging.platform.mask } }
  | mapped {i va pa : Nat} {flags : BitVec 64} {s : AddressSpace} (live : w.live[i]? = some s) :
      Performed w (.map i va pa flags)
        ⟨(w.paging.map s va pa flags).2.2, w.live.set i (w.paging.map s va pa flags).2.1⟩
  | unmapped {i va : Nat} {s : AddressSpace} (live : w.live[i]? = some s) :
      Performed w (.unmap i va) { w with paging := w.paging.unmap s va }
  | destroyed {i : Nat} {s : AddressSpace} (live : w.live[i]? = some s) :
      Performed w (.destroy i) ⟨w.paging.destroy s, w.live.eraseIdx i⟩
  | switched {i : Nat} {s : AddressSpace} (live : w.live[i]? = some s) :
      Performed w (.switchTo i) { w with paging := w.paging.switchTo s }
  | returned {k : AddressSpace} (kernel : w.paging.kernelSpace = some k) :
      Performed w .switchToKernel { w with paging := w.paging.switchTo k }
  | written {frame : Nat} {t : Table} :
      Performed w (.write frame t) { w with paging := { w.paging with
        platform := w.paging.platform.writeTable (frame * pageSize) t } }

theorem performed_withSpace {f : AddressSpace → Spaces}
    (h : ∀ s, w.live[i]? = some s → Performed w op (f s)) : Performed w op (w.withSpace i f) := by
  rw [withSpace]
  split
  · next s hi => exact h s hi
  · exact .idle

theorem performed (hs : w.perform op = .ok w') : Performed w op w' := by
  cases op with
  | setUp config =>
    obtain ⟨⟨result, p'⟩, he, hs⟩ := Fault.of_bind_eq_ok hs
    cases hs
    exact .setUp he
  | create =>
    cases hs
    split
    · next hc => exact .created hc
    · next hc =>
      obtain rfl := Paging.create_eq_error hc
      exact .idle
  | share i =>
    cases hs
    refine performed_withSpace fun s hi => ?_
    split
    · next hc => exact .shared hi hc
    · next hc =>
      rw [Paging.share_eq_error hc]
      exact .unshared hi
  | map i va pa flags =>
    cases hs
    exact performed_withSpace fun s hi => .mapped hi
  | unmap i va =>
    cases hs
    exact performed_withSpace fun s hi => .unmapped hi
  | destroy i =>
    cases hs
    exact performed_withSpace fun s hi => .destroyed hi
  | switchTo i =>
    cases hs
    exact performed_withSpace fun s hi => .switched hi
  | switchToKernel =>
    cases hs
    unfold Paging.switchToKernel
    split
    · exact .idle
    · next hk => exact .returned hk
  | write frame t =>
    cases hs
    exact .written

theorem ledger_perform {P : FrameAllocator → List AddressSpace → Prop} (hl : Ledger P)
    (h : P w.paging.frames w.all) (hs : w.perform op = .ok w') : P w'.paging.frames w'.all := by
  cases performed hs with
  | setUp he => exact hl.setUp h he
  | created hc =>
    rw [all, (Paging.create_ok hc).kernelSpace]
    exact hl.perm (hl.create h hc) List.perm_middle.symm
  | @shared i s s' _ hi hc =>
    obtain ⟨hroots, hframes, hsame⟩ := Paging.share_frames w.paging s
    rw [hc] at hroots hframes hsame
    rw [all, hroots.kernelSpace, hframes]
    exact hl.perm (hl.congr (hl.perm h (all_perm hi)) (hsame s' rfl)) (perm_all_set hi s')
  | @mapped _ va pa flags s hi =>
    obtain ⟨new, ht⟩ := Mapping.takes_map (w.paging.mapping s) va pa flags
    have hg := hl.grow (w := w.paging.mapping s) (hl.perm h (all_perm hi)) ht
    exact hl.perm hg (perm_all_set hi _)
  | @unmapped _ va s _ =>
    obtain ⟨hf, hk⟩ := w.paging.unmap_frames s va
    rw [all, hf, hk]
    exact h
  | destroyed hi => exact hl.destroy (hl.perm h (all_perm hi))
  | idle | unshared | switched | returned | written => exact h

theorem sameExtent_perform (hs : w.perform op = .ok w') :
    SameExtent w.paging.platform w'.paging.platform := by
  cases performed hs with
  | setUp he => exact Paging.sameExtent_setUp he
  | created hc =>
    have hcreate := (Paging.sameMachine_create w.paging).toSameExtent
    rwa [hc] at hcreate
  | @shared _ s _ _ _ hc =>
    have hshare := (Paging.sameMachine_share w.paging s).toSameExtent
    rwa [hc] at hshare
  | @mapped _ va pa flags s _ =>
    exact (Mapping.sameMachine_map (w.paging.mapping s) va pa flags).toSameExtent
  | @unmapped _ va s _ => exact (Paging.sameMachine_unmap w.paging s va).toSameExtent
  | written => exact (sameMachine_writeTable ..).toSameExtent
  | idle => exact .refl _
  | unshared | destroyed | switched | returned => exact ⟨rfl, rfl⟩

/-- A step spares the tables of the template: those that a setup takes over belong to it, the space
that a setup fills gets none of them, and nobody writes them or a table of a space. -/
def SparesTemplate (w : Spaces) (template : Set Nat) (window : Nat) : Operation → Prop
  | .setUp config => w.paging.kernelSpace = none →
      w.paging.SparesTemplate template window config
  | .write frame _ => (∀ s ∈ w.all, s.owns (frame * pageSize) = false) ∧
      frame * pageSize ∉ template
  | _ => True

/-- Every step keeps the spaces separate, through whatever window they are seen, unless one of them
has got a table of the template. -/
theorem separate_perform {template : Set Nat} {window : Nat}
    (h : (w.paging.through window).Separate template w.live)
    (hw : w.paging.platform.Within window) (hp : w.SparesTemplate template window op)
    (hs : w.perform op = .ok w')
    (ht : ∀ s ∈ w'.all, ∀ table ∈ template, s.owns table = false) :
    (w'.paging.through window).Separate template w'.live := by
  have hfront : ∀ {i s}, w.live[i]? = some s →
      (w.paging.through window).Separate template (s :: w.live.eraseIdx i) :=
    fun hi => h.perm (live_perm hi)
  cases performed hs with
  | setUp he => exact h.setUp hw hp he
  | created hc =>
    have hspares := ht _ (List.mem_append_right _ (List.mem_cons_self ..))
    exact h.create (Paging.create_through hc hw) hspares
  | shared hi hc => exact ((hfront hi).share hw hc).perm (set_perm hi _)
  | @mapped _ va pa flags _ hi =>
    have hspares := ht _ (List.mem_append_right _
      ((set_perm hi _).mem_iff.mp (List.mem_cons_self ..)))
    exact ((hfront hi).of_map hw va pa flags hspares).perm (set_perm hi _)
  | @unmapped _ va _ hi => exact ((hfront hi).of_unmap hw va).perm (live_perm hi).symm
  | destroyed hi => exact (hfront hi).destroy
  | switched | returned => exact h.switchTo _
  | @written frame t => exact h.write frame t hp.1 hp.2
  | idle => exact h
  | unshared => exact h.mask

/-- If the tables are left alone, they are those of a template that is not to be had. -/
theorem exists_template (h : w.paging.Sound w.live) (hp : w.TablesLeftAlone op) :
    ∃ template, w.paging.Separate template w.live ∧ Withheld template w.paging.frames w.all ∧
      w.SparesTemplate template w.paging.platform.window op := by
  obtain ⟨template, hsep, hheld⟩ := h
  cases op with
  | setUp config =>
    by_cases hn : w.paging.kernelSpace = none
    · have hapart := hp hn
      have hspares : ∀ s ∈ w.live, ∀ table ∈ {table | config.inheritUpperHalf = true ∧
          ∃ path rest, inherited w.paging.platform w.paging.platform.root path rest table},
          s.owns table = false :=
        fun s hs table ⟨hi, path, rest, hl⟩ => (hapart hi path rest table hl).2 s hs
      have hheld' : Withheld {table | config.inheritUpperHalf = true ∧ ∃ path rest,
          inherited w.paging.platform w.paging.platform.root path rest table}
          w.paging.frames w.all :=
        { toHolds := hheld.toHolds
          aligned := fun table ⟨_, path, rest, hl⟩ => hl.2.2.address_mod hl.2.1
          taken := fun table ⟨hi, path, rest, hl⟩ => (hapart hi path rest table hl).1
          spares := by rwa [all, hn] }
      refine ⟨_, hsep.choose hn hspares, hheld', fun _ => ⟨fun hi path rest table hl =>
        ⟨hi, path, rest, hl⟩, fun k p₁ result x hc hfill => ?_⟩⟩
      obtain ⟨new, ht⟩ := Paging.takes_populate hfill
      exact ((hheld'.create hc).grow (w := p₁.mapping k) ht).spares _ (List.mem_cons_self ..)
    · exact ⟨template, hsep, hheld, fun hc => absurd hc hn⟩
  | write frame t =>
    refine ⟨_, hsep.reachable, ?_, hp.1, ?_⟩
    · exact
        { toHolds := hheld.toHolds
          aligned := fun f hf => hheld.aligned f hf.1
          taken := fun f hf => hheld.taken f hf.1
          spares := fun s hs f hf => hheld.spares s hs f hf.1 }
    · rintro ⟨-, k, hk, path, rest, hr⟩
      exact hp.2 k hk path rest hr
  | create | share | map | unmap | destroy | switchTo | switchToKernel =>
    exact ⟨template, hsep, hheld, trivial⟩

theorem sound_perform (h : w.paging.Sound w.live) (hp : w.TablesLeftAlone op)
    (hs : w.perform op = .ok w') : w'.paging.Sound w'.live := by
  obtain ⟨template, hsep, hheld, hspares⟩ := exists_template h hp
  have hheld' := ledger_perform (Withheld.ledger template) hheld hs
  have hsep' := separate_perform hsep.through_window (within_window _) hspares hs hheld'.spares
  rw [← (sameExtent_perform hs).window] at hsep'
  exact ⟨template, hsep', hheld'⟩

theorem sound_empty (hm : m.limit ≤ physicalBound) (a : FrameAllocator) :
    (empty m a).paging.Sound (empty m a).live := by
  refine ⟨∅, ⟨hm, ⟨?_, ?_⟩, ?_, ?_, ?_⟩, ⟨⟨?_, ?_⟩, ?_, ?_, ?_⟩⟩ <;> simp [empty]

theorem Reachable.sound (h : Reachable TablesLeftAlone (empty m a) w)
    (hm : m.limit ≤ physicalBound) : w.paging.Sound w.live := by
  induction h with
  | start => exact sound_empty hm a
  | step _ hp hs ih => exact sound_perform ih hp hs

end Spaces

end KernelCore
