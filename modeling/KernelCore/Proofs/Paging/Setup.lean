import Mathlib
import KernelCore.Proofs.Paging.Sharing

/-!
# Setting up the kernel space

The kernel space is created like every other space. It may take over the upper half of the tables
in use, as long as those are tables of the template, and it maps low memory, which lies in the lower
half, through tables of its own.
-/
namespace KernelCore
open Platform

/-- The tables behind the upper half of a root table. -/
def inherited (m : Platform) (template : Nat) : Lending := fun path rest table =>
  Paging.upperHalf ≤ (path 39).val ∧ rest ≠ linkShifts ∧ m.Reaches template path rest table

theorem inherited_congr {m m' : Platform} {source root : Nat}
    (hw : SameOutside [root] m m') (hne : source ≠ root)
    (hapart : ∀ path rest table, inherited m source path rest table → table ≠ root)
    {path : Path} {rest : List Nat} {table : Nat} (h : inherited m' source path rest table) :
    inherited m source path rest table := by
  obtain ⟨hi, hrest, hr⟩ := h
  refine ⟨hi, hrest, (reaches_congr fun {shift rest table} hq => hw.readTable ?_).mp hr⟩
  rw [List.mem_singleton]
  by_cases htop : shift :: rest = linkShifts
  · rw [htop] at hq
    rwa [hq.unique .root]
  · exact hapart _ _ _ ⟨hi, htop, hq⟩

namespace Mapping

variable {w w' : Mapping} {lent : Lending} {window : Nat}

theorem sameMachine_mapIdentity {n address : Nat} {result : Except MemoryError Unit}
    (h : mapIdentity n address w = .ok (result, w')) : SameMachine w.platform w'.platform := by
  induction n generalizing address w with
  | zero =>
    simp only [mapIdentity, Except.ok.injEq, Prod.mk.injEq] at h
    rw [← h.2]
    exact .refl _
  | succ n ih =>
    have hm := sameMachine_map w address address (Flag.present ||| Flag.writable)
    rw [mapIdentity] at h
    split at h
    · split at h
      · next he =>
        simp only [Except.ok.injEq, Prod.mk.injEq] at h
        rw [he] at hm
        rwa [← h.2]
      · next he =>
        rw [he] at hm
        exact hm.trans (ih h)
    · cases h

/-- Identity mapping only comes to pages of the lower half, of which nothing is lent. -/
theorem mapIdentity_spec {n address : Nat} {result : Except MemoryError Unit}
    (hs : (w.through window).Sound lent) (hw : w.platform.Within window)
    (hlent : ∀ path rest table, lent path rest table → Paging.upperHalf ≤ (path 39).val)
    (hp : address % pageSize = 0) (hb : address ≤ 2 ^ 47)
    (h : mapIdentity n address w = .ok (result, w')) (hspares : w'.space.Spares lent) :
    (w'.through window).Sound lent ∧
      ∃ new, Grown new (w.through window) (w'.through window) := by
  induction n generalizing address w with
  | zero =>
    simp only [mapIdentity, Except.ok.injEq, Prod.mk.injEq] at h
    rw [← h.2]
    exact ⟨hs, [], (Unseen.refl _).toGrown⟩
  | succ n ih =>
    rw [mapIdentity] at h
    split at h
    · next hc =>
      have hlt : address < 2 ^ 47 := by
        unfold Canonical at hc
        omega
      have hlow : (pathOf address 39).val < Paging.upperHalf := by
        simp only [pathOf, tableIndex_val, Paging.upperHalf, tableEntries]
        omega
      have hspec := map_spec address address (Flag.present ||| Flag.writable) hs hw
        fun rest table hl => absurd (hlent _ rest table hl) (Nat.not_le.mpr hlow)
      have hextent := sameMachine_map w address address (Flag.present ||| Flag.writable)
      split at h
      · next he =>
        simp only [Except.ok.injEq, Prod.mk.injEq] at h
        rw [he, h.2] at hspec
        exact ⟨(hspec hspares).sound, (hspec hspares).grown⟩
      · next he =>
        rw [he] at hspec hextent
        have hm := hspec (spares_of_takes hspares (takes_mapIdentity h))
        obtain ⟨new, hg⟩ := hm.grown
        have hnext : (address + pageSize) % pageSize = 0 := by rwa [Nat.add_mod_right]
        have hle : address + pageSize ≤ 2 ^ 47 := by
          rw [show pageSize = 4096 from rfl] at hp ⊢
          omega
        obtain ⟨hs', new', hg'⟩ := ih hm.sound (hw.congr hextent.toSameExtent) hnext hle h
        exact ⟨hs', _, hg.trans hg'⟩
    · cases h

theorem Sound.grown_writeTable (hs : w.Sound lent) {table : Nat} (ht : table ∈ w.space.frames)
    (t : Table) : Grown [] w { w with platform := w.platform.writeTable table t } where
  toTaken := .of_eq rfl rfl
  memory := (sameOutside_writeTable w.platform table t (hs.aligned _ ht)).mono (by simpa using ht)

theorem Sound.inherit {source : Nat} {copied : Slots} {merged : Table} (hs : w.Sound lent)
    (hempty : w.platform.readTable w.space.root = .ok .empty)
    (hm : Merged w.platform source w.space.root copied merged)
    (hhigh : ∀ i : Fin 512, copied.get i = true → Paging.upperHalf ≤ i.val)
    (hapart : w.space.Spares (inherited w.platform source)) :
    ({ w with platform := w.platform.writeTable w.space.root merged } : Mapping).Sound
      (inherited w.platform source) := by
  have hroot : ∀ {path rest table}, inherited w.platform source path rest table →
      table ≠ w.space.root := by
    rintro path rest table hl rfl
    exact Bool.false_ne_true ((hapart _ _ _ hl).symm.trans w.space.owns_root)
  have hw := sameOutside_writeTable w.platform w.space.root merged
    (hs.aligned _ (List.mem_cons_self ..))
  have hreach : ∀ {path rest table},
      (w.platform.writeTable w.space.root merged).Reaches w.space.root path rest table →
      (table = w.space.root ∧ rest = linkShifts) ∨
        inherited w.platform source path rest table := by
    intro path rest table hr
    have hr := hm.reaches (fun hq => (reaches_of_empty hempty hq).2)
      (fun hc hrest hq => hroot ⟨hhigh _ hc, hrest, hq⟩ rfl) hr
    rcases hr with hr | ⟨hrest, hr⟩
    · exact .inl hr
    · split at hr
      · next hc => exact .inr ⟨hhigh _ hc, hrest, hr⟩
      · exact absurd (reaches_of_empty hempty hr).2 hrest
  have hown : ∀ {path rest table}, w.space.owns table = true →
      (w.platform.writeTable w.space.root merged).Reaches w.space.root path rest table →
      rest = linkShifts := by
    intro path rest table ho hr
    rcases hreach hr with ⟨-, hrest⟩ | hl
    · exact hrest
    · exact absurd ((hapart _ _ _ hl).symm.trans ho) Bool.false_ne_true
  refine ⟨?_, hs.allocated, hs.aligned, ⟨?_, ?_⟩, hapart, ?_⟩
  · rw [hw.limit]
    exact hs.machine
  · intro path rest table hr
    rcases hreach hr with ⟨rfl, -⟩ | hl
    · exact .inl w.space.owns_root
    · exact .inr hl
  · intro path path' rest rest' table ho hr hr'
    obtain rfl := hown ho hr
    obtain rfl := hown ho hr'
    exact ⟨rfl, fun _ hm hn => absurd hm hn⟩
  · intro path shift rest table t hl read leads
    rw [hw.readTable (by simpa using hroot hl)] at read
    obtain ⟨hi, -, hr⟩ := hl
    exact ⟨hi, hr.ne_linkShifts, hr.link read leads⟩

end Mapping

namespace Paging

variable {p p' : Paging} {live : List AddressSpace} {config : Config} {window : Nat}
  {template : Set Nat} {k s : AddressSpace} {w : Mapping} {result : Except MemoryError Unit}

/-- What the new kernel space came to, whether or not all its pages could be mapped. -/
structure Populated (template : Set Nat) (w w' : Mapping) (lent : Lending) : Prop where
  sound : w'.Sound lent
  grown : ∃ new, Mapping.Grown new w w'
  lent : ∀ path rest table, lent path rest table → table ∈ template

theorem not_lentTo (hn : p.kernelSpace = none) (s : AddressSpace) (path : Path)
    (rest : List Nat) (table : Nat) : ¬ p.lentTo s path rest table := by
  rintro ⟨-, k, hk, -⟩
  rw [hn] at hk
  cases hk

/-- Without a kernel space, any tables that no space holds may be those of the template. -/
theorem Separate.choose {template' : Set Nat} (h : p.Separate template live)
    (hn : p.kernelSpace = none)
    (ht : ∀ s ∈ live, ∀ table ∈ template', s.owns table = false) : p.Separate template' live where
  machine := h.machine
  holds := h.holds
  spares := by simpa [hn] using ht
  kernel := by simp [hn]
  rooted := h.rooted

/-- A space with an empty root to which nothing is lent is filled from the tables of the template,
of which it gets none itself. -/
theorem populate_spec {source : Nat} {u : Mapping} {lent : Lending}
    (hs : (u.through window).Sound lent) (hw : u.platform.Within window)
    (hn : ∀ path rest table, ¬ lent path rest table)
    (hempty : (u.platform.through window).readTable u.space.root = .ok .empty)
    (ht : config.inheritUpperHalf = true → source ≠ u.space.root → ∀ path rest table,
      inherited (u.platform.through window) source path rest table → table ∈ template)
    (hp : populate u source config = .ok (result, w))
    (hspares : ∀ table ∈ template, w.space.owns table = false) :
    ∃ lent, Populated template (u.through window) (w.through window) lent := by
  have htakes := takes_populate hp
  unfold populate at hp
  split at hp
  · next hi =>
    simp only [Bool.and_eq_true, bne_iff_ne] at hi
    have ht : ∀ path rest table,
        inherited (u.platform.mask.through window) source path rest table → table ∈ template :=
      fun path rest table hl => ht hi.1 hi.2 path rest table
        ⟨hl.1, hl.2.1, reaches_emit.mp hl.2.2⟩
    split at hp
    · next he =>
      simp only [Except.ok.injEq, Prod.mk.injEq] at hp
      obtain ⟨-, rfl⟩ := hp
      rw [copyEntries_eq_error he]
      exact ⟨_, hs.mask, ⟨_, Mapping.grown_emit _ .masked⟩, fun _ _ _ hl => absurd hl (hn _ _ _)⟩
    · next he =>
      obtain ⟨s, merged, -, hcopied, hm, rfl⟩ := copyEntries_eq_ok he
      have hmask : u.platform.mask.Within window := hw
      have hapart : u.space.Spares (inherited (u.platform.mask.through window) source) := by
        intro path rest table hl
        rw [← Bool.not_eq_true]
        intro ho
        exact Bool.false_ne_true ((hspares table (ht _ _ _ hl)).symm.trans (htakes.owns ho))
      have hs' := hs.mask.inherit hempty (hm.through hmask) (fun i hc => ?_) hapart
      · have hw' := hmask.congr (sameMachine_writeTable _ u.space.root merged).toSameExtent
        have hg := (Mapping.grown_emit (u.through window) .masked).trans
          (hs.mask.grown_writeTable (List.mem_cons_self ..) merged)
        obtain ⟨hs', new, hg'⟩ := Mapping.mapIdentity_spec
          (w := { u with platform := u.platform.mask.writeTable u.space.root merged }) hs' hw'
          (fun _ _ _ hl => hl.1) (by decide) (by decide) hp
          fun _ _ table hl => hspares table (ht _ _ _ hl)
        exact ⟨_, hs', ⟨_, hg.trans hg'⟩, fun _ _ _ hl => ht _ _ _ hl⟩
      · rw [hcopied, Bool.and_eq_true, decide_eq_true_iff] at hc
        exact hc.1
  · obtain ⟨hs', hg⟩ := Mapping.mapIdentity_spec hs hw (fun _ _ _ hl => absurd hl (hn _ _ _))
      (by decide) (by decide) hp fun _ _ _ hl => absurd hl (hn _ _ _)
    exact ⟨_, hs', hg, fun _ _ _ hl => absurd hl (hn _ _ _)⟩

theorem sameMachine_populate {w₀ : Mapping} {source : Nat}
    (h : populate w₀ source config = .ok (result, w)) :
    SameMachine w₀.platform w.platform := by
  unfold populate at h
  split at h
  · have hcopy := sameMachine_copyEntries w₀.platform source w₀.space.root (upperHalf ≤ ·)
    split at h
    · next he =>
      simp only [Except.ok.injEq, Prod.mk.injEq] at h
      rw [he] at hcopy
      rw [← h.2]
      exact hcopy
    · next he =>
      rw [he] at hcopy
      exact hcopy.trans (Mapping.sameMachine_mapIdentity h)
  · exact Mapping.sameMachine_mapIdentity h

theorem sameMachine_setUp_error {e : MemoryError} (h : p.setUp config = .ok (.error e, p')) :
    SameMachine p.platform p'.platform := by
  have hcreate := sameMachine_create p
  cases setUp_spec h with
  | refused _ hc =>
    rw [hc] at hcreate
    exact hcreate
  | undone _ hc hp =>
    rw [hc] at hcreate
    exact hcreate.trans (sameMachine_populate hp)

theorem sameExtent_setUp (h : p.setUp config = .ok (result, p')) :
    SameExtent p.platform p'.platform := by
  have hcreate := sameMachine_create p
  cases setUp_spec h with
  | kept _ => exact .refl _
  | refused | undone => exact (sameMachine_setUp_error h).toSameExtent
  | done _ hc hp =>
    rw [hc] at hcreate
    have hfill := hcreate.trans (sameMachine_populate hp)
    exact ⟨hfill.window, hfill.size⟩

/-- The tables behind the upper half of the root in use are neither free nor held by a live
space. -/
def TemplateApart (p : Paging) (live : List AddressSpace) : Prop :=
  ∀ path rest table, inherited p.platform p.platform.root path rest table →
    ¬ p.frames.IsFree table ∧ ∀ s ∈ live, s.owns table = false

/-- The tables that a setup takes over are those of the template, and the space that it fills gets
none of them, even if it is given up in the end. -/
structure SparesTemplate (p : Paging) (template : Set Nat) (window : Nat) (config : Config) :
    Prop where
  inherited : config.inheritUpperHalf = true → ∀ path rest table,
    inherited (p.platform.through window) p.platform.root path rest table → table ∈ template
  filled : ∀ k p₁ result w, p.create = (.ok k, p₁) →
    populate (p₁.mapping k) p.platform.root config = .ok (result, w) →
      ∀ table ∈ template, w.space.owns table = false

/-- A new space that is filled is separate from the others. -/
structure Filled (p : Paging) (template : Set Nat) (live : List AddressSpace) (k : AddressSpace)
    (w : Mapping) : Prop where
  separate : p.Separate template (k :: live)
  populated : ∃ lent, Populated template (p.mapping k) w lent
  spares : ∀ table ∈ template, w.space.owns table = false

theorem Separate.filled (h : (p.through window).Separate template live)
    (hw : p.platform.Within window) (hn : p.kernelSpace = none)
    (ht : p.SparesTemplate template window config) (hc : p.create = (.ok k, p'))
    (hp : populate (p'.mapping k) p.platform.root config = .ok (result, w)) :
    (p'.through window).Filled template live k (w.through window) := by
  have hspares := ht.filled _ _ _ _ hc hp
  have hk : ∀ table ∈ template, k.owns table = false := by
    intro table hm
    rw [← Bool.not_eq_true]
    exact fun ho => Bool.false_ne_true ((hspares table hm).symm.trans ((takes_populate hp).owns ho))
  have h' := h.create (create_through hc hw) hk
  obtain ⟨-, hout⟩ := create_platform hc
  obtain ⟨hempty, hsame⟩ := create_platform (create_through hc hw)
  have hnone : p'.kernelSpace = none := (create_ok hc).kernelSpace.trans hn
  have hroot : config.inheritUpperHalf = true → ∀ path rest table,
      inherited (p.platform.through window) p.platform.root path rest table →
      table ≠ k.root := by
    rintro hi path rest table hl rfl
    have hm := ht.inherited hi _ _ _ hl
    exact Bool.false_ne_true ((hk _ hm).symm.trans k.owns_root)
  refine ⟨h', ?_, hspares⟩
  exact populate_spec (u := p'.mapping k) h'.mapping (hw.congr hout.toSameExtent)
    (not_lentTo (p := p'.through window) hnone k) hempty
    (fun hi hne path rest table hl =>
      ht.inherited hi _ _ _ (inherited_congr hsame hne (hroot hi) hl)) hp hspares

theorem Separate.beside {new : List Nat} (h : p.Separate template (k :: live))
    (hn : p.kernelSpace = none) (hg : Mapping.Grown new (p.mapping k) w)
    (hspares : ∀ table ∈ template, w.space.owns table = false) :
    (p.adopt w).Separate template live ∧ Holds w.frames (w.space :: live) := by
  have hh := h.holds_cons.grow hg.toTaken
  rw [hn] at hh
  refine ⟨h.tail.transport rfl ?_ (by rw [hn]; exact hh.tail) fun t ht =>
    undisturbed_adopt h.through_window (within_window _) hg hspares ht, hh⟩
  show w.platform.limit ≤ physicalBound
  rw [hg.memory.limit]
  exact h.machine

theorem Separate.undisturbed_filled (h : p.Separate template live) (hn : p.kernelSpace = none)
    (ht : p.SparesTemplate template p.platform.window config) (hc : p.create = (.ok k, p'))
    (hp : populate (p'.mapping k) p.platform.root config = .ok (result, w)) (hs : s ∈ live) :
    Undisturbed p (p'.adopt w) s := by
  obtain ⟨h', ⟨lent, hpop⟩, hspares⟩ := h.through_window.filled (within_window _) hn ht hc hp
  obtain ⟨new, hg⟩ := hpop.grown
  have hextent := sameMachine_create p
  rw [hc] at hextent
  have hp' : p'.through p.platform.window = p' := by
    rw [← hextent.window]
    rfl
  have hw : w.through p.platform.window = w :=
    Mapping.through_of_window ((sameMachine_populate hp).window.trans hextent.window)
  rw [hp'] at h' hg
  rw [hw] at hg
  refine (h.undisturbed_create hc h'.spares_head (List.mem_append_right _ hs)).trans ?_
  exact h'.through_window.undisturbed_adopt (within_window _) hg hspares
    (List.mem_append_right _ hs)

theorem Separate.undisturbed_setUp (h : p.Separate template live)
    (ht : p.kernelSpace = none → p.SparesTemplate template p.platform.window config)
    (hs : p.setUp config = .ok (result, p')) (hm : s ∈ live) : Undisturbed p p' s := by
  cases setUp_spec hs with
  | kept _ => exact ⟨fun _ => rfl⟩
  | refused _ hc =>
    obtain rfl := create_eq_error hc
    exact ⟨fun _ => rfl⟩
  | undone hn hc hp | done hn hc hp =>
    exact (h.undisturbed_filled hn (ht hn) hc hp hm).trans ⟨fun _ => rfl⟩

theorem Populated.install {w₀ : Mapping} {lent : Lending} (hpop : Populated template w₀ w lent)
    (hn : p.kernelSpace = none) (hb : (p.adopt w).Separate template live)
    (hh : Holds w.frames (w.space :: live))
    (hspares : ∀ table ∈ template, w.space.owns table = false) :
    Paging.Separate { (p.adopt w).switchTo w.space with kernelSpace := some w.space } template
      live := by
  have hsame : ∀ {root path rest table},
      (w.platform.mask.load w.space.root).Reaches root path rest table ↔
        w.platform.Reaches root path rest table := reaches_congr fun _ => rfl
  refine ⟨hb.machine, hh, List.forall_mem_cons.mpr ⟨hspares, fun s hs => ?_⟩,
    fun k hk path rest table hr => ?_, fun s hs => ?_⟩
  · exact hb.spares s (List.mem_append_right _ hs)
  · obtain rfl : w.space = k := Option.some.inj hk
    exact (hpop.sound.rooted.held (hsame.mp hr)).imp id (hpop.lent _ _ _)
  · exact (hb.rooted s hs).congr hsame
      fun hl => absurd hl (not_lentTo (p := p.adopt w) hn s _ _ _)

theorem Separate.setUp (h : (p.through window).Separate template live)
    (hw : p.platform.Within window)
    (ht : p.kernelSpace = none → p.SparesTemplate template window config)
    (hs : p.setUp config = .ok (result, p')) : (p'.through window).Separate template live := by
  cases setUp_spec hs with
  | kept _ => exact h
  | refused _ hc =>
    obtain rfl := create_eq_error hc
    exact h
  | @undone _ k p₁ w hn hc hp =>
    have hn₁ : (p₁.through window).kernelSpace = none := (create_ok hc).kernelSpace.trans hn
    obtain ⟨h₁, ⟨lent, hpop⟩, hspares⟩ := h.filled hw hn (ht hn) hc hp
    obtain ⟨new, hg⟩ := hpop.grown
    obtain ⟨hb, hh⟩ := h₁.beside hn₁ hg hspares
    refine hb.transport rfl hb.machine ?_ fun _ _ => ⟨fun _ => rfl⟩
    show Holds _ ((p₁.through window).kernelSpace.toList ++ live)
    rw [hn₁]
    exact Holds.destroy (p := p₁.adopt w) hh
  | @done k p₁ w hn hc hp =>
    have hn₁ : (p₁.through window).kernelSpace = none := (create_ok hc).kernelSpace.trans hn
    obtain ⟨h₁, ⟨lent, hpop⟩, hspares⟩ := h.filled hw hn (ht hn) hc hp
    obtain ⟨new, hg⟩ := hpop.grown
    obtain ⟨hb, hh⟩ := h₁.beside hn₁ hg hspares
    exact hpop.install hn₁ hb hh hspares

end Paging

end KernelCore
