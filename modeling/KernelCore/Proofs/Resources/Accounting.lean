import Mathlib
import KernelCore.Proofs.Paging.InUse
import KernelCore.Proofs.Resources.Lending
import KernelCore.Proofs.Scheduler.Removal

/-!
# Accounts of an estate

The scheduler and the memory that its processes draw on, which nobody else uses. Whatever happens to
the processes, what they have are stacks and root tables of their own; the memory lacks just these,
and has everything again once they are gone.
-/
namespace KernelCore

/-- The scheduler and what its processes draw on. -/
structure Estate where
  scheduler : Scheduler
  resources : Resources

/-- Whether an operation neither takes nor gives back resources. -/
def Scheduler.Operation.Spares : Scheduler.Operation → Prop
  | .create .. => False
  | .destroy .. => False
  | .reap _ => False
  | _ => True

namespace Scheduler

variable {s s' : Scheduler} {i j : Nat}

theorem keeps_of_spares {op : Operation} (hop : op.Spares) (h : s.perform op = .ok s') :
    Keeps s s' := by
  cases op with
  | create _ _ _ => cases hop
  | destroy _ _ => cases hop
  | reap _ => cases hop
  | enqueue pid =>
    cases h
    exact (rehung_enqueue s pid).stays.toKeeps
  | dequeue pid =>
    cases h
    exact (rehung_dequeue s pid).stays.toKeeps
  | tick => exact (dispatched_tick h).keeps
  | next =>
    cases h
    exact s.dispatched_next.keeps
  | idle =>
    cases h
    exact s.dispatched_idle.keeps
  | sleep ticks =>
    cases h
    exact (s.dispatched_sleep ticks).keeps
  | exit status =>
    cases h
    exact (s.dispatched_exit status).keeps
  | yield =>
    cases h
    exact s.dispatched_yield.keeps

theorem tenants_eq (s : Scheduler) : s.tenants = s.processes.map Process.tenant := by
  rw [tenants, roster, processes, List.filterMap_map, List.map_filterMap]
  rfl

/-- Processes that have nothing in common with one another are told apart by what they have. -/
theorem process?_inj {α : Type} {f : Tenant → α} {p q : Process} (hn : (s.tenants.map f).Nodup)
    (hp : s.process? i = some p) (hq : s.process? j = some q) (heq : f p.tenant = f q.tenant) :
    i = j := by
  by_contra hne
  have hroster := roster_seat (seat_of_process? hp)
  have hn := ((perm_leave_seat hroster).map f).nodup_iff.mp hn
  refine (List.nodup_cons.mp hn).1 ?_
  rw [heq]
  refine List.mem_map_of_mem (List.mem_filterMap.mpr ⟨some q.tenant, ?_, rfl⟩)
  refine List.mem_of_getElem? (i := j) ?_
  rw [List.getElem?_set_ne hne]
  exact roster_seat (seat_of_process? hq)

end Scheduler

namespace SharedHeap

open Heap

/-- An arena of two stacks and their headers serves two requests for a stack and no third one. -/
theorem allocate_two_stacks {arena : Array UInt8} (hsize : arena.size = 16448) :
    ∃ s₁ s₂ : SharedHeap,
      (⟨some (.ofArena 0 arena)⟩ : SharedHeap).allocate kernelStackSize =
        .ok (.ok (some 32), s₁) ∧ s₁.addressOf 32 = some 32 ∧
      s₁.allocate kernelStackSize = .ok (.ok (some 8256), s₂) ∧ s₂.addressOf 8256 = some 8256 ∧
      s₂.allocate kernelStackSize = .ok (.error .heapExhausted, s₂) := by
  have ht : (Heap.ofArena 0 arena).Tiled ([] ++ ⟨32, 16416, true⟩ :: []) := by
    have hmin : headerSize ≤ arena.size := by simp [headerSize, hsize]
    have hnew := tiled_ofArena 0 hmin (by simp [hsize])
    rw [Heap.capacity, hsize] at hnew
    exact hnew
  have hbase : (Heap.ofArena 0 arena).base = 0 := by
    rw [ofArena]
    split <;> rfl
  have hpos : kernelStackSize ≠ 0 := by decide
  -- both requests are served from the last block: the first one splits it, the second uses it up
  obtain ⟨h₁, ha₁, ht₁, hs₁⟩ := ht.allocate_first hpos (by simp) (by decide)
  have hcarve : [] ++ Block.carve (Word.roundUp kernelStackSize heapAlignment) ⟨32, 16416, true⟩
      ++ [] = [⟨32, 8192, false⟩] ++ ⟨8256, 8192, true⟩ :: [] := by decide
  rw [hcarve] at ht₁
  obtain ⟨h₂, ha₂, ht₂, hs₂⟩ := ht₁.allocate_first hpos (by decide) (by decide)
  have hcarve : [⟨32, 8192, false⟩] ++
      Block.carve (Word.roundUp kernelStackSize heapAlignment) ⟨8256, 8192, true⟩ ++ [] =
        [⟨32, 8192, false⟩, ⟨8256, 8192, false⟩] := by decide
  rw [hcarve] at ht₂
  have ha₃ := ht₂.allocate_none hpos (by decide)
  have hbase₁ := hs₁.base.trans hbase
  have hbase₂ := hs₂.base.trans hbase₁
  refine ⟨⟨some h₁⟩, ⟨some h₂⟩, ?_, ?_, ?_, ?_, ?_⟩
  · simp only [allocate, ha₁, bind, Except.bind, pure, Except.pure]
  · simp [addressOf, Heap.addressOf, hbase₁]
  · simp only [allocate, ha₂, bind, Except.bind, pure, Except.pure]
  · simp [addressOf, Heap.addressOf, hbase₂]
  · simp only [allocate, ha₃, bind, Except.bind, pure, Except.pure]

end SharedHeap

namespace Estate

/-- What happens to an estate. -/
inductive Operation where
  | create (name : String) (entry : Nat)
  | destroy (pid : Pid)
  | reap
  /-- The queue, the states of processes or the clock change. -/
  | turn (op : Scheduler.Operation) (spares : op.Spares)
  /-- A switch stores the registers of the process in a slot. -/
  | store (slot : Nat) (registers : Registers)
  /-- The memory, the window or the root in use are others. -/
  | machine (m : Platform)

def perform (e : Estate) : Operation → Except Fault Estate
  | .create name entry => do
    let (_, scheduler, resources) ← e.scheduler.create e.resources name entry
    return ⟨scheduler, resources⟩
  | .destroy pid => do
    let (_, scheduler, resources) ← e.scheduler.destroy e.resources pid
    return ⟨scheduler, resources⟩
  | .reap => do
    let (_, scheduler, resources) ← e.scheduler.reap e.resources
    return ⟨scheduler, resources⟩
  | .turn op _ => return { e with scheduler := ← e.scheduler.perform op }
  | .store slot registers =>
    return { e with scheduler := e.scheduler.update slot ({ · with registers }) }
  | .machine m =>
    return { e with resources := { e.resources with
      paging := { e.resources.paging with platform := m } } }

def run (e : Estate) (ops : List Operation) : Except Fault Estate := ops.foldlM perform e

/-- Each process has an allocated block for its stack and an allocated frame for its root table,
both its own, and the frames that are not free any more are as many as the processes. -/
structure Solvent (start : Resources) (e : Estate) : Prop where
  stack : ∀ i p, e.scheduler.process? i = some p → ∃ h bs b,
    e.resources.heap.heap = some h ∧ h.blocks = .ok bs ∧ b ∈ bs ∧ b.free = false ∧
      b.payload = p.stack.block ∧ kernelStackSize ≤ b.size ∧
      p.stack.top = h.addressOf b.payload + kernelStackSize
  root : ∀ i p, e.scheduler.process? i = some p →
    e.resources.paging.frames.isAllocated p.space.root = true ∧
      ∀ k ∈ e.resources.paging.kernelSpace, ∀ f ∈ k.frames,
        f / pageSize ≠ p.space.root / pageSize
  distinct : ∀ i j p q, e.scheduler.process? i = some p → e.scheduler.process? j = some q →
    i ≠ j → p.stack.block ≠ q.stack.block ∧ p.space.root / pageSize ≠ q.space.root / pageSize
  balance : e.resources.paging.frames.free + e.scheduler.processes.length =
    start.paging.frames.free

/-- The scheduler is in order, and what is missing is lent to its tenants. -/
structure Accounted (start : Resources) (taken : List Heap.Block) (e : Estate) : Prop where
  orderly : e.scheduler.Orderly
  lent : start.Lent taken e.scheduler.tenants e.resources

namespace Accounted

variable {start : Resources} {taken : List Heap.Block} {e e' : Estate}

theorem create (h : Accounted start taken e) (name : String) (entry : Nat) :
    ∃ result s' r', e.scheduler.create e.resources name entry = .ok (result, s', r') ∧
      Accounted start taken ⟨s', r'⟩ := by
  obtain ⟨_, r', htake, hrefused, hprovided⟩ := h.lent.take
  obtain ⟨⟨result, s', _⟩, hc, hcreated⟩ := Scheduler.exists_created htake name entry
  refine ⟨result, s', _, hc, (h.orderly.create hc).1, ?_⟩
  cases hcreated with
  | full _ => exact h.lent
  | refused htake' =>
    cases htake.symm.trans htake'
    dsimp only
    rw [e.scheduler.reserveSlot_spec.1.tenants]
    exact hrefused _ rfl
  | admitted htake' ha =>
    cases htake.symm.trans htake'
    exact (hprovided _ rfl).perm ha.tenants.symm

theorem create_of_take (h : Accounted start taken e) {stack : KernelStack} {space : AddressSpace}
    {r' : Resources} (hpid : e.scheduler.nextPid < Scheduler.lastPid)
    (htake : e.resources.take = .ok (.ok (stack, space), r')) (name : String) (entry : Nat) :
    ∃ s', e.scheduler.create e.resources name entry = .ok (.ok e.scheduler.nextPid, s', r') ∧
      Accounted start taken ⟨s', r'⟩ ∧ s'.nextPid = e.scheduler.nextPid + 1 ∧
      ∀ q, s'.Lives q ↔ q = e.scheduler.nextPid ∨ e.scheduler.Lives q := by
  obtain ⟨result, s', r₁, hc, h'⟩ := h.create name entry
  cases Scheduler.created_of_create hc with
  | full hlast => exact absurd hpid (Nat.not_lt.mpr hlast)
  | refused htake' => cases htake.symm.trans htake'
  | admitted htake' ha =>
    cases htake.symm.trans htake'
    rw [ha.pid] at hc
    refine ⟨s', hc, h', ha.nextPid, fun q => ?_⟩
    rw [ha.lives h.orderly.numbered, ha.pid]

theorem destroy (h : Accounted start taken e) (pid : Pid) :
    ∃ found s' r', e.scheduler.destroy e.resources pid = .ok (found, s', r') ∧
      (found = true ↔ e.scheduler.Lives pid) ∧ Accounted start taken ⟨s', r'⟩ := by
  have hn := h.orderly.numbered
  cases hslot : e.scheduler.slotOf pid with
  | none =>
    refine ⟨false, e.scheduler, e.resources, ?_, ?_, h⟩
    · rw [Scheduler.destroy, hslot]
      rfl
    · simp [Scheduler.not_lives hslot]
  | some slot =>
    obtain ⟨t, ht, -⟩ := Scheduler.slotOf_seat hslot
    have hperm := Scheduler.perm_leave_seat (Scheduler.roster_seat ht)
    obtain ⟨r', hrelease, hlent⟩ := (h.lent.perm hperm).release
    obtain ⟨s', hd⟩ := Scheduler.exists_destroy hslot ht hrelease
    have hpid := hn.slotOf_eq_some.mp hslot
    refine ⟨true, s', r', hd, by simp [hn.lives_iff.mpr ⟨slot, hpid⟩], ?_, ?_⟩
    · obtain ⟨l, hthreaded⟩ := h.orderly.threaded
      obtain ⟨hthreaded', hn', -⟩ := hthreaded.destroy hn hd
      exact ⟨hn', hthreaded'⟩
    · obtain ⟨slot', u, hslot', -, he, -⟩ | ⟨hnone, -⟩ := Scheduler.destroy_spec hd
      · cases hslot.symm.trans hslot'
        cases ht.symm.trans he.taken
        exact hlent.perm (hperm.symm.trans he.tenants).cons_inv
      · rw [hslot] at hnone
        cases hnone

theorem destroyAll (h : Accounted start taken e) (pids : List Pid) :
    ∃ s' r', e.scheduler.destroyAll e.resources pids = .ok (s', r') ∧
      Accounted start taken ⟨s', r'⟩ := by
  induction pids generalizing e with
  | nil => exact ⟨_, _, rfl, h⟩
  | cons pid pids ih =>
    obtain ⟨found, s₁, r₁, hd, -, h₁⟩ := h.destroy pid
    obtain ⟨s', r', hrest, h'⟩ := ih h₁
    refine ⟨s', r', ?_, h'⟩
    rw [Scheduler.destroyAll, hd]
    exact hrest

theorem reap (h : Accounted start taken e) :
    ∃ s' r', e.scheduler.reap e.resources = .ok (e.scheduler.reapable.length, s', r') ∧
      e.scheduler.destroyAll e.resources e.scheduler.reapable = .ok (s', r') ∧
      Accounted start taken ⟨s', r'⟩ := by
  obtain ⟨s', r', hd, h'⟩ := h.destroyAll e.scheduler.reapable
  refine ⟨s', r', ?_, hd, h'⟩
  rw [Scheduler.reap]
  simp only [hd, bind, Except.bind, pure, Except.pure]

/-- Processes can be destroyed in any order. -/
theorem run_destroy (h : Accounted start taken e) (pids : List Pid) :
    ∃ e', e.run (pids.map .destroy) = .ok e' ∧ Accounted start taken e' ∧
      ∀ q, e'.scheduler.Lives q ↔ e.scheduler.Lives q ∧ q ∉ pids := by
  induction pids generalizing e with
  | nil => exact ⟨e, rfl, h, by simp⟩
  | cons pid pids ih =>
    obtain ⟨_, s', r', hd, -, h₁⟩ := h.destroy pid
    obtain ⟨e', hr, h', hlives⟩ := ih h₁
    refine ⟨e', ?_, h', fun q => ?_⟩
    · rw [List.map_cons, Estate.run, List.foldlM_cons, Estate.perform, hd]
      exact hr
    · rw [hlives, (h.orderly.removed hd).lives, List.mem_cons, not_or, and_assoc]

theorem perform {op : Operation} (h : Accounted start taken e) (hp : e.perform op = .ok e') :
    Accounted start taken e' := by
  cases op with
  | create name entry =>
    obtain ⟨result, s', r', hc, h'⟩ := h.create name entry
    rw [Estate.perform, hc] at hp
    cases hp
    exact h'
  | destroy pid =>
    obtain ⟨found, s', r', hd, -, h'⟩ := h.destroy pid
    rw [Estate.perform, hd] at hp
    cases hp
    exact h'
  | reap =>
    obtain ⟨s', r', hr, -, h'⟩ := h.reap
    rw [Estate.perform, hr] at hp
    cases hp
    exact h'
  | turn op spares =>
    obtain ⟨s', hs, hp⟩ := Fault.of_bind_eq_ok hp
    cases hp
    refine ⟨(h.orderly.perform hs).1, ?_⟩
    rw [(Scheduler.keeps_of_spares spares hs).tenants]
    exact h.lent
  | store slot registers =>
    cases hp
    refine ⟨h.orderly.store slot registers, ?_⟩
    have hk := Scheduler.stays_update (f := ({ · with registers })) (fun _ => rfl) e.scheduler slot
    rw [hk.toKeeps.tenants]
    exact h.lent
  | machine m =>
    cases hp
    exact ⟨h.orderly, h.lent.congr rfl rfl rfl h.lent.blocks⟩

theorem run {ops : List Operation} (h : Accounted start taken e) (hr : e.run ops = .ok e') :
    Accounted start taken e' := by
  induction ops generalizing e with
  | nil =>
    cases hr
    exact h
  | cons op ops ih =>
    rw [Estate.run, List.foldlM_cons] at hr
    obtain ⟨e₁, hp, hr⟩ := Fault.of_bind_eq_ok hr
    exact ih (h.perform hp) hr

theorem solvent (h : Accounted start taken e)
    (hk : ∀ k ∈ start.paging.kernelSpace, ∀ f ∈ k.frames,
      start.paging.frames.isAllocated f = true) : e.Solvent start := by
  have hmem : ∀ {i p}, e.scheduler.process? i = some p → p.tenant ∈ e.scheduler.tenants :=
    fun hp => Scheduler.mem_tenants (Scheduler.seat_of_process? hp)
  refine ⟨fun i p hp => ?_, fun i p hp => ⟨h.lent.isAllocated (hmem hp), ?_⟩,
    fun i j p q hp hq hne => ⟨fun heq => ?_, fun heq => ?_⟩, ?_⟩
  · obtain ⟨b, l, hs, hpayload, hsize⟩ := h.lent.exists_block (hmem hp)
    obtain ⟨heap, bs, hheap, hblocks, hb⟩ := hs.exists_mem (List.mem_cons_self ..)
    have hfree := hs.free_eq_false (List.mem_cons_self ..)
    have htop := h.lent.tops _ (hmem hp)
    rw [← SharedHeap.addressOf_congr h.lent.extent, SharedHeap.addressOf, hheap, ← hpayload] at htop
    exact ⟨heap, bs, b, hheap, hblocks, hb, hfree, hpayload, hsize, Option.some.inj htop⟩
  · intro k hkernel f hf
    rw [h.lent.kernelSpace] at hkernel
    exact h.lent.frame_ne (hmem hp) (hk k hkernel f hf)
  · exact hne (Scheduler.process?_inj h.lent.nodup_blocks hp hq heq)
  · exact hne (Scheduler.process?_inj (List.nodup_append'.mp h.lent.nodup).1 hp hq heq)
  · have hb := h.lent.balance
    rwa [e.scheduler.tenants_eq, List.length_map] at hb

theorem lives_reap {s' : Scheduler} {r' : Resources} (h : Accounted start taken e)
    (hd : e.scheduler.destroyAll e.resources e.scheduler.reapable = .ok (s', r')) (pid : Pid) :
    s'.Lives pid ↔ ∃ p, e.scheduler.get? pid = some p ∧ e.scheduler.reaps p = false := by
  rw [(h.orderly.destroyAll hd).2.1, Scheduler.Lives, Option.isSome_iff_exists]
  constructor
  · rintro ⟨⟨p, hp⟩, hnot⟩
    rw [h.orderly.numbered.mem_reapable hp, Bool.not_eq_true] at hnot
    exact ⟨p, hp, hnot⟩
  · rintro ⟨p, hp, hnot⟩
    rw [h.orderly.numbered.mem_reapable hp, hnot]
    exact ⟨⟨p, hp⟩, Bool.false_ne_true⟩

end Accounted

variable {r : Resources} {slice : Nat} {ops : List Operation} {e : Estate}

/-- After every run of an estate on a well-formed heap and with a kernel space whose frames are
allocated, the estate is solvent, processes can be created or refused, destroying one removes just
that one, reaping removes those that have ended, and without processes all memory is back. -/
theorem accounts_of_run (hh : r.heap.WellFormed)
    (hk : ∀ k ∈ r.paging.kernelSpace, ∀ f ∈ k.frames, r.paging.frames.isAllocated f = true)
    (hr : (⟨.ofTimeSlice slice, r⟩ : Estate).run ops = .ok e) :
    e.Solvent r ∧
    (∀ name entry, ∃ x, e.scheduler.create e.resources name entry = .ok x) ∧
    (∀ pid, ∃ found s' r', e.scheduler.destroy e.resources pid = .ok (found, s', r') ∧
      (found = true ↔ e.scheduler.Lives pid) ∧ e.scheduler.Removed s' pid) ∧
    (∃ s' r', e.scheduler.reap e.resources =
        .ok ((e.scheduler.processes.filter e.scheduler.reaps).length, s', r') ∧
      e.scheduler.Thinned s' ∧ ∀ pid, s'.Lives pid ↔
        ∃ p, e.scheduler.get? pid = some p ∧ e.scheduler.reaps p = false) ∧
    (e.scheduler.processes = [] →
      e.resources.paging.frames.freeFrames = r.paging.frames.freeFrames ∧
        e.resources.heap.heap.map Heap.blocks = r.heap.heap.map Heap.blocks) := by
  obtain ⟨taken, hs⟩ := hh.exists_stocked
  have hstart : Accounted r taken ⟨.ofTimeSlice slice, r⟩ :=
    ⟨Scheduler.orderly_ofTimeSlice slice, .initial hs⟩
  have h := hstart.run hr
  refine ⟨h.solvent hk, fun name entry => ?_, fun pid => ?_, ?_, fun hnone => ?_⟩
  · obtain ⟨result, s', r', hc, -⟩ := h.create name entry
    exact ⟨_, hc⟩
  · obtain ⟨found, s', r', hd, hfound, -⟩ := h.destroy pid
    exact ⟨found, s', r', hd, hfound, h.orderly.removed hd⟩
  · obtain ⟨s', r', hreap, hd, -⟩ := h.reap
    rw [h.orderly.numbered.reapable_eq, List.length_map] at hreap
    exact ⟨s', r', hreap, Scheduler.thinned_destroyAll hd, h.lives_reap hd⟩
  · have hlent := h.lent
    rw [e.scheduler.tenants_eq, hnone] at hlent
    exact hlent.restored hs

/-- A heap on an arena at address 0, beside some paging state. -/
def onArena (p : Paging) (arena : Array UInt8) : Resources := ⟨p, ⟨some (.ofArena 0 arena)⟩⟩

theorem create_two {p : Paging} {arena : Array UInt8} (hsize : arena.size = 16448)
    (hp : (p.provide.any fun x => x.2.provide.isSome) = true) :
    ∃ e, (⟨.ofTimeSlice 1, onArena p arena⟩ : Estate).run [.create "a" 0, .create "b" 0] = .ok e ∧
      (∀ q, e.scheduler.Lives q ↔ q = 2 ∨ q = 1) ∧
      ∃ s r, e.scheduler.create e.resources "c" 0 =
        .ok (.error (.memory .heapExhausted), s, r) := by
  obtain ⟨heap₁, heap₂, ha₁, hb₁, ha₂, hb₂, ha₃⟩ := SharedHeap.allocate_two_stacks hsize
  obtain ⟨⟨space₁, p₁⟩, hp₁, hp⟩ := (Option.any_eq_true _ _).mp hp
  obtain ⟨⟨space₂, p₂⟩, hp₂⟩ := Option.isSome_iff_exists.mp hp
  have hw : (onArena p arena).heap.WellFormed := SharedHeap.wellFormed_ofArena 0 (by simp [hsize])
  obtain ⟨taken, hs⟩ := hw.exists_stocked
  have h : Accounted _ taken ⟨.ofTimeSlice 1, onArena p arena⟩ :=
    ⟨Scheduler.orderly_ofTimeSlice 1, .initial hs⟩
  obtain ⟨s₁, hc₁, h₁, hn₁, hl₁⟩ := h.create_of_take (show 1 < Scheduler.lastPid by decide)
    (Resources.take_of_provide ha₁ hb₁ hp₁) "a" 0
  have hn₁ : s₁.nextPid = 2 := hn₁
  obtain ⟨s₂, hc₂, h₂, hn₂, hl₂⟩ := h₁.create_of_take (by rw [hn₁]; decide)
    (Resources.take_of_provide ha₂ hb₂ hp₂) "b" 0
  have hn₂ : s₂.nextPid = 3 := by rw [hn₂, hn₁]
  refine ⟨⟨s₂, p₂, heap₂⟩, ?_, fun q => ?_, ?_⟩
  · simp only [run, List.foldlM_cons, List.foldlM_nil, perform, hc₁, hc₂, bind, Except.bind, pure,
      Except.pure]
  · have hnone : ¬ (Scheduler.ofTimeSlice 1).Lives q := Scheduler.not_lives (by
      simp [Scheduler.slotOf, Scheduler.ofTimeSlice])
    rw [hl₂, hn₁, hl₁, or_iff_left hnone]
    rfl
  · have htake := Resources.take_of_exhausted (r := ⟨p₂, heap₂⟩) ha₃
    obtain ⟨⟨result, s', r'⟩, hc, hcreated⟩ := Scheduler.exists_created (s := s₂) htake "c" 0
    cases hcreated with
    | full hlast =>
      rw [hn₂] at hlast
      exact absurd hlast (by decide)
    | refused htake' =>
      cases htake.symm.trans htake'
      exact ⟨_, _, hc⟩
    | admitted htake' => cases htake.symm.trans htake'

/-- An arena for two stacks. -/
def twoStacks : Array UInt8 := Array.replicate 16448 0

/-- Two processes live at once; a third one is refused. They are destroyed in the order in which
they were created, and all their memory is back. -/
theorem accounts_of_two_processes : ∃ w e e',
    (Spaces.ofFrames 4).perform (.setUp { identityMapLimit := 0 }) = .ok w ∧
      (⟨.ofTimeSlice 1, onArena w.paging twoStacks⟩ : Estate).run
        [.create "a" 0, .create "b" 0] = .ok e ∧
      (∀ q, e.scheduler.Lives q ↔ q = 2 ∨ q = 1) ∧ e.Solvent (onArena w.paging twoStacks) ∧
      (∃ s r, e.scheduler.create e.resources "c" 0 =
        .ok (.error (.memory .heapExhausted), s, r)) ∧
      e.run [.destroy 1, .destroy 2] = .ok e' ∧ e'.scheduler.processes = [] ∧
      e'.resources.paging.frames.freeFrames = w.paging.frames.freeFrames ∧
      e'.resources.heap.heap.map Heap.blocks =
        (onArena w.paging twoStacks).heap.heap.map Heap.blocks := by
  have hsetUp : (((Spaces.ofFrames 4).perform (.setUp { identityMapLimit := 0 })).toOption.any
      fun w => w.paging.provide.any fun x => x.2.provide.isSome) = true := by decide +kernel
  obtain ⟨w, hw, hspace⟩ := Fault.exists_of_any hsetUp
  have hheld := (Spaces.Reached.step (.start _ _) hw).holds
  have hk : ∀ k ∈ w.paging.kernelSpace, ∀ f ∈ k.frames, w.paging.frames.isAllocated f = true :=
    fun k hk f hf =>
      (hheld.allocated k (List.mem_append_left _ (Option.mem_toList.mpr hk)) f hf).1
  have hh : (onArena w.paging twoStacks).heap.WellFormed :=
    SharedHeap.wellFormed_ofArena 0 (by simp [twoStacks])
  have hsize : twoStacks.size = 16448 := Array.size_replicate
  obtain ⟨e, hr, hlives, hrefused⟩ := create_two hsize hspace
  obtain ⟨taken, hs⟩ := hh.exists_stocked
  have h := Accounted.run ⟨Scheduler.orderly_ofTimeSlice 1, .initial hs⟩ hr
  obtain ⟨e', hr', h', hlives'⟩ := h.run_destroy [1, 2]
  have hnone : e'.scheduler.processes = [] := h'.orderly.numbered.processes_eq_nil fun q => by
    rw [hlives', hlives, List.mem_pair, or_comm, and_not_self_iff]
    exact id
  have hall : (⟨.ofTimeSlice 1, onArena w.paging twoStacks⟩ : Estate).run
      ([.create "a" 0, .create "b" 0] ++ [.destroy 1, .destroy 2]) = .ok e' := by
    rw [Estate.run, List.foldlM_append, ← Estate.run, hr]
    exact hr'
  obtain ⟨hsolvent, -⟩ := accounts_of_run hh hk hr
  obtain ⟨-, -, -, -, hback⟩ := accounts_of_run hh hk hall
  obtain ⟨hframes, hblocks⟩ := hback hnone
  exact ⟨w, e, e', hw, hr, hlives, hsolvent, hrefused, hr', hnone, hframes, hblocks⟩

end Estate

end KernelCore
