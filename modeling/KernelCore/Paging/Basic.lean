import KernelCore.Paging.Space

/-!
# Paging

The paging state of the kernel: the machine, its frames, the kernel space once it is set up, and
the root loaded last. Operations on a space take it and give back the changed one.
-/
namespace KernelCore

structure Paging where
  platform : Platform
  frames : FrameAllocator
  kernelSpace : Option AddressSpace := none
  /-- The root that was loaded last, unless its space is gone. -/
  active : Option Nat := none

/-- Copies the present entries of the chosen slots from one root table to another; the result
tells which. -/
def Platform.copyEntries (m : Platform) (source target : Nat) (chosen : Nat → Bool) :
    Except MemoryError Slots × Platform :=
  let m := m.mask
  match m.readTable source, m.readTable target with
  | .error e, _ => (.error (.platform e), m)
  | .ok _, .error e => (.error (.platform e), m)
  | .ok s, .ok t =>
    let copied : Slots := Vector.ofFn fun i => chosen i && (s.get i).present
    let merged : Table := Vector.ofFn fun i => if copied.get i then s.get i else t.get i
    (.ok copied, m.writeTable target merged)

namespace Paging

/-- A new space with an empty root table. -/
def create (p : Paging) : Except MemoryError AddressSpace × Paging :=
  match p.frames.allocate with
  | none => (.error .outOfFrames, p)
  | some (root, frames) =>
    match p.platform.readTable root with
    | .error e => (.error (.platform e), { p with frames := (frames.release root).2 })
    | .ok _ => (.ok { root }, { p with frames, platform := p.platform.writeTable root .empty })

/-- Gives back the frames of a space. The pages mapped in it belong to others. -/
def destroy (p : Paging) (space : AddressSpace) : Paging :=
  let frames := space.tables.foldl (fun a table => (a.release table).2) p.frames
  { p with
    active := if p.active = some space.root then none else p.active
    frames := (frames.release space.root).2 }

def mapping (p : Paging) (space : AddressSpace) : Mapping := ⟨p.platform, p.frames, space⟩

/-- Takes over what a change of a space did to the machine and the frames. -/
def adopt (p : Paging) (w : Mapping) : Paging :=
  { p with platform := w.platform, frames := w.frames }

/-- Maps the page of `va` to the frame of `pa`. -/
def map (p : Paging) (space : AddressSpace) (va pa : Nat) (flags : BitVec 64) :
    Except MemoryError Unit × AddressSpace × Paging :=
  let (result, w) := (p.mapping space).map va pa flags
  (result, w.space, p.adopt w)

/-- Clears the page of `va`; kernel mappings that the space shares are left alone. -/
def unmap (p : Paging) (space : AddressSpace) (va : Nat) : Paging :=
  let m := p.platform.mask
  if space.borrows m va then { p with platform := m }
  else match m.unmap space.root va with
    | (none, m) => { p with platform := m }
    | (some _, m) => { p with platform := m.flush va }

def translate (p : Paging) (space : AddressSpace) (va : Nat) : Except Fault (Option Nat) :=
  p.platform.translate space.root va

/-- Lets the space see the kernel's mappings, through the kernel's own tables. -/
def share (p : Paging) (space : AddressSpace) : Except MemoryError AddressSpace × Paging :=
  match p.kernelSpace with
  | none => (.ok space, p)
  | some kernel =>
    match p.platform.copyEntries kernel.root space.root fun _ => true with
    | (.error e, platform) => (.error e, { p with platform })
    | (.ok copied, platform) =>
      (.ok { space with shared := space.shared.zipWith (· || ·) copied }, { p with platform })

/-- Loads the root of a space. -/
def switchTo (p : Paging) (space : AddressSpace) : Paging :=
  { p with platform := p.platform.mask.load space.root, active := some space.root }

/-- Loads the root of the kernel space, if there is one. -/
def switchToKernel (p : Paging) : Bool × Paging :=
  match p.kernelSpace with
  | none => (false, p)
  | some kernel => (true, p.switchTo kernel)

/-- The first slot of the upper half of the address space. -/
def upperHalf : Nat := tableEntries / 2

/-- Fills a new kernel space: the upper half of the template if it is wanted, then low memory at
its own addresses. -/
def populate (w : Mapping) (template : Nat) (config : Config) :
    Except Fault (Except MemoryError Unit × Mapping) :=
  let pages := Word.ceilDiv config.identityMapLimit pageSize
  if config.inheritUpperHalf && template != w.space.root then
    match w.platform.copyEntries template w.space.root (upperHalf ≤ ·) with
    | (.error e, platform) => .ok (.error e, { w with platform })
    | (.ok _, platform) => Mapping.mapIdentity pages 0 { w with platform }
  else Mapping.mapIdentity pages 0 w

/-- Sets up the kernel space and loads it. Once there is one, nothing happens. -/
def setUp (p : Paging) (config : Config) : Except Fault (Except MemoryError Unit × Paging) :=
  if p.kernelSpace.isSome then .ok (.ok (), p)
  else
    let template := p.platform.root
    match p.create with
    | (.error e, p) => .ok (.error e, p)
    | (.ok space, p) =>
      match populate (p.mapping space) template config with
      | .error fault => .error fault
      | .ok (.error e, w) => .ok (.error e, (p.adopt w).destroy w.space)
      | .ok (.ok (), w) =>
        .ok (.ok (), { (p.adopt w).switchTo w.space with kernelSpace := some w.space })

end Paging

end KernelCore
