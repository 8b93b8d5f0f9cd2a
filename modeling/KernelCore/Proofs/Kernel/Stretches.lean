import Mathlib
import KernelCore.Proofs.Kernel.Steps

/-!
# Stretches of a run

A stretch is a run of calls each of which was made under some condition, which may look at the
kernel that gets the call.
-/
namespace KernelCore.Kernel

variable {allows : Kernel → Call → Prop} {k k' : Kernel} {call : Call} {calls : List Call}

/-- Every call of a run is allowed where it is made. -/
def Throughout (allows : Kernel → Call → Prop) (k : Kernel) : List Call → Prop
  | [] => True
  | call :: calls =>
    allows k call ∧ ∀ k', k.handle call = .ok k' → k'.Throughout allows calls

instance decidableThroughout [∀ k call, Decidable (allows k call)] :
    ∀ k calls, Decidable (Throughout allows k calls)
  | _, [] => isTrue trivial
  | k, call :: calls =>
    match h : k.handle call with
    | .error _ => decidable_of_iff (allows k call) (by simp [Throughout, h])
    | .ok k' =>
      have := decidableThroughout k' calls
      decidable_of_iff (allows k call ∧ k'.Throughout allows calls) (by simp [Throughout, h])

/-- What allowed calls keep is kept over a stretch. -/
theorem Throughout.run (holds : Kernel → Prop) (h : k.Throughout allows calls)
    (hstep : ∀ k call k', holds k → allows k call → k.handle call = .ok k' → holds k')
    (hk : holds k) (hr : k.run calls = .ok k') : holds k' := by
  induction calls generalizing k with
  | nil =>
    cases hr
    exact hk
  | cons call calls ih =>
    rw [run_cons] at hr
    obtain ⟨k₁, hs, hr⟩ := Fault.of_bind_eq_ok hr
    obtain ⟨ha, hrest⟩ := h
    exact ih (hrest k₁ hs) (hstep k call k₁ hk ha hs) hr

def Call.isTick : Call → Bool
  | .timerTick => true
  | _ => false

/-- The number of timer interrupts of a run of which something is true. -/
def countTicks (event : Kernel → Kernel → Bool) (k : Kernel) : List Call → Nat
  | [] => 0
  | call :: calls =>
    match k.handle call with
    | .error _ => 0
    | .ok k' => (call.isTick && event k k').toNat + k'.countTicks event calls

theorem countTicks_cons (event : Kernel → Kernel → Bool) (hs : k.handle call = .ok k') :
    k.countTicks event (call :: calls) =
      (call.isTick && event k k').toNat + k'.countTicks event calls := by
  rw [countTicks, hs]

/-- A kernel with memory for a kernel space and one process. -/
def forOneProcess : Kernel :=
  boot ⟨{ platform := .ofFrames 12, frames := .ofFrames 12 },
    ⟨some (.ofArena 0 (Array.replicate 8256 0))⟩⟩ { identityMapLimit := pageSize }

/-- A heap with `n` stacks to hand out. Its headers stand close together: nobody looks into a stack,
so the bytes of the stacks are left out. None of them can be given back. -/
def stackHeap (n : Nat) : Heap :=
  ⟨0, ((List.range n).flatMap fun i => Heap.Header.toBytes
    ⟨Heap.tag, true, kernelStackSize, some ((i + 1) * Heap.headerSize)⟩).toArray⟩

/-- A kernel with memory for a kernel space and `n` processes. -/
def forProcesses (n : Nat) (config : Config) : Kernel :=
  boot ⟨{ platform := .ofFrames (5 + n), frames := .ofFrames (5 + n) }, ⟨some (stackHeap n)⟩⟩
    { config with identityMapLimit := pageSize }

theorem exists_of_stretch (k : Kernel) (before calls : List Call) (check : Kernel → Kernel → Bool)
    (h : ((k.run before).toOption.any fun k₁ => (k₁.run calls).toOption.any (check k₁)) = true) :
    ∃ k₁ k₂, k.run before = .ok k₁ ∧ k₁.run calls = .ok k₂ ∧ check k₁ k₂ = true := by
  obtain ⟨k₁, hb, h⟩ := Fault.exists_of_any h
  obtain ⟨k₂, hr, hcheck⟩ := Fault.exists_of_any h
  exact ⟨k₁, k₂, hb, hr, hcheck⟩

end KernelCore.Kernel
