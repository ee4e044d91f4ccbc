import Gbis.Core.Call

/-!
# Device and pinned host buffers

`DeviceBuffer<float>` of `src/src/core/device_buffer.hpp` and `PinnedHostBuffer<float>`
of `src/src/sched/scheduler.cpp`: owners of one allocation, or of none. A method works
on the object it is called on, which lives among the local variables `L`: `Ref L B` is
such an object, and what the method has done to it is there also when it throws. The
methods that allocate are those of the class templates, for elements of four bytes.

`allocation` is what a buffer owns: the pointer and the number of bytes asked for.
-/

namespace Gbis.Core

open Sched Library

/-- An object of type `B` among the local variables. -/
structure Ref (L B : Type) where
  /-- The object. -/
  get : L → B
  /-- Overwrite it. -/
  set : B → L → L

/-- `DeviceBuffer<float>`. -/
structure DeviceBuffer where
  data_ : Option ℕ := none
  count_ : ℕ := 0
  deriving DecidableEq, Inhabited

/-- `PinnedHostBuffer<float>`. -/
structure PinnedHostBuffer where
  data_ : Option ℕ := none
  count_ : ℕ := 0
  deriving DecidableEq, Inhabited

variable {L : Type}

namespace DeviceBuffer

/-- `bytes()`. -/
def bytes (b : DeviceBuffer) : ℕ := mulSize b.count_ 4

/-- `cudaFree(data_)` if there is anything to free. -/
def free (b : DeviceBuffer) : HostM L Unit :=
  match b.data_ with
  | some p => call (.cudaFree p)
  | none => pure ()

/-- `release()`. -/
def release (self : Ref L DeviceBuffer) : HostM L Unit := do
  let l ← Host.locals
  free (self.get l)
  Host.assign (self.set {})

theorem release_returns (self : Ref L DeviceBuffer) : (release self).Returns := by
  refine Host.returns_bind Host.returns_locals fun l => Host.returns_bind ?_ fun _ => Host.returns_assign _
  unfold free
  split
  · exact Host.returns_call _
  · exact Host.returns_pure _

/-- The object after `cudaMalloc`: it owns what it was given, or is left empty. -/
def adopt (self : Ref L DeviceBuffer) (count : ℕ) : Except CudaError ℕ → HostM L Status
  | .error err => do
    Host.assign (self.set {})
    pure (.error err)
  | .ok p => do
    Host.assign (self.set ⟨some p, count⟩)
    pure (.ok ())

/-- `try_allocate(count)` of `DeviceBuffer<T>`. -/
def try_allocate_of (sizeof_T : ℕ) (self : Ref L DeviceBuffer) (count : ℕ) : HostM L Status := do
  release self
  if count = 0 then pure (.ok ())
  else do
    let err ← call (.cudaMalloc (mulSize count sizeof_T))
    adopt self count err

/-- `try_allocate(count)`. -/
def try_allocate (self : Ref L DeviceBuffer) (count : ℕ) : HostM L Status := try_allocate_of 4 self count

/-- `allocate(count)` of `DeviceBuffer<T>`, which throws. -/
def allocate_of (sizeof_T : ℕ) (self : Ref L DeviceBuffer) (count : ℕ) : HostM L Unit := do
  let err ← try_allocate_of sizeof_T self count
  CUDA_CHECK err

/-- `allocate(count)`. -/
def allocate (self : Ref L DeviceBuffer) (count : ℕ) : HostM L Unit := allocate_of 4 self count

end DeviceBuffer

namespace PinnedHostBuffer

/-- `cudaFreeHost(data_)` if there is anything to free. -/
def free (b : PinnedHostBuffer) : HostM L Unit :=
  match b.data_ with
  | some p => call (.cudaFreeHost p)
  | none => pure ()

/-- `release()`. -/
def release (self : Ref L PinnedHostBuffer) : HostM L Unit := do
  let l ← Host.locals
  free (self.get l)
  Host.assign (self.set {})

theorem release_returns (self : Ref L PinnedHostBuffer) : (release self).Returns := by
  refine Host.returns_bind Host.returns_locals fun l => Host.returns_bind ?_ fun _ => Host.returns_assign _
  unfold free
  split
  · exact Host.returns_call _
  · exact Host.returns_pure _

/-- `allocate(count)` of `PinnedHostBuffer<T>`, which throws. -/
def allocate_of (sizeof_T : ℕ) (self : Ref L PinnedHostBuffer) (count : ℕ) : HostM L Unit := do
  release self
  if count = 0 then pure ()
  else do
    let err ← call (.cudaHostAlloc (mulSize count sizeof_T))
    let p ← CUDA_CHECK err
    Host.assign (self.set ⟨some p, count⟩)

/-- `allocate(count)`. -/
def allocate (self : Ref L PinnedHostBuffer) (count : ℕ) : HostM L Unit := allocate_of 4 self count

end PinnedHostBuffer

end Gbis.Core
