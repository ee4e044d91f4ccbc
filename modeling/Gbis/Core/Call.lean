import Gbis.Sched.Job
import Gbis.Library.HostProgram

/-!
# What a worker thread calls

A worker is a host program (`Gbis.Library.Prog`) over these calls: those of the CUDA
runtime and of cuBLAS, those that touch host memory or the clock, and the operations
on what the scheduler's threads share, each of which is one critical section or one
atomic. Pointers, streams and events are the numbers the runtime hands out; a null
pointer and the default stream are `none`.

A CUDA call that can fail answers with a status (`Status`), and `CUDA_CHECK` turns a
failure into an exception. A status the code does not look at is not modelled. The
contents of a buffer of `float`s are its 32-bit words. The texts of the exceptions
are left out: `fail_batch` ignores them, and they only go to `stderr`.
-/

namespace Gbis.Core

open Sched Library

/-- `cudaError_t`, other than `cudaSuccess`. -/
inductive CudaError where
  /-- `cudaErrorMemoryAllocation`. -/
  | memoryAllocation
  /-- Any other. -/
  | other (code : ℕ)
  deriving DecidableEq

/-- The status of a CUDA call. -/
abbrev Status := Except CudaError Unit

/-- What a worker may throw. -/
inductive Exn where
  /-- A failed `CUDA_CHECK`. -/
  | cuda (err : CudaError)
  /-- A failed `CUBLAS_CHECK`. -/
  | cublas (status : ℕ)
  /-- "buffer allocation failed". -/
  | allocation (err : CudaError)
  deriving DecidableEq

/-- `cudaMemcpyKind`. -/
inductive MemcpyKind where
  /-- `cudaMemcpyHostToDevice`. -/
  | hostToDevice
  /-- `cudaMemcpyDeviceToHost`. -/
  | deviceToHost
  deriving DecidableEq

/-- The contents of a buffer of `float`s. -/
abbrev Floats := List (BitVec 32)

/-- What the scheduler records of a job; times in nanoseconds. -/
structure JobMetrics where
  job_id : ℕ := 0
  seq : ℕ := 0
  priority : Int32 := 0
  queue_wait : ℤ := 0
  exec : ℤ := 0
  e2e : ℤ := 0
  ok : Bool := false
  deriving DecidableEq

/-- The calls. -/
inductive Call where
  /-- `cudaStreamCreateWithFlags(&s, cudaStreamNonBlocking)`. -/
  | cudaStreamCreateWithFlags
  /-- `cudaStreamCreate(&s)`. -/
  | cudaStreamCreate
  /-- `cudaEventCreate(&e)`. -/
  | cudaEventCreate
  | cudaEventDestroy (event : ℕ)
  | cudaMalloc (bytes : ℕ)
  | cudaFree (p : ℕ)
  | cudaHostAlloc (bytes : ℕ)
  | cudaFreeHost (p : ℕ)
  | cudaMemcpyAsync (kind : MemcpyKind) (dst src : Option ℕ) (bytes : ℕ) (stream : Option ℕ)
  | cudaEventRecord (event : ℕ) (stream : Option ℕ)
  | cudaStreamWaitEvent (stream : Option ℕ) (event : ℕ)
  | cudaEventSynchronize (event : ℕ)
  | cudaDeviceSynchronize
  | cudaGetLastError
  /-- The launch of the tiled kernel, whose status nobody looks at. -/
  | gemm_tiled_batched (A B C : Option ℕ) (M N K batch : Int32) (stream : Option ℕ)
  | cublasCreate
  | cublasSetStream (handle : ℕ) (stream : Option ℕ)
  /-- The GEMM call of `gemm_cublas_batched`, on the stream set before. -/
  | cublasSgemmStridedBatched (handle : ℕ) (A B C : Option ℕ) (M N K batch : Int32) (stream : Option ℕ)
  /-- The host fills two pinned buffers with a job's inputs. -/
  | fill_matrices (job : InferenceJob) (a b : Option ℕ)
  /-- The host copies `count` floats out of a pinned buffer. -/
  | read (p : Option ℕ) (count : ℕ)
  /-- An access `v[index]` to a vector of `size` elements. -/
  | index (size index : ℕ)
  /-- `Clock::now()`. -/
  | now
  | sleep_for (ms : ℕ)
  /-- `batch_space_cv_.notify_one()`. -/
  | notify_batch_space
  /-- `results_[seq] = c`. -/
  | store_result (seq : ℕ) (c : Floats)
  /-- `metrics_.insert(metrics_.end(), out.begin(), out.end())`. -/
  | insert_metrics (out : List JobMetrics)
  /-- `completed_.fetch_add(n)`. -/
  | add_completed (n : ℕ)
  /-- `alloc_retries_.fetch_add(1)`. -/
  | add_alloc_retry
  /-- `oom_failures_.fetch_add(1)`. -/
  | add_oom_failure
  | fail_batch (batch : List InferenceJob)
  | release_bytes (bytes : ℕ)
  deriving DecidableEq

/-- What each call answers. -/
@[reducible] def Call.Ret : Call → Type
  | .cudaStreamCreateWithFlags | .cudaStreamCreate | .cudaEventCreate => Except CudaError ℕ
  | .cudaMalloc _ | .cudaHostAlloc _ => Except CudaError ℕ
  | .cudaMemcpyAsync .. | .cudaEventRecord .. | .cudaStreamWaitEvent .. | .cudaEventSynchronize _
  | .cudaDeviceSynchronize => Status
  | .cublasCreate => Except ℕ ℕ
  | .cublasSetStream .. | .cublasSgemmStridedBatched .. => Except ℕ Unit
  | .read .. => Floats
  | .now => ℤ
  | _ => Unit

/-- A function of a worker with local variables `L`. -/
abbrev HostM (L : Type) (α : Type) : Type := Host Call Call.Ret L Exn α

variable {L : Type}

/-- Make a call. -/
abbrev call (c : Call) : HostM L c.Ret := Host.call c

/-- `CUDA_CHECK`. -/
def CUDA_CHECK {α : Type} : Except CudaError α → HostM L α
  | .ok a => pure a
  | .error e => Host.throw (.cuda e)

/-- `CUBLAS_CHECK`. -/
def CUBLAS_CHECK {α : Type} : Except ℕ α → HostM L α
  | .ok a => pure a
  | .error e => Host.throw (.cublas e)

theorem forall_except {ε α : Type} {p : Except ε α → Prop} : (∀ r, p r) ↔ (∀ e, p (.error e)) ∧ ∀ a, p (.ok a) :=
  ⟨fun h => ⟨fun _ => h _, fun _ => h _⟩, fun h r => by cases r; exacts [h.1 _, h.2 _]⟩

@[simp] theorem within_CUDA_CHECK {P : Call → Prop} {γ : Type} {g : L → γ} {α : Type} (r : Except CudaError α) :
    (CUDA_CHECK r : HostM L α).Within P g := by
  cases r <;> simp [CUDA_CHECK]

@[simp] theorem within_CUBLAS_CHECK {P : Call → Prop} {γ : Type} {g : L → γ} {α : Type} (r : Except ℕ α) :
    (CUBLAS_CHECK r : HostM L α).Within P g := by
  cases r <;> simp [CUBLAS_CHECK]

section

variable {σ : Type} {W : World Call Call.Ret σ} {α : Type} {Q : α → L → σ → Prop} {X : Exn → L → σ → Prop}
  {l : L} {s : σ}

@[simp] theorem wp_CUDA_CHECK (r : Except CudaError α) :
    (CUDA_CHECK r : HostM L α).wp W Q X l s ↔
      (∀ a, r = .ok a → Q a l s) ∧ ∀ e, r = .error e → X (.cuda e) l s := by
  cases r <;> simp [CUDA_CHECK]

end

end Gbis.Core
