import Gbis.Core.Buffer
import Gbis.Sched.Packing

/-!
# A worker's turn

What a worker thread does with one batch, from `src/src/sched/scheduler.cpp`: the body
of `worker_loop` after the batch has been popped (`worker_body`), and in it
`execute_batch`, as a host program over the calls of `Gbis.Core.Call`. The program is
the whole of the function, in the order of the source: the streams and the event pool,
the allocation with its retries, the three-stream pipeline, the collection of the
results, and what the `catch` does.

The loops are recursions on what is left of them. The local variables (`Locals`) are
those that outlive a throw: the worker's context, the buffers of the batch, and the
cuBLAS handle of the thread. A `WorkerContext` that has not been made yet is one whose
streams are null and whose pools are empty, which is how `make_unique` makes it.
-/

namespace Gbis.Sched

open Gbis.Core Library

/-- Which GEMM the workers run: `"tiled"`, or `"cublas"`. -/
inductive Impl where
  | tiled
  | cublas
  deriving DecidableEq

/-- `BatchScheduler::Options`, without the sampling interval. -/
structure Options where
  max_batch : Int32 := 8
  safety_margin_bytes : UInt64 := 268435456
  num_workers : Int32 := 2
  impl : Impl := .tiled
  retain_results : Bool := false
  /-- `0` to use the GPU monitor. -/
  fixed_budget_bytes : UInt64 := 0

/-- The streams and the event pools of a worker. -/
structure WorkerContext where
  h2d_stream : Option ℕ := none
  compute_stream : Option ℕ := none
  d2h_stream : Option ℕ := none
  h2d_done : List ℕ := []
  kern_done : List ℕ := []
  done : List ℕ := []

/-- The buffers of one job of a batch. -/
structure JobBuffers where
  da : DeviceBuffer := {}
  db : DeviceBuffer := {}
  dc : DeviceBuffer := {}
  ha : PinnedHostBuffer := {}
  hb : PinnedHostBuffer := {}
  hc : PinnedHostBuffer := {}
  pickup : ℤ := 0
  deriving DecidableEq, Inhabited

/-- The variables of a worker thread that outlive a throw. -/
structure Locals where
  /-- `*ctx`. -/
  ctx : WorkerContext := {}
  /-- `execs`, empty outside `execute_batch`. -/
  execs : List JobBuffers := []
  /-- The thread's cuBLAS handle, once it has been created. -/
  cublas_handle : Option ℕ := none

/-- A function of a worker thread. -/
abbrev WorkerM (α : Type) : Type := HostM Locals α

/-- `execs[i]`. -/
def Locals.exec (l : Locals) (i : ℕ) : JobBuffers := l.execs.getD i default

/-- Assign to a member of `execs[i]`. -/
def Locals.setExec (i : ℕ) (f : JobBuffers → JobBuffers) (l : Locals) : Locals :=
  { l with execs := l.execs.modify i f }

/-- `execs[i].da`, and so on. -/
def da (i : ℕ) : Ref Locals DeviceBuffer :=
  ⟨fun l => (l.exec i).da, fun b => Locals.setExec i fun e => { e with da := b }⟩

@[inherit_doc da]
def db (i : ℕ) : Ref Locals DeviceBuffer :=
  ⟨fun l => (l.exec i).db, fun b => Locals.setExec i fun e => { e with db := b }⟩

@[inherit_doc da]
def dc (i : ℕ) : Ref Locals DeviceBuffer :=
  ⟨fun l => (l.exec i).dc, fun b => Locals.setExec i fun e => { e with dc := b }⟩

@[inherit_doc da]
def ha (i : ℕ) : Ref Locals PinnedHostBuffer :=
  ⟨fun l => (l.exec i).ha, fun b => Locals.setExec i fun e => { e with ha := b }⟩

@[inherit_doc da]
def hb (i : ℕ) : Ref Locals PinnedHostBuffer :=
  ⟨fun l => (l.exec i).hb, fun b => Locals.setExec i fun e => { e with hb := b }⟩

@[inherit_doc da]
def hc (i : ℕ) : Ref Locals PinnedHostBuffer :=
  ⟨fun l => (l.exec i).hc, fun b => Locals.setExec i fun e => { e with hc := b }⟩

/-- The buffers of a job. -/
inductive Buf where
  | da
  | db
  | dc
  | ha
  | hb
  | hc
  deriving DecidableEq

/-- The order in which `JobBuffers` declares them. -/
def Buf.declared : List Buf := [.da, .db, .dc, .ha, .hb, .hc]

@[simp] theorem Buf.mem_declared (w : Buf) : w ∈ Buf.declared := by cases w <;> decide

/-! ### Streams and events -/

/-- `if (ctx.h2d_stream == nullptr)`: create the three streams. -/
def create_streams : WorkerM Unit := do
  let l ← Host.locals
  match l.ctx.h2d_stream with
  | some _ => pure ()
  | none => do
    let h ← call .cudaStreamCreateWithFlags
    let h ← CUDA_CHECK h
    Host.assign fun l => { l with ctx := { l.ctx with h2d_stream := some h } }
    let c ← call .cudaStreamCreate
    let c ← CUDA_CHECK c
    Host.assign fun l => { l with ctx := { l.ctx with compute_stream := some c } }
    let d ← call .cudaStreamCreateWithFlags
    let d ← CUDA_CHECK d
    Host.assign fun l => { l with ctx := { l.ctx with d2h_stream := some d } }

/-- Create `n` events more than `made`; if one cannot be created, destroy those made
and throw, as `std::vector::resize` does. -/
def create_events (made : List ℕ) : ℕ → WorkerM (List ℕ)
  | 0 => pure made
  | n + 1 => do
    let e ← call .cudaEventCreate
    match e with
    | .ok e => create_events (made ++ [e]) n
    | .error err => do
      Host.forEach (fun e => call (.cudaEventDestroy e)) made
      Host.throw (.cuda err)

/-- `pool.resize(n)`, for a pool of fewer than `n` events. -/
def resize (pool : List ℕ) (n : ℕ) : WorkerM (List ℕ) := do
  let made ← create_events [] (n - pool.length)
  pure (pool ++ made)

/-- `if (ctx.h2d_done.size() < batch.size())`: grow the three event pools. -/
def grow_events (n : ℕ) : WorkerM Unit := do
  let l ← Host.locals
  if l.ctx.h2d_done.length < n then do
    let h ← resize l.ctx.h2d_done n
    Host.assign fun l => { l with ctx := { l.ctx with h2d_done := h } }
    let k ← resize l.ctx.kern_done n
    Host.assign fun l => { l with ctx := { l.ctx with kern_done := k } }
    let d ← resize l.ctx.done n
    Host.assign fun l => { l with ctx := { l.ctx with done := d } }
  else pure ()

/-! ### Allocation -/

/-- `alloc_err = ...; if (alloc_err != cudaSuccess) break;` before `rest`. -/
def orBreak (alloc : WorkerM Status) (rest : WorkerM Status) : WorkerM Status := do
  let alloc_err ← alloc
  match alloc_err with
  | .error err => pure (.error err)
  | .ok _ => rest

/-- The allocations for job `i`. -/
def allocate_job (i : ℕ) (job : InferenceJob) : WorkerM Status :=
  orBreak (DeviceBuffer.try_allocate (da i) job.sa) <|
  orBreak (DeviceBuffer.try_allocate (db i) job.sb) <|
  orBreak (DeviceBuffer.try_allocate (dc i) job.sc) <| do
    PinnedHostBuffer.allocate (ha i) job.sa
    PinnedHostBuffer.allocate (hb i) job.sb
    PinnedHostBuffer.allocate (hc i) job.sc
    pure (.ok ())

/-- The allocations for the jobs from `i` on, up to the first failure. -/
def allocate_jobs : ℕ → List InferenceJob → WorkerM Status
  | _, [] => pure (.ok ())
  | i, job :: jobs => orBreak (allocate_job i job) (allocate_jobs (i + 1) jobs)

/-- Release a buffer of job `i`. -/
def release_buf (i : ℕ) : Buf → WorkerM Unit
  | .da => DeviceBuffer.release (da i)
  | .db => DeviceBuffer.release (db i)
  | .dc => DeviceBuffer.release (dc i)
  | .ha => PinnedHostBuffer.release (ha i)
  | .hb => PinnedHostBuffer.release (hb i)
  | .hc => PinnedHostBuffer.release (hc i)

theorem release_buf_returns (i : ℕ) (w : Buf) : (release_buf i w).Returns := by
  cases w with
  | da | db | dc => exact DeviceBuffer.release_returns _
  | ha | hb | hc => exact PinnedHostBuffer.release_returns _

/-- Release everything, the buffers of each job in this order. -/
def release_jobs (order : List Buf) (n : ℕ) : WorkerM Unit :=
  Host.forEach (fun i => Host.forEach (release_buf i) order) (List.range n)

theorem release_jobs_returns (order : List Buf) (n : ℕ) : (release_jobs order n).Returns :=
  Host.returns_forEach fun i _ => Host.returns_forEach fun w _ => release_buf_returns i w

/-- `kMaxAllocRetries`. -/
def kMaxAllocRetries : ℕ := 200

/-- One attempt at allocating everything. A failed one releases what it got; out of
memory, and unless it was the last one permitted, it is followed by `again`. -/
def allocate_attempt (batch : List InferenceJob) (again : Option (WorkerM Status)) : WorkerM Status := do
  let alloc_err ← allocate_jobs 0 batch
  match alloc_err with
  | .ok _ => pure (.ok ())
  | .error err => do
    release_jobs Buf.declared batch.length
    call .cudaGetLastError
    match err, again with
    | .memoryAllocation, some again => do
      call .add_alloc_retry
      call (.sleep_for 25)
      again
    | err, _ => pure (.error err)

/-- The attempts, with `left` retries left: the status of the last one made. -/
def allocate_attempts (batch : List InferenceJob) : ℕ → WorkerM Status
  | 0 => allocate_attempt batch none
  | left + 1 => allocate_attempt batch (some (allocate_attempts batch left))

/-- `if (!allocated)`: count the failure and throw. -/
def throw_unless_allocated : Status → WorkerM Unit
  | .ok _ => pure ()
  | .error .memoryAllocation => do
    call .add_oom_failure
    Host.throw (.allocation .memoryAllocation)
  | .error err => Host.throw (.allocation err)

/-! ### The pipeline -/

/-- `cudaMemcpyAsync`, checked. -/
def copy_async (kind : MemcpyKind) (dst src : Option ℕ) (bytes : ℕ) (stream : Option ℕ) : WorkerM Unit := do
  let r ← call (.cudaMemcpyAsync kind dst src bytes stream)
  CUDA_CHECK r

/-- `pool[i].get()`. -/
def event_at (pool : WorkerContext → List ℕ) (i : ℕ) : WorkerM ℕ := do
  let l ← Host.locals
  call (.index (pool l.ctx).length i)
  pure ((pool l.ctx).getD i 0)

/-- `cudaEventRecord(pool[i], stream)`, checked. -/
def record_event (pool : WorkerContext → List ℕ) (i : ℕ) (stream : WorkerContext → Option ℕ) : WorkerM Unit := do
  let e ← event_at pool i
  let l ← Host.locals
  let r ← call (.cudaEventRecord e (stream l.ctx))
  CUDA_CHECK r

/-- `cudaStreamWaitEvent(stream, pool[i], 0)`, checked. -/
def wait_event (stream : WorkerContext → Option ℕ) (pool : WorkerContext → List ℕ) (i : ℕ) : WorkerM Unit := do
  let e ← event_at pool i
  let l ← Host.locals
  let r ← call (.cudaStreamWaitEvent (stream l.ctx) e)
  CUDA_CHECK r

/-- `batch[i]`. -/
def job_at (batch : List InferenceJob) (i : ℕ) : WorkerM InferenceJob := do
  call (.index batch.length i)
  pure (batch.getD i default)

/-- Fill the inputs of job `i` and issue their copies. -/
def enqueue_h2d (batch : List InferenceJob) (i : ℕ) : WorkerM Unit := do
  let job ← job_at batch i
  let l ← Host.locals
  let e := l.exec i
  call (.fill_matrices job e.ha.data_ e.hb.data_)
  let t ← call .now
  Host.assign (Locals.setExec i fun e => { e with pickup := t })
  copy_async .hostToDevice e.da.data_ e.ha.data_ e.da.bytes l.ctx.h2d_stream
  copy_async .hostToDevice e.db.data_ e.hb.data_ e.db.bytes l.ctx.h2d_stream
  record_event (·.h2d_done) i (·.h2d_stream)

/-- The thread's cuBLAS handle, created at its first use. -/
def cublas_handle : WorkerM ℕ := do
  let l ← Host.locals
  match l.cublas_handle with
  | some h => pure h
  | none => do
    let h ← call .cublasCreate
    let h ← CUBLAS_CHECK h
    Host.assign fun l => { l with cublas_handle := some h }
    pure h

/-- `gemm_cublas_batched`. -/
def gemm_cublas_batched (A B C : Option ℕ) (M N K batch : Int32) (stream : Option ℕ) : WorkerM Unit := do
  let h ← cublas_handle
  let r ← call (.cublasSetStream h stream)
  CUBLAS_CHECK r
  let r ← call (.cublasSgemmStridedBatched h A B C M N K batch stream)
  CUBLAS_CHECK r

/-- Issue the GEMM of a job. -/
def issue_gemm (impl : Impl) (job : InferenceJob) (e : JobBuffers) (stream : Option ℕ) : WorkerM Unit :=
  match impl with
  | .cublas => gemm_cublas_batched e.da.data_ e.db.data_ e.dc.data_ job.m job.n job.k job.batch stream
  | .tiled => call (.gemm_tiled_batched e.da.data_ e.db.data_ e.dc.data_ job.m job.n job.k job.batch stream)

/-- `if (i + 1 < batch.size()) enqueue_h2d(i + 1);` -/
def enqueue_next (batch : List InferenceJob) (i : ℕ) : WorkerM Unit :=
  if i + 1 < batch.length then enqueue_h2d batch (i + 1) else pure ()

/-- What the pipeline issues for job `i`: the GEMM, the copy of its result, and the
copies of the next job's inputs. -/
def issue_job (impl : Impl) (batch : List InferenceJob) (i : ℕ) : WorkerM Unit := do
  let job ← job_at batch i
  wait_event (·.compute_stream) (·.h2d_done) i
  let l ← Host.locals
  let e := l.exec i
  issue_gemm impl job e l.ctx.compute_stream
  record_event (·.kern_done) i (·.compute_stream)
  wait_event (·.d2h_stream) (·.kern_done) i
  copy_async .deviceToHost e.hc.data_ e.dc.data_ e.dc.bytes l.ctx.d2h_stream
  record_event (·.done) i (·.d2h_stream)
  enqueue_next batch i

/-! ### The results -/

/-- `if (opts_.retain_results)`: copy the result out and keep it. -/
def retain (retain_results : Bool) (job : InferenceJob) (hc : PinnedHostBuffer) : WorkerM Unit :=
  if retain_results then do
    let c ← call (.read hc.data_ hc.count_)
    call (.store_result job.seq c)
  else pure ()

/-- Await job `i` and make its metrics entry. -/
def collect_job (retain_results : Bool) (i : ℕ) (job : InferenceJob) : WorkerM JobMetrics := do
  let ev ← event_at (·.done) i
  let r ← call (.cudaEventSynchronize ev)
  CUDA_CHECK r
  let finish ← call .now
  let l ← Host.locals
  let e := l.exec i
  retain retain_results job e.hc
  pure { job_id := job.id, seq := job.seq, priority := job.priority, queue_wait := e.pickup - job.submit_time,
         exec := finish - e.pickup, e2e := finish - job.submit_time, ok := true }

/-- The entries of the jobs from `i` on. -/
def collect_jobs (retain_results : Bool) : ℕ → List InferenceJob → WorkerM (List JobMetrics)
  | _, [] => pure []
  | i, job :: jobs => do
    let m ← collect_job retain_results i job
    let out ← collect_jobs retain_results (i + 1) jobs
    pure (m :: out)

/-! ### The batch -/

/-- The `try` block of `execute_batch`. -/
def try_block (opts : Options) (batch : List InferenceJob) : WorkerM Unit := do
  let alloc_err ← allocate_attempts batch kMaxAllocRetries
  throw_unless_allocated alloc_err
  enqueue_h2d batch 0
  Host.forEach (issue_job opts.impl batch) (List.range batch.length)
  let out ← collect_jobs opts.retain_results 0 batch
  call (.insert_metrics out)
  call (.add_completed out.length)

/-- The `catch` block. -/
def catch_block (batch : List InferenceJob) : Exn → WorkerM Unit := fun _ => do
  let _ ← call .cudaDeviceSynchronize
  call (.fail_batch batch)

theorem catch_block_returns (batch : List InferenceJob) (e : Exn) : (catch_block batch e).Returns :=
  Host.returns_bind (Host.returns_call _) fun _ => Host.returns_call _

/-- `execute_batch`. The buffers are destroyed as it returns, those of each job in the reverse of the order in which
they are declared. -/
def execute_batch (opts : Options) (batch : List InferenceJob) : WorkerM Unit := do
  create_streams
  grow_events batch.length
  Host.assign fun l => { l with execs := List.replicate batch.length {} }
  Host.tryCatch (try_block opts batch) (catch_block batch)
  release_jobs Buf.declared.reverse batch.length
  Host.assign fun l => { l with execs := [] }

/-- What `worker_loop` does with a batch it has popped. -/
def worker_body (opts : Options) (gpu_absent : Bool) (batch : List InferenceJob) : WorkerM Unit := do
  call .notify_batch_space
  let batch_bytes := batchBytes batch
  if gpu_absent then do
    call (.fail_batch batch)
    call (.release_bytes batch_bytes)
  else do
    Host.tryCatch (execute_batch opts batch) fun e => do
      call (.release_bytes batch_bytes)
      Host.throw e
    call (.release_bytes batch_bytes)

end Gbis.Sched
