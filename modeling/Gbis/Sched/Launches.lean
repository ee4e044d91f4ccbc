import Gbis.Kernels.Launch
import Gbis.Sched.Footprint

/-!
# The launches of a turn

Whatever the library answers, a worker's turn launches the tiled kernel for jobs of its batch only,
with their dimensions (`worker_body_launching`). So a launch is refused only if a job is submitted
whose product is too large for CUDA's limits on a grid (`Launchable`).
-/

namespace Gbis.Sched

open Gbis.Core Library

variable {α : Type} {impl : Impl} {batch : List InferenceJob} {i : ℕ}

/-- The launch for a job is accepted, if it is launched. -/
def Launchable (impl : Impl) (job : InferenceJob) : Prop :=
  impl = .tiled → (Gbis.Kernels.tiledGrid job.m job.n job.batch).Launches

instance (impl : Impl) (job : InferenceJob) : Decidable (Launchable impl job) :=
  inferInstanceAs (Decidable (impl = .tiled → (Gbis.Kernels.tiledGrid job.m job.n job.batch).Launches))

/-- The call is a launch that CUDA refuses. -/
def refused : Call → Bool
  | .gemm_tiled_batched _ _ _ M N _ b _ => !decide (Gbis.Kernels.tiledGrid M N b).Launches
  | _ => false

/-- The call is a launch. -/
@[reducible] def launches : Call → Bool
  | .gemm_tiled_batched .. => true
  | _ => false

/-- The call is the launch for a job. -/
def LaunchFor (job : InferenceJob) : Call → Prop
  | .gemm_tiled_batched _ _ _ M N K b _ => (job.m, job.n, job.k, job.batch) = (M, N, K, b)
  | _ => False

/-- A launch is for a job of the batch. -/
abbrev LaunchOf (impl : Impl) (batch : List InferenceJob) (c : Call) : Prop :=
  launches c = true → impl = .tiled ∧ ∃ job ∈ batch, LaunchFor job c

/-- A launch for a job of the batch is accepted, if those of all its jobs are. -/
theorem LaunchOf.accepted {c : Call} (h : LaunchOf impl batch c) (hbatch : ∀ job ∈ batch, Launchable impl job) :
    refused c = false := by
  cases c with
  | gemm_tiled_batched =>
    obtain ⟨himpl, job, hjob, hfor⟩ := h rfl
    obtain ⟨rfl, rfl, -, rfl⟩ : job.m = _ ∧ job.n = _ ∧ job.k = _ ∧ job.batch = _ := by simpa [LaunchFor] using hfor
    simpa [refused] using hbatch job hjob himpl
  | _ => rfl

/-- The launches of `p` are for jobs of the batch. -/
abbrev Launching (impl : Impl) (batch : List InferenceJob) (p : WorkerM α) : Prop :=
  p.Within (LaunchOf impl batch) fun _ => ()

theorem Preparing.launching {p : WorkerM α} (h : Preparing p) : Launching impl batch p := by
  refine h.mono (fun c hc => ?_) fun _ _ _ => rfl
  cases c <;> simp_all

/-! ### The allocations -/

theorem DeviceBuffer.release_launching (self : Ref Locals DeviceBuffer) :
    Launching impl batch (DeviceBuffer.release self) := by
  refine Host.within_bind Host.within_locals fun l => Host.within_bind ?_ fun _ => Host.within_assign fun _ => rfl
  unfold DeviceBuffer.free
  cases (self.get l).data_ <;> simp

theorem DeviceBuffer.try_allocate_launching (self : Ref Locals DeviceBuffer) (count : ℕ) :
    Launching impl batch (DeviceBuffer.try_allocate self count) := by
  refine Host.within_bind (DeviceBuffer.release_launching self) fun _ => ?_
  split_ifs
  · simp
  · refine Host.within_bind (by simp) fun err => ?_
    cases err <;> exact Host.within_bind (Host.within_assign fun _ => rfl) fun _ => Host.within_pure _

theorem PinnedHostBuffer.release_launching (self : Ref Locals PinnedHostBuffer) :
    Launching impl batch (PinnedHostBuffer.release self) := by
  refine Host.within_bind Host.within_locals fun l => Host.within_bind ?_ fun _ => Host.within_assign fun _ => rfl
  unfold PinnedHostBuffer.free
  cases (self.get l).data_ <;> simp

theorem PinnedHostBuffer.allocate_launching (self : Ref Locals PinnedHostBuffer) (count : ℕ) :
    Launching impl batch (PinnedHostBuffer.allocate self count) := by
  refine Host.within_bind (PinnedHostBuffer.release_launching self) fun _ => ?_
  split_ifs
  repeat' with_reducible refine Host.within_bind ?_ fun _ => ?_
  all_goals simp

theorem orBreak_launching {alloc rest : WorkerM Status} (h : Launching impl batch alloc)
    (h' : Launching impl batch rest) : Launching impl batch (orBreak alloc rest) := by
  refine Host.within_bind h fun err => ?_
  cases err
  · exact Host.within_pure _
  · exact h'

theorem allocate_jobs_launching (i : ℕ) (jobs : List InferenceJob) :
    Launching impl batch (allocate_jobs i jobs) := by
  induction jobs generalizing i with
  | nil => exact Host.within_pure _
  | cons job jobs ih =>
    refine orBreak_launching ?_ (ih (i + 1))
    refine orBreak_launching (DeviceBuffer.try_allocate_launching _ _) <|
      orBreak_launching (DeviceBuffer.try_allocate_launching _ _) <|
      orBreak_launching (DeviceBuffer.try_allocate_launching _ _) ?_
    repeat' with_reducible refine Host.within_bind ?_ fun _ => ?_
    all_goals simp [PinnedHostBuffer.allocate_launching]

theorem release_jobs_launching (order : List Buf) (n : ℕ) : Launching impl batch (release_jobs order n) := by
  refine Host.within_forEach fun i _ => Host.within_forEach fun w _ => ?_
  cases w with
  | da | db | dc => exact DeviceBuffer.release_launching _
  | ha | hb | hc => exact PinnedHostBuffer.release_launching _

theorem allocate_attempts_launching (jobs : List InferenceJob) (left : ℕ) :
    Launching impl batch (allocate_attempts jobs left) := by
  have attempt : ∀ again, (∀ p ∈ again, Launching impl batch p) →
      Launching impl batch (allocate_attempt jobs again) := by
    intro again h
    refine Host.within_bind (allocate_jobs_launching 0 jobs) fun err => ?_
    cases err with
    | ok => exact Host.within_pure _
    | error err =>
      refine Host.within_bind (release_jobs_launching _ _) fun _ => Host.within_bind (by simp) fun _ => ?_
      split
      · exact Host.within_bind (by simp) fun _ => Host.within_bind (by simp) fun _ => h _ rfl
      · exact Host.within_pure _
  induction left with
  | zero => exact attempt none (by simp)
  | succ left ih => exact attempt _ (by simpa using ih)

/-! ### The pipeline -/

theorem event_at_launching (pool : WorkerContext → List ℕ) (i : ℕ) : Launching impl batch (event_at pool i) := by
  unfold event_at
  repeat' with_reducible refine Host.within_bind ?_ fun _ => ?_
  all_goals simp

theorem copy_async_launching (kind : MemcpyKind) (dst src : Option ℕ) (bytes : ℕ) (stream : Option ℕ) :
    Launching impl batch (copy_async kind dst src bytes stream) := by
  unfold copy_async
  repeat' with_reducible refine Host.within_bind ?_ fun _ => ?_
  all_goals simp

theorem record_event_launching (pool : WorkerContext → List ℕ) (i : ℕ) (stream : WorkerContext → Option ℕ) :
    Launching impl batch (record_event pool i stream) := by
  unfold record_event
  repeat' with_reducible refine Host.within_bind ?_ fun _ => ?_
  all_goals simp [event_at_launching]

theorem wait_event_launching (stream : WorkerContext → Option ℕ) (pool : WorkerContext → List ℕ) (i : ℕ) :
    Launching impl batch (wait_event stream pool i) := by
  unfold wait_event
  repeat' with_reducible refine Host.within_bind ?_ fun _ => ?_
  all_goals simp [event_at_launching]

/-- `batch[i]` is read. -/
theorem job_at_launching {f : InferenceJob → WorkerM α} (hf : Launching impl batch (f (batch.getD i default))) :
    Launching impl batch (job_at batch i >>= f) := fun l => ⟨by simp, fun _ => hf l⟩

theorem enqueue_h2d_launching (i : ℕ) : Launching impl batch (enqueue_h2d batch i) := by
  unfold enqueue_h2d job_at
  repeat' with_reducible refine Host.within_bind ?_ fun _ => ?_
  all_goals simp [copy_async_launching, record_event_launching]

theorem gemm_cublas_batched_launching (A B C : Option ℕ) (M N K b : Int32) (stream : Option ℕ) :
    Launching impl batch (gemm_cublas_batched A B C M N K b stream) := by
  have hhandle : Launching impl batch cublas_handle := by
    refine Host.within_bind Host.within_locals fun l => ?_
    rcases l.cublas_handle with _ | h <;> dsimp only
    repeat' with_reducible refine Host.within_bind ?_ fun _ => ?_
    all_goals simp
  unfold gemm_cublas_batched
  repeat' with_reducible refine Host.within_bind ?_ fun _ => ?_
  all_goals simp [hhandle]

/-- The one launch, with the dimensions of job `i`. -/
theorem issue_job_launching (hi : i < batch.length) : Launching impl batch (issue_job impl batch i) := by
  have hjob : batch.getD i default ∈ batch := by
    rw [List.getD_eq_getElem?_getD, List.getElem?_eq_getElem hi]
    exact List.getElem_mem hi
  have hgemm : ∀ (e : JobBuffers) (stream : Option ℕ),
      Launching impl batch (issue_gemm impl (batch.getD i default) e stream) := by
    intro e stream
    cases impl with
    | cublas => exact gemm_cublas_batched_launching _ _ _ _ _ _ _ _
    | tiled => exact Host.within_call fun _ => ⟨rfl, _, hjob, rfl⟩
  have hnext : Launching impl batch (enqueue_next batch i) := by
    unfold enqueue_next
    split_ifs <;> simp [enqueue_h2d_launching]
  unfold issue_job
  refine job_at_launching ?_
  repeat' with_reducible refine Host.within_bind ?_ fun _ => ?_
  all_goals first
    | exact hgemm _ _
    | simp [wait_event_launching, record_event_launching, copy_async_launching, hnext]

/-! ### The turn -/

theorem collect_jobs_launching (retain_results : Bool) (i : ℕ) (jobs : List InferenceJob) :
    Launching impl batch (collect_jobs retain_results i jobs) := by
  have hretain : ∀ (job : InferenceJob) (hc : PinnedHostBuffer),
      Launching impl batch (retain retain_results job hc) := by
    intro job hc
    unfold retain
    split_ifs
    repeat' with_reducible refine Host.within_bind ?_ fun _ => ?_
    all_goals simp
  induction jobs generalizing i with
  | nil => exact Host.within_pure _
  | cons job jobs ih =>
    refine Host.within_bind ?_ fun _ => Host.within_bind (ih (i + 1)) fun _ => Host.within_pure _
    unfold collect_job
    repeat' with_reducible refine Host.within_bind ?_ fun _ => ?_
    all_goals simp [event_at_launching, hretain]

theorem try_block_launching (o : Options) : Launching o.impl batch (try_block o batch) := by
  refine Host.within_bind (allocate_attempts_launching batch _) fun err => ?_
  refine Host.within_bind ?_ fun _ => ?_
  · unfold throw_unless_allocated
    split
    repeat' with_reducible refine Host.within_bind ?_ fun _ => ?_
    all_goals simp
  refine Host.within_bind (enqueue_h2d_launching 0) fun _ => ?_
  refine Host.within_bind (Host.within_forEach fun i hi => issue_job_launching (List.mem_range.mp hi)) fun _ => ?_
  refine Host.within_bind (collect_jobs_launching _ 0 batch) fun out => ?_
  exact Host.within_bind (by simp) fun _ => by simp

theorem execute_batch_launching (o : Options) : Launching o.impl batch (execute_batch o batch) := by
  refine Host.within_bind create_streams_preparing.launching fun _ => ?_
  refine Host.within_bind (grow_events_preparing _).launching fun _ => ?_
  refine Host.within_bind (Host.within_assign fun _ => rfl) fun _ => ?_
  refine Host.within_bind (Host.within_tryCatch (try_block_launching o) fun e => ?_) fun _ => ?_
  · exact Host.within_bind (by simp) fun _ => by simp
  · exact Host.within_bind (release_jobs_launching _ _) fun _ => Host.within_assign fun _ => rfl

/-- **The launches of a turn are for the jobs of its batch**, whatever the library answers. -/
theorem worker_body_launching (o : Options) (gpu_absent : Bool) :
    Launching o.impl batch (worker_body o gpu_absent batch) := by
  refine Host.within_bind (by simp) fun _ => ?_
  dsimp only
  split_ifs
  · exact Host.within_bind (by simp) fun _ => by simp
  · refine Host.within_bind (Host.within_tryCatch (execute_batch_launching o) fun e => ?_) fun _ => by simp
    exact Host.within_bind (by simp) fun _ => Host.within_throw e

end Gbis.Sched
