import Gbis.Kernels.Launch
import Gbis.Sched.Conservation
import Gbis.Sched.Failure

/-!
# A batch whose calls all succeed

When every call of the CUDA runtime reports success, a worker's turn records every job of its
batch as done (`turn_succeeds`). The launch of the tiled kernel is no call that reports: its
status is to be had from `cudaGetLastError`, which `execute_batch` calls only after a failed
allocation, and whose answer it drops. So what the turn records does not depend on whether the
kernels were launched. It makes a launch for each job (`launches_of_turn`), with the job's own
dimensions.
-/

namespace Gbis.Sched

open Gbis.Core Gbis.Kernels Library

variable {L : Type} {batch : List InferenceJob} {i : ℕ} {job : InferenceJob}

/-- An answer that is not a failure. -/
def succeeded : (c : Call) → c.Ret → Bool
  | .cudaStreamCreateWithFlags, .error _ | .cudaStreamCreate, .error _ | .cudaEventCreate, .error _
  | .cudaMalloc _, .error _ | .cudaHostAlloc _, .error _ | .cudaMemcpyAsync .., .error _ | .cudaEventRecord .., .error _
  | .cudaStreamWaitEvent .., .error _ | .cudaEventSynchronize _, .error _ | .cudaDeviceSynchronize, .error _
  | .cublasCreate, .error _ | .cublasSetStream .., .error _ | .cublasSgemmStridedBatched .., .error _ => false
  | _, _ => true

theorem succeeded_succeed (c : Call) : succeeded c (succeed c) = true := by
  cases c <;> rfl

/-- The calls that record no failure. -/
def recordsSuccess : Call → Prop
  | .insert_metrics out => ∀ e ∈ out, e.ok = true
  | .fail_batch _ => False
  | _ => True

/-- If the calls succeed `p` returns, with a value that satisfies `B`, and records no failure. -/
abbrev Proceeds {α : Type} (p : HostM L α) (B : α → Prop) : Prop :=
  Host.Proceeds recordsSuccess (fun c r => succeeded c r = true) B p

/-- Nothing is known of the value. -/
abbrev Proceeds' {α : Type} (p : HostM L α) : Prop := Proceeds p fun _ => True

theorem proceeds_CUDA_CHECK {α : Type} {r : Except CudaError α} (h : ∀ e, r ≠ .error e) :
    Proceeds' (CUDA_CHECK r : HostM L α) := by
  cases r with
  | error e => exact absurd rfl (h e)
  | ok a => exact Host.proceeds_pure trivial

/-- A call whose status is checked, and what follows. -/
theorem proceeds_checked {α β : Type} {B : β → Prop} {p : HostM L (Except CudaError α)} {k : α → HostM L β}
    (hp : Proceeds p fun r => ∀ e, r ≠ .error e) (hk : ∀ a, Proceeds (k a) B) :
    Proceeds (p >>= fun r => CUDA_CHECK r >>= k) B :=
  Host.proceeds_bind hp fun _ hr => Host.proceeds_bind (proceeds_CUDA_CHECK hr) fun a _ => hk a

/-- A call, of whose value only that it is none of a failure is needed. -/
theorem proceeds_call {c : Call} {B : c.Ret → Prop} (h : recordsSuccess c) (hB : ∀ r, succeeded c r = true → B r) :
    Proceeds (call c : HostM L c.Ret) B :=
  (Host.proceeds_call h).mono hB

/-! ### Streams and events -/

theorem create_streams_proceeds : Proceeds' create_streams := by
  refine Host.proceeds_bind Host.proceeds_locals fun l _ => ?_
  rcases l.ctx.h2d_stream with _ | h
  · refine proceeds_checked (proceeds_call trivial (by rintro _ hr e rfl; cases hr)) fun h => ?_
    refine Host.proceeds_bind (Host.proceeds_assign _) fun _ _ => ?_
    refine proceeds_checked (proceeds_call trivial (by rintro _ hr e rfl; cases hr)) fun c => ?_
    refine Host.proceeds_bind (Host.proceeds_assign _) fun _ _ => ?_
    refine proceeds_checked (proceeds_call trivial (by rintro _ hr e rfl; cases hr)) fun d => ?_
    exact Host.proceeds_assign _
  · exact Host.proceeds_pure trivial

theorem create_events_proceeds (made : List ℕ) (n : ℕ) : Proceeds' (create_events made n) := by
  induction n generalizing made with
  | zero => exact Host.proceeds_pure trivial
  | succ n ih =>
    refine Host.proceeds_bind (Host.proceeds_call trivial) fun e he => ?_
    rcases e with err | e
    · cases he
    · exact ih _

theorem resize_proceeds (pool : List ℕ) (n : ℕ) : Proceeds' (resize pool n) :=
  Host.proceeds_bind (create_events_proceeds [] _) fun _ _ => Host.proceeds_pure trivial

theorem grow_events_proceeds (n : ℕ) : Proceeds' (grow_events n) := by
  refine Host.proceeds_bind Host.proceeds_locals fun l _ => ?_
  split_ifs
  · refine Host.proceeds_bind (resize_proceeds _ n) fun h _ => Host.proceeds_bind (Host.proceeds_assign _) fun _ _ => ?_
    refine Host.proceeds_bind (resize_proceeds _ n) fun k _ => Host.proceeds_bind (Host.proceeds_assign _) fun _ _ => ?_
    exact Host.proceeds_bind (resize_proceeds _ n) fun d _ => Host.proceeds_assign _
  · exact Host.proceeds_pure trivial

/-! ### The allocations -/

theorem DeviceBuffer.free_proceeds (b : DeviceBuffer) : Proceeds' (DeviceBuffer.free b : HostM L Unit) := by
  unfold DeviceBuffer.free
  split
  · exact (Host.proceeds_call trivial).mono fun _ _ => trivial
  · exact Host.proceeds_pure trivial

theorem DeviceBuffer.release_proceeds (self : Ref L DeviceBuffer) : Proceeds' (DeviceBuffer.release self) :=
  Host.proceeds_bind Host.proceeds_locals fun _ _ =>
    Host.proceeds_bind (DeviceBuffer.free_proceeds _) fun _ _ => Host.proceeds_assign _

/-- A buffer is allocated. -/
theorem DeviceBuffer.try_allocate_proceeds (self : Ref L DeviceBuffer) (count : ℕ) :
    Proceeds (DeviceBuffer.try_allocate self count) (· = .ok ()) := by
  refine Host.proceeds_bind (DeviceBuffer.release_proceeds self) fun _ _ => ?_
  split_ifs
  · exact Host.proceeds_pure rfl
  · refine Host.proceeds_bind (Host.proceeds_call trivial) fun err herr => ?_
    cases err with
    | error err => cases herr
    | ok p => exact Host.proceeds_bind (Host.proceeds_assign _) fun _ _ => Host.proceeds_pure rfl

theorem PinnedHostBuffer.free_proceeds (b : PinnedHostBuffer) : Proceeds' (PinnedHostBuffer.free b : HostM L Unit) := by
  unfold PinnedHostBuffer.free
  split
  · exact (Host.proceeds_call trivial).mono fun _ _ => trivial
  · exact Host.proceeds_pure trivial

theorem PinnedHostBuffer.release_proceeds (self : Ref L PinnedHostBuffer) : Proceeds' (PinnedHostBuffer.release self) :=
  Host.proceeds_bind Host.proceeds_locals fun _ _ =>
    Host.proceeds_bind (PinnedHostBuffer.free_proceeds _) fun _ _ => Host.proceeds_assign _

theorem PinnedHostBuffer.allocate_proceeds (self : Ref L PinnedHostBuffer) (count : ℕ) :
    Proceeds' (PinnedHostBuffer.allocate self count) := by
  refine Host.proceeds_bind (PinnedHostBuffer.release_proceeds self) fun _ _ => ?_
  split_ifs
  · exact Host.proceeds_pure trivial
  · exact proceeds_checked (proceeds_call trivial (by rintro _ hr e rfl; cases hr)) fun p => Host.proceeds_assign _

theorem orBreak_proceeds {alloc rest : WorkerM Status} (h : Proceeds alloc (· = .ok ()))
    (h' : Proceeds rest (· = .ok ())) :
    Proceeds (orBreak alloc rest) (· = .ok ()) := by
  refine Host.proceeds_bind h ?_
  rintro _ rfl
  exact h'

theorem allocate_jobs_proceeds (i : ℕ) (jobs : List InferenceJob) : Proceeds (allocate_jobs i jobs) (· = .ok ()) := by
  induction jobs generalizing i with
  | nil => exact Host.proceeds_pure rfl
  | cons job jobs ih =>
    refine orBreak_proceeds ?_ (ih (i + 1))
    refine orBreak_proceeds (DeviceBuffer.try_allocate_proceeds _ _) <|
      orBreak_proceeds (DeviceBuffer.try_allocate_proceeds _ _) <|
      orBreak_proceeds (DeviceBuffer.try_allocate_proceeds _ _) ?_
    exact Host.proceeds_bind (PinnedHostBuffer.allocate_proceeds _ _) fun _ _ =>
      Host.proceeds_bind (PinnedHostBuffer.allocate_proceeds _ _) fun _ _ =>
      Host.proceeds_bind (PinnedHostBuffer.allocate_proceeds _ _) fun _ _ => Host.proceeds_pure rfl

/-- The first attempt at allocating succeeds. -/
theorem allocate_attempts_proceeds (batch : List InferenceJob) (left : ℕ) :
    Proceeds (allocate_attempts batch left) (· = .ok ()) := by
  have attempt : ∀ again, Proceeds (allocate_attempt batch again) (· = .ok ()) := by
    intro again
    refine Host.proceeds_bind (allocate_jobs_proceeds 0 batch) ?_
    rintro _ rfl
    exact Host.proceeds_pure rfl
  cases left with
  | zero => exact attempt _
  | succ left => exact attempt _

theorem release_jobs_proceeds (order : List Buf) (n : ℕ) : Proceeds' (release_jobs order n) := by
  refine Host.proceeds_forEach fun i _ => Host.proceeds_forEach fun w _ => ?_
  cases w with
  | da | db | dc => exact DeviceBuffer.release_proceeds _
  | ha | hb | hc => exact PinnedHostBuffer.release_proceeds _

/-! ### The pipeline -/

theorem copy_async_proceeds (kind : MemcpyKind) (dst src : Option ℕ) (bytes : ℕ) (stream : Option ℕ) :
    Proceeds' (copy_async kind dst src bytes stream) :=
  Host.proceeds_bind (proceeds_call trivial (by rintro _ hr e rfl; cases hr)) fun _ => proceeds_CUDA_CHECK

theorem event_at_proceeds (pool : WorkerContext → List ℕ) (i : ℕ) : Proceeds' (event_at pool i) :=
  Host.proceeds_bind Host.proceeds_locals fun _ _ =>
    Host.proceeds_bind (Host.proceeds_call trivial) fun _ _ => Host.proceeds_pure trivial

theorem record_event_proceeds (pool : WorkerContext → List ℕ) (i : ℕ) (stream : WorkerContext → Option ℕ) :
    Proceeds' (record_event pool i stream) :=
  Host.proceeds_bind (event_at_proceeds pool i) fun _ _ => Host.proceeds_bind Host.proceeds_locals fun _ _ =>
    Host.proceeds_bind (proceeds_call trivial (by rintro _ hr e rfl; cases hr)) fun _ => proceeds_CUDA_CHECK

theorem wait_event_proceeds (stream : WorkerContext → Option ℕ) (pool : WorkerContext → List ℕ) (i : ℕ) :
    Proceeds' (wait_event stream pool i) :=
  Host.proceeds_bind (event_at_proceeds pool i) fun _ _ => Host.proceeds_bind Host.proceeds_locals fun _ _ =>
    Host.proceeds_bind (proceeds_call trivial (by rintro _ hr e rfl; cases hr)) fun _ => proceeds_CUDA_CHECK

/-- `batch[i]` is read. -/
theorem job_at_proceeds (batch : List InferenceJob) (i : ℕ) : Proceeds (job_at batch i) (· = batch.getD i default) :=
  Host.proceeds_bind (Host.proceeds_call trivial) fun _ _ => Host.proceeds_pure rfl

theorem enqueue_h2d_proceeds (batch : List InferenceJob) (i : ℕ) : Proceeds' (enqueue_h2d batch i) := by
  refine Host.proceeds_bind (job_at_proceeds batch i) fun job _ => Host.proceeds_bind Host.proceeds_locals fun l _ => ?_
  refine Host.proceeds_bind (Host.proceeds_call trivial) fun _ _ => ?_
  refine Host.proceeds_bind (Host.proceeds_call trivial) fun t _ => Host.proceeds_bind (Host.proceeds_assign _)
    fun _ _ => ?_
  refine Host.proceeds_bind (copy_async_proceeds _ _ _ _ _) fun _ _ => ?_
  exact Host.proceeds_bind (copy_async_proceeds _ _ _ _ _) fun _ _ => record_event_proceeds _ i _

theorem enqueue_next_proceeds (batch : List InferenceJob) (i : ℕ) : Proceeds' (enqueue_next batch i) := by
  unfold enqueue_next
  split_ifs
  · exact enqueue_h2d_proceeds batch _
  · exact Host.proceeds_pure trivial

/-! ### The results -/

theorem retain_proceeds (retain_results : Bool) (job : InferenceJob) (hc : PinnedHostBuffer) :
    Proceeds' (retain retain_results job hc) := by
  unfold retain
  split_ifs
  · exact Host.proceeds_bind (Host.proceeds_call trivial) fun _ _ => (Host.proceeds_call trivial).mono
      fun _ _ => trivial
  · exact Host.proceeds_pure trivial

theorem collect_job_proceeds (retain_results : Bool) (i : ℕ) (job : InferenceJob) :
    Proceeds (collect_job retain_results i job) (·.ok = true) := by
  refine Host.proceeds_bind (event_at_proceeds _ i) fun ev _ => ?_
  refine proceeds_checked (proceeds_call trivial (by rintro _ hr e rfl; cases hr)) fun _ => ?_
  refine Host.proceeds_bind (Host.proceeds_call trivial) fun finish _ => Host.proceeds_bind Host.proceeds_locals
    fun l _ => ?_
  exact Host.proceeds_bind (retain_proceeds _ _ _) fun _ _ => Host.proceeds_pure rfl

theorem collect_jobs_proceeds (retain_results : Bool) (i : ℕ) (jobs : List InferenceJob) :
    Proceeds (collect_jobs retain_results i jobs) fun out => ∀ e ∈ out, e.ok = true := by
  induction jobs generalizing i with
  | nil => exact Host.proceeds_pure (by simp)
  | cons job jobs ih =>
    exact Host.proceeds_bind (collect_job_proceeds retain_results i job) fun e he =>
      Host.proceeds_bind (ih (i + 1)) fun out hout => Host.proceeds_pure (List.forall_mem_cons.mpr ⟨he, hout⟩)

/-! ### The launches -/

/-- The calls made, with their answers. -/
abbrev Calls := List ((c : Call) × c.Ret)

/-- Among the calls is a launch of the tiled kernel with these dimensions. -/
def Issued (calls : Calls) (M N K batch : Int32) : Prop :=
  ∃ A B C stream, Call.gemm_tiled_batched A B C M N K batch stream ∈ calls.map Sigma.fst

/-- Among the calls is the launch for a job. -/
abbrev IssuedFor (calls : Calls) (job : InferenceJob) : Prop := Issued calls job.m job.n job.k job.batch

theorem Issued.mono {calls calls' : Calls} {M N K batch : Int32} (h : Issued calls M N K batch) (hs : calls ⊆ calls') :
    Issued calls' M N K batch := by
  obtain ⟨A, B, C, stream, hmem⟩ := h
  exact ⟨A, B, C, stream, List.map_subset _ hs hmem⟩

theorem issued_append (calls : Calls) (A B C : Option ℕ) (M N K batch : Int32) (stream : Option ℕ) :
    Issued (calls ++ [⟨.gemm_tiled_batched A B C M N K batch stream, ()⟩]) M N K batch :=
  ⟨A, B, C, stream, by simp⟩

/-- The world in which every call succeeds. -/
abbrev successWorld : World Call Call.Ret Calls := World.recorded recordsSuccess fun c r => succeeded c r = true

variable {l : Locals} {calls : Calls}

/-- The job's kernel is launched. -/
theorem issue_job_issues (batch : List InferenceJob) (i : ℕ) :
    (issue_job .tiled batch i).wp successWorld
      (fun _ _ calls' => calls ⊆ calls' ∧ IssuedFor calls' (batch.getD i default))
      (fun _ _ _ => False) l calls := by
  unfold issue_job
  refine Host.wp_seq (job_at_proceeds batch i l calls) ?_ fun _ _ _ h => h
  rintro job l calls₁ ⟨h₁, rfl⟩
  refine Host.wp_seq (wait_event_proceeds _ _ i l calls₁) ?_ fun _ _ _ h => h
  rintro _ l calls₂ ⟨h₂, -⟩
  rw [Host.wp_bind, Host.wp_locals, Host.wp_bind, issue_gemm, Host.wp_call]
  refine ⟨trivial, ?_⟩
  rintro _ _ ⟨-, rfl⟩
  -- what follows makes more calls
  have rest : Proceeds' (do
      record_event (·.kern_done) i (·.compute_stream)
      wait_event (·.d2h_stream) (·.kern_done) i
      copy_async .deviceToHost (l.exec i).hc.data_ (l.exec i).dc.data_ (l.exec i).dc.bytes l.ctx.d2h_stream
      record_event (·.done) i (·.d2h_stream)
      enqueue_next batch i) :=
    Host.proceeds_bind (record_event_proceeds _ i _) fun _ _ => Host.proceeds_bind (wait_event_proceeds _ _ i)
      fun _ _ =>
      Host.proceeds_bind (copy_async_proceeds _ _ _ _ _) fun _ _ => Host.proceeds_bind (record_event_proceeds _ i _)
        fun _ _ =>
      enqueue_next_proceeds batch i
  refine Host.wp_mono (rest l _) ?_ fun _ _ _ h => h
  rintro _ _ calls' ⟨h, -⟩
  refine ⟨List.Subset.trans h₁ (List.Subset.trans h₂ ?_), (issued_append calls₂ _ _ _ _ _ _ _ _).mono h⟩
  exact List.Subset.trans (List.subset_append_left _ _) h

/-- The `try` block launches the kernels of all jobs, and returns. -/
theorem try_block_issues {o : Options} (himpl : o.impl = .tiled) :
    (try_block o batch).wp successWorld (fun _ _ calls => ∀ job ∈ batch, IssuedFor calls job) (fun _ _ _ => False) l
      calls := by
  unfold try_block
  rw [himpl]
  refine Host.wp_seq (allocate_attempts_proceeds batch _ l calls) ?_ fun _ _ _ h => h
  rintro _ l calls ⟨-, rfl⟩
  rw [throw_unless_allocated, Host.wp_bind, Host.wp_pure]
  refine Host.wp_seq (enqueue_h2d_proceeds batch 0 l calls) ?_ fun _ _ _ h => h
  rintro _ l calls -
  refine Host.wp_seq (Host.wp_forRange (I := fun i _ calls => ∀ j < i, IssuedFor calls (batch.getD j default)) ?_
    (by simp)) ?_
    fun _ _ _ h => h
  · intro i _ l calls hissued
    refine Host.wp_mono (issue_job_issues batch i) ?_ fun _ _ _ h => h
    rintro _ l calls' ⟨hcalls, hi⟩ j hj
    rcases Nat.lt_succ_iff_lt_or_eq.mp hj with hj | rfl
    · exact (hissued j hj).mono hcalls
    · exact hi
  · intro _ l calls hissued
    have hall : ∀ job ∈ batch, IssuedFor calls job := by
      intro job hjob
      obtain ⟨j, hj, rfl⟩ := List.getElem_of_mem hjob
      simpa [hj] using hissued j hj
    refine Host.wp_seq (collect_jobs_proceeds _ 0 batch l calls) ?_ fun _ _ _ h => h
    rintro out l calls' ⟨hcalls, hout⟩
    refine Host.wp_seq (Host.proceeds_call (show recordsSuccess (.insert_metrics out) from hout) l calls') ?_
      fun _ _ _ h => h
    rintro _ l calls'' ⟨hcalls', -⟩
    refine Host.wp_mono (Host.proceeds_call trivial l calls'') ?_ fun _ _ _ h => h
    rintro _ _ _ ⟨hcalls'', -⟩ job hjob
    exact (hall job hjob).mono (List.Subset.trans hcalls (List.Subset.trans hcalls' hcalls''))

/-- So does the turn. -/
theorem worker_body_issues {o : Options} (himpl : o.impl = .tiled) :
    (worker_body o false batch).wp successWorld (fun _ _ calls => ∀ job ∈ batch, IssuedFor calls job)
      (fun _ _ _ => False)
      l calls := by
  refine worker_body_rule (P := fun _ _ => True) (M := fun _ calls => ∀ job ∈ batch, IssuedFor calls job)
    (Y := fun _ _ => False) ?_ (fun h => by cases h) ?_ ?_ fun _ _ h => h.elim
  · exact Host.wp_mono (Host.proceeds_call trivial l calls) (fun _ _ _ _ => trivial) fun _ _ _ _ => trivial
  · intro l calls _
    refine execute_batch_rule (P := fun _ _ => True) (R := fun _ _ => True) (Y := fun _ _ => False)
      (M := fun _ calls => ∀ job ∈ batch, IssuedFor calls job) ?_ ?_ ?_ (fun _ _ _ h => h.elim) ?_
    · exact Host.wp_mono (create_streams_proceeds l calls) (fun _ _ _ _ => trivial) fun _ _ _ h => h
    · intro l calls _
      exact Host.wp_mono (grow_events_proceeds _ l calls) (fun _ _ _ _ => trivial) fun _ _ _ h => h
    · intro l calls _
      exact try_block_issues himpl
    · intro l calls hissued
      refine Host.wp_mono (release_jobs_proceeds _ _ l calls) ?_ fun _ _ _ _ => trivial
      rintro _ l calls' ⟨hcalls, -⟩ job hjob
      exact (hissued job hjob).mono hcalls
  · intro l calls hissued
    refine Host.wp_mono (Host.proceeds_call trivial l calls) ?_ fun _ _ _ _ => trivial
    rintro _ _ _ ⟨hcalls, -⟩ job hjob
    exact (hissued job hjob).mono hcalls

/-- Calls that record no failure leave no entry of one. -/
theorem ok_of_recordsSuccess (calls : Calls) (h : ∀ e ∈ calls, recordsSuccess e.1) (acc : Account)
    (hacc : ∀ e ∈ acc.recorded, e.ok = true) : ∀ e ∈ (applyAll Account.apply acc calls).recorded, e.ok = true := by
  induction calls generalizing acc with
  | nil => exact hacc
  | cons call calls ih =>
    obtain ⟨hcall, hcalls⟩ := List.forall_mem_cons.mp h
    refine ih hcalls (acc.apply call.1 call.2) ?_
    obtain ⟨c, r⟩ := call
    by_cases hrc : records c = true
    · cases c with
      | insert_metrics out =>
        intro e he
        exact (List.mem_append.mp he).elim (hacc e) (hcall e)
      | fail_batch => exact hcall.elim
      | _ => cases hrc
    · rw [Account.apply_recorded acc (by simpa using hrc) r]
      exact hacc

/-- **A turn whose calls succeed** returns, records no failure, and launches the kernels. -/
theorem turn_succeeds {o : Options} (himpl : o.impl = .tiled) {f : Answers}
    (hf : ∀ n c, succeeded c (f n c) = true) (n : ℕ)
    (l : Locals) {out : Outcome} {l' : Locals}
    (h : (worker_body o false batch l).run f n = (out.calls, out.result, l')) :
    out.result = .ok () ∧ (∀ e ∈ out.account.recorded, e.ok = true) ∧ ∀ job ∈ batch, IssuedFor out.calls job := by
  obtain ⟨hend, hpre⟩ := Prog.wp_run_recorded (s := []) hf n (worker_body_issues (l := l) himpl)
  rw [h] at hend hpre
  refine ⟨?_, ok_of_recordsSuccess out.calls hpre {} (by simp), ?_⟩
  · cases hres : out.result with
    | ok => rfl
    | error e =>
      rw [hres] at hend
      exact hend.elim
  · cases hres : out.result with
    | ok =>
      rw [hres] at hend
      exact hend
    | error e =>
      rw [hres] at hend
      exact hend.elim

end Gbis.Sched
