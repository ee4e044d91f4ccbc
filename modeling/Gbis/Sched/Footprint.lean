import Gbis.Sched.ExecuteBatch

/-!
# What the functions of a worker touch

The functions of `Gbis.Sched.ExecuteBatch`, each by the kind of calls it makes and by
what it leaves of the local variables as it is.

* The creations of streams and events are `Preparing`: they create, and leave the buffers
  alone.
* The pipeline is `Working`: it makes no call of the kinds that create, allocate or publish,
  and leaves the buffers and the context alone. The collection of the results is `Storing`:
  it also stores results.
* The allocations are `Quiet`: they get and return memory, and leave the context alone.

`Steady`, `Inert` and `Gathering` are what remains of the first two where only device memory
and what is published matter.

How a turn is put together of these is said once, as rules of the weakest precondition
(`try_block_rule`, `execute_batch_rule`, `worker_body_rule`): what is proved of a turn in some
world is proved of its parts there.
-/

namespace Gbis.Sched

open Gbis.Core Library

/-! ### Kinds of calls -/

/-- A call that creates a stream or an event. -/
@[reducible] def creates : Call → Bool
  | .cudaStreamCreateWithFlags | .cudaStreamCreate | .cudaEventCreate => true
  | _ => false

/-- A call of the preparation of a turn, before there are any buffers. -/
@[reducible] def prepares : Call → Bool
  | .cudaStreamCreateWithFlags | .cudaStreamCreate | .cudaEventCreate | .cudaEventDestroy _ => true
  | _ => false

/-- A call of the attempts at allocating, or of the release of buffers. -/
@[reducible] def attempts : Call → Bool
  | .cudaMalloc _ | .cudaFree _ | .cudaHostAlloc _ | .cudaFreeHost _ | .cudaGetLastError | .add_alloc_retry
  | .sleep_for _ | .add_oom_failure => true
  | _ => false

/-- A call that gets or returns device memory. -/
@[reducible] def allocates : Call → Bool
  | .cudaMalloc _ | .cudaFree _ => true
  | _ => false

/-- A call that records, counts or releases. -/
@[reducible] def settles : Call → Bool
  | .insert_metrics _ | .add_completed _ | .fail_batch _ | .release_bytes _ => true
  | _ => false

/-- A call that stores a result. -/
@[reducible] def stores : Call → Bool
  | .store_result .. => true
  | _ => false

/-- A call that releases bytes. -/
@[reducible] def releases : Call → Bool
  | .release_bytes _ => true
  | _ => false

/-- What the pipeline leaves as it is: the context and the buffers. -/
def Locals.fixed (l : Locals) : WorkerContext × List JobBuffers :=
  (l.ctx, l.execs.map fun e => { e with pickup := 0 })

/-- What the allocations leave as it is: the context, and how many jobs there are. -/
def Locals.shape (l : Locals) : WorkerContext × ℕ := (l.ctx, l.execs.length)

variable {α : Type} {p : WorkerM α}

/-- The calls of `p` are those of the preparation, and it leaves the buffers alone. -/
abbrev Preparing (p : WorkerM α) : Prop := p.Within (fun c => prepares c = true) Locals.execs

/-- The calls of `p` neither create, nor are those of the allocations, nor settle, and it leaves the buffers and the
context alone. -/
abbrev Storing (p : WorkerM α) : Prop :=
  p.Within (fun c => creates c = false ∧ attempts c = false ∧ settles c = false) Locals.fixed

/-- Nor do they store. -/
abbrev Working (p : WorkerM α) : Prop :=
  p.Within (fun c => creates c = false ∧ attempts c = false ∧ settles c = false ∧ stores c = false) Locals.fixed

/-- The calls of `p` neither create, nor allocate, nor settle, and it leaves the buffers and the context alone. -/
abbrev Gathering (p : WorkerM α) : Prop :=
  p.Within (fun c => creates c = false ∧ allocates c = false ∧ settles c = false) Locals.fixed

/-- Nor do they store. -/
abbrev Inert (p : WorkerM α) : Prop :=
  p.Within (fun c => creates c = false ∧ allocates c = false ∧ settles c = false ∧ stores c = false) Locals.fixed

/-- The calls of `p` neither create, nor settle, nor store, and it leaves the context alone. -/
abbrev Quiet (p : WorkerM α) : Prop :=
  p.Within (fun c => creates c = false ∧ settles c = false ∧ stores c = false) Locals.shape

/-- The calls of `p` neither allocate, nor settle, nor store, and it leaves the buffers alone. -/
abbrev Steady (p : WorkerM α) : Prop :=
  p.Within (fun c => allocates c = false ∧ settles c = false ∧ stores c = false) Locals.execs

theorem Locals.shape_of_fixed {l l' : Locals} (h : l'.fixed = l.fixed) : l'.shape = l.shape := by
  obtain ⟨h₁, h₂⟩ := Prod.mk.inj h
  have := congrArg List.length h₂
  rw [List.length_map, List.length_map] at this
  exact Prod.ext h₁ this

theorem Inert.quiet (h : Inert p) : Quiet p := h.mono (fun _ h => ⟨h.1, h.2.2⟩) fun _ _ => Locals.shape_of_fixed

theorem allocates_of_attempts {c : Call} (h : attempts c = false) : allocates c = false := by
  cases c <;> first | rfl | cases h

theorem Preparing.steady (h : Preparing p) : Steady p := by
  refine h.mono (fun c hc => ?_) fun _ _ h => h
  cases c <;> first | exact ⟨rfl, rfl, rfl⟩ | cases hc

theorem Inert.gathering (h : Inert p) : Gathering p := h.mono (fun _ h => ⟨h.1, h.2.1, h.2.2.1⟩) fun _ _ h => h

theorem Working.storing (h : Working p) : Storing p := h.mono (fun _ h => ⟨h.1, h.2.1, h.2.2.1⟩) fun _ _ h => h

theorem Working.inert (h : Working p) : Inert p :=
  h.mono (fun _ h => ⟨h.1, allocates_of_attempts h.2.1, h.2.2⟩) fun _ _ h => h

theorem Storing.gathering (h : Storing p) : Gathering p :=
  h.mono (fun _ h => ⟨h.1, allocates_of_attempts h.2.1, h.2.2⟩) fun _ _ h => h

/-- The loops over the jobs of a batch are recursions on those from `i` on, of which job `i` is the first. -/
theorem getElem?_of_drop {batch jobs : List InferenceJob} {i : ℕ} {job : InferenceJob}
    (h : batch.drop i = job :: jobs) : batch[i]? = some job ∧ batch.drop (i + 1) = jobs := by
  constructor
  · rw [← List.head?_drop, h, List.head?_cons]
  · rw [← List.drop_drop, h, List.drop_succ_cons, List.drop_zero]

/-! ### Creation -/

theorem create_streams_preparing : Preparing create_streams := by
  refine Host.within_bind Host.within_locals fun l => ?_
  rcases l.ctx.h2d_stream with _ | h <;> dsimp only
  repeat' with_reducible refine Host.within_bind ?_ fun _ => ?_
  all_goals simp

theorem create_events_preparing (made : List ℕ) (n : ℕ) : Preparing (create_events made n) := by
  induction n generalizing made with
  | zero => exact Host.within_pure _
  | succ n ih =>
    refine Host.within_bind (Host.within_call (by simp)) fun e => ?_
    rcases e with err | e
    · exact Host.within_bind (Host.within_forEach fun e _ => Host.within_call (by simp)) fun _ => Host.within_throw _
    · exact ih _

theorem resize_preparing (pool : List ℕ) (n : ℕ) : Preparing (resize pool n) :=
  Host.within_bind (create_events_preparing [] _) fun _ => Host.within_pure _

theorem grow_events_preparing (n : ℕ) : Preparing (grow_events n) := by
  refine Host.within_bind Host.within_locals fun l => ?_
  split_ifs
  repeat' with_reducible refine Host.within_bind ?_ fun _ => ?_
  all_goals simp [resize_preparing]

/-! ### The pipeline -/

theorem copy_async_working (kind : MemcpyKind) (dst src : Option ℕ) (bytes : ℕ) (stream : Option ℕ) :
    Working (copy_async kind dst src bytes stream) := by
  unfold copy_async
  repeat' with_reducible refine Host.within_bind ?_ fun _ => ?_
  all_goals simp

theorem event_at_working (pool : WorkerContext → List ℕ) (i : ℕ) : Working (event_at pool i) := by
  unfold event_at
  repeat' with_reducible refine Host.within_bind ?_ fun _ => ?_
  all_goals simp

theorem record_event_working (pool : WorkerContext → List ℕ) (i : ℕ) (stream : WorkerContext → Option ℕ) :
    Working (record_event pool i stream) := by
  unfold record_event
  repeat' with_reducible refine Host.within_bind ?_ fun _ => ?_
  all_goals simp [event_at_working]

theorem wait_event_working (stream : WorkerContext → Option ℕ) (pool : WorkerContext → List ℕ) (i : ℕ) :
    Working (wait_event stream pool i) := by
  unfold wait_event
  repeat' with_reducible refine Host.within_bind ?_ fun _ => ?_
  all_goals simp [event_at_working]

theorem job_at_working (batch : List InferenceJob) (i : ℕ) : Working (job_at batch i) := by
  unfold job_at
  repeat' with_reducible refine Host.within_bind ?_ fun _ => ?_
  all_goals simp

/-- Noting when a job was picked up leaves the buffers alone. -/
theorem fixed_setExec_pickup (i : ℕ) (t : ℤ) (l : Locals) :
    (Locals.setExec i (fun e => { e with pickup := t }) l).fixed = l.fixed := by
  unfold Locals.setExec Locals.fixed
  congr 1
  refine List.ext_getElem? fun j => ?_
  simp only [List.getElem?_map, List.getElem?_modify]
  cases l.execs[j]? with
  | none => rfl
  | some e => by_cases h : i = j <;> simp [h]

theorem enqueue_h2d_working (batch : List InferenceJob) (i : ℕ) : Working (enqueue_h2d batch i) := by
  unfold enqueue_h2d
  repeat' with_reducible refine Host.within_bind ?_ fun _ => ?_
  all_goals simp [job_at_working, copy_async_working, record_event_working, fixed_setExec_pickup]

theorem cublas_handle_working : Working cublas_handle := by
  refine Host.within_bind Host.within_locals fun l => ?_
  rcases l.cublas_handle with _ | h <;> dsimp only
  repeat' with_reducible refine Host.within_bind ?_ fun _ => ?_
  all_goals first
    | exact Host.within_assign fun _ => rfl
    | simp

theorem gemm_cublas_batched_working (A B C : Option ℕ) (M N K batch : Int32) (stream : Option ℕ) :
    Working (gemm_cublas_batched A B C M N K batch stream) := by
  unfold gemm_cublas_batched
  repeat' with_reducible refine Host.within_bind ?_ fun _ => ?_
  all_goals simp [cublas_handle_working]

theorem issue_gemm_working (impl : Impl) (job : InferenceJob) (e : JobBuffers) (stream : Option ℕ) :
    Working (issue_gemm impl job e stream) := by
  cases impl <;> simp [issue_gemm, gemm_cublas_batched_working]

theorem enqueue_next_working (batch : List InferenceJob) (i : ℕ) : Working (enqueue_next batch i) := by
  unfold enqueue_next
  split_ifs <;> simp [enqueue_h2d_working]

theorem issue_job_working (impl : Impl) (batch : List InferenceJob) (i : ℕ) : Working (issue_job impl batch i) := by
  unfold issue_job
  repeat' with_reducible refine Host.within_bind ?_ fun _ => ?_
  all_goals
    simp [job_at_working, wait_event_working, issue_gemm_working, record_event_working, copy_async_working,
      enqueue_next_working]

theorem retain_storing (retain_results : Bool) (job : InferenceJob) (hc : PinnedHostBuffer) :
    Storing (retain retain_results job hc) := by
  unfold retain
  split_ifs
  repeat' with_reducible refine Host.within_bind ?_ fun _ => ?_
  all_goals simp

theorem collect_job_storing (retain_results : Bool) (i : ℕ) (job : InferenceJob) :
    Storing (collect_job retain_results i job) := by
  unfold collect_job
  repeat' with_reducible refine Host.within_bind ?_ fun _ => ?_
  all_goals simp [(event_at_working _ _).storing, retain_storing]

theorem collect_jobs_storing (retain_results : Bool) (i : ℕ) (jobs : List InferenceJob) :
    Storing (collect_jobs retain_results i jobs) := by
  induction jobs generalizing i with
  | nil => exact Host.within_pure _
  | cons job jobs ih =>
    exact Host.within_bind (collect_job_storing retain_results i job) fun _ =>
      Host.within_bind (ih (i + 1)) fun _ => Host.within_pure _

/-! ### The allocations -/

theorem shape_setExec (i : ℕ) (f : JobBuffers → JobBuffers) (l : Locals) : (Locals.setExec i f l).shape = l.shape := by
  simp [Locals.setExec, Locals.shape]

theorem DeviceBuffer.release_quiet {self : Ref Locals DeviceBuffer} (hs : ∀ b l, (self.set b l).shape = l.shape) :
    Quiet (DeviceBuffer.release self) := by
  refine Host.within_bind Host.within_locals fun l => Host.within_bind ?_ fun _ => Host.within_assign (hs _)
  unfold DeviceBuffer.free
  cases (self.get l).data_ <;> simp

theorem DeviceBuffer.try_allocate_quiet {self : Ref Locals DeviceBuffer} (hs : ∀ b l, (self.set b l).shape = l.shape)
    (count : ℕ) : Quiet (DeviceBuffer.try_allocate self count) := by
  refine Host.within_bind (DeviceBuffer.release_quiet hs) fun _ => ?_
  split_ifs
  · simp
  · refine Host.within_bind (by simp) fun err => ?_
    cases err <;> exact Host.within_bind (Host.within_assign (hs _)) fun _ => Host.within_pure _

theorem PinnedHostBuffer.release_quiet {self : Ref Locals PinnedHostBuffer}
    (hs : ∀ b l, (self.set b l).shape = l.shape) :
    Quiet (PinnedHostBuffer.release self) := by
  refine Host.within_bind Host.within_locals fun l => Host.within_bind ?_ fun _ => Host.within_assign (hs _)
  unfold PinnedHostBuffer.free
  cases (self.get l).data_ <;> simp

theorem PinnedHostBuffer.allocate_quiet {self : Ref Locals PinnedHostBuffer}
    (hs : ∀ b l, (self.set b l).shape = l.shape)
    (count : ℕ) : Quiet (PinnedHostBuffer.allocate self count) := by
  refine Host.within_bind (PinnedHostBuffer.release_quiet hs) fun _ => ?_
  split_ifs
  repeat' with_reducible refine Host.within_bind ?_ fun _ => ?_
  all_goals simp [hs]

theorem orBreak_quiet {alloc rest : WorkerM Status} (h : Quiet alloc) (h' : Quiet rest) :
    Quiet (orBreak alloc rest) := by
  refine Host.within_bind h fun err => ?_
  cases err
  · exact Host.within_pure _
  · exact h'

theorem allocate_job_quiet (i : ℕ) (job : InferenceJob) : Quiet (allocate_job i job) := by
  refine orBreak_quiet (DeviceBuffer.try_allocate_quiet (fun _ _ => shape_setExec _ _ _) _) <|
    orBreak_quiet (DeviceBuffer.try_allocate_quiet (fun _ _ => shape_setExec _ _ _) _) <|
    orBreak_quiet (DeviceBuffer.try_allocate_quiet (fun _ _ => shape_setExec _ _ _) _) ?_
  repeat' with_reducible refine Host.within_bind ?_ fun _ => ?_
  all_goals first
    | exact PinnedHostBuffer.allocate_quiet (fun _ _ => shape_setExec _ _ _) _
    | exact Host.within_pure _

theorem allocate_jobs_quiet (i : ℕ) (batch : List InferenceJob) : Quiet (allocate_jobs i batch) := by
  induction batch generalizing i with
  | nil => exact Host.within_pure _
  | cons job batch ih => exact orBreak_quiet (allocate_job_quiet i job) (ih (i + 1))

theorem release_buf_quiet (i : ℕ) (w : Buf) : Quiet (release_buf i w) := by
  cases w with
  | da | db | dc => exact DeviceBuffer.release_quiet fun _ _ => shape_setExec _ _ _
  | ha | hb | hc => exact PinnedHostBuffer.release_quiet fun _ _ => shape_setExec _ _ _

theorem release_jobs_quiet (order : List Buf) (n : ℕ) : Quiet (release_jobs order n) :=
  Host.within_forEach fun i _ => Host.within_forEach fun w _ => release_buf_quiet i w

theorem allocate_attempt_quiet (batch : List InferenceJob) {again : Option (WorkerM Status)}
    (h : ∀ p ∈ again, Quiet p) : Quiet (allocate_attempt batch again) := by
  refine Host.within_bind (allocate_jobs_quiet 0 batch) fun err => ?_
  rcases err with err | _
  · refine Host.within_bind (release_jobs_quiet _ _) fun _ => Host.within_bind (by simp) fun _ => ?_
    split
    · exact Host.within_bind (by simp) fun _ => Host.within_bind (by simp) fun _ => h _ rfl
    · exact Host.within_pure _
  · exact Host.within_pure _

theorem allocate_attempts_quiet (batch : List InferenceJob) (left : ℕ) : Quiet (allocate_attempts batch left) := by
  induction left with
  | zero => exact allocate_attempt_quiet batch (by simp)
  | succ left ih => exact allocate_attempt_quiet batch (by simpa using ih)

theorem throw_unless_allocated_inert (err : Status) : Inert (throw_unless_allocated err) := by
  unfold throw_unless_allocated
  split
  repeat' with_reducible refine Host.within_bind ?_ fun _ => ?_
  all_goals simp

/-! ### The rules for a turn -/

section

variable {σ : Type} {W : World Call Call.Ret σ} {o : Options} {batch : List InferenceJob} {l : Locals} {s : σ}
  {P R I M Y Q X : Locals → σ → Prop}

/-- The rule for the `try` block: once the allocation has succeeded `I` holds, the pipeline keeps it, and it is what the
results are collected and recorded under. -/
theorem try_block_rule {A : Status → Locals → σ → Prop} {O : List JobMetrics → Locals → σ → Prop}
    (halloc : (allocate_attempts batch kMaxAllocRetries).wp W A (fun _ => X) l s)
    (hthrow : ∀ err l s, A err l s → (throw_unless_allocated err).wp W (fun _ => I) (fun _ => X) l s)
    (hwork : ∀ {p : WorkerM Unit}, Working p → ∀ l s, I l s → p.wp W (fun _ => I) (fun _ => X) l s)
    (hcollect : ∀ l s, I l s → (collect_jobs o.retain_results 0 batch).wp W O (fun _ => X) l s)
    (hrecord : ∀ out l s, O out l s → (call (.insert_metrics out) >>= fun _ => call (.add_completed out.length) :
      WorkerM Unit).wp W (fun _ => Q) (fun _ => X) l s) :
    (try_block o batch).wp W (fun _ => Q) (fun _ => X) l s := by
  have hissue : Working (Host.forEach (issue_job o.impl batch) (List.range batch.length)) :=
    Host.within_forEach fun i _ => issue_job_working o.impl batch i
  unfold try_block
  refine Host.wp_seq halloc ?_ fun _ _ _ h => h
  intro err l s h
  refine Host.wp_seq (hthrow err l s h) ?_ fun _ _ _ h => h
  intro _ l s h
  refine Host.wp_seq (hwork (enqueue_h2d_working batch 0) l s h) ?_ fun _ _ _ h => h
  intro _ l s h
  refine Host.wp_seq (hwork hissue l s h) ?_ fun _ _ _ h => h
  intro _ l s h
  exact Host.wp_seq (hcollect l s h) hrecord fun _ _ _ h => h

/-- The rule for `execute_batch`: `M` is what the `try` block and its handler leave to the release of the
buffers, and `Y` what a throw leaves to the handler. -/
theorem execute_batch_rule (hstreams : create_streams.wp W (fun _ => P) (fun _ => X) l s)
    (hevents : ∀ l s, P l s → (grow_events batch.length).wp W (fun _ => R) (fun _ => X) l s)
    (htry : ∀ l s, R l s → (try_block o batch).wp W (fun _ => M) (fun _ => Y)
      { l with execs := List.replicate batch.length {} } s)
    (hcatch : ∀ e l s, Y l s → (catch_block batch e).wp W (fun _ => M) (fun _ _ _ => True) l s)
    (hrelease : ∀ l s, M l s → (release_jobs Buf.declared.reverse batch.length).wp W
      (fun _ l' s' => Q { l' with execs := [] } s') (fun _ _ _ => True) l s) :
    (execute_batch o batch).wp W (fun _ => Q) (fun _ => X) l s := by
  unfold execute_batch
  refine Host.wp_seq hstreams ?_ fun _ _ _ h => h
  intro _ l s h
  refine Host.wp_seq (hevents l s h) ?_ fun _ _ _ h => h
  intro _ l s h
  rw [Host.wp_bind, Host.wp_assign]
  refine Host.wp_seq (M := fun _ => M) (Y := fun _ _ _ => False) ?_ ?_ fun _ _ _ h => h.elim
  · rw [Host.wp_tryCatch]
    refine Host.wp_mono (htry l s h) (fun _ _ _ h => h) ?_
    intro e l s h
    exact (catch_block_returns batch e).wp (hcatch e l s h)
  · intro _ l s h
    exact Host.wp_seq ((release_jobs_returns _ _).wp (hrelease l s h)) (fun _ _ _ h => h) fun _ _ _ h => h.elim

/-- The rule for the body of the worker's loop: `M` is what is so once the batch is done with, and `Y` what is so if
`execute_batch` throws. -/
theorem worker_body_rule {gpu_absent : Bool}
    (hnotify : (call .notify_batch_space : WorkerM Unit).wp W (fun _ => P) (fun _ _ _ => True) l s)
    (hfail : gpu_absent = true → ∀ l s, P l s →
      (call (.fail_batch batch) : WorkerM Unit).wp W (fun _ => M) (fun _ _ _ => True) l s)
    (hexecute : ∀ l s, P l s → (execute_batch o batch).wp W (fun _ => M) (fun _ => Y) l s)
    (hrelease : ∀ l s, M l s → (call (.release_bytes (batchBytes batch)) : WorkerM Unit).wp W (fun _ => Q)
      (fun _ _ _ => True) l s)
    (habort : ∀ l s, Y l s → (call (.release_bytes (batchBytes batch)) : WorkerM Unit).wp W (fun _ => X)
      (fun _ _ _ => True) l s) :
    (worker_body o gpu_absent batch).wp W (fun _ => Q) (fun _ => X) l s := by
  have hdone : ∀ l s, M l s →
      (call (.release_bytes (batchBytes batch)) : WorkerM Unit).wp W (fun _ => Q) (fun _ => X) l s := by
    intro l s h
    exact Host.wp_mono ((Host.returns_call _).wp (hrelease l s h)) (fun _ _ _ h => h) fun _ _ _ h => h.elim
  unfold worker_body
  refine Host.wp_seq ((Host.returns_call _).wp hnotify) ?_ fun _ _ _ h => h.elim
  intro _ l s h
  dsimp only
  split_ifs with habsent
  · exact Host.wp_seq ((Host.returns_call _).wp (hfail habsent l s h)) (fun _ => hdone) fun _ _ _ h => h.elim
  · refine Host.wp_seq (M := fun _ => M) (Y := fun _ => X) ?_ (fun _ => hdone) fun _ _ _ h => h
    rw [Host.wp_tryCatch]
    refine Host.wp_mono (hexecute l s h) (fun _ _ _ h => h) ?_
    intro e l s h
    exact Host.wp_seq ((Host.returns_call _).wp (habort l s h)) (fun _ _ _ h => h) fun _ _ _ h => h.elim

end

end Gbis.Sched
