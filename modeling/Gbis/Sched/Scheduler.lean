import Gbis.Library.Transition
import Gbis.Sched.ExecuteBatch

/-!
# The scheduler

`BatchScheduler` of `src/src/sched/scheduler.cpp` as a transition system: the state its
threads share, what each thread is doing, and the steps each may take. The threads are
the clients inside `submit()`, the dispatcher, the workers, and the one thread that
calls `start()` and `stop()`.

## The steps

A critical section is one step, and so is an operation on an atomic. A wait on a
condition variable is three: the thread takes the mutex and evaluates the predicate
(and, if it is true, goes on to the end of the critical section); if it is false, the
thread, *still holding the mutex*, goes to sleep and releases it; and a notification
lets it take the mutex and evaluate the predicate again. While a thread is between the
first two (`queue_false`, `space_false`, `found_empty`) the others cannot enter that
mutex's critical sections (`State.queue_mutex_free`, `State.batch_mutex_free`).
`notify_one` wakes some thread asleep on the variable, if there is one. A sleeping
thread may also wake for no reason.

A worker that has taken a batch runs the program `worker_body`, one call a step; the
answers are any the environment may give, but that `cudaMalloc` hands out memory that
is not already in use. If the program throws, the exception leaves the thread and the
process is terminated.

Counters that would need `2^64` submissions to wrap are natural numbers.
`reserved_bytes_`, which sums sizes, is a `std::size_t`.

## Running it

`stepAt` is the same system as a function of the state and the label, which carries the
choices; a step it takes is a step of the system (`step_of_stepAt`).
-/

namespace Gbis.Sched

open Gbis.Core Library

/-! ### What a turn has done so far -/

/-- The entry `fail_batch` records of a job. -/
def failedMetrics (job : InferenceJob) : JobMetrics := { job_id := job.id, seq := job.seq, priority := job.priority }

/-- The history of a worker's turn with a batch. -/
structure Account where
  /-- The metrics entries it has recorded. -/
  recorded : List JobMetrics := []
  /-- How many of them it has added to `completed_`. -/
  counted : ℕ := 0
  /-- The amounts it has released. -/
  released : List ℕ := []
  /-- The creation of a stream or an event has failed. -/
  creation_failed : Bool := false
  deriving DecidableEq

/-- A stream or an event is created, with what result. -/
def Account.create (acc : Account) : Except CudaError ℕ → Account
  | .ok _ => acc
  | .error _ => { acc with creation_failed := true }

/-- What a call adds to the account. -/
def Account.apply (acc : Account) : (c : Call) → c.Ret → Account
  | .cudaStreamCreateWithFlags, r => acc.create r
  | .cudaStreamCreate, r => acc.create r
  | .cudaEventCreate, r => acc.create r
  | .insert_metrics out, _ => { acc with recorded := acc.recorded ++ out }
  | .add_completed n, _ => { acc with counted := acc.counted + n }
  | .fail_batch batch, _ =>
    { acc with recorded := acc.recorded ++ batch.map failedMetrics, counted := acc.counted + batch.length }
  | .release_bytes bytes, _ => { acc with released := acc.released ++ [bytes] }
  | _, _ => acc

/-- The device allocations a thread holds: pointers and numbers of bytes. -/
abbrev Held := List (ℕ × ℕ)

/-- The bytes of the allocations held. -/
def Held.bytes (held : Held) : ℕ := (held.map Prod.snd).sum

/-- What a call does to the allocations held. -/
def Held.apply (held : Held) : (c : Call) → c.Ret → Held
  | .cudaMalloc bytes, .ok p => (p, bytes) :: held
  | .cudaFree p, _ => held.filter fun a => a.1 ≠ p
  | _, _ => held

/-- A worker's turn: the batch, what is left of the program, and what it has done. -/
structure Turn where
  batch : List InferenceJob
  prog : Prog Call Call.Ret (Except Exn Unit × Locals)
  account : Account := {}
  held : Held := []

/-! ### The state -/

/-- Where the dispatcher is in `dispatcher_loop`. -/
inductive DispatcherPc where
  /-- Not started. -/
  | absent
  /-- About to wait for space in `batch_queue_`. -/
  | space_wait
  /-- Holds `batch_mutex_`, the predicate being false. -/
  | space_false
  /-- Asleep on `batch_space_cv_`. -/
  | space_blocked
  /-- About to wait for jobs. -/
  | queue_wait
  /-- Holds `queue_mutex_`, the predicate being false. -/
  | queue_false
  /-- Asleep on `queue_cv_`. -/
  | queue_blocked
  /-- The queue has been drained. -/
  | drained (candidates : List InferenceJob)
  /-- Oversized jobs are to be failed. -/
  | rejecting (oversized candidates : List InferenceJob)
  /-- About to compute the budget. -/
  | filtered (candidates : List InferenceJob)
  /-- The budget before reservations is known. -/
  | based (candidates : List InferenceJob) (base : ℕ)
  /-- The budget is known. -/
  | budgeted (candidates : List InferenceJob) (budget : ℕ)
  /-- The batch has been packed. -/
  | packed (selected remaining : List InferenceJob)
  /-- What remains is back in the queue. -/
  | requeued (selected : List InferenceJob)
  /-- The batch's bytes are reserved. -/
  | reserved (selected : List InferenceJob)
  /-- The batch is in `batch_queue_`, and a worker to be notified. -/
  | pushed
  /-- The loop has been left. -/
  | exited
  deriving DecidableEq

/-- Where a worker is in `worker_loop`. -/
inductive WorkerPc where
  /-- About to wait for a batch. -/
  | wait
  /-- Holds `batch_mutex_`, the predicate being false. -/
  | found_empty
  /-- Asleep on `batch_cv_`. -/
  | blocked
  /-- Has taken a batch. -/
  | running (turn : Turn)
  /-- The loop has been left. -/
  | exited

/-- A worker thread. -/
structure Worker where
  pc : WorkerPc := .wait
  locals : Locals := {}

/-- Where a client is in `submit()`. -/
inductive SubmitPc where
  /-- `submit_time` is set. -/
  | stamped (job : InferenceJob)
  /-- The job is in the queue. -/
  | pushed (seq : ℕ)
  /-- `submitted_` counts it. -/
  | counted (seq : ℕ)
  /-- `submit` has returned. -/
  | returned (seq : ℕ)
  deriving DecidableEq

/-- Where the controlling thread is in `start()` or `stop()`. -/
inductive ControlPc where
  /-- In neither. -/
  | idle
  /-- `start()` has set `started_`. -/
  | starting
  /-- `start()` has yet to create this many workers. -/
  | spawning (left : ℕ)
  /-- `stop()` has set `shutdown_`. -/
  | notify_queue
  | notify_batch
  | notify_space
  | joining_dispatcher
  | joining_workers
  /-- `stop()` has joined every thread. -/
  | joined
  deriving DecidableEq

/-- The state of the scheduler and its threads. -/
structure State where
  queue_ : List InferenceJob := []
  next_seq_ : ℕ := 0
  batch_queue_ : List (List InferenceJob) := []
  started_ : Bool := false
  shutdown_ : Bool := false
  gpu_absent_ : Bool := false
  submitted_ : ℕ := 0
  completed_ : ℕ := 0
  reserved_bytes_ : ℕ := 0
  total_mem_bytes_ : UInt64 := 0
  rejected_jobs_ : ℕ := 0
  oom_failures_ : ℕ := 0
  alloc_retries_ : ℕ := 0
  metrics_ : List JobMetrics := []
  results_ : ℕ → Option Floats := fun _ => none
  /-- What `Clock::now()` returns. -/
  clock : ℤ
  submits : List SubmitPc := []
  dispatcher : DispatcherPc := .absent
  /-- `workers_`: the threads of earlier starts stay in it. -/
  workers : List Worker := []
  control : ControlPc := .idle
  /-- An exception has left a thread. -/
  terminated : Bool := false

/-- No thread is between finding the queue empty and going to sleep. -/
def State.queue_mutex_free (s : State) : Prop := s.dispatcher ≠ .queue_false

/-- Whether a worker holds `batch_mutex_`. -/
def WorkerPc.holdsMutex : WorkerPc → Bool
  | .found_empty => true
  | _ => false

/-- No thread holds `batch_mutex_`. -/
def State.batch_mutex_free (s : State) : Prop :=
  s.dispatcher ≠ .space_false ∧ ∀ w ∈ s.workers, w.pc.holdsMutex = false

instance (s : State) : Decidable s.queue_mutex_free := inferInstanceAs (Decidable (_ ≠ _))

instance (s : State) : Decidable s.batch_mutex_free := inferInstanceAs (Decidable (_ ∧ _))

/-- Whether a worker has left its loop. -/
def WorkerPc.isExited : WorkerPc → Bool
  | .exited => true
  | _ => false

theorem WorkerPc.eq_exited : ∀ {pc : WorkerPc}, pc.isExited = true → pc = .exited
  | .exited, _ => rfl

/-- Replace worker `i`. -/
def State.setWorker (s : State) (i : ℕ) (w : Worker) : State := { s with workers := s.workers.set i w }

/-! ### Operations on the shared state -/

/-- `fail_batch(batch)`. -/
def State.fail_batch (s : State) (batch : List InferenceJob) : State :=
  { s with metrics_ := s.metrics_ ++ batch.map failedMetrics, completed_ := s.completed_ + batch.length }

/-- `reserve_bytes(bytes)`. -/
def State.reserve_bytes (s : State) (bytes : ℕ) : State :=
  { s with reserved_bytes_ := addSize s.reserved_bytes_ bytes }

/-- `release_bytes(bytes)`. -/
def State.release_bytes (s : State) (bytes : ℕ) : State :=
  { s with reserved_bytes_ := if bytes > s.reserved_bytes_ then 0 else s.reserved_bytes_ - bytes }

/-- Wake the dispatcher, if it is asleep on the variable whose state this is. -/
def State.wakeDispatcher (s : State) (blocked waiting : DispatcherPc) : State :=
  { s with dispatcher := if s.dispatcher = blocked then waiting else s.dispatcher }

/-- Wake a worker, if it is asleep. -/
def Worker.wake (w : Worker) : Worker :=
  match w.pc with
  | .blocked => { w with pc := .wait }
  | _ => w

/-- Whether a worker is asleep. -/
def WorkerPc.isBlocked : WorkerPc → Bool
  | .blocked => true
  | _ => false

/-- What a worker's call does to the shared state. -/
def State.effect (s : State) : Call → State
  | .notify_batch_space => s.wakeDispatcher .space_blocked .space_wait
  | .store_result seq c => { s with results_ := Function.update s.results_ seq (some c) }
  | .insert_metrics out => { s with metrics_ := s.metrics_ ++ out }
  | .add_completed n => { s with completed_ := s.completed_ + n }
  | .add_alloc_retry => { s with alloc_retries_ := s.alloc_retries_ + 1 }
  | .add_oom_failure => { s with oom_failures_ := s.oom_failures_ + 1 }
  | .fail_batch batch => s.fail_batch batch
  | .release_bytes bytes => s.release_bytes bytes
  | _ => s

/-- The device allocations in use. -/
def State.allocated (s : State) : List ℕ :=
  s.workers.flatMap fun w => match w.pc with
    | .running turn => turn.held.map Prod.fst
    | _ => []

/-- The device memory an answer hands out. -/
def granted : (c : Call) → c.Ret → Option ℕ
  | .cudaMalloc _, .ok p => some p
  | _, _ => none

/-- The answers a call may get: `cudaMalloc` hands out memory not in use. -/
def State.mayAnswer (s : State) (c : Call) (r : c.Ret) : Prop := ∀ p ∈ granted c r, p ∉ s.allocated

instance (s : State) (c : Call) (r : c.Ret) : Decidable (s.mayAnswer c r) :=
  inferInstanceAs (Decidable (∀ p ∈ granted c r, p ∉ s.allocated))

/-- The order in which the priority queue gives up its jobs. -/
def drainOrder (queue : List InferenceJob) : List InferenceJob :=
  stable_sort (fun a b => JobPriorityCompare b a) queue

variable (o : Options)

/-- `max_queue_depth`. -/
def max_queue_depth : ℕ := max 2 (mulSize (toSize o.num_workers) 2)

/-- `max_job_bytes()`; `0` also when the device's memory is unknown. -/
def max_job_bytes (total_mem_bytes : UInt64) : ℕ :=
  if total_mem_bytes = 0 then 0
  else if total_mem_bytes > o.safety_margin_bytes then (total_mem_bytes - o.safety_margin_bytes).toNat
  else 0

/-- The candidates larger than `max_job`, unless it is `0`. -/
def oversized (max_job : ℕ) (candidates : List InferenceJob) : List InferenceJob :=
  if max_job > 0 then candidates.filter fun job => job.bytes_required > max_job else []

/-- The candidates that are kept. -/
def admitted (max_job : ℕ) (candidates : List InferenceJob) : List InferenceJob :=
  if max_job > 0 then candidates.filter fun job => !(job.bytes_required > max_job) else candidates

/-! ### The steps -/

/-- Condition variables. -/
inductive CondVar where
  | queue_cv
  | batch_cv
  | batch_space_cv
  deriving DecidableEq

/-- The labels of the steps, with the choices made in them. -/
inductive Action where
  /-- Time passes. -/
  | tick (ns : ℕ)
  /-- A client calls `submit(job)`; clients are numbered in the order of their calls. -/
  | submit (job : InferenceJob)
  /-- Client `i` goes on. -/
  | client (i : ℕ)
  /-- `start()`, and what it finds: whether there is no GPU, and the total memory. -/
  | start
  | probe (gpu_absent : Bool) (total_mem_bytes : UInt64)
  | spawn
  | stop
  | notify_all (cv : CondVar)
  | join
  /-- The dispatcher goes on. -/
  | dispatcher
  /-- The dispatcher samples the free memory. -/
  | sample (free_mem_bytes : UInt64)
  /-- The dispatcher notifies `batch_cv_`, and this worker wakes, if any. -/
  | notify_worker (i : Option ℕ)
  /-- Worker `i` goes on. -/
  | worker (i : ℕ)
  /-- Worker `i` makes its call and gets this answer. -/
  | answer (i : ℕ) (c : Call) (r : c.Ret)
  /-- The dispatcher, or worker `i`, wakes for no reason. -/
  | spurious_dispatcher
  | spurious_worker (i : ℕ)

/-- What the clients and the clock do. -/
inductive ClientStep (s : State) : Action → State → Prop where
  /-- Time passes. -/
  | tick (ns : ℕ) : ClientStep s (.tick ns) { s with clock := s.clock + ns }
  /-- `job.submit_time = Clock::now()`. -/
  | submit (job : InferenceJob) :
      ClientStep s (.submit job) { s with submits := s.submits ++ [.stamped { job with submit_time := s.clock }] }
  /-- `job.seq = next_seq_++; queue_.push(job)`, under `queue_mutex_`. -/
  | push {i : ℕ} {job : InferenceJob} : s.submits[i]? = some (.stamped job) → s.queue_mutex_free →
      ClientStep s (.client i)
        { s with queue_ := s.queue_ ++ [{ job with seq := s.next_seq_ }], next_seq_ := s.next_seq_ + 1,
                 submits := s.submits.set i (.pushed s.next_seq_) }
  /-- `submitted_.fetch_add(1)`. -/
  | count {i seq : ℕ} : s.submits[i]? = some (.pushed seq) →
      ClientStep s (.client i) { s with submitted_ := s.submitted_ + 1, submits := s.submits.set i (.counted seq) }
  /-- `queue_cv_.notify_one()`. -/
  | notify {i seq : ℕ} : s.submits[i]? = some (.counted seq) →
      ClientStep s (.client i)
        { s.wakeDispatcher .queue_blocked .queue_wait with submits := s.submits.set i (.returned seq) }

/-- What the thread that calls `start()` and `stop()` does. -/
inductive ControlStep (s : State) : Action → State → Prop where
  /-- `start()` sets `started_` and clears `shutdown_`. -/
  | start : s.control = .idle → s.started_ = false →
      ControlStep s .start { s with started_ := true, shutdown_ := false, control := .starting }
  /-- It looks for a GPU and its memory, and creates the dispatcher. -/
  | probe (gpu_absent : Bool) (total : UInt64) : s.control = .starting →
      ControlStep s (.probe gpu_absent total)
        { s with gpu_absent_ := gpu_absent, total_mem_bytes_ := total, dispatcher := .space_wait,
                 control := .spawning o.num_workers.toInt.toNat }
  /-- It creates a worker. -/
  | spawn {left : ℕ} : s.control = .spawning (left + 1) →
      ControlStep s .spawn { s with workers := s.workers ++ [{}], control := .spawning left }
  /-- It returns. -/
  | started : s.control = .spawning 0 → ControlStep s .spawn { s with control := .idle }
  /-- `stop()` sets `shutdown_`, under `lifecycle_mutex_`. -/
  | stop : s.control = .idle → s.started_ = true →
      ControlStep s .stop { s with shutdown_ := true, control := .notify_queue }
  /-- `queue_cv_.notify_all()`. -/
  | notify_queue : s.control = .notify_queue →
      ControlStep s (.notify_all .queue_cv)
        { s.wakeDispatcher .queue_blocked .queue_wait with control := .notify_batch }
  /-- `batch_cv_.notify_all()`. -/
  | notify_batch : s.control = .notify_batch →
      ControlStep s (.notify_all .batch_cv) { s with workers := s.workers.map Worker.wake, control := .notify_space }
  /-- `batch_space_cv_.notify_all()`. -/
  | notify_space : s.control = .notify_space →
      ControlStep s (.notify_all .batch_space_cv)
        { s.wakeDispatcher .space_blocked .space_wait with control := .joining_dispatcher }
  /-- `dispatcher_.join()`. -/
  | join_dispatcher : s.control = .joining_dispatcher → s.dispatcher = .exited →
      ControlStep s .join { s with control := .joining_workers }
  /-- The workers are joined. -/
  | join_workers : s.control = .joining_workers → (∀ w ∈ s.workers, w.pc = .exited) →
      ControlStep s .join { s with control := .joined }
  /-- `started_ = false`, and `stop()` returns. -/
  | stopped : s.control = .joined → ControlStep s .join { s with started_ := false, control := .idle }

/-- What the dispatcher does. -/
inductive DispatcherStep (s : State) : Action → State → Prop where
  /-- The wait for space ends because of `shutdown_`. -/
  | space_exit : s.dispatcher = .space_wait → s.batch_mutex_free → s.shutdown_ = true →
      DispatcherStep s .dispatcher { s with dispatcher := .exited }
  /-- There is space. -/
  | space_pass : s.dispatcher = .space_wait → s.batch_mutex_free → s.shutdown_ = false →
      s.batch_queue_.length < max_queue_depth o →
      DispatcherStep s .dispatcher { s with dispatcher := .queue_wait }
  /-- There is no space. -/
  | space_false : s.dispatcher = .space_wait → s.batch_mutex_free → s.shutdown_ = false →
      ¬ s.batch_queue_.length < max_queue_depth o →
      DispatcherStep s .dispatcher { s with dispatcher := .space_false }
  /-- It goes to sleep. -/
  | space_block : s.dispatcher = .space_false → DispatcherStep s .dispatcher { s with dispatcher := .space_blocked }
  /-- The wait for jobs ends because of `shutdown_`. -/
  | queue_exit : s.dispatcher = .queue_wait → s.shutdown_ = true →
      DispatcherStep s .dispatcher { s with dispatcher := .exited }
  /-- There are jobs: the queue is drained. -/
  | drain : s.dispatcher = .queue_wait → s.shutdown_ = false → s.queue_ ≠ [] →
      DispatcherStep s .dispatcher { s with dispatcher := .drained (drainOrder s.queue_), queue_ := [] }
  /-- There are none. -/
  | queue_false : s.dispatcher = .queue_wait → s.shutdown_ = false → s.queue_ = [] →
      DispatcherStep s .dispatcher { s with dispatcher := .queue_false }
  /-- It goes to sleep. -/
  | queue_block : s.dispatcher = .queue_false → DispatcherStep s .dispatcher { s with dispatcher := .queue_blocked }
  /-- No GPU: `fail_batch(candidates)`. -/
  | no_gpu {candidates : List InferenceJob} : s.dispatcher = .drained candidates → s.gpu_absent_ = true →
      DispatcherStep s .dispatcher { s.fail_batch candidates with dispatcher := .space_wait }
  /-- The oversized jobs are taken out; there are none. -/
  | keep {candidates : List InferenceJob} : s.dispatcher = .drained candidates → s.gpu_absent_ = false →
      oversized (max_job_bytes o s.total_mem_bytes_) candidates = [] →
      DispatcherStep s .dispatcher
        { s with dispatcher := .filtered (admitted (max_job_bytes o s.total_mem_bytes_) candidates) }
  /-- There are some: `rejected_jobs_` counts them. -/
  | filter {candidates : List InferenceJob} : s.dispatcher = .drained candidates → s.gpu_absent_ = false →
      oversized (max_job_bytes o s.total_mem_bytes_) candidates ≠ [] →
      DispatcherStep s .dispatcher
        { s with dispatcher := .rejecting (oversized (max_job_bytes o s.total_mem_bytes_) candidates)
                   (admitted (max_job_bytes o s.total_mem_bytes_) candidates),
                 rejected_jobs_ := s.rejected_jobs_ +
                   (oversized (max_job_bytes o s.total_mem_bytes_) candidates).length }
  /-- `fail_batch(oversized)`. -/
  | reject {large candidates : List InferenceJob} : s.dispatcher = .rejecting large candidates →
      DispatcherStep s .dispatcher { s.fail_batch large with dispatcher := .filtered candidates }
  /-- `budget_bytes()` with a fixed budget. -/
  | fixed {candidates : List InferenceJob} : s.dispatcher = .filtered candidates → o.fixed_budget_bytes > 0 →
      DispatcherStep s .dispatcher { s with dispatcher := .based candidates o.fixed_budget_bytes.toNat }
  /-- `budget_bytes()`: the free memory is no more than the margin. -/
  | no_free {candidates : List InferenceJob} (free : UInt64) : s.dispatcher = .filtered candidates →
      ¬ o.fixed_budget_bytes > 0 → free ≤ o.safety_margin_bytes →
      DispatcherStep s (.sample free) { s with dispatcher := .budgeted candidates 0 }
  /-- `budget_bytes()`: it is more. -/
  | free {candidates : List InferenceJob} (free : UInt64) : s.dispatcher = .filtered candidates →
      ¬ o.fixed_budget_bytes > 0 → ¬ free ≤ o.safety_margin_bytes →
      DispatcherStep s (.sample free)
        { s with dispatcher := .based candidates (free - o.safety_margin_bytes).toNat }
  /-- `budget_bytes()` reads `reserved_bytes_`. -/
  | budget {candidates : List InferenceJob} {base : ℕ} : s.dispatcher = .based candidates base →
      DispatcherStep s .dispatcher
        { s with dispatcher := .budgeted candidates
                   (if base > s.reserved_bytes_ then base - s.reserved_bytes_ else 0) }
  /-- `pack_jobs`. -/
  | pack {candidates : List InferenceJob} {budget : ℕ} : s.dispatcher = .budgeted candidates budget →
      DispatcherStep s .dispatcher
        { s with dispatcher := .packed (pack_jobs s.clock candidates budget o.max_batch).selected
                   (pack_jobs s.clock candidates budget o.max_batch).remaining }
  /-- What remains goes back into the queue. -/
  | requeue {selected remaining : List InferenceJob} : s.dispatcher = .packed selected remaining →
      DispatcherStep s .dispatcher { s with dispatcher := .requeued selected, queue_ := s.queue_ ++ remaining }
  /-- Nothing fitted. -/
  | nothing : s.dispatcher = .requeued [] → DispatcherStep s .dispatcher { s with dispatcher := .space_wait }
  /-- `reserve_bytes(batch_bytes)`. -/
  | reserve {selected : List InferenceJob} : s.dispatcher = .requeued selected → selected ≠ [] →
      DispatcherStep s .dispatcher { s.reserve_bytes (batchBytes selected) with dispatcher := .reserved selected }
  /-- `batch_queue_.push_back(selected)`, under `batch_mutex_`. -/
  | push {selected : List InferenceJob} : s.dispatcher = .reserved selected → s.batch_mutex_free →
      DispatcherStep s .dispatcher { s with dispatcher := .pushed, batch_queue_ := s.batch_queue_ ++ [selected] }
  /-- `batch_cv_.notify_one()` wakes a worker. -/
  | notify {i : ℕ} {w : Worker} : s.dispatcher = .pushed → s.workers[i]? = some w → w.pc.isBlocked = true →
      DispatcherStep s (.notify_worker (some i)) { s.setWorker i w.wake with dispatcher := .space_wait }
  /-- No worker is asleep. -/
  | notify_none : s.dispatcher = .pushed → (∀ w ∈ s.workers, w.pc.isBlocked = false) →
      DispatcherStep s (.notify_worker none) { s with dispatcher := .space_wait }
  /-- It wakes for no reason. -/
  | spurious_space : s.dispatcher = .space_blocked →
      DispatcherStep s .spurious_dispatcher { s with dispatcher := .space_wait }
  /-- It wakes for no reason. -/
  | spurious_queue : s.dispatcher = .queue_blocked →
      DispatcherStep s .spurious_dispatcher { s with dispatcher := .queue_wait }

/-- What the workers do. -/
inductive WorkerStep (s : State) : Action → State → Prop where
  /-- The wait ends because of `shutdown_`, and there is no batch. -/
  | exit {i : ℕ} {w : Worker} : s.workers[i]? = some w → w.pc = .wait → s.batch_mutex_free → s.shutdown_ = true →
      s.batch_queue_ = [] → WorkerStep s (.worker i) (s.setWorker i { w with pc := .exited })
  /-- There is a batch: it is popped. -/
  | pop {i : ℕ} {w : Worker} {batch : List InferenceJob} {rest : List (List InferenceJob)} :
      s.workers[i]? = some w → w.pc = .wait → s.batch_mutex_free → s.batch_queue_ = batch :: rest →
      WorkerStep s (.worker i)
        { s.setWorker i { w with pc := .running { batch, prog := worker_body o s.gpu_absent_ batch w.locals } } with
          batch_queue_ := rest }
  /-- There is none. -/
  | found_empty {i : ℕ} {w : Worker} : s.workers[i]? = some w → w.pc = .wait → s.batch_mutex_free →
      s.shutdown_ = false → s.batch_queue_ = [] →
      WorkerStep s (.worker i) (s.setWorker i { w with pc := .found_empty })
  /-- It goes to sleep. -/
  | block {i : ℕ} {w : Worker} : s.workers[i]? = some w → w.pc = .found_empty →
      WorkerStep s (.worker i) (s.setWorker i { w with pc := .blocked })
  /-- It makes a call. -/
  | call {i : ℕ} {w : Worker} {turn : Turn} {c : Call} {k : c.Ret → Prog Call Call.Ret (Except Exn Unit × Locals)}
      {r : c.Ret} : s.workers[i]? = some w → w.pc = .running turn → turn.prog = .call c k → s.mayAnswer c r →
      WorkerStep s (.answer i c r)
        ((s.effect c).setWorker i
          { w with pc := .running { turn with prog := k r, account := turn.account.apply c r,
                                              held := turn.held.apply c r } })
  /-- It is done with the batch. -/
  | done {i : ℕ} {w : Worker} {turn : Turn} {l : Locals} : s.workers[i]? = some w → w.pc = .running turn →
      turn.prog = .pure (.ok (), l) → WorkerStep s (.worker i) (s.setWorker i { pc := .wait, locals := l })
  /-- An exception leaves `worker_loop`. -/
  | throw {i : ℕ} {w : Worker} {turn : Turn} {e : Exn} {l : Locals} : s.workers[i]? = some w →
      w.pc = .running turn → turn.prog = .pure (.error e, l) → WorkerStep s (.worker i) { s with terminated := true }
  /-- It wakes for no reason. -/
  | spurious {i : ℕ} {w : Worker} : s.workers[i]? = some w → w.pc.isBlocked = true →
      WorkerStep s (.spurious_worker i) (s.setWorker i w.wake)

/-- **A step**: one of the threads goes on, unless the process has been terminated. -/
inductive Step (s : State) (a : Action) (t : State) : Prop where
  | client : s.terminated = false → ClientStep s a t → Step s a t
  | control : s.terminated = false → ControlStep o s a t → Step s a t
  | dispatcher : s.terminated = false → DispatcherStep o s a t → Step s a t
  | worker : s.terminated = false → WorkerStep o s a t → Step s a t

/-- The scheduler with options `o`, from its construction on. -/
def scheduler : System State Action where
  init s := ∃ t, s = { clock := t }
  step := Step o

/-! ### Running the scheduler -/

/-- What the clients and the clock do, as a function. -/
def clientAt (s : State) : Action → Option State
  | .tick ns => some { s with clock := s.clock + ns }
  | .submit job => some { s with submits := s.submits ++ [.stamped { job with submit_time := s.clock }] }
  | .client i =>
    match s.submits[i]? with
    | some (.stamped job) =>
      if s.queue_mutex_free then
        some { s with queue_ := s.queue_ ++ [{ job with seq := s.next_seq_ }], next_seq_ := s.next_seq_ + 1,
                      submits := s.submits.set i (.pushed s.next_seq_) }
      else none
    | some (.pushed seq) => some { s with submitted_ := s.submitted_ + 1, submits := s.submits.set i (.counted seq) }
    | some (.counted seq) =>
      some { s.wakeDispatcher .queue_blocked .queue_wait with submits := s.submits.set i (.returned seq) }
    | _ => none
  | _ => none

theorem clientStep_of_clientAt {s t : State} {a : Action} (h : clientAt s a = some t) : ClientStep s a t := by
  unfold clientAt at h
  split at h
  · cases h; exact .tick _
  · cases h; exact .submit _
  · split at h
    · rename_i hi
      split_ifs at h with hm
      cases h
      exact .push hi hm
    · rename_i hi; cases h; exact .count hi
    · rename_i hi; cases h; exact .notify hi
    · cases h
  · cases h

/-- What the controlling thread does, as a function. -/
def controlAt (s : State) (a : Action) : Option State :=
  match s.control, a with
  | .idle, .start =>
    if s.started_ then none else some { s with started_ := true, shutdown_ := false, control := .starting }
  | .starting, .probe gpu_absent total =>
    some { s with gpu_absent_ := gpu_absent, total_mem_bytes_ := total, dispatcher := .space_wait,
                  control := .spawning o.num_workers.toInt.toNat }
  | .spawning (left + 1), .spawn => some { s with workers := s.workers ++ [{}], control := .spawning left }
  | .spawning 0, .spawn => some { s with control := .idle }
  | .idle, .stop => if s.started_ then some { s with shutdown_ := true, control := .notify_queue } else none
  | .notify_queue, .notify_all .queue_cv =>
    some { s.wakeDispatcher .queue_blocked .queue_wait with control := .notify_batch }
  | .notify_batch, .notify_all .batch_cv =>
    some { s with workers := s.workers.map Worker.wake, control := .notify_space }
  | .notify_space, .notify_all .batch_space_cv =>
    some { s.wakeDispatcher .space_blocked .space_wait with control := .joining_dispatcher }
  | .joining_dispatcher, .join =>
    if s.dispatcher = .exited then some { s with control := .joining_workers } else none
  | .joining_workers, .join =>
    if s.workers.all (·.pc.isExited) then some { s with control := .joined } else none
  | .joined, .join => some { s with started_ := false, control := .idle }
  | _, _ => none

theorem controlStep_of_controlAt {s t : State} {a : Action} (h : controlAt o s a = some t) : ControlStep o s a t := by
  unfold controlAt at h
  split at h
  · rename_i hc
    split_ifs at h with hs
    cases h
    exact .start hc (by simpa using hs)
  · rename_i hc; cases h; exact .probe _ _ hc
  · rename_i hc; cases h; exact .spawn hc
  · rename_i hc; cases h; exact .started hc
  · rename_i hc
    split_ifs at h with hs
    cases h
    exact .stop hc hs
  · rename_i hc; cases h; exact .notify_queue hc
  · rename_i hc; cases h; exact .notify_batch hc
  · rename_i hc; cases h; exact .notify_space hc
  · rename_i hc
    split_ifs at h with hd
    cases h
    exact .join_dispatcher hc hd
  · rename_i hc
    split_ifs at h with hw
    cases h
    exact .join_workers hc fun w hw' => WorkerPc.eq_exited (List.all_eq_true.mp hw w hw')
  · rename_i hc; cases h; exact .stopped hc
  · cases h

/-- What the dispatcher does on its own, as a function. -/
def dispatcherNext (s : State) : Option State :=
  match s.dispatcher with
  | .space_wait =>
    if s.batch_mutex_free then
      if s.shutdown_ then some { s with dispatcher := .exited }
      else if s.batch_queue_.length < max_queue_depth o then some { s with dispatcher := .queue_wait }
      else some { s with dispatcher := .space_false }
    else none
  | .space_false => some { s with dispatcher := .space_blocked }
  | .queue_wait =>
    if s.shutdown_ then some { s with dispatcher := .exited }
    else if s.queue_ = [] then some { s with dispatcher := .queue_false }
    else some { s with dispatcher := .drained (drainOrder s.queue_), queue_ := [] }
  | .queue_false => some { s with dispatcher := .queue_blocked }
  | .drained candidates =>
    let max_job := max_job_bytes o s.total_mem_bytes_
    if s.gpu_absent_ then some { s.fail_batch candidates with dispatcher := .space_wait }
    else if oversized max_job candidates = [] then some { s with dispatcher := .filtered (admitted max_job candidates) }
    else some { s with dispatcher := .rejecting (oversized max_job candidates) (admitted max_job candidates),
                       rejected_jobs_ := s.rejected_jobs_ + (oversized max_job candidates).length }
  | .rejecting large candidates => some { s.fail_batch large with dispatcher := .filtered candidates }
  | .filtered candidates =>
    if o.fixed_budget_bytes > 0 then some { s with dispatcher := .based candidates o.fixed_budget_bytes.toNat }
    else none
  | .based candidates base =>
    some { s with dispatcher := .budgeted candidates
                    (if base > s.reserved_bytes_ then base - s.reserved_bytes_ else 0) }
  | .budgeted candidates budget =>
    let packed := pack_jobs s.clock candidates budget o.max_batch
    some { s with dispatcher := .packed packed.selected packed.remaining }
  | .packed selected remaining => some { s with dispatcher := .requeued selected, queue_ := s.queue_ ++ remaining }
  | .requeued selected =>
    if selected = [] then some { s with dispatcher := .space_wait }
    else some { s.reserve_bytes (batchBytes selected) with dispatcher := .reserved selected }
  | .reserved selected =>
    if s.batch_mutex_free then some { s with dispatcher := .pushed, batch_queue_ := s.batch_queue_ ++ [selected] }
    else none
  | _ => none

theorem dispatcherStep_of_dispatcherNext {s t : State} (h : dispatcherNext o s = some t) :
    DispatcherStep o s .dispatcher t := by
  unfold dispatcherNext at h
  split at h
  · rename_i hd
    split_ifs at h with hm hs hl
    · cases h; exact .space_exit hd hm hs
    · cases h; exact .space_pass hd hm (by simpa using hs) hl
    · cases h; exact .space_false hd hm (by simpa using hs) hl
  · rename_i hd; cases h; exact .space_block hd
  · rename_i hd
    split_ifs at h with hs hq
    · cases h; exact .queue_exit hd hs
    · cases h; exact .queue_false hd (by simpa using hs) hq
    · cases h; exact .drain hd (by simpa using hs) hq
  · rename_i hd; cases h; exact .queue_block hd
  · rename_i hd
    dsimp only at h
    split_ifs at h with hg ho
    · cases h; exact .no_gpu hd hg
    · cases h; exact .keep hd (by simpa using hg) ho
    · cases h; exact .filter hd (by simpa using hg) ho
  · rename_i hd; cases h; exact .reject hd
  · rename_i hd
    split_ifs at h with hf
    cases h
    exact .fixed hd hf
  · rename_i hd; cases h; exact .budget hd
  · rename_i hd; cases h; exact .pack hd
  · rename_i hd; cases h; exact .requeue hd
  · rename_i hd
    split_ifs at h with hs
    · cases h; subst hs; exact .nothing hd
    · cases h; exact .reserve hd hs
  · rename_i hd
    split_ifs at h with hm
    cases h
    exact .push hd hm
  · cases h

/-- What the dispatcher does, as a function. -/
def dispatcherAt (s : State) : Action → Option State
  | .dispatcher => dispatcherNext o s
  | .sample free =>
    match s.dispatcher with
    | .filtered candidates =>
      if o.fixed_budget_bytes > 0 then none
      else if free ≤ o.safety_margin_bytes then some { s with dispatcher := .budgeted candidates 0 }
      else some { s with dispatcher := .based candidates (free - o.safety_margin_bytes).toNat }
    | _ => none
  | .notify_worker (some i) =>
    match s.dispatcher, s.workers[i]? with
    | .pushed, some w => if w.pc.isBlocked then some { s.setWorker i w.wake with dispatcher := .space_wait } else none
    | _, _ => none
  | .notify_worker none =>
    match s.dispatcher with
    | .pushed => if s.workers.any (·.pc.isBlocked) then none else some { s with dispatcher := .space_wait }
    | _ => none
  | .spurious_dispatcher =>
    match s.dispatcher with
    | .space_blocked => some { s with dispatcher := .space_wait }
    | .queue_blocked => some { s with dispatcher := .queue_wait }
    | _ => none
  | _ => none

theorem dispatcherStep_of_dispatcherAt {s t : State} {a : Action} (h : dispatcherAt o s a = some t) :
    DispatcherStep o s a t := by
  unfold dispatcherAt at h
  split at h
  · exact dispatcherStep_of_dispatcherNext o h
  · split at h
    · rename_i hd
      split_ifs at h with hf hm
      · cases h; exact .no_free _ hd hf hm
      · cases h; exact .free _ hd hf hm
    · cases h
  · split at h
    · rename_i hd hi
      split_ifs at h with hb
      cases h
      exact .notify hd hi hb
    · cases h
  · split at h
    · rename_i hd
      split_ifs at h with hb
      cases h
      exact .notify_none hd fun w hw => by
        simpa using List.any_eq_false.mp (by simpa using hb) w hw
    · cases h
  · split at h
    · rename_i hd; cases h; exact .spurious_space hd
    · rename_i hd; cases h; exact .spurious_queue hd
    · cases h
  · cases h

/-- A worker makes its call and is given the answer to it, if that is what it is waiting for. -/
def answerAt (s : State) (i : ℕ) (w : Worker) (turn : Turn) (c : Call) (r : c.Ret) : Option State :=
  match turn with
  | ⟨batch, .call c' k, account, held⟩ =>
    if h : c = c' then
      if s.mayAnswer c r then
        some ((s.effect c).setWorker i
          { w with pc := .running ⟨batch, k (h ▸ r), account.apply c r, held.apply c r⟩ })
      else none
    else none
  | _ => none

/-- What the workers do, as a function. -/
def workerAt (s : State) : Action → Option State
  | .worker i =>
    match s.workers[i]? with
    | some ⟨.wait, locals⟩ =>
      if s.batch_mutex_free then
        match s.batch_queue_ with
        | batch :: rest =>
          some { s.setWorker i
                   { pc := .running { batch, prog := worker_body o s.gpu_absent_ batch locals }, locals } with
                 batch_queue_ := rest }
        | [] => some (s.setWorker i { pc := if s.shutdown_ then .exited else .found_empty, locals })
      else none
    | some ⟨.found_empty, locals⟩ => some (s.setWorker i { pc := .blocked, locals })
    | some ⟨.running ⟨_, .pure (.ok (), l), _, _⟩, _⟩ => some (s.setWorker i { pc := .wait, locals := l })
    | some ⟨.running ⟨_, .pure (.error _, _), _, _⟩, _⟩ => some { s with terminated := true }
    | _ => none
  | .answer i c r =>
    match s.workers[i]? with
    | some ⟨.running turn, locals⟩ => answerAt s i ⟨.running turn, locals⟩ turn c r
    | _ => none
  | .spurious_worker i =>
    match s.workers[i]? with
    | some w => if w.pc.isBlocked then some (s.setWorker i w.wake) else none
    | none => none
  | _ => none

theorem workerStep_of_workerAt {s t : State} {a : Action} (h : workerAt o s a = some t) : WorkerStep o s a t := by
  unfold workerAt at h
  split at h
  · split at h
    · rename_i hi
      split at h
      · rename_i hm
        split at h
        · rename_i hq; cases h; exact .pop hi rfl hm hq
        · rename_i hq
          split_ifs at h with hs
          · cases h; exact .exit hi rfl hm hs hq
          · cases h; exact .found_empty hi rfl hm (by simpa using hs) hq
      · cases h
    · rename_i hi; cases h; exact .block hi rfl
    · rename_i hi; cases h; exact .done hi rfl rfl
    · rename_i hi; cases h; exact .throw hi rfl rfl
    · cases h
  · split at h
    · rename_i hi
      unfold answerAt at h
      split at h
      · split_ifs at h with hc hr
        subst hc
        cases h
        exact .call hi rfl rfl hr
      · cases h
    · cases h
  · split at h
    · rename_i hi
      split_ifs at h with hb
      cases h
      exact .spurious hi hb
    · cases h
  · cases h

/-- The step with a given label, if there is one. -/
def stepAt (s : State) (a : Action) : Option State :=
  if s.terminated then none
  else clientAt s a <|> controlAt o s a <|> dispatcherAt o s a <|> workerAt o s a

/-- A step the runner takes is a step of the scheduler. -/
theorem step_of_stepAt {s t : State} {a : Action} (h : stepAt o s a = some t) : Step o s a t := by
  unfold stepAt at h
  split_ifs at h with ht
  have ht : s.terminated = false := by simpa using ht
  simp only [Option.orElse_eq_orElse, Option.orElse_eq_or, Option.or_eq_some_iff] at h
  rcases h with h | ⟨_, h | ⟨_, h | ⟨_, h⟩⟩⟩
  · exact .client ht (clientStep_of_clientAt h)
  · exact .control ht (controlStep_of_controlAt o h)
  · exact .dispatcher ht (dispatcherStep_of_dispatcherAt o h)
  · exact .worker ht (workerStep_of_workerAt o h)

/-- The call that worker `i` makes next. -/
def State.nextCall (s : State) (i : ℕ) : Option Call :=
  match s.workers[i]? with
  | some ⟨.running ⟨_, .call c _, _, _⟩, _⟩ => some c
  | _ => none

/-- What is found at the end of a run with given labels, from the construction on, holds of a state that is
reached. -/
theorem exists_of_follow (ok : State → Action → Prop) [∀ s a, Decidable (ok s a)] (t : ℤ) (as : List Action)
    (p : State → Bool) (h : (follow (stepAt o) ok { clock := t } as).any p = true) :
    ∃ s, Reachable (scheduler o) ok s ∧ p s = true :=
  Reachable.of_follow (T := scheduler o) ok (fun _ _ _ => step_of_stepAt o) ⟨t, rfl⟩ as p h

/-- The same of two states on the way. -/
theorem exists_steps_of_follow (ok ok' : State → Action → Prop) [∀ s a, Decidable (ok s a)]
    [∀ s a, Decidable (ok' s a)] (t : ℤ) (as bs : List Action) (p : State → State → Bool)
    (h : ((follow (stepAt o) ok { clock := t } as).any fun u => (follow (stepAt o) ok' u bs).any (p u)) = true) :
    ∃ u s, Reachable (scheduler o) ok u ∧ Steps (scheduler o) ok' u s ∧ p u s = true :=
  Reachable.steps_of_follow (T := scheduler o) ok ok' (fun _ _ _ => step_of_stepAt o) ⟨t, rfl⟩ as bs p h

end Gbis.Sched
