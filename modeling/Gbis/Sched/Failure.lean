import Gbis.Sched.TurnAccount

/-!
# A worker and the failures of the library

A worker thread is handed one batch after another, and each call it makes of the CUDA
runtime and of cuBLAS may fail. `worker_loop` is its run for given answers: turn after
turn, until the batches are used up or an exception leaves the loop, which ends the
process.

Nearly every failure costs the batch alone: it is raised in the `try` block of
`execute_batch`, and `fail_batch` records the batch. The streams and the events are
created before that block. `turns_complete_iff` says that these creations are all there
is: the worker completes its batches if and only if none of them fails; and
`failed_stream_aborts` is a run in which one does.
-/

namespace Gbis.Sched

open Gbis.Core Library

/-- A worker's turn that is over. -/
structure Outcome where
  /-- The calls made, with their answers. -/
  calls : List ((c : Call) × c.Ret)
  /-- How it ended. -/
  result : Except Exn Unit

/-- The answers a worker gets: to its `n`-th call, whatever that is. -/
abbrev Answers := ℕ → (c : Call) → c.Ret

variable (o : Options) (gpu_absent : Bool) (f : Answers)

/-- The turns of a worker that is handed these batches, from its `n`-th call on. -/
def worker_loop : ℕ → Locals → List (List InferenceJob) → List Outcome
  | _, _, [] => []
  | n, l, batch :: batches =>
    match (worker_body o gpu_absent batch l).run f n with
    | (calls, .ok (), l') => ⟨calls, .ok ()⟩ :: worker_loop (n + calls.length) l' batches
    | (calls, .error e, _) => [⟨calls, .error e⟩]

/-- What the calls of a turn have recorded and released. -/
def Outcome.account (out : Outcome) : Account := applyAll Account.apply {} out.calls

/-- A turn has returned, with one entry for each job of the batch, and the batch's bytes
released. -/
structure Completed (batch : List InferenceJob) (out : Outcome) : Prop where
  returned : out.result = .ok ()
  recorded : Recorded batch out.account.recorded
  counted : out.account.counted = batch.length
  released : out.account.released = [batchBytes batch]

/-- A call that was to create a stream or an event, and has failed. -/
def failedCreation : ((c : Call) × c.Ret) → Bool
  | ⟨.cudaStreamCreateWithFlags, .error _⟩ | ⟨.cudaStreamCreate, .error _⟩ | ⟨.cudaEventCreate, .error _⟩ => true
  | _ => false

theorem creation_failed_apply (acc : Account) (e : (c : Call) × c.Ret) :
    (acc.apply e.1 e.2).creation_failed = (acc.creation_failed || failedCreation e) := by
  obtain ⟨c, r⟩ := e
  cases c with
  | cudaStreamCreateWithFlags | cudaStreamCreate | cudaEventCreate =>
    cases r <;> simp [Account.apply, Account.create, failedCreation]
  | _ => simp [Account.apply, failedCreation]

theorem creation_failed_applyAll (acc : Account) (calls : List ((c : Call) × c.Ret)) :
    (applyAll Account.apply acc calls).creation_failed = (acc.creation_failed || calls.any failedCreation) := by
  induction calls generalizing acc with
  | nil => simp [applyAll]
  | cons e calls ih =>
    change (applyAll Account.apply (acc.apply e.1 e.2) calls).creation_failed = _
    rw [ih, creation_failed_apply, List.any_cons, Bool.or_assoc]

/-- The books of a turn say whether a creation has failed. -/
theorem Outcome.creation_failed (out : Outcome) : out.account.creation_failed = out.calls.any failedCreation :=
  (creation_failed_applyAll {} out.calls).trans (Bool.false_or _)

theorem Recorded.length_eq {batch : List InferenceJob} {out : List JobMetrics} (h : Recorded batch out) :
    out.length = batch.length := by
  have hmap := congrArg List.length h.map_seq
  simpa using hmap

/-- The one turn: it is completed if no creation fails, and otherwise throws. -/
theorem turn_cases (batch : List InferenceJob) (n : ℕ) (l : Locals) {calls : List ((c : Call) × c.Ret)}
    {result : Except Exn Unit} {l' : Locals} (h : (worker_body o gpu_absent batch l).run f n = (calls, result, l')) :
    result = .ok () ∧ Completed batch ⟨calls, result⟩ ∧ calls.any failedCreation = false ∨
      (∃ e, result = .error e) ∧ calls.any failedCreation = true := by
  have hwp := Prog.wp_run f n (show (worker_body o gpu_absent batch).wp (accountWorld batch) _ _ l {} from
    worker_body_account o gpu_absent)
  rw [h] at hwp
  have hfail := Outcome.creation_failed ⟨calls, result⟩
  rcases result with e | ⟨⟩
  · have hwp : applyAll Account.apply {} calls = aborted batch := hwp
    rw [Outcome.account, hwp] at hfail
    exact .inr ⟨⟨e, rfl⟩, hfail.symm⟩
  · have hwp : Settled batch (applyAll Account.apply {} calls) := hwp
    refine .inl ⟨rfl, ⟨rfl, hwp.recorded, hwp.counted.trans hwp.recorded.length_eq, hwp.released⟩, ?_⟩
    rw [← hfail]
    exact hwp.created

/-- **Which failures a worker survives**: for any batches and any answers, every batch is
completed, by a turn that returns, with one entry a job and the bytes released, if and
only if no stream or event that the worker was to create has failed to be created. -/
theorem turns_complete_iff (batches : List (List InferenceJob)) (n : ℕ) (l : Locals) :
    List.Forall₂ Completed batches (worker_loop o gpu_absent f n l batches) ↔
      ∀ out ∈ worker_loop o gpu_absent f n l batches, out.calls.any failedCreation = false := by
  induction batches generalizing n l with
  | nil => exact ⟨fun _ _ h => by simp [worker_loop] at h, fun _ => .nil⟩
  | cons batch batches ih =>
    rcases hrun : (worker_body o gpu_absent batch l).run f n with ⟨calls, result, l'⟩
    unfold worker_loop
    rw [hrun]
    rcases turn_cases o gpu_absent f batch n l hrun with ⟨rfl, hdone, hgood⟩ | ⟨⟨e, rfl⟩, hbad⟩
    · simp only [List.forall₂_cons, List.forall_mem_cons, ih, hdone, hgood, true_and]
    · simp only [List.forall₂_cons, List.forall_mem_cons, hbad, Bool.true_eq_false, false_and, iff_false, not_and]
      exact fun hc => absurd hc.returned (by simp)

/-- Answers in which everything succeeds. -/
def succeed : (c : Call) → c.Ret
  | .cudaStreamCreateWithFlags | .cudaStreamCreate | .cudaEventCreate => .ok 0
  | .cudaMalloc _ | .cudaHostAlloc _ => .ok 0
  | .cudaMemcpyAsync .. | .cudaEventRecord .. | .cudaStreamWaitEvent .. | .cudaEventSynchronize _
  | .cudaDeviceSynchronize => .ok ()
  | .cublasCreate => .ok 0
  | .cublasSetStream .. | .cublasSgemmStridedBatched .. => .ok ()
  | .read .. => []
  | .now => 0
  | .cudaEventDestroy _ | .cudaFree _ | .cudaFreeHost _ | .cudaGetLastError
  | .gemm_tiled_batched .. | .fill_matrices .. | .index .. | .sleep_for _ | .notify_batch_space | .store_result ..
  | .insert_metrics _ | .add_completed _ | .add_alloc_retry | .add_oom_failure | .fail_batch _ | .release_bytes _ => ()

/-- Answers in which the first stream cannot be created. -/
def failStream : Answers
  | _, .cudaStreamCreateWithFlags => .error (.other 1)
  | _, c => succeed c

/-- A worker whose first stream cannot be created: the exception leaves the loop, and the
batch has no entry. -/
theorem failed_stream_aborts :
    (worker_loop {} false failStream 0 {} [[{ m := 1, n := 1, k := 1 }], [{ m := 1, n := 1, k := 1, seq := 1 }]]).map
        (fun out => (out.result, out.account.recorded)) = [(.error (.cuda (.other 1)), [])] ∧
      ¬ List.Forall₂ Completed [[{ m := 1, n := 1, k := 1 }], [{ m := 1, n := 1, k := 1, seq := 1 }]]
        (worker_loop {} false failStream 0 {}
          [[{ m := 1, n := 1, k := 1 }], [{ m := 1, n := 1, k := 1, seq := 1 }]]) := by
  refine ⟨rfl, fun h => ?_⟩
  have hlen := h.length_eq
  cases hlen

end Gbis.Sched
