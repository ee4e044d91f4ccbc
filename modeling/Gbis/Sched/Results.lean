import Gbis.Sched.Conservation
import Gbis.Sched.Failure

/-!
# Results and metrics

With `retain_results` a client finds the product of its job in `results_`, and whether the
job succeeded in `metrics_`. `execute_batch` gathers the entries of a batch in a vector and
inserts them when all jobs have been awaited; the results it stores one by one, as it awaits
the jobs. So when a job has been stored and the await of a later one fails, the batch is
failed as a whole and the result stays: `failed_batch_leaves_result`.

The await is the only call that can fail once a result has been stored. If every await that
fails finds no result of its batch stored, then whenever no worker is executing a batch the
results are those of the entries that succeeded (`results_match_metrics`).

The turns are described by a world that remembers which results a turn has stored
(`resultsWorld`), a ghost: in the scheduler it is what `results_` has for the batch.
-/

namespace Gbis.Sched

open Gbis.Core Library

/-! ### The world of the results -/

/-- A call that awaits a job, and fails. -/
def failedSync : (c : Call) → c.Ret → Bool
  | .cudaEventSynchronize _, .error _ => true
  | _, _ => false

/-- The jobs a turn has stored a result for, and the entries it has recorded. -/
abbrev Stored := List ℕ × List JobMetrics

/-- What is stored is recorded. -/
def Balanced (m : Stored) : Prop := m.2 = [] → m.1 = []

/-- When a call may be made. -/
def resultsPre (batch : List InferenceJob) : Call → Stored → Prop
  | .store_result seq _, m => m.2 = [] ∧ seq ∈ batch.map InferenceJob.seq
  | .insert_metrics out, m =>
    m.2 = [] ∧ (∀ e ∈ out, e.ok = true) ∧ out.map JobMetrics.seq = batch.map InferenceJob.seq ∧
      m.1 = batch.map InferenceJob.seq
  | .fail_batch failed, m => m.1 = [] ∧ m.2 = [] ∧ failed = batch
  | .notify_batch_space, m | .release_bytes _, m => Balanced m
  | _, _ => True

/-- What a call adds. -/
def resultsApply (m : Stored) : (c : Call) → c.Ret → Stored
  | .store_result seq _, _ => (m.1 ++ [seq], m.2)
  | .insert_metrics out, _ => (m.1, m.2 ++ out)
  | .fail_batch failed, _ => (m.1, m.2 ++ failed.map failedMetrics)
  | _, _ => m

/-- The world of the results of a turn with `batch`, in which an await that fails finds
nothing stored that is not recorded. -/
def resultsWorld (batch : List InferenceJob) : World Call Call.Ret Stored where
  pre := resultsPre batch
  answer m c r m' := (failedSync c r = true → Balanced m) ∧ m' = resultsApply m c r

variable {batch : List InferenceJob} {l : Locals} {m : Stored}

/-- What neither settles nor stores leaves the results as they are. -/
theorem unpublished_wp {α : Type} {p : WorkerM α} {γ : Type} {g : Locals → γ}
    (hp : p.Within (fun c => settles c = false ∧ stores c = false) g) (hm : Balanced m) :
    p.wp (resultsWorld batch) (fun _ _ m' => m' = m) (fun _ _ m' => m' = m) l m := by
  refine Host.wp_mono (Host.wp_of_within (I := fun m' => m' = m) (fun c m' hc hm' => ?_) hp rfl)
    (fun _ _ _ h => h.2) fun _ _ _ h => h.2
  subst hm'
  obtain ⟨hc, hs⟩ := hc
  cases c <;> first | contradiction | exact ⟨trivial, fun _ _ hr => hr.2⟩ | exact ⟨hm, fun _ _ hr => hr.2⟩

theorem inert_results_wp {α : Type} {p : WorkerM α} (hp : Inert p) :
    p.wp (resultsWorld batch) (fun _ _ m' => m' = ([], [])) (fun _ _ m' => m' = ([], [])) l ([], []) :=
  unpublished_wp (hp.mono (fun _ h => h.2.2) fun _ _ h => h) fun _ => rfl

theorem quiet_results_wp {α : Type} {p : WorkerM α} (hp : Quiet p) (hm : Balanced m) :
    p.wp (resultsWorld batch) (fun _ _ m' => m' = m) (fun _ _ m' => m' = m) l m :=
  unpublished_wp (hp.mono (fun _ h => h.2) fun _ _ h => h) hm

theorem steady_results_wp {α : Type} {p : WorkerM α} (hp : Steady p) :
    p.wp (resultsWorld batch) (fun _ _ m' => m' = ([], [])) (fun _ _ m' => m' = ([], [])) l ([], []) :=
  unpublished_wp (hp.mono (fun _ h => h.2) fun _ _ h => h) fun _ => rfl

/-! ### The batch -/

/-- A job that is awaited is stored, or nothing was. -/
theorem collect_job_results {i : ℕ} {job : InferenceJob} (hj : job ∈ batch) (hm : m.2 = []) :
    (collect_job true i job).wp (resultsWorld batch)
      (fun e _ m' => Succeeded job e ∧ m' = (m.1 ++ [job.seq], [])) (fun _ _ m' => m' = ([], [])) l m := by
  obtain ⟨stored, recorded⟩ := m
  obtain rfl : recorded = [] := hm
  unfold collect_job event_at retain
  rw [Host.wp_bind, Host.wp_bind, Host.wp_locals, Host.wp_bind, Host.wp_call]
  refine ⟨trivial, ?_⟩
  rintro _ _ ⟨-, rfl⟩
  rw [Host.wp_pure, Host.wp_bind, Host.wp_call]
  refine ⟨trivial, ?_⟩
  rintro (err | _) _ ⟨hsync, rfl⟩
  · -- the await fails
    obtain rfl : stored = [] := hsync rfl rfl
    rfl
  · rw [Host.wp_bind, wp_CUDA_CHECK]
    refine ⟨fun _ _ => ?_, by simp⟩
    rw [Host.wp_bind, Host.wp_call]
    refine ⟨trivial, ?_⟩
    rintro finish _ ⟨-, rfl⟩
    rw [Host.wp_bind, Host.wp_locals, Host.wp_bind, if_pos rfl, Host.wp_bind, Host.wp_call]
    refine ⟨trivial, ?_⟩
    rintro c _ ⟨-, rfl⟩
    rw [Host.wp_call]
    refine ⟨⟨rfl, List.mem_map_of_mem hj⟩, ?_⟩
    rintro _ _ ⟨-, rfl⟩
    exact ⟨⟨rfl, rfl, rfl, rfl⟩, rfl⟩

theorem collect_jobs_results {i : ℕ} {jobs : List InferenceJob} (hjobs : jobs ⊆ batch) (hm : m.2 = []) :
    (collect_jobs true i jobs).wp (resultsWorld batch)
      (fun out _ m' => List.Forall₂ Succeeded jobs out ∧ m' = (m.1 ++ jobs.map InferenceJob.seq, []))
      (fun _ _ m' => m' = ([], [])) l m := by
  induction jobs generalizing i l m with
  | nil => exact ⟨.nil, by simp [← hm]⟩
  | cons job jobs ih =>
    obtain ⟨hj, hjobs⟩ := List.cons_subset.mp hjobs
    refine Host.wp_seq (collect_job_results hj hm) ?_ fun _ _ _ h => h
    rintro e l _ ⟨he, rfl⟩
    refine Host.wp_seq (ih (i := i + 1) hjobs rfl) ?_ fun _ _ _ h => h
    rintro out l _ ⟨hout, rfl⟩
    exact ⟨.cons he hout, by simp⟩

/-- The `try` block stores the results of all jobs and records them, or leaves none stored. -/
theorem try_block_results {o : Options} (hret : o.retain_results = true) :
    (try_block o batch).wp (resultsWorld batch)
      (fun _ _ m => ∃ out, List.Forall₂ Succeeded batch out ∧ m = (batch.map InferenceJob.seq, out))
      (fun _ _ m => m = ([], [])) l ([], []) := by
  refine try_block_rule (A := fun _ _ m => m = ([], [])) (I := fun _ m => m = ([], []))
    (O := fun out _ m => List.Forall₂ Succeeded batch out ∧ m = (batch.map InferenceJob.seq, []))
    (quiet_results_wp (allocate_attempts_quiet batch _) fun _ => rfl) ?_ ?_ ?_ ?_
  · intro err l m h
    subst h
    exact inert_results_wp (throw_unless_allocated_inert err)
  · intro p hp l m h
    subst h
    exact inert_results_wp hp.inert
  · intro l m h
    subst h
    rw [hret]
    exact collect_jobs_results (m := ([], [])) (List.Subset.refl batch) rfl
  · intro out l m h
    obtain ⟨hout, rfl⟩ := h
    rw [Host.wp_bind, Host.wp_call]
    refine ⟨⟨rfl, ok_of_succeeded hout, map_seq_of_succeeded hout, rfl⟩, ?_⟩
    rintro _ _ ⟨-, rfl⟩
    rw [Host.wp_call]
    refine ⟨trivial, ?_⟩
    rintro _ _ ⟨-, rfl⟩
    exact ⟨out, hout, rfl⟩

theorem catch_block_results (e : Exn) :
    (catch_block batch e).wp (resultsWorld batch) (fun _ _ m => m = ([], batch.map failedMetrics)) (fun _ _ _ => False)
      l ([], []) := by
  unfold catch_block
  rw [Host.wp_bind, Host.wp_call]
  refine ⟨trivial, ?_⟩
  rintro _ _ ⟨-, rfl⟩
  rw [Host.wp_call]
  refine ⟨⟨rfl, rfl, rfl⟩, ?_⟩
  rintro _ _ ⟨-, rfl⟩
  rfl

theorem execute_batch_results {o : Options} (hret : o.retain_results = true) :
    (execute_batch o batch).wp (resultsWorld batch) (fun _ _ => Balanced) (fun _ _ m => m = ([], [])) l ([], []) := by
  refine execute_batch_rule (P := fun _ m => m = ([], [])) (R := fun _ m => m = ([], []))
    (Y := fun _ m => m = ([], [])) (M := fun _ => Balanced) (steady_results_wp create_streams_preparing.steady)
    ?_ ?_ ?_ ?_
  · intro l m h
    subst h
    exact steady_results_wp (grow_events_preparing _).steady
  · intro l m h
    subst h
    refine Host.wp_mono (try_block_results hret) ?_ fun _ _ _ h => h
    rintro _ l _ ⟨out, hout, rfl⟩ (rfl : out = [])
    cases hout
    rfl
  · intro e l m h
    subst h
    refine Host.wp_mono (catch_block_results e) ?_ fun _ _ _ _ => trivial
    rintro _ l _ rfl _
    rfl
  · intro l m hm
    refine Host.wp_mono (quiet_results_wp (release_jobs_quiet _ _) hm) ?_ fun _ _ _ _ => trivial
    rintro _ l _ rfl
    exact hm

/-- **A turn stores results for the jobs it records as done**, or for none. -/
theorem worker_body_results {o : Options} (hret : o.retain_results = true) (gpu_absent : Bool) :
    (worker_body o gpu_absent batch).wp (resultsWorld batch) (fun _ _ => Balanced) (fun _ _ => Balanced) l
      ([], []) := by
  have release : ∀ l m, Balanced m → (call (.release_bytes (batchBytes batch)) : WorkerM Unit).wp (resultsWorld batch)
      (fun _ _ => Balanced) (fun _ _ _ => True) l m := by
    intro l m hm
    rw [Host.wp_call]
    refine ⟨hm, ?_⟩
    rintro _ _ ⟨-, rfl⟩
    exact hm
  refine worker_body_rule (P := fun _ m => m = ([], [])) (M := fun _ => Balanced) (Y := fun _ m => m = ([], []))
    ?_ ?_ ?_ release ?_
  · rw [Host.wp_call]
    refine ⟨fun _ => rfl, ?_⟩
    rintro _ _ ⟨-, rfl⟩
    rfl
  · intro _ l m h
    subst h
    rw [Host.wp_call]
    refine ⟨⟨rfl, rfl, rfl⟩, ?_⟩
    rintro _ _ ⟨-, rfl⟩ _
    rfl
  · intro l m h
    subst h
    exact execute_batch_results hret
  · intro l m h
    subst h
    exact release l ([], []) fun _ => rfl

/-! ### In the scheduler -/

variable {o : Options} {s t : State} {a : Action} {i j : ℕ} {w w' : Worker} {tr tr' : Turn}

/-- The turn of a worker that has one. -/
def WorkerPc.turn : WorkerPc → Option Turn
  | .running turn => some turn
  | _ => none

/-- The turn of worker `i`. -/
def State.turn (s : State) (i : ℕ) : Option Turn := s.workers[i]?.bind fun w => w.pc.turn

theorem WorkerPc.turn_eq_some {pc : WorkerPc} : pc.turn = some tr ↔ pc = .running tr := by
  cases pc <;> simp [WorkerPc.turn]

theorem Worker.wake_turn (w : Worker) : w.wake.pc.turn = w.pc.turn := by
  unfold Worker.wake
  split
  · rename_i h; rw [h]; rfl
  · rfl

theorem State.turn_eq_some : s.turn i = some tr ↔ ∃ w, s.workers[i]? = some w ∧ w.pc = .running tr := by
  simp [State.turn, Option.bind_eq_some_iff, WorkerPc.turn_eq_some]

/-- The turns when one worker changes. -/
theorem turn_of_set (hi : s.workers[i]? = some w) (ht : t.workers = s.workers.set i w') (j : ℕ) :
    t.turn j = if i = j then w'.pc.turn else s.turn j := by
  have hlt := (List.getElem?_eq_some_iff.mp hi).1
  by_cases h : i = j
  · simp [State.turn, ht, ← h, hlt]
  · simp [State.turn, ht, h]

/-- A worker that changes outside of a turn changes no turn. -/
theorem turn_eq_of_set (hi : s.workers[i]? = some w) (ht : t.workers = s.workers.set i w') (hw : w'.pc.turn = w.pc.turn)
    (j : ℕ) : t.turn j = s.turn j := by
  rw [turn_of_set hi ht]
  split_ifs with h
  · simp [State.turn, ← h, hi, hw]
  · rfl

theorem ClientStep.turn_eq (h : ClientStep s a t) (j : ℕ) : t.turn j = s.turn j := by
  cases h <;> rfl

theorem ControlStep.turn_eq (h : ControlStep o s a t) (j : ℕ) : t.turn j = s.turn j := by
  cases h with
  | spawn =>
    simp only [State.turn, List.getElem?_append]
    split_ifs with hj
    · rfl
    · rw [List.getElem?_eq_none (l := s.workers) (Nat.le_of_not_lt hj)]
      cases (j - s.workers.length) <;> rfl
  | notify_batch =>
    simp only [State.turn, List.getElem?_map]
    cases s.workers[j]? with
    | none => rfl
    | some w => exact w.wake_turn
  | _ => rfl

theorem DispatcherStep.turn_eq (h : DispatcherStep o s a t) (j : ℕ) : t.turn j = s.turn j := by
  cases h with
  | notify _ hi => exact turn_eq_of_set hi rfl (Worker.wake_turn _) j
  | _ => rfl

/-- The jobs of a turn that has recorded nothing are the worker's. -/
theorem mem_hold_workers (hturn : s.turn i = some tr) (hrec : tr.account.recorded = []) {job : InferenceJob}
    (hj : job ∈ tr.batch) : job.seq ∈ s.hold .workers := by
  obtain ⟨w, hi, hw⟩ := State.turn_eq_some.mp hturn
  obtain ⟨rest, h, -⟩ := exists_sum_set (fun w : Worker => seqs w.pc.unrecorded) hi
  rw [State.hold, h, hw]
  refine Multiset.mem_add.mpr (.inr ?_)
  simpa [WorkerPc.unrecorded, hrec, seqs] using ⟨job, hj, rfl⟩

/-- Two workers that have recorded nothing have different jobs. -/
theorem seq_ne_of_turns (h : Reachable (scheduler o) Always s) (hij : i ≠ j) (hi : s.turn i = some tr)
    (hj : s.turn j = some tr') (hrec : tr.account.recorded = []) (hrec' : tr'.account.recorded = [])
    {job job' : InferenceJob} (hjob : job ∈ tr.batch) (hjob' : job' ∈ tr'.batch) : job.seq ≠ job'.seq := by
  intro he
  obtain ⟨w, hi, hw⟩ := State.turn_eq_some.mp hi
  obtain ⟨w', hj, hw'⟩ := State.turn_eq_some.mp hj
  obtain ⟨rest, h₁, h₂⟩ := exists_sum_set (fun w : Worker => seqs w.pc.unrecorded) hi
  -- the other workers hold what is not this one's
  have hj' : (s.workers.set i {})[j]? = some w' := by simpa [List.getElem?_set, hij] using hj
  obtain ⟨rest', h₃, -⟩ := exists_sum_set (fun w : Worker => seqs w.pc.unrecorded) hj'
  have hrest : rest = rest' + seqs w'.pc.unrecorded := by
    rw [← h₃, h₂]
    exact (add_zero rest).symm
  have hnodup := nodup_hold h .workers
  rw [State.hold, h₁, hrest, Multiset.nodup_add] at hnodup
  have hmine : job.seq ∈ seqs w.pc.unrecorded := by
    rw [hw]
    simpa [WorkerPc.unrecorded, hrec, seqs] using ⟨job, hjob, rfl⟩
  have hother : job.seq ∈ rest' + seqs w'.pc.unrecorded := by
    rw [hw', he]
    refine Multiset.mem_add.mpr (.inr ?_)
    simpa [WorkerPc.unrecorded, hrec', seqs] using ⟨job', hjob', rfl⟩
  exact Multiset.disjoint_left.mp hnodup.2.2 hother hmine

/-- `get_result(seq)`. -/
def State.get_result (s : State) (seq : ℕ) : Option Floats := s.results_ seq

/-- An await that fails finds no result of its batch stored. -/
def AwaitsFailEarly (s : State) : Action → Prop
  | .answer i c r => failedSync c r = true → ∀ tr ∈ s.turn i, ∀ job ∈ tr.batch, (s.results_ job.seq).isSome = false
  | _ => True

instance (s : State) : ∀ a, Decidable (AwaitsFailEarly s a)
  | .answer i c r => inferInstanceAs (Decidable (failedSync c r = true → ∀ tr ∈ s.turn i, ∀ job ∈ tr.batch, _))
  | .tick _ | .submit _ | .client _ | .start | .probe .. | .spawn | .stop | .notify_all _ | .join | .dispatcher
      | .sample _
  | .notify_worker _ | .worker _ | .spurious_dispatcher | .spurious_worker _ => .isTrue trivial

/-- What of a turn is known: which of its results are stored, and that its program goes on
accordingly. -/
def TurnPublished (s : State) (tr : Turn) : Prop :=
  ∃ stored : List ℕ, stored ⊆ tr.batch.map InferenceJob.seq ∧
    tr.prog.wp (resultsWorld tr.batch) (Host.ends (fun _ _ => Balanced) fun _ _ => Balanced)
      (stored, tr.account.recorded) ∧
    (tr.account.recorded = [] → ∀ seq ∈ tr.batch.map InferenceJob.seq, (s.results_ seq).isSome ↔ seq ∈ stored)

/-- The results are those of the entries that succeeded, and some of the batches that are
being executed. -/
structure Published (s : State) : Prop where
  entries : ∀ e ∈ s.metrics_, e.ok = true → (s.results_ e.seq).isSome
  results : ∀ seq, (s.results_ seq).isSome → (∃ e ∈ s.metrics_, e.seq = seq ∧ e.ok = true) ∨
    ∃ i tr, s.turn i = some tr ∧ tr.account.recorded = [] ∧ seq ∈ tr.batch.map InferenceJob.seq
  turns : ∀ i tr, s.turn i = some tr → TurnPublished s tr

theorem Published.of_same (hs : Published s) (hm : t.metrics_ = s.metrics_) (hr : t.results_ = s.results_)
    (ht : ∀ j, t.turn j = s.turn j) : Published t := by
  refine ⟨?_, ?_, ?_⟩
  · rw [hm, hr]
    exact hs.entries
  · simp only [hm, hr, ht]
    exact hs.results
  · intro i tr hi
    rw [ht] at hi
    obtain ⟨stored, hsub, hwp, hiff⟩ := hs.turns i tr hi
    exact ⟨stored, hsub, hwp, by rwa [hr]⟩

/-- Failing jobs adds entries that are not those of successes. -/
theorem Published.fail_batch (hs : Published s) (failed : List InferenceJob)
    (hm : t.metrics_ = s.metrics_ ++ failed.map failedMetrics)
    (hr : t.results_ = s.results_) (ht : ∀ j, t.turn j = s.turn j) : Published t := by
  have hok : ∀ e ∈ t.metrics_, e.ok = true → e ∈ s.metrics_ := by
    intro e he hok
    rw [hm] at he
    refine (List.mem_append.mp he).resolve_right fun he => ?_
    obtain ⟨job, -, rfl⟩ := List.mem_map.mp he
    cases hok
  refine ⟨fun e he hok' => ?_, fun seq hseq => ?_, fun i tr hi => ?_⟩
  · rw [hr]
    exact hs.entries e (hok e he hok') hok'
  · rw [hr] at hseq
    simp only [ht]
    refine (hs.results seq hseq).imp ?_ id
    rintro ⟨e, he, h⟩
    exact ⟨e, by rw [hm]; exact List.mem_append_left _ he, h⟩
  · rw [ht] at hi
    obtain ⟨stored, hsub, hwp, hiff⟩ := hs.turns i tr hi
    exact ⟨stored, hsub, hwp, by rwa [hr]⟩

theorem resultsApply_of_plain {c : Call} (hr : records c = false) (hst : stores c = false) (r : c.Ret) :
    resultsApply m c r = m := by
  cases c with
  | insert_metrics | fail_batch => cases hr
  | store_result => cases hst
  | _ => rfl

theorem State.effect_published {c : Call} (hr : records c = false) (hst : stores c = false) :
    (s.effect c).metrics_ = s.metrics_ ∧ (s.effect c).results_ = s.results_ := by
  cases c with
  | insert_metrics | fail_batch => cases hr
  | store_result => cases hst
  | _ => exact ⟨rfl, rfl⟩

/-- A job that is in a batch of `batch_queue_` has no result. -/
theorem Published.none_of_batches (hs : Published s) (h : Reachable (scheduler o) Always s) {seq : ℕ}
    (hseq : seq ∈ s.hold .batches) : (s.results_ seq).isSome = false := by
  by_contra hne
  rcases hs.results seq (Bool.not_eq_false _ ▸ hne) with ⟨e, he, rfl, -⟩ | ⟨i, tr, hi, hrec, hmem⟩
  · have hmetrics : e.seq ∈ s.hold .metrics := List.mem_map_of_mem he
    cases place_unique h hseq hmetrics
  · obtain ⟨job, hjob, rfl⟩ := List.mem_map.mp hmem
    cases place_unique h hseq (mem_hold_workers hi hrec hjob)

/-- A worker takes a batch. -/
theorem Published.pop (hs : Published s) (h : Reachable (scheduler o) Always s) (hret : o.retain_results = true)
    {batch : List InferenceJob} {rest : List (List InferenceJob)} (hi : s.workers[i]? = some w) (hw : w.pc = .wait)
    (hq : s.batch_queue_ = batch :: rest) (hm : t.metrics_ = s.metrics_) (hr : t.results_ = s.results_)
    {gpu_absent : Bool}
    (ht : t.workers = s.workers.set i
      { w with pc := .running { batch, prog := worker_body o gpu_absent batch w.locals } }) :
    Published t := by
  have hturn := turn_of_set hi ht
  have hnone : s.turn i = none := by simp [State.turn, hi, hw, WorkerPc.turn]
  refine ⟨by rw [hm, hr]; exact hs.entries, fun seq hseq => ?_, fun j tr hj => ?_⟩
  · rw [hr] at hseq
    rw [hm]
    refine (hs.results seq hseq).imp id ?_
    rintro ⟨j, tr, hj, hrest⟩
    have hne : i ≠ j := by
      rintro rfl
      rw [hnone] at hj
      cases hj
    exact ⟨j, tr, by rw [hturn, if_neg hne]; exact hj, hrest⟩
  · rw [hturn] at hj
    split_ifs at hj with hij
    · cases hj
      refine ⟨[], by simp, worker_body_results hret gpu_absent, fun _ seq hseq => ?_⟩
      have hbatches : seq ∈ s.hold .batches := by
        rw [State.hold, hq]
        simpa [seqs] using .inl (List.mem_map.mp hseq)
      rw [hr, hs.none_of_batches h hbatches]
      simp
    · obtain ⟨stored, hsub, hwp, hiff⟩ := hs.turns j tr hj
      exact ⟨stored, hsub, hwp, by rwa [hr]⟩

/-- A worker leaves a batch of which it has stored nothing that it has not recorded. -/
theorem Published.leave (hs : Published s) (hi : s.turn i = some tr)
    (hnone : tr.account.recorded = [] → ∀ seq ∈ tr.batch.map InferenceJob.seq, (s.results_ seq).isSome = false)
    (hm : t.metrics_ = s.metrics_) (hr : t.results_ = s.results_) {next : Option Turn}
    (ht : ∀ j, t.turn j = if i = j then next else s.turn j) (hnext : ∀ tr' ∈ next, TurnPublished t tr') :
      Published t := by
  refine ⟨by rw [hm, hr]; exact hs.entries, fun seq hseq => ?_, fun j tr' hj => ?_⟩
  · rw [hr] at hseq
    rw [hm]
    rcases hs.results seq hseq with he | ⟨j, tr', hj, hrec, hmem⟩
    · exact .inl he
    · by_cases hij : i = j
      · subst hij
        rw [hi] at hj
        cases hj
        rw [hnone hrec seq hmem] at hseq
        cases hseq
      · exact .inr ⟨j, tr', by rw [ht, if_neg hij]; exact hj, hrec, hmem⟩
  · rw [ht] at hj
    split_ifs at hj with hij
    · exact hnext tr' hj
    · obtain ⟨stored, hsub, hwp, hiff⟩ := hs.turns j tr' hj
      exact ⟨stored, hsub, hwp, by rwa [hr]⟩

/-- A worker makes a call that neither stores nor records. -/
theorem Published.advance (hs : Published s) (hi : s.turn i = some tr) (hm : t.metrics_ = s.metrics_)
    (hr : t.results_ = s.results_) (ht : ∀ j, t.turn j = if i = j then some tr' else s.turn j)
    (hb : tr'.batch = tr.batch)
    (hrec : tr'.account.recorded = tr.account.recorded) (htr : TurnPublished t tr') : Published t := by
  refine ⟨by rw [hm, hr]; exact hs.entries, fun seq hseq => ?_, fun j u hj => ?_⟩
  · rw [hr] at hseq
    rw [hm]
    refine (hs.results seq hseq).imp id ?_
    rintro ⟨j, u, hj, hrec', hmem⟩
    by_cases hij : i = j
    · subst hij
      rw [hi] at hj
      cases hj
      exact ⟨i, tr', by rw [ht, if_pos rfl], hrec.trans hrec', hb ▸ hmem⟩
    · exact ⟨j, u, by rw [ht, if_neg hij]; exact hj, hrec', hmem⟩
  · rw [ht] at hj
    split_ifs at hj with hij
    · cases hj
      exact htr
    · obtain ⟨stored, hsub, hwp, hiff⟩ := hs.turns j u hj
      exact ⟨stored, hsub, hwp, by rwa [hr]⟩

/-- A worker stores the result of a job. -/
theorem Published.store (hs : Published s) (h : Reachable (scheduler o) Always s) (hi : s.turn i = some tr)
    (hrec : tr.account.recorded = []) {seq : ℕ} {c : Floats} (hseq : seq ∈ tr.batch.map InferenceJob.seq)
    (hm : t.metrics_ = s.metrics_) (hr : t.results_ = Function.update s.results_ seq (some c))
    (ht : ∀ j, t.turn j = if i = j then some tr' else s.turn j) (hb : tr'.batch = tr.batch)
    (hrec' : tr'.account.recorded = tr.account.recorded) (htr : TurnPublished t tr') : Published t := by
  have hgrow : ∀ n, (s.results_ n).isSome → (t.results_ n).isSome := by
    intro n hn
    rw [hr]
    by_cases hns : n = seq
    · simp [hns]
    · simpa [hns] using hn
  refine ⟨fun e he hok => ?_, fun n hn => ?_, fun j u hj => ?_⟩
  · rw [hm] at he
    exact hgrow _ (hs.entries e he hok)
  · rw [hm]
    by_cases hns : n = seq
    · exact .inr ⟨i, tr', by rw [ht, if_pos rfl], hrec'.trans hrec, by rw [hb, hns]; exact hseq⟩
    · rw [hr, Function.update_of_ne hns] at hn
      refine (hs.results n hn).imp id ?_
      rintro ⟨j, u, hj, hu, hmem⟩
      by_cases hij : i = j
      · subst hij
        rw [hi] at hj
        cases hj
        exact ⟨i, tr', by rw [ht, if_pos rfl], hrec'.trans hrec, hb ▸ hmem⟩
      · exact ⟨j, u, by rw [ht, if_neg hij]; exact hj, hu, hmem⟩
  · rw [ht] at hj
    split_ifs at hj with hij
    · cases hj
      exact htr
    · -- the result is not of another turn
      obtain ⟨stored, hsub, hwp, hiff⟩ := hs.turns j u hj
      refine ⟨stored, hsub, hwp, fun hu n hn => ?_⟩
      obtain ⟨job, hjob, rfl⟩ := List.mem_map.mp hseq
      obtain ⟨job', hjob', rfl⟩ := List.mem_map.mp hn
      have hne := seq_ne_of_turns h hij hi hj hrec hu hjob hjob'
      rw [hr, Function.update_of_ne (Ne.symm hne)]
      exact hiff hu _ hn

/-- A worker records that the jobs of its batch have succeeded. -/
theorem Published.record (hs : Published s) (hi : s.turn i = some tr) {out : List JobMetrics}
    (hok : ∀ e ∈ out, e.ok = true)
    (hout : out.map JobMetrics.seq = tr.batch.map InferenceJob.seq)
    (hsome : ∀ seq ∈ tr.batch.map InferenceJob.seq, (s.results_ seq).isSome) (hm : t.metrics_ = s.metrics_ ++ out)
    (hr : t.results_ = s.results_) (ht : ∀ j, t.turn j = if i = j then some tr' else s.turn j)
    (htr : TurnPublished t tr') : Published t := by
  refine ⟨fun e he hoke => ?_, fun seq hseq => ?_, fun j u hj => ?_⟩
  · rw [hm] at he
    rw [hr]
    rcases List.mem_append.mp he with he | he
    · exact hs.entries e he hoke
    · exact hsome _ (hout ▸ List.mem_map_of_mem he)
  · rw [hr] at hseq
    rw [hm]
    rcases hs.results seq hseq with ⟨e, he, h⟩ | ⟨j, u, hj, hu, hmem⟩
    · exact .inl ⟨e, List.mem_append_left _ he, h⟩
    · by_cases hij : i = j
      · subst hij
        rw [hi] at hj
        cases hj
        rw [← hout] at hmem
        obtain ⟨e, he, rfl⟩ := List.mem_map.mp hmem
        exact .inl ⟨e, List.mem_append_right _ he, rfl, hok e he⟩
      · exact .inr ⟨j, u, by rw [ht, if_neg hij]; exact hj, hu, hmem⟩
  · rw [ht] at hj
    split_ifs at hj with hij
    · cases hj
      exact htr
    · obtain ⟨stored, hsub, hwp, hiff⟩ := hs.turns j u hj
      exact ⟨stored, hsub, hwp, by rwa [hr]⟩

/-- Of a turn in balance nothing is stored that is not recorded. -/
theorem TurnPublished.none_of_balanced {stored : List ℕ}
    (hiff : tr.account.recorded = [] → ∀ seq ∈ tr.batch.map InferenceJob.seq, (s.results_ seq).isSome ↔ seq ∈ stored)
    (hbal : Balanced (stored, tr.account.recorded)) (hrec : tr.account.recorded = []) :
    ∀ seq ∈ tr.batch.map InferenceJob.seq, (s.results_ seq).isSome = false := by
  obtain rfl : stored = [] := hbal hrec
  intro seq hseq
  simpa using hiff hrec seq hseq

theorem WorkerStep.published (hret : o.retain_results = true) (h : WorkerStep o s a t)
    (hreach : Reachable (scheduler o) Always s) (ha : AwaitsFailEarly s a) (hs : Published s) : Published t := by
  cases h with
  | exit hi hw | found_empty hi hw | block hi hw =>
    exact hs.of_same rfl rfl (turn_eq_of_set hi rfl (by rw [hw]; rfl))
  | spurious hi => exact hs.of_same rfl rfl (turn_eq_of_set hi rfl (Worker.wake_turn _))
  | throw => exact hs.of_same rfl rfl fun _ => rfl
  | pop hi hw _ hq => exact hs.pop hreach hret hi hw hq rfl rfl rfl
  | @done i w tr l hi hw hp =>
    have hturn : s.turn i = some tr := State.turn_eq_some.mpr ⟨w, hi, hw⟩
    obtain ⟨stored, hsub, hwp, hiff⟩ := hs.turns i tr hturn
    rw [hp] at hwp
    exact hs.leave hturn (TurnPublished.none_of_balanced hiff hwp) rfl rfl (turn_of_set hi rfl)
      (by simp [WorkerPc.turn])
  | @call i w tr c k r hi hw hp hr =>
    have hturn : s.turn i = some tr := State.turn_eq_some.mpr ⟨w, hi, hw⟩
    have hset := congrArg (fun ws => ws.set i { w with pc := .running (tr.after c r (k r)) }) (s.effect_workers c)
    have hmove := turn_of_set (t := (s.effect c).setWorker i { w with pc := .running (tr.after c r (k r)) }) hi hset
    obtain ⟨stored, hsub, hwp, hiff⟩ := hs.turns i tr hturn
    rw [hp] at hwp
    have hpre : resultsPre tr.batch c (stored, tr.account.recorded) := hwp.1
    have hearly : failedSync c r = true → Balanced (stored, tr.account.recorded) := by
      intro hf hrec
      refine List.eq_nil_iff_forall_not_mem.mpr fun seq hseq => ?_
      obtain ⟨job, hjob, rfl⟩ := List.mem_map.mp (hsub hseq)
      have hnone := ha hf tr hturn job hjob
      rw [(hiff hrec _ (hsub hseq)).mpr hseq] at hnone
      cases hnone
    have hnext := hwp.2 r _ ⟨hearly, rfl⟩
    by_cases hrc : records c = true
    · cases c with
      | insert_metrics out =>
        obtain ⟨hrec, hok, hout, hall⟩ := hpre
        obtain rfl : stored = tr.batch.map InferenceJob.seq := hall
        have hsome : ∀ seq ∈ tr.batch.map InferenceJob.seq, (s.results_ seq).isSome := fun seq hseq =>
          (hiff hrec seq hseq).mpr hseq
        refine hs.record hturn hok hout hsome rfl rfl hmove ⟨_, hsub, hnext, fun _ seq hseq => ?_⟩
        exact hiff hrec seq hseq
      | fail_batch failed =>
        obtain ⟨hstored, hrec, rfl⟩ := hpre
        have hnone := TurnPublished.none_of_balanced hiff fun _ => hstored
        -- the turn is left, and then the entries are added
        have hleft := hs.leave (t := { (s.effect (.fail_batch tr.batch)).setWorker i
          { w with pc := .running (tr.after (.fail_batch tr.batch) r (k r)) } with metrics_ := s.metrics_ })
            hturn hnone rfl rfl hmove
          (fun tr' htr' => by cases htr'; exact ⟨stored, hsub, hnext, fun _ seq hseq => hiff hrec seq hseq⟩)
        exact hleft.fail_batch tr.batch rfl rfl fun _ => rfl
      | _ => cases hrc
    · have hrc : records c = false := by simpa using hrc
      have hrec := Account.apply_recorded tr.account hrc r
      by_cases hst : stores c = true
      · cases c with
        | store_result seq x =>
          obtain ⟨hrec₀, hseq⟩ := hpre
          refine hs.store hreach hturn hrec₀ hseq rfl rfl hmove rfl hrec ⟨stored ++ [seq], ?_, ?_, fun _ n hn => ?_⟩
          · exact List.append_subset.mpr ⟨hsub, List.cons_subset.mpr ⟨hseq, List.nil_subset _⟩⟩
          · exact hnext
          · by_cases hns : n = seq
            · simp [State.setWorker, State.effect, hns]
            · simpa [State.setWorker, State.effect, hns] using hiff hrec₀ n hn
        | _ => cases hst
      · have hst : stores c = false := by simpa using hst
        obtain ⟨hm, hres⟩ := State.effect_published (s := s) hrc hst
        refine hs.advance hturn hm hres hmove rfl hrec ⟨stored, hsub, ?_, fun hrec' => ?_⟩
        · rw [resultsApply_of_plain hrc hst] at hnext
          change (k r).wp _ _ (stored, (tr.account.apply c r).recorded)
          rw [hrec]
          exact hnext
        · change ∀ seq ∈ tr.batch.map InferenceJob.seq, ((s.effect c).results_ seq).isSome ↔ seq ∈ stored
          rw [hres]
          exact hiff (hrec ▸ hrec')

theorem published (hret : o.retain_results = true) (h : Reachable (scheduler o) AwaitsFailEarly s) : Published s := by
  refine h.invariant ?_ fun {s a t} hr hs hstep ha => ?_
  · rintro _ ⟨t, rfl⟩
    exact ⟨by simp, by simp, by simp [State.turn]⟩
  · have hr : Reachable (scheduler o) Always s := hr.mono fun _ _ _ => trivial
    cases hstep with
    | client _ h =>
      have hturn := h.turn_eq
      cases h <;> exact hs.of_same rfl rfl hturn
    | control _ h =>
      have hturn := h.turn_eq
      cases h <;> exact hs.of_same rfl rfl hturn
    | dispatcher _ h =>
      have hturn := h.turn_eq
      cases h with
      | no_gpu | reject => exact hs.fail_batch _ rfl rfl hturn
      | _ => exact hs.of_same rfl rfl hturn
    | worker _ h => exact h.published hret hr ha hs

/-- Whether a worker is inside `execute_batch`. One that is about to fail a batch there is
not counted: its batch has left no results. -/
def WorkerPc.executing : WorkerPc → Bool
  | .running tr => match tr.prog with
    | .call .notify_batch_space _ | .call (.fail_batch _) _ | .call (.release_bytes _) _ | .pure _ => false
    | .call _ _ => true
  | _ => false

/-- A turn outside `execute_batch` is in balance. -/
theorem TurnPublished.none_of_executing (h : TurnPublished s tr) (hex : (WorkerPc.running tr).executing = false)
    (hrec : tr.account.recorded = []) : ∀ seq ∈ tr.batch.map InferenceJob.seq, (s.results_ seq).isSome = false := by
  obtain ⟨stored, -, hwp, hiff⟩ := h
  refine TurnPublished.none_of_balanced hiff ?_ hrec
  cases hp : tr.prog with
  | pure r =>
    rw [hp] at hwp
    rcases r with ⟨e | _, l⟩ <;> exact hwp
  | call c k =>
    rw [hp] at hwp
    have hpre := hwp.1
    simp only [WorkerPc.executing, hp] at hex
    cases c with
    | notify_batch_space | release_bytes => exact hpre
    | fail_batch => exact fun _ => hpre.1
    | _ => cases hex

/-- **The results are those of the jobs that succeeded**, whenever no worker is inside
`execute_batch`, in every run in which an await that fails finds no result of its batch
stored. -/
theorem results_match_metrics (hret : o.retain_results = true) (h : Reachable (scheduler o) AwaitsFailEarly s)
    (hidle : ∀ w ∈ s.workers, w.pc.executing = false) (seq : ℕ) :
    (s.get_result seq).isSome ↔ ∃ e ∈ s.metrics_, e.seq = seq ∧ e.ok = true := by
  have hp := published hret h
  constructor
  · intro hsome
    refine (hp.results seq hsome).resolve_right ?_
    rintro ⟨i, tr, hi, hrec, hmem⟩
    obtain ⟨w, hw, hpc⟩ := State.turn_eq_some.mp hi
    have hex := hidle w (List.mem_of_getElem? hw)
    rw [hpc] at hex
    have hnone := (hp.turns i tr hi).none_of_executing hex hrec seq hmem
    rw [State.get_result, hnone] at hsome
    cases hsome
  · rintro ⟨e, he, rfl, hok⟩
    exact hp.entries e he hok

/-- One worker, which keeps the results. -/
def retaining : Options := { num_workers := 1, fixed_budget_bytes := 1024, retain_results := true }

/-- Two jobs of one batch. -/
def retainedBatch : List InferenceJob :=
  [{ m := 1, n := 1, k := 1, submit_time := 1 }, { m := 1, n := 1, k := 1, submit_time := 1, seq := 1 }]

/-- Answers in which memory and events are new, and the awaits of `event` fail. -/
def failAwait (event : ℕ) : Answers
  | n, .cudaMalloc _ => .ok n
  | n, .cudaEventCreate => .ok n
  | _, .cudaEventSynchronize e => if e = event then .error (.other 1) else .ok ()
  | _, c => succeed c

/-- The two jobs are packed, and a worker executes the batch and returns. -/
def retainedTrace (f : Answers) : List Action :=
  [.start, .probe false 1073741824, .spawn, .spawn, .submit { m := 1, n := 1, k := 1 }, .client 0,
   .submit { m := 1, n := 1, k := 1 }, .client 1] ++ List.replicate 9 .dispatcher ++ [.notify_worker none, .worker 0] ++
  ((worker_body retaining false retainedBatch {}).run f 0).1.map (fun e => .answer 0 e.1 e.2) ++ [.worker 0]

/-- The await of the second job fails, when the result of the first has been stored: the batch
is failed, and the result stays. -/
theorem failed_batch_leaves_result : ∃ s, Reachable (scheduler retaining) Always s ∧
    (∀ w ∈ s.workers, w.pc.turn.isNone) ∧
    (s.get_result 0).isSome ∧ s.metrics_ = retainedBatch.map failedMetrics ∧ ¬ ∃ e ∈ s.metrics_, e.seq = 0 ∧
      e.ok = true := by
  obtain ⟨s, hr, hp⟩ := exists_of_follow retaining Always 1 (retainedTrace (failAwait 9))
    (fun s => s.workers.all (fun w => w.pc.turn.isNone) && ((s.get_result 0).isSome &&
      s.metrics_ = retainedBatch.map failedMetrics)) (by decide +kernel)
  simp only [Bool.and_eq_true, decide_eq_true_eq, List.all_eq_true] at hp
  obtain ⟨hw, hres, hm⟩ := hp
  refine ⟨s, hr, hw, hres, hm, ?_⟩
  rw [hm]
  decide

/-- When no await fails both jobs have succeeded, and both results are there. -/
theorem results_match_metrics_retained : ∃ s : State, s.metrics_.length = 2 ∧
    ((s.get_result 0).isSome ↔ ∃ e ∈ s.metrics_, e.seq = 0 ∧ e.ok = true) := by
  obtain ⟨s, hr, hp⟩ := exists_of_follow retaining AwaitsFailEarly 1 (retainedTrace (failAwait 0))
    (fun s => s.workers.all (fun w => w.pc.executing = false) && s.metrics_.length = 2) (by decide +kernel)
  simp only [Bool.and_eq_true, decide_eq_true_eq, List.all_eq_true] at hp
  exact ⟨s, hp.2, results_match_metrics rfl hr hp.1 0⟩

end Gbis.Sched
