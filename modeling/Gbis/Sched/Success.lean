import Gbis.Sched.Progress
import Gbis.Sched.Results

/-!
# Failures have causes

An entry that says that its job has failed goes back to a call that failed, to the absence of
a GPU, or to the job's size. So while there is a GPU, all calls succeed and no job is larger
than the largest job there may be (`Healthy`), every entry says that its job has been executed,
whatever the threads do, also over several starts and stops (`healthy_entries`).
-/

namespace Gbis.Sched

open Gbis.Core Library

variable {o : Options} {total : UInt64} {base : ℕ} {s t : State} {a : Action} {batch : List InferenceJob}

/-! ### A turn whose calls succeed -/

theorem proceeds_CUBLAS_CHECK {L α : Type} {r : Except ℕ α} (h : ∀ e, r ≠ .error e) :
    Proceeds' (CUBLAS_CHECK r : HostM L α) := by
  cases r with
  | error e => exact absurd rfl (h e)
  | ok a => exact Host.proceeds_pure trivial

/-- A call of cuBLAS whose status is checked, and what follows. -/
theorem proceeds_cublas_checked {L α β : Type} {B : β → Prop} {p : HostM L (Except ℕ α)} {k : α → HostM L β}
    (hp : Proceeds p fun r => ∀ e, r ≠ .error e) (hk : ∀ a, Proceeds (k a) B) :
    Proceeds (p >>= fun r => CUBLAS_CHECK r >>= k) B :=
  Host.proceeds_bind hp fun _ hr => Host.proceeds_bind (proceeds_CUBLAS_CHECK hr) fun a _ => hk a

theorem cublas_handle_proceeds : Proceeds' cublas_handle := by
  refine Host.proceeds_bind Host.proceeds_locals fun l _ => ?_
  cases l.cublas_handle with
  | some h => exact Host.proceeds_pure trivial
  | none =>
    refine proceeds_cublas_checked (proceeds_call trivial (by rintro _ hr e rfl; cases hr)) fun h => ?_
    exact Host.proceeds_bind (Host.proceeds_assign _) fun _ _ => Host.proceeds_pure trivial

theorem issue_gemm_proceeds (impl : Impl) (job : InferenceJob) (e : JobBuffers) (stream : Option ℕ) :
    Proceeds' (issue_gemm impl job e stream) := by
  cases impl with
  | tiled => exact (Host.proceeds_call trivial).mono fun _ _ => trivial
  | cublas =>
    refine Host.proceeds_bind cublas_handle_proceeds fun h _ => ?_
    refine proceeds_cublas_checked (proceeds_call trivial (by rintro _ hr e rfl; cases hr)) fun _ => ?_
    exact Host.proceeds_bind (proceeds_call trivial (by rintro _ hr e rfl; cases hr)) fun _ => proceeds_CUBLAS_CHECK

theorem issue_job_proceeds (impl : Impl) (batch : List InferenceJob) (i : ℕ) : Proceeds' (issue_job impl batch i) := by
  refine Host.proceeds_bind (job_at_proceeds batch i) fun job _ => ?_
  refine Host.proceeds_bind (wait_event_proceeds _ _ i) fun _ _ => Host.proceeds_bind Host.proceeds_locals fun l _ => ?_
  refine Host.proceeds_bind (issue_gemm_proceeds impl job _ _) fun _ _ => ?_
  refine Host.proceeds_bind (record_event_proceeds _ i _) fun _ _ => ?_
  refine Host.proceeds_bind (wait_event_proceeds _ _ i) fun _ _ => ?_
  refine Host.proceeds_bind (copy_async_proceeds _ _ _ _ _) fun _ _ => ?_
  exact Host.proceeds_bind (record_event_proceeds _ i _) fun _ _ => enqueue_next_proceeds batch i

theorem try_block_proceeds (o : Options) (batch : List InferenceJob) : Proceeds' (try_block o batch) := by
  refine Host.proceeds_bind (allocate_attempts_proceeds batch _) ?_
  rintro _ rfl
  refine Host.proceeds_bind (B := fun _ => True) (Host.proceeds_pure trivial) fun _ _ => ?_
  refine Host.proceeds_bind (enqueue_h2d_proceeds batch 0) fun _ _ => ?_
  refine Host.proceeds_bind (Host.proceeds_forEach fun i _ => issue_job_proceeds o.impl batch i) fun _ _ => ?_
  refine Host.proceeds_bind (collect_jobs_proceeds _ 0 batch) fun out hout => ?_
  refine Host.proceeds_bind (Host.proceeds_call (show recordsSuccess (.insert_metrics out) from hout)) fun _ _ => ?_
  exact (Host.proceeds_call trivial).mono fun _ _ => trivial

theorem execute_batch_proceeds (o : Options) (batch : List InferenceJob) : Proceeds' (execute_batch o batch) := by
  refine Host.proceeds_bind create_streams_proceeds fun _ _ => ?_
  refine Host.proceeds_bind (grow_events_proceeds _) fun _ _ => ?_
  refine Host.proceeds_bind (Host.proceeds_assign _) fun _ _ => ?_
  refine Host.proceeds_bind (Host.proceeds_tryCatch _ (try_block_proceeds o batch)) fun _ _ => ?_
  exact Host.proceeds_bind (release_jobs_proceeds _ _) fun _ _ => Host.proceeds_assign _

/-- With a GPU and calls that succeed, a turn returns, and records no failure. -/
theorem worker_body_proceeds (o : Options) (batch : List InferenceJob) : Proceeds' (worker_body o false batch) := by
  refine Host.proceeds_bind (Host.proceeds_call trivial) fun _ _ => ?_
  refine Host.proceeds_bind (Host.proceeds_tryCatch _ (execute_batch_proceeds o batch)) fun _ _ => ?_
  exact (Host.proceeds_call trivial).mono fun _ _ => trivial

/-! ### The scheduler -/

/-- Not larger than the largest job, if the device's memory is known. -/
def Admissible (o : Options) (total : UInt64) (job : InferenceJob) : Prop :=
  max_job_bytes o total = 0 ∨ job.bytes_required ≤ max_job_bytes o total

instance (job : InferenceJob) : Decidable (Admissible o total job) := inferInstanceAs (Decidable (_ ∨ _))

/-- There is a GPU with `total` bytes of memory, all calls succeed, and no job is too large. -/
def Healthy (o : Options) (total : UInt64) (_ : State) : Action → Prop
  | .submit job => Admissible o total job
  | .probe gpu_absent bytes => gpu_absent = false ∧ bytes = total
  | .answer _ c r => succeeded c r = true
  | _ => True

instance (s : State) : ∀ a, Decidable (Healthy o total s a)
  | .submit job => inferInstanceAs (Decidable (Admissible o total job))
  | .probe gpu_absent bytes => inferInstanceAs (Decidable (gpu_absent = false ∧ bytes = total))
  | .answer _ c r => inferInstanceAs (Decidable (succeeded c r = true))
  | .tick _ | .client _ | .start | .spawn | .stop | .notify_all _ | .join | .dispatcher | .sample _ | .notify_worker _
  | .worker _ | .spurious_dispatcher | .spurious_worker _ => .isTrue trivial

theorem Healthy.submits (h : Healthy o total s a) : Submits (Admissible o total) s a := by
  cases a with
  | submit => exact h
  | _ => trivial

/-- The rest of a turn that returns and records no failure if the calls succeed. -/
def Proceeding (turn : Turn) : Prop :=
  ∃ calls, turn.prog.wp successWorld (Host.ends (fun _ _ _ => True) fun _ _ _ => False) calls

theorem proceeding_start (o : Options) (batch : List InferenceJob) (l : Locals) :
    Proceeding { batch, prog := worker_body o false batch l } :=
  ⟨[], Host.wp_mono (worker_body_proceeds o batch l []) (fun _ _ _ _ => trivial) fun _ _ _ h => h⟩

theorem Proceeding.after {turn : Turn} (h : Proceeding turn) {c : Call}
    {k : c.Ret → Prog Call Call.Ret (Except Exn Unit × Locals)} (hp : turn.prog = .call c k) {r : c.Ret}
    (hr : succeeded c r = true) : recordsSuccess c ∧ Proceeding (turn.after c r (k r)) := by
  obtain ⟨calls, hwp⟩ := h
  rw [hp] at hwp
  exact ⟨hwp.1, _, hwp.2 r _ ⟨hr, rfl⟩⟩

/-- What is so as long as nothing fails. -/
structure Flawless (total : UInt64) (s : State) : Prop where
  gpu : s.gpu_absent_ = false
  total : s.dispatcher ≠ .absent → s.total_mem_bytes_ = total
  rejecting : ∀ large candidates, s.dispatcher ≠ .rejecting large candidates
  turns : AllTurns Proceeding s.workers
  entries : ∀ m ∈ s.metrics_, m.ok = true
  rejected_jobs_ : s.rejected_jobs_ = 0
  terminated : s.terminated = false

theorem Step.flawless (h : Step o s a t) (ha : Healthy o total s a)
    (hjobs : ∀ job ∈ s.dispatcher.undecided, Admissible o total job) (hs : Flawless total s) : Flawless total t := by
  have hnone : ∀ candidates, s.dispatcher = .drained candidates →
      oversized (max_job_bytes o s.total_mem_bytes_) candidates = [] := by
    intro candidates hd
    rw [hs.total (by simp [hd]), oversized]
    split_ifs with hpos
    · refine List.filter_eq_nil_iff.mpr fun job hjob hlarge => ?_
      rcases hjobs job (by rw [hd]; exact hjob) with hzero | hle
      · exact hpos.ne' hzero
      · exact absurd hle (Nat.not_le_of_lt (by simpa using hlarge))
    · rfl
  have htotal : t.dispatcher ≠ .absent → t.total_mem_bytes_ = total := by
    intro hd
    rcases h.probe_cases hd with ⟨g, bytes, rfl, -, htotal⟩ | ⟨hd, -, htotal⟩
    · exact htotal.trans ha.2
    · exact htotal.trans (hs.total hd)
  have hgpu : t.gpu_absent_ = false := by
    rcases h.control_cases with hcs | hsame
    · cases hcs with
      | probe => exact ha.1
      | _ => exact hs.gpu
    · exact hsame.gpu_absent_.trans hs.gpu
  have hturns : AllTurns Proceeding t.workers := by
    refine h.allTurns hs.turns (fun batch l => by rw [hs.gpu]; exact proceeding_start o batch l) ?_
    rintro i c r w turn k rfl hw hpc hp
    exact ((hs.turns w hw turn hpc).after hp ha).2
  -- the step records no failure, and no exception leaves a worker
  have hkept : (∀ large candidates, t.dispatcher ≠ .rejecting large candidates) ∧ (∀ m ∈ t.metrics_, m.ok = true) ∧
      t.rejected_jobs_ = 0 ∧ t.terminated = false := by
    cases h with
    | client _ h =>
      have hd := h.woken
      cases h <;> exact ⟨fun _ _ he => hs.rejecting _ _ (hd.eq_before he (by simp)), hs.entries, hs.rejected_jobs_,
        hs.terminated⟩
    | control _ h =>
      cases h with
      | probe => exact ⟨by simp, hs.entries, hs.rejected_jobs_, hs.terminated⟩
      | notify_queue =>
        exact ⟨fun _ _ he => hs.rejecting _ _ (s.wakeDispatcher_woken_queue.eq_before he (by simp)), hs.entries,
          hs.rejected_jobs_, hs.terminated⟩
      | notify_space =>
        exact ⟨fun _ _ he => hs.rejecting _ _ (s.wakeDispatcher_woken_space.eq_before he (by simp)), hs.entries,
          hs.rejected_jobs_, hs.terminated⟩
      | _ => exact ⟨hs.rejecting, hs.entries, hs.rejected_jobs_, hs.terminated⟩
    | dispatcher _ h =>
      cases h with
      | no_gpu _ hg => exact absurd (hs.gpu.symm.trans hg) (by simp)
      | filter hd _ hlarge => exact absurd (hnone _ hd) hlarge
      | reject hd => exact absurd hd (hs.rejecting _ _)
      | _ => exact ⟨by simp, hs.entries, hs.rejected_jobs_, hs.terminated⟩
    | worker _ h =>
      have hd := h.woken
      refine ⟨fun _ _ he => hs.rejecting _ _ (hd.eq_before he (by simp)), ?_⟩
      cases h with
      | @throw i w turn e l hi hw hp =>
        obtain ⟨calls, hwp⟩ := hs.turns w (List.mem_of_getElem? hi) turn hw
        rw [hp] at hwp
        exact hwp.elim
      | @call i w turn c k r hi hw hp _ =>
        have hrec := ((hs.turns w (List.mem_of_getElem? hi) turn hw).after hp ha).1
        cases c with
        | insert_metrics out =>
          refine ⟨fun m hm => ?_, hs.rejected_jobs_, hs.terminated⟩
          exact (List.mem_append.mp hm).elim (hs.entries m) (hrec m)
        | fail_batch => exact hrec.elim
        | _ => exact ⟨hs.entries, hs.rejected_jobs_, hs.terminated⟩
      | _ => exact ⟨hs.entries, hs.rejected_jobs_, hs.terminated⟩
  exact ⟨hgpu, htotal, hkept.1, hturns, hkept.2.1, hkept.2.2.1, hkept.2.2.2⟩

/-- **Failures have causes**: while there is a GPU, the calls succeed and no job is too large, every
entry says that its job has been executed, no job is rejected, and no exception leaves a thread. -/
theorem healthy_entries (h : Reachable (scheduler o) (Healthy o total) s) :
    (∀ m ∈ s.metrics_, m.ok = true) ∧ s.rejected_jobs_ = 0 ∧ s.terminated = false := by
  suffices Flawless total s from ⟨this.entries, this.rejected_jobs_, this.terminated⟩
  refine h.invariant (I := Flawless total) ?_ fun hr hs hstep ha => Step.flawless hstep ha ?_ hs
  · rintro _ ⟨t, rfl⟩
    exact ⟨rfl, by simp, by simp, by simp [AllTurns], by simp, rfl, rfl⟩
  · have hcarried := carried (P := Admissible o total) (B := fun _ => True) (fun _ _ _ h => h) trivial
      (fun _ _ _ _ _ _ => trivial) (hr.mono fun _ _ => Healthy.submits)
    exact hcarried.undecided

/-- Two jobs have been executed, one after the other in one batch. -/
theorem healthy_entries_retained :
    ∃ s : State, s.metrics_.length = 2 ∧ (∀ m ∈ s.metrics_, m.ok = true) ∧ s.rejected_jobs_ = 0 := by
  obtain ⟨s, hr, hp⟩ := exists_of_follow retaining (Healthy retaining 1073741824) 1 (retainedTrace (failAwait 0))
    (fun s => s.metrics_.length = 2) (by decide +kernel)
  obtain ⟨hentries, hrejected, -⟩ := healthy_entries hr
  exact ⟨s, by simpa using hp, hentries, hrejected⟩

end Gbis.Sched
