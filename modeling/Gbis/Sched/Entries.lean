import Gbis.Sched.Counters

/-!
# Failed jobs, and jobs in flight

Two things about the counters that hold in every state. A failed job is counted in
`completed_` in the same critical section that records it, while an executed one is counted
after it is recorded; so `completed_` is never behind the failed entries
(`failed_le_completed`). And a job that has been submitted and is not counted as completed
is in the queue, in the dispatcher's round, in `batch_queue_`, or in the batch of a worker
(`next_seq_le`).

Both come from what a turn records: nothing yet, or the whole batch, and by
`insert_metrics` only jobs that were executed (`entriesWorld`).
-/

namespace Gbis.Sched

open Gbis.Core Library

variable {o : Options} {s t : State} {a : Action} {batch : List InferenceJob} {l : Locals} {entries : List JobMetrics}

/-! ### What a turn records -/

/-- Nothing has been recorded, or the whole batch. -/
def AllOrNone (batch : List InferenceJob) (entries : List JobMetrics) : Prop :=
  entries = [] ∨ entries.length = batch.length

/-- The entries recorded so far with which a call may be made. -/
def entriesPre (batch : List InferenceJob) : Call → List JobMetrics → Prop
  | .insert_metrics out, entries => entries = [] ∧ (∀ e ∈ out, e.ok = true) ∧ out.length = batch.length
  | .fail_batch failed, entries => entries = [] ∧ failed = batch
  | _, entries => AllOrNone batch entries

/-- What a call records. -/
def entriesApply (entries : List JobMetrics) : (c : Call) → c.Ret → List JobMetrics
  | .insert_metrics out, _ => entries ++ out
  | .fail_batch failed, _ => entries ++ failed.map failedMetrics
  | _, _ => entries

/-- The world of the entries of a turn with `batch`. -/
def entriesWorld (batch : List InferenceJob) : World Call Call.Ret (List JobMetrics) :=
  .ofFun (entriesPre batch) entriesApply

/-- What does not settle records nothing. -/
theorem unsettled_entries_wp {α : Type} {p : WorkerM α} {γ : Type} {g : Locals → γ}
    (hp : p.Within (fun c => settles c = false) g) (h : AllOrNone batch entries) :
    p.wp (entriesWorld batch) (fun _ _ entries' => entries' = entries) (fun _ _ entries' => entries' = entries) l
      entries := by
  refine Host.wp_mono (Host.wp_of_within (I := fun entries' => entries' = entries) (fun c entries' hc he => ?_) hp rfl)
    (fun _ _ _ h => h.2) fun _ _ _ h => h.2
  subst he
  cases c <;> first | exact ⟨h, fun _ _ hr => hr⟩ | cases hc

theorem quiet_entries_wp {α : Type} {p : WorkerM α} (hp : Quiet p) (h : AllOrNone batch entries) :
    p.wp (entriesWorld batch) (fun _ _ entries' => entries' = entries) (fun _ _ entries' => entries' = entries) l
      entries :=
  unsettled_entries_wp (hp.mono (fun _ h => h.2.1) fun _ _ h => h) h

theorem steady_entries_wp {α : Type} {p : WorkerM α} (hp : Steady p) (h : AllOrNone batch entries) :
    p.wp (entriesWorld batch) (fun _ _ entries' => entries' = entries) (fun _ _ entries' => entries' = entries) l
      entries :=
  unsettled_entries_wp (hp.mono (fun _ h => h.2.1) fun _ _ h => h) h

theorem gathering_entries_wp {α : Type} {p : WorkerM α} (hp : Gathering p) (h : AllOrNone batch entries) :
    p.wp (entriesWorld batch) (fun _ _ entries' => entries' = entries) (fun _ _ entries' => entries' = entries) l
      entries :=
  unsettled_entries_wp (hp.mono (fun _ h => h.2.2) fun _ _ h => h) h

theorem inert_entries_wp {α : Type} {p : WorkerM α} (hp : Inert p) (h : AllOrNone batch entries) :
    p.wp (entriesWorld batch) (fun _ _ entries' => entries' = entries) (fun _ _ entries' => entries' = entries) l
      entries :=
  quiet_entries_wp hp.quiet h

theorem allOrNone_nil : AllOrNone batch [] := .inl rfl

/-- The `try` block records the whole batch, or nothing. -/
theorem try_block_entries : (try_block o batch).wp (entriesWorld batch) (fun _ _ => AllOrNone batch)
    (fun _ _ entries => entries = []) l [] := by
  refine try_block_rule (A := fun _ _ entries => entries = []) (I := fun _ entries => entries = [])
    (O := fun out _ entries => List.Forall₂ Succeeded batch out ∧ entries = [])
    (quiet_entries_wp (allocate_attempts_quiet batch _) allOrNone_nil) ?_ ?_ ?_ ?_
  · intro err l entries h
    subst h
    exact inert_entries_wp (throw_unless_allocated_inert err) allOrNone_nil
  · intro p hp l entries h
    subst h
    exact inert_entries_wp hp.inert allOrNone_nil
  · intro l entries h
    subst h
    exact (collect_jobs_yields _ 0 batch).wp
      (gathering_entries_wp (collect_jobs_storing o.retain_results 0 batch).gathering allOrNone_nil)
  · intro out l entries h
    obtain ⟨hout, rfl⟩ := h
    have hlen : out.length = batch.length := hout.length_eq.symm
    rw [Host.wp_bind, Host.wp_call]
    refine ⟨⟨rfl, ok_of_succeeded hout, hlen⟩, ?_⟩
    rintro _ _ rfl
    rw [Host.wp_call]
    refine ⟨.inr hlen, ?_⟩
    rintro _ _ rfl
    exact .inr hlen

theorem execute_batch_entries : (execute_batch o batch).wp (entriesWorld batch) (fun _ _ => AllOrNone batch)
    (fun _ _ entries => entries = []) l [] := by
  refine execute_batch_rule (P := fun _ entries => entries = []) (R := fun _ entries => entries = [])
    (Y := fun _ entries => entries = []) (M := fun _ => AllOrNone batch)
    (steady_entries_wp create_streams_preparing.steady allOrNone_nil) ?_ ?_ ?_ ?_
  · intro l entries h
    subst h
    exact steady_entries_wp (grow_events_preparing _).steady allOrNone_nil
  · intro l entries h
    subst h
    exact try_block_entries
  · intro e l entries h
    subst h
    unfold catch_block
    rw [Host.wp_bind, Host.wp_call]
    refine ⟨allOrNone_nil, ?_⟩
    rintro _ _ rfl
    rw [Host.wp_call]
    refine ⟨⟨rfl, rfl⟩, ?_⟩
    rintro _ _ rfl
    exact .inr (List.length_map _)
  · intro l entries hall
    refine Host.wp_mono (quiet_entries_wp (release_jobs_quiet _ _) hall) ?_ fun _ _ _ _ => trivial
    rintro _ l _ rfl
    exact hall

/-- **A turn records the whole batch or nothing**, whatever the library answers. -/
theorem worker_body_entries (gpu_absent : Bool) :
    (worker_body o gpu_absent batch).wp (entriesWorld batch) (fun _ _ => AllOrNone batch) (fun _ _ => AllOrNone batch)
      l [] := by
  have release : ∀ l entries, AllOrNone batch entries → (call (.release_bytes (batchBytes batch)) : WorkerM Unit).wp
      (entriesWorld batch) (fun _ _ => AllOrNone batch) (fun _ _ _ => True) l entries := by
    intro l entries hall
    rw [Host.wp_call]
    refine ⟨hall, ?_⟩
    rintro _ _ rfl
    exact hall
  refine worker_body_rule (P := fun _ entries => entries = []) (M := fun _ => AllOrNone batch)
    (Y := fun _ entries => entries = []) ?_ ?_ ?_ release ?_
  · rw [Host.wp_call]
    refine ⟨allOrNone_nil, ?_⟩
    intro _ _ h
    exact h
  · intro _ l entries h
    subst h
    rw [Host.wp_call]
    refine ⟨⟨rfl, rfl⟩, ?_⟩
    rintro _ _ rfl
    exact .inr (List.length_map _)
  · intro l entries h
    subst h
    exact execute_batch_entries
  · intro l entries h
    subst h
    exact release l [] allOrNone_nil

/-- What every turn records. -/
theorem turn_entries (h : Reachable (scheduler o) Always s) :
    ∀ w ∈ s.workers, ∀ turn, w.pc = .running turn →
      turn.prog.wp (entriesWorld turn.batch) (Host.ends (fun _ _ => AllOrNone turn.batch)
        (fun _ _ => AllOrNone turn.batch)) turn.account.recorded := by
  refine turn_kept entriesWorld (fun turn => turn.account.recorded)
    (fun batch => Host.ends (fun _ _ => AllOrNone batch) (fun _ _ => AllOrNone batch))
    (fun _ _ _ => worker_body_entries _) (fun _ _ _ turn c k r _ _ _ => ?_) h
  by_cases hc : records c = true
  · cases c with
    | insert_metrics | fail_batch => rfl
    | _ => cases hc
  · change (turn.account.apply c r).recorded = _
    rw [Account.apply_recorded _ (by simpa using hc)]
    cases c with
    | insert_metrics | fail_batch => exact absurd rfl hc
    | _ => rfl

/-- At any moment a turn has recorded the whole batch, or nothing. -/
theorem allOrNone (h : Reachable (scheduler o) Always s) {w : Worker} (hw : w ∈ s.workers) {turn : Turn}
    (hpc : w.pc = .running turn) : AllOrNone turn.batch turn.account.recorded := by
  refine Prog.now_of_wp (I := AllOrNone turn.batch) ?_ ?_ (turn_entries h w hw turn hpc)
  · intro c entries hpre
    cases c with
    | insert_metrics | fail_batch => exact .inl hpre.1
    | _ => exact hpre
  · rintro ⟨e | _, l⟩ entries hend <;> exact hend

/-! ### The failed entries -/

/-- How many entries are those of failed jobs. -/
def failedEntries (entries : List JobMetrics) : ℕ := entries.countP fun m => !m.ok

/-- The jobs a step fails. -/
def failedBy (s : State) : Action → List InferenceJob
  | .dispatcher =>
    match s.dispatcher with
    | .drained candidates => if s.gpu_absent_ then candidates else []
    | .rejecting large _ => large
    | _ => []
  | .answer _ (.fail_batch batch) _ => batch
  | _ => []

theorem failedEntries_append_failed (entries : List JobMetrics) (jobs : List InferenceJob) :
    failedEntries (entries ++ jobs.map failedMetrics) = failedEntries entries + jobs.length := by
  rw [failedEntries, failedEntries, List.countP_append, List.countP_map]
  simp [Function.comp_def, failedMetrics]

theorem failedEntries_append_ok {entries out : List JobMetrics} (h : ∀ e ∈ out, e.ok = true) :
    failedEntries (entries ++ out) = failedEntries entries := by
  have hout : out.countP (fun m => !m.ok) = 0 := List.countP_eq_zero.mpr (by simpa using h)
  rw [failedEntries, failedEntries, List.countP_append, hout, add_zero]

theorem DispatcherStep.failed (h : DispatcherStep o s a t) :
    failedEntries t.metrics_ = failedEntries s.metrics_ + (failedBy s a).length := by
  cases h with
  | @no_gpu candidates hd hg =>
    have hby : failedBy s .dispatcher = candidates := by rw [failedBy, hd]; exact if_pos hg
    rw [hby]
    exact failedEntries_append_failed _ _
  | @reject large candidates hd =>
    have hby : failedBy s .dispatcher = large := by rw [failedBy, hd]
    rw [hby]
    exact failedEntries_append_failed _ _
  | keep hd hg | filter hd hg =>
    have hby : failedBy s .dispatcher = [] := by rw [failedBy, hd]; exact if_neg (by simp [hg])
    rw [hby]
    rfl
  | space_exit hd | space_pass hd | space_false hd | space_block hd | queue_exit hd | drain hd | queue_false hd
  | queue_block hd | fixed hd | budget hd | pack hd | requeue hd | nothing hd | reserve hd | push hd =>
    have hby : failedBy s .dispatcher = [] := by rw [failedBy, hd]
    rw [hby]
    rfl
  | no_free | free | notify | notify_none | spurious_space | spurious_queue => rfl

/-- **A step adds the entries of the jobs it fails**, and no other entries of failed jobs. -/
theorem Step.failed (h : Step o s a t) (hr : Reachable (scheduler o) Always s) :
    failedEntries t.metrics_ = failedEntries s.metrics_ + (failedBy s a).length := by
  cases h with
  | client _ h => cases h <;> rfl
  | control _ h => cases h <;> rfl
  | dispatcher _ h => exact h.failed
  | worker _ h =>
    cases h with
    | @call i w turn c k r hi hw hp =>
      have hwp := turn_entries hr w (List.mem_of_getElem? hi) turn hw
      rw [hp] at hwp
      have hpre : entriesPre turn.batch c turn.account.recorded := hwp.1
      cases c with
      | insert_metrics out => exact failedEntries_append_ok hpre.2.1
      | fail_batch batch => exact failedEntries_append_failed _ _
      | _ => rfl
    | _ => rfl

/-- The jobs a step fails it completes. -/
theorem failedBy_length_le (s : State) (a : Action) : (failedBy s a).length ≤ (completedBy s a).card := by
  unfold failedBy
  split
  · split
    · rename_i candidates hd
      split_ifs with hg
      · simp [completedBy, hd, hg, seqs]
      · exact Nat.zero_le _
    · rename_i large _ hd
      simp [completedBy, hd, seqs]
    · exact Nat.zero_le _
  · simp [completedBy, seqs]
  · exact Nat.zero_le _

/-- **`completed_` is never behind the failed entries.** -/
theorem failed_le_completed (h : Reachable (scheduler o) Always s) : failedEntries s.metrics_ ≤ s.completed_ := by
  refine h.invariant (I := fun s => failedEntries s.metrics_ ≤ s.completed_) ?_ ?_
  · rintro _ ⟨t, rfl⟩
    exact le_rfl
  · intro s a t hr hs hstep _
    rw [Step.failed hstep hr, (Step.completes hstep hr).counted]
    exact Nat.add_le_add hs (failedBy_length_le s a)

/-! ### The jobs in flight -/

/-- The jobs in `batch_queue_`, and those held by workers. -/
def State.inFlight (s : State) : ℕ :=
  s.batch_queue_.flatten.length + (s.workers.map fun w => w.pc.batch.length).sum

/-- A worker holds the jobs it has yet to record or to count. -/
theorem unrecorded_add_uncounted_le (h : Reachable (scheduler o) Always s) {w : Worker} (hw : w ∈ s.workers) :
    (seqs w.pc.unrecorded).card + w.pc.uncounted ≤ w.pc.batch.length := by
  cases hpc : w.pc with
  | running turn =>
    rw [WorkerPc.unrecorded, WorkerPc.uncounted, WorkerPc.batch]
    rcases allOrNone h hw hpc with hrec | hrec
    · simp [hrec, seqs]
    · by_cases hnil : turn.account.recorded = []
      · simp [hnil, seqs]
      · rw [if_neg hnil, seqs_nil, Multiset.card_zero]
        omega
  | _ => exact le_rfl

theorem card_workers_add_uncounted_le (h : Reachable (scheduler o) Always s) :
    (s.hold .workers).card + (s.workers.map fun w => w.pc.uncounted).sum ≤
      (s.workers.map fun w => w.pc.batch.length).sum := by
  have hle : ∀ w ∈ s.workers, (seqs w.pc.unrecorded).card + w.pc.uncounted ≤ w.pc.batch.length :=
    fun _ hw => unrecorded_add_uncounted_le h hw
  rw [State.hold]
  generalize s.workers = workers at hle
  induction workers with
  | nil => exact le_rfl
  | cons w workers ih =>
    have hw := hle w List.mem_cons_self
    have ih := ih fun w hw => hle w (List.mem_cons_of_mem _ hw)
    simp only [List.map_cons, List.sum_cons, Multiset.card_add] at ih ⊢
    omega

/-- **Where the jobs are** that have been given a number: completed, going by `completed_`,
or in the queue, in the dispatcher's round, or in flight. -/
theorem next_seq_le (h : Reachable (scheduler o) Always s) :
    s.next_seq_ ≤ s.completed_ + s.queue_.length + s.dispatcher.undecided.length + s.dispatcher.chosen.length +
      s.inFlight := by
  have hsum := congrArg Multiset.card (ledger_simulation.reachable h).sum_hold
  have hcounted : Counted s := counted h
  have hworkers := card_workers_add_uncounted_le h
  have hplaces : (∑ p, s.hold p).card = (s.hold .queue).card + ((s.hold .round).card + ((s.hold .chosen).card +
      ((s.hold .batches).card + ((s.hold .workers).card + (s.hold .metrics).card)))) := by
    rw [Multiset.card_sum]
    rfl
  have hsum : (∑ p, s.hold p).card = s.next_seq_ := hsum.trans (Multiset.card_range _)
  rw [hplaces] at hsum
  simp only [State.hold, seqs, Multiset.coe_card, List.length_map] at hsum hworkers
  unfold Counted at hcounted
  unfold State.inFlight
  omega

end Gbis.Sched
