import Gbis.Sched.Scheduler
import Gbis.Sched.Footprint

/-!
# What a turn records and releases

A worker's turn with a batch, seen by what it does to the shared books: the metrics
entries it records, what it adds to `completed_`, what it releases. The books open
empty (`Account`), and `accountWorld batch` says in what state of them each call may
be made: entries are recorded once, for the jobs of the batch and no others; they are
counted right after; the release is of the batch's bytes, and the only one.

`worker_body_account` is the result: whatever the library answers, the turn makes its
calls as that world requires, and ends with one entry a job and the bytes released —
or, if it could not create a stream or an event, it throws with nothing recorded, the
bytes released all the same.

Most functions are none of this world's business: what is `Quiet` leaves the books as they
are (`quiet_wp`).
-/

namespace Gbis.Sched

open Gbis.Core Library

/-! ### The books -/

/-- The state of the books in which a call may be made. -/
def accountPre (batch : List InferenceJob) : Call → Account → Prop
  | .insert_metrics out, acc =>
    acc.recorded = [] ∧ acc.counted = 0 ∧ out.map JobMetrics.seq = batch.map InferenceJob.seq
  | .fail_batch failed, acc => acc.recorded = [] ∧ acc.counted = 0 ∧ failed = batch
  | .add_completed n, acc => acc.counted + n = acc.recorded.length
  | .release_bytes bytes, acc => acc.counted = acc.recorded.length ∧ acc.released = [] ∧ bytes = batchBytes batch
  | _, acc => acc.counted = acc.recorded.length

/-- The world of the books of a turn with `batch`. -/
def accountWorld (batch : List InferenceJob) : World Call Call.Ret Account :=
  .ofFun (accountPre batch) Account.apply

/-- The entry of a job that has been executed. -/
structure Succeeded (job : InferenceJob) (m : JobMetrics) : Prop where
  job_id : m.job_id = job.id
  seq : m.seq = job.seq
  priority : m.priority = job.priority
  ok : m.ok = true

/-- The entries of a batch: one a job, in the order of the batch, all of them executed
or all of them failed. -/
def Recorded (batch : List InferenceJob) (out : List JobMetrics) : Prop :=
  List.Forall₂ Succeeded batch out ∨ out = batch.map failedMetrics

theorem map_seq_of_succeeded {batch : List InferenceJob} {out : List JobMetrics}
    (h : List.Forall₂ Succeeded batch out) : out.map JobMetrics.seq = batch.map InferenceJob.seq := by
  induction h with
  | nil => rfl
  | cons hm _ ih => rw [List.map_cons, List.map_cons, hm.seq, ih]

theorem ok_of_succeeded {batch : List InferenceJob} {out : List JobMetrics} (h : List.Forall₂ Succeeded batch out) :
    ∀ m ∈ out, m.ok = true := by
  induction h with
  | nil => simp
  | cons hm _ ih => exact List.forall_mem_cons.mpr ⟨hm.ok, ih⟩

theorem Recorded.map_seq {batch : List InferenceJob} {out : List JobMetrics} (h : Recorded batch out) :
    out.map JobMetrics.seq = batch.map InferenceJob.seq := by
  rcases h with h | rfl
  · exact map_seq_of_succeeded h
  · rw [List.map_map]
    rfl

/-- The books of a turn that has returned. -/
structure Settled (batch : List InferenceJob) (acc : Account) : Prop where
  recorded : Recorded batch acc.recorded
  counted : acc.counted = acc.recorded.length
  released : acc.released = [batchBytes batch]
  created : acc.creation_failed = false

/-- The books of a turn that has thrown. -/
def aborted (batch : List InferenceJob) : Account := { released := [batchBytes batch], creation_failed := true }

variable {batch : List InferenceJob} {l : Locals} {acc : Account}

/-- What neither creates nor settles leaves the books as they are, whether it returns or throws. -/
theorem unsettled_wp {α : Type} {p : WorkerM α} {γ : Type} {g : Locals → γ}
    (hp : p.Within (fun c => creates c = false ∧ settles c = false) g) (h : acc.counted = acc.recorded.length) :
    p.wp (accountWorld batch) (fun _ _ acc' => acc' = acc) (fun _ _ acc' => acc' = acc) l acc := by
  refine Host.wp_mono (Host.wp_of_within (I := fun acc' => acc' = acc) (fun c acc' hc hacc => ?_) hp rfl)
    (fun _ _ _ h => h.2) fun _ _ _ h => h.2
  subst hacc
  obtain ⟨hc, hs⟩ := hc
  cases c <;> first | exact ⟨h, fun _ _ hr => hr⟩ | contradiction

theorem quiet_wp {α : Type} {p : WorkerM α} (hp : Quiet p) (h : acc.counted = acc.recorded.length) :
    p.wp (accountWorld batch) (fun _ _ acc' => acc' = acc) (fun _ _ acc' => acc' = acc) l acc :=
  unsettled_wp (hp.mono (fun _ h => ⟨h.1, h.2.1⟩) fun _ _ h => h) h

theorem gathering_wp {α : Type} {p : WorkerM α} (hp : Gathering p) (h : acc.counted = acc.recorded.length) :
    p.wp (accountWorld batch) (fun _ _ acc' => acc' = acc) (fun _ _ acc' => acc' = acc) l acc :=
  unsettled_wp (hp.mono (fun _ h => ⟨h.1, h.2.2⟩) fun _ _ h => h) h

theorem inert_wp {α : Type} {p : WorkerM α} (hp : Inert p) (h : acc.counted = acc.recorded.length) :
    p.wp (accountWorld batch) (fun _ _ acc' => acc' = acc) (fun _ _ acc' => acc' = acc) l acc :=
  quiet_wp hp.quiet h

theorem call_wp {c : Call} (hc : creates c = false ∧ settles c = false) (h : acc.counted = acc.recorded.length) :
    (call c : WorkerM c.Ret).wp (accountWorld batch) (fun _ _ acc' => acc' = acc) (fun _ _ acc' => acc' = acc) l acc :=
  unsettled_wp (g := id) (Host.within_call hc) h

/-! ### Streams and events -/

/-- The creations of a turn leave the books empty, or say that one has failed and throw. -/
theorem create_streams_wp :
    create_streams.wp (accountWorld batch) (fun _ _ acc => acc = {}) (fun _ _ acc => acc = { creation_failed := true })
      l {} := by
  unfold create_streams
  rw [Host.wp_bind, Host.wp_locals]
  cases l.ctx.h2d_stream with
  | some _ => rfl
  | none =>
    simp [accountWorld, World.ofFun, accountPre, Account.apply, Account.create, forall_except]

theorem create_events_wp (made : List ℕ) (n : ℕ) :
    (create_events made n).wp (accountWorld batch) (fun _ _ acc => acc = {})
      (fun _ _ acc => acc = { creation_failed := true }) l {} := by
  induction n generalizing made with
  | zero => rfl
  | succ n ih =>
    rw [create_events, Host.wp_bind, Host.wp_call]
    refine ⟨rfl, fun r acc' hr => ?_⟩
    subst hr
    cases r with
    | ok e => exact ih _
    | error err =>
      refine (Host.wp_bind _ _).mpr
        (Host.wp_mono (inert_wp (Host.within_forEach fun e _ => Host.within_call (by simp)) rfl) ?_ ?_)
      · rintro _ _ _ rfl; rfl
      · rintro _ _ _ rfl; rfl

theorem resize_wp (pool : List ℕ) (n : ℕ) :
    (resize pool n).wp (accountWorld batch) (fun _ _ acc => acc = {})
      (fun _ _ acc => acc = { creation_failed := true }) l {} :=
  (Host.wp_bind _ _).mpr (create_events_wp [] _)

theorem grow_events_wp (n : ℕ) :
    (grow_events n).wp (accountWorld batch) (fun _ _ acc => acc = {})
      (fun _ _ acc => acc = { creation_failed := true }) l {} := by
  unfold grow_events
  rw [Host.wp_bind, Host.wp_locals]
  split_ifs
  · refine Host.wp_seq (resize_wp _ n) ?_ fun _ _ _ h => h
    rintro h l _ rfl
    rw [Host.wp_bind, Host.wp_assign]
    refine Host.wp_seq (resize_wp _ n) ?_ fun _ _ _ h => h
    rintro k l _ rfl
    rw [Host.wp_bind, Host.wp_assign]
    refine Host.wp_seq (resize_wp _ n) ?_ fun _ _ _ h => h
    rintro d l _ rfl
    rfl
  · rfl

/-! ### The batch -/

/-- The entry made for a job says that it has been executed. -/
theorem collect_job_yields (retain_results : Bool) (i : ℕ) (job : InferenceJob) :
    (collect_job retain_results i job).Yields (Succeeded job) := by
  unfold collect_job
  refine Host.yields_of_then fun ev => ?_
  refine Host.yields_of_then fun r => ?_
  refine Host.yields_of_then fun _ => ?_
  refine Host.yields_of_then fun finish => ?_
  refine Host.yields_of_then fun l => ?_
  refine Host.yields_of_then fun _ => ?_
  exact Host.yields_pure ⟨rfl, rfl, rfl, rfl⟩

theorem collect_jobs_yields (retain_results : Bool) (i : ℕ) (jobs : List InferenceJob) :
    (collect_jobs retain_results i jobs).Yields (List.Forall₂ Succeeded jobs) := by
  induction jobs generalizing i with
  | nil => exact Host.yields_pure .nil
  | cons job jobs ih =>
    refine Host.yields_bind (collect_job_yields retain_results i job) fun m hm => ?_
    refine Host.yields_bind (ih (i + 1)) fun out hout => ?_
    exact Host.yields_pure (.cons hm hout)

/-- The `try` block records and counts the batch, or throws with the books empty. -/
theorem try_block_wp (opts : Options) :
    (try_block opts batch).wp (accountWorld batch)
      (fun _ _ acc => ∃ out, List.Forall₂ Succeeded batch out ∧ acc = { recorded := out, counted := out.length })
      (fun _ _ acc => acc = {}) l {} := by
  refine try_block_rule (A := fun _ _ acc => acc = {}) (I := fun _ acc => acc = {})
    (O := fun out _ acc => List.Forall₂ Succeeded batch out ∧ acc = {}) (quiet_wp (allocate_attempts_quiet batch _) rfl)
    ?_ ?_ ?_ ?_
  · intro err l acc h
    subst h
    exact inert_wp (throw_unless_allocated_inert err) rfl
  · intro p hp l acc h
    subst h
    exact inert_wp hp.inert rfl
  · intro l acc h
    subst h
    exact (collect_jobs_yields _ 0 batch).wp
      (gathering_wp (collect_jobs_storing opts.retain_results 0 batch).gathering rfl)
  · intro out l acc h
    obtain ⟨hout, rfl⟩ := h
    rw [Host.wp_bind, Host.wp_call]
    refine ⟨⟨rfl, rfl, map_seq_of_succeeded hout⟩, ?_⟩
    rintro _ _ rfl
    rw [Host.wp_call]
    refine ⟨Nat.zero_add _, ?_⟩
    rintro _ _ rfl
    exact ⟨out, hout, by simp [Account.apply]⟩

theorem catch_block_wp (e : Exn) :
    (catch_block batch e).wp (accountWorld batch)
      (fun _ _ acc => acc = { recorded := batch.map failedMetrics, counted := batch.length }) (fun _ _ _ => False)
      l {} := by
  simp [catch_block, accountWorld, World.ofFun, accountPre, Account.apply]

/-- `execute_batch` records and counts the batch, unless a creation fails: then it
throws, and has recorded nothing. -/
theorem execute_batch_wp (opts : Options) :
    (execute_batch opts batch).wp (accountWorld batch)
      (fun _ _ acc => ∃ out, Recorded batch out ∧ acc = { recorded := out, counted := out.length })
      (fun _ _ acc => acc = { creation_failed := true }) l {} := by
  refine execute_batch_rule (P := fun _ acc => acc = {}) (R := fun _ acc => acc = {}) (Y := fun _ acc => acc = {})
    (M := fun _ acc => ∃ out, Recorded batch out ∧ acc = { recorded := out, counted := out.length })
    create_streams_wp ?_ ?_ ?_ ?_
  · intro l acc h
    subst h
    exact grow_events_wp _
  · intro l acc h
    subst h
    refine Host.wp_mono (try_block_wp opts) ?_ fun _ _ _ h => h
    rintro _ l _ ⟨out, hout, rfl⟩
    exact ⟨out, .inl hout, rfl⟩
  · intro e l acc h
    subst h
    refine Host.wp_mono (catch_block_wp e) ?_ fun _ _ _ _ => trivial
    rintro _ l _ rfl
    exact ⟨_, .inr rfl, by simp⟩
  · intro l acc h
    obtain ⟨out, hout, rfl⟩ := h
    refine Host.wp_mono (quiet_wp (release_jobs_quiet _ _) rfl) ?_ fun _ _ _ _ => trivial
    rintro _ l _ rfl
    exact ⟨out, hout, rfl⟩

/-- **A turn keeps its books**: whatever the library answers, it makes each call as the
world of the books requires, and it ends settled, or throws because a creation failed. -/
theorem worker_body_account (opts : Options) (gpu_absent : Bool) :
    (worker_body opts gpu_absent batch).wp (accountWorld batch) (fun _ _ => Settled batch)
      (fun _ _ acc => acc = aborted batch) l {} := by
  refine worker_body_rule (P := fun _ acc => acc = {}) (Y := fun _ acc => acc = { creation_failed := true })
    (M := fun _ acc => ∃ out, Recorded batch out ∧ acc = { recorded := out, counted := out.length })
    (Host.wp_mono (call_wp (by simp) rfl) (fun _ _ _ h => h) fun _ _ _ _ => trivial) ?_ ?_ ?_ ?_
  · intro _ l acc h
    subst h
    rw [Host.wp_call]
    refine ⟨⟨rfl, rfl, rfl⟩, ?_⟩
    rintro _ _ rfl
    exact ⟨_, .inr rfl, by simp [Account.apply]⟩
  · intro l acc h
    subst h
    exact execute_batch_wp opts
  · intro l acc h
    obtain ⟨out, hout, rfl⟩ := h
    rw [Host.wp_call]
    refine ⟨⟨rfl, rfl, rfl⟩, ?_⟩
    rintro _ _ rfl
    exact ⟨hout, rfl, rfl, rfl⟩
  · intro l acc h
    subst h
    rw [Host.wp_call]
    refine ⟨⟨rfl, rfl, rfl⟩, ?_⟩
    rintro _ _ rfl
    rfl

end Gbis.Sched
