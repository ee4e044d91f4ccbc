import Gbis.Sched.Success

/-!
# What the latencies add up to

The three latencies of an entry are differences of three times: the submission, noted by the
client; the pickup, noted by the worker as it issues the job's first copy; and the end, noted
when its result has arrived. As long as the clock is read as it is (`Honest`), the three come in
this order, so an entry's waiting time and execution time are not negative and add up to its
end-to-end latency (`latencies_add_up`), in every interleaving, however the clock moves on
between two calls and whatever fails. The entry of a failed job has no latencies at all.

The pickup of a job is a local variable of the turn, assigned while the pipeline issues the jobs
before it and read when the results are collected. `PickedUp` is the invariant that carries it
from the one loop to the other. The world of a turn (`clockWorld`) is a clock that may have moved
on at every call.
-/

namespace Gbis.Sched

open Gbis.Core Library

variable {o : Options} {s t : State} {a : Action} {batch : List InferenceJob} {l : Locals} {now : ℤ}

/-- The latencies of an entry are those of a job that was submitted, then picked up and then
finished; a failed job has none. -/
structure Timely (m : JobMetrics) : Prop where
  queue_wait : 0 ≤ m.queue_wait
  exec : 0 ≤ m.exec
  e2e : m.queue_wait + m.exec = m.e2e
  failed : m.ok = false → m.e2e = 0

theorem timely_failedMetrics (job : InferenceJob) : Timely (failedMetrics job) :=
  ⟨le_refl _, le_refl _, rfl, fun _ => rfl⟩

/-! ### A turn and the clock -/

/-- A call that publishes entries publishes timely ones. -/
def publishesTimely : Call → Prop
  | .insert_metrics out => ∀ m ∈ out, Timely m
  | _ => True

/-- The time a call reads. -/
def reading : (c : Call) → c.Ret → Option ℤ
  | .now, t => some t
  | _, _ => none

/-- The world of the clock: time may have passed when a call is answered. -/
def clockWorld : World Call Call.Ret ℤ where
  pre c _ := publishesTimely c
  answer now c r now' := now ≤ now' ∧ ∀ t ∈ reading c r, t = now'

/-- The jobs have been submitted. -/
def Submitted (batch : List InferenceJob) (now : ℤ) : Prop := ∀ job ∈ batch, job.submit_time ≤ now

/-- The first `i` jobs have been picked up, after they had been submitted. -/
structure PickedUp (batch : List InferenceJob) (i : ℕ) (l : Locals) (now : ℤ) : Prop where
  length : l.execs.length = batch.length
  submitted : Submitted batch now
  pickup : ∀ j < i, ∀ job, batch[j]? = some job → job.submit_time ≤ (l.exec j).pickup ∧ (l.exec j).pickup ≤ now

theorem Submitted.mono {now' : ℤ} (h : Submitted batch now) (hle : now ≤ now') : Submitted batch now' :=
  fun job hj => (h job hj).trans hle

theorem PickedUp.mono {i : ℕ} {l' : Locals} {now' : ℤ} (h : PickedUp batch i l now) (hl : l'.execs = l.execs)
    (hle : now ≤ now') : PickedUp batch i l' now' := by
  refine ⟨hl ▸ h.length, h.submitted.mono hle, fun j hj job hjob => ?_⟩
  obtain ⟨hlo, hhi⟩ := h.pickup j hj job hjob
  rw [Locals.exec, hl]
  exact ⟨hlo, hhi.trans hle⟩

/-- Noting the time picks up the next job. -/
theorem PickedUp.next {i : ℕ} (h : PickedUp batch i l now) :
    PickedUp batch (i + 1) (Locals.setExec i (fun e => { e with pickup := now }) l) now := by
  refine ⟨by simpa [Locals.setExec] using h.length, h.submitted, fun j hj job hjob => ?_⟩
  have hlt : j < l.execs.length := h.length ▸ (List.getElem?_eq_some_iff.mp hjob).1
  rcases Nat.lt_or_eq_of_le (Nat.le_of_lt_succ hj) with hj | rfl
  · have hsame : (Locals.setExec i (fun e => { e with pickup := now }) l).exec j = l.exec j := by
      simp [Locals.exec, Locals.setExec, hj.ne']
    rw [hsame]
    exact h.pickup j hj job hjob
  · have hnew : ((Locals.setExec j (fun e => { e with pickup := now }) l).exec j).pickup = now := by
      simp [Locals.exec, Locals.setExec, List.getElem?_eq_getElem hlt]
    rw [hnew]
    exact ⟨h.submitted job (List.mem_of_getElem? hjob), le_refl _⟩

/-! ### The functions of a turn -/

variable {α : Type} {p : WorkerM α}

/-- The calls of `p` publish nothing, and it leaves the buffers and the pickups alone. -/
abbrev Passive (p : WorkerM α) : Prop := p.Within (fun c => settles c = false) Locals.execs

/-- Only time passes in what publishes nothing. -/
theorem time_wp {γ : Type} {g : Locals → γ} (hp : p.Within (fun c => settles c = false) g) :
    p.wp clockWorld (fun _ l' now' => g l' = g l ∧ now ≤ now') (fun _ l' now' => g l' = g l ∧ now ≤ now') l now := by
  refine Host.wp_of_within (I := fun now' => now ≤ now') (fun c now' hc hle => ?_) hp (le_refl now)
  have hpre : publishesTimely c := by cases c <;> trivial
  exact ⟨hpre, fun r now'' hr => hle.trans hr.1⟩

theorem passive_wp {i : ℕ} (hp : Passive p) (h : PickedUp batch i l now) :
    p.wp clockWorld (fun _ => PickedUp batch i) (fun _ _ _ => True) l now :=
  Host.wp_mono (time_wp hp) (fun _ _ _ h' => h.mono h'.1 h'.2) fun _ _ _ _ => trivial

theorem event_at_passive (pool : WorkerContext → List ℕ) (i : ℕ) : Passive (event_at pool i) := by
  unfold event_at
  repeat' with_reducible refine Host.within_bind ?_ fun _ => ?_
  all_goals simp

theorem copy_async_passive (kind : MemcpyKind) (dst src : Option ℕ) (bytes : ℕ) (stream : Option ℕ) :
    Passive (copy_async kind dst src bytes stream) := by
  unfold copy_async
  repeat' with_reducible refine Host.within_bind ?_ fun _ => ?_
  all_goals simp

theorem record_event_passive (pool : WorkerContext → List ℕ) (i : ℕ) (stream : WorkerContext → Option ℕ) :
    Passive (record_event pool i stream) := by
  unfold record_event
  repeat' with_reducible refine Host.within_bind ?_ fun _ => ?_
  all_goals simp [event_at_passive]

theorem wait_event_passive (stream : WorkerContext → Option ℕ) (pool : WorkerContext → List ℕ) (i : ℕ) :
    Passive (wait_event stream pool i) := by
  unfold wait_event
  repeat' with_reducible refine Host.within_bind ?_ fun _ => ?_
  all_goals simp [event_at_passive]

theorem job_at_passive (batch : List InferenceJob) (i : ℕ) : Passive (job_at batch i) := by
  unfold job_at
  repeat' with_reducible refine Host.within_bind ?_ fun _ => ?_
  all_goals simp

theorem cublas_handle_passive : Passive cublas_handle := by
  refine Host.within_bind Host.within_locals fun l => ?_
  cases l.cublas_handle with
  | some h => exact Host.within_pure _
  | none =>
    refine Host.within_bind (Host.within_call rfl) fun r => Host.within_bind (by simp) fun h => ?_
    exact Host.within_bind (Host.within_assign fun _ => rfl) fun _ => Host.within_pure _

theorem issue_gemm_passive (impl : Impl) (job : InferenceJob) (e : JobBuffers) (stream : Option ℕ) :
    Passive (issue_gemm impl job e stream) := by
  cases impl with
  | tiled => exact Host.within_call rfl
  | cublas =>
    refine Host.within_bind cublas_handle_passive fun h => ?_
    repeat' with_reducible refine Host.within_bind ?_ fun _ => ?_
    all_goals simp

theorem retain_passive (retain_results : Bool) (job : InferenceJob) (hc : PinnedHostBuffer) :
    Passive (retain retain_results job hc) := by
  unfold retain
  split_ifs
  repeat' with_reducible refine Host.within_bind ?_ fun _ => ?_
  all_goals simp

/-- The job that is issued next is picked up. -/
theorem enqueue_h2d_timeline {i : ℕ} (h : PickedUp batch i l now) :
    (enqueue_h2d batch i).wp clockWorld (fun _ => PickedUp batch (i + 1)) (fun _ _ _ => True) l now := by
  unfold enqueue_h2d
  refine Host.wp_seq (passive_wp (job_at_passive batch i) h) ?_ fun _ _ _ _ => trivial
  intro job l now h
  rw [Host.wp_bind, Host.wp_locals, Host.wp_bind, Host.wp_call]
  refine ⟨trivial, fun _ now' hfill => ?_⟩
  rw [Host.wp_bind, Host.wp_call]
  refine ⟨trivial, fun r now'' hr => ?_⟩
  obtain ⟨hle, hread⟩ := hr
  obtain rfl : r = now'' := hread r rfl
  rw [Host.wp_bind, Host.wp_assign]
  have hpicked := (h.mono rfl (hfill.1.trans hle)).next
  refine Host.wp_seq (passive_wp (copy_async_passive _ _ _ _ _) hpicked) ?_ fun _ _ _ _ => trivial
  intro _ l now h
  refine Host.wp_seq (passive_wp (copy_async_passive _ _ _ _ _) h) ?_ fun _ _ _ _ => trivial
  intro _ l now h
  exact passive_wp (record_event_passive _ i _) h

/-- While a job is issued the next one is picked up, if there is one. -/
theorem issue_job_timeline (impl : Impl) {i : ℕ} (h : PickedUp batch (i + 1) l now) :
    (issue_job impl batch i).wp clockWorld (fun _ => PickedUp batch (i + 2)) (fun _ _ _ => True) l now := by
  unfold issue_job
  refine Host.wp_seq (passive_wp (job_at_passive batch i) h) ?_ fun _ _ _ _ => trivial
  intro job l now h
  refine Host.wp_seq (passive_wp (wait_event_passive _ _ i) h) ?_ fun _ _ _ _ => trivial
  intro _ l now h
  rw [Host.wp_bind, Host.wp_locals]
  refine Host.wp_seq (passive_wp (issue_gemm_passive impl job _ _) h) ?_ fun _ _ _ _ => trivial
  intro _ l now h
  refine Host.wp_seq (passive_wp (record_event_passive _ i _) h) ?_ fun _ _ _ _ => trivial
  intro _ l now h
  refine Host.wp_seq (passive_wp (wait_event_passive _ _ i) h) ?_ fun _ _ _ _ => trivial
  intro _ l now h
  refine Host.wp_seq (passive_wp (copy_async_passive _ _ _ _ _) h) ?_ fun _ _ _ _ => trivial
  intro _ l now h
  refine Host.wp_seq (passive_wp (record_event_passive _ i _) h) ?_ fun _ _ _ _ => trivial
  intro _ l now h
  unfold enqueue_next
  split_ifs with hlt
  · exact enqueue_h2d_timeline h
  · refine ⟨h.length, h.submitted, fun j hj job hjob => ?_⟩
    have hj' := (List.getElem?_eq_some_iff.mp hjob).1
    exact h.pickup j (by omega) job hjob

/-- The entry of a job that has been picked up is timely. -/
theorem collect_job_timeline (retain_results : Bool) {i : ℕ} {job : InferenceJob} (hjob : batch[i]? = some job)
    (h : PickedUp batch batch.length l now) :
    (collect_job retain_results i job).wp clockWorld
      (fun m l now => Timely m ∧ PickedUp batch batch.length l now) (fun _ _ _ => True) l now := by
  unfold collect_job
  refine Host.wp_seq (passive_wp (event_at_passive _ i) h) ?_ fun _ _ _ _ => trivial
  intro ev l now h
  rw [Host.wp_bind, Host.wp_call]
  refine ⟨trivial, fun r now' hsync => ?_⟩
  refine Host.wp_seq (passive_wp (p := CUDA_CHECK r) (by simp) (h.mono rfl hsync.1)) ?_ fun _ _ _ _ => trivial
  intro _ l now h
  rw [Host.wp_bind, Host.wp_call]
  refine ⟨trivial, fun finish now' hr => ?_⟩
  obtain ⟨hle, hread⟩ := hr
  obtain rfl : finish = now' := hread finish rfl
  rw [Host.wp_bind, Host.wp_locals]
  obtain ⟨hlo, hhi⟩ := h.pickup i (List.getElem?_eq_some_iff.mp hjob).1 job hjob
  refine Host.wp_seq (passive_wp (retain_passive retain_results job _) (h.mono rfl hle)) ?_ fun _ _ _ _ => trivial
  intro _ l' now' h'
  refine ⟨⟨by simpa using hlo, by simpa using hhi.trans hle, ?_, by simp⟩, h'⟩
  simp

theorem collect_jobs_timeline (retain_results : Bool) {i : ℕ} {jobs : List InferenceJob} (hjobs : batch.drop i = jobs)
    (h : PickedUp batch batch.length l now) :
    (collect_jobs retain_results i jobs).wp clockWorld (fun out _ _ => ∀ m ∈ out, Timely m) (fun _ _ _ => True)
      l now := by
  induction jobs generalizing i l now with
  | nil => exact List.forall_mem_nil _
  | cons job jobs ih =>
    obtain ⟨hjob, hrest⟩ := getElem?_of_drop hjobs
    refine Host.wp_seq (collect_job_timeline retain_results hjob h) ?_ fun _ _ _ _ => trivial
    intro m l now hm
    refine Host.wp_seq (ih hrest hm.2) ?_ fun _ _ _ _ => trivial
    intro out l now hout
    exact List.forall_mem_cons.mpr ⟨hm.1, hout⟩

/-- The `try` block publishes timely entries. -/
theorem try_block_timeline (hl : l.execs.length = batch.length) (h : Submitted batch now) :
    (try_block o batch).wp clockWorld (fun _ _ _ => True) (fun _ _ _ => True) l now := by
  have hstart : ∀ {l' : Locals} {now' : ℤ}, l'.execs.length = l.execs.length → now ≤ now' →
      PickedUp batch 0 l' now' := fun hlen hle => ⟨hlen.trans hl, h.mono hle, by simp⟩
  unfold try_block
  refine Host.wp_seq (time_wp ((allocate_attempts_quiet batch _).mono (fun _ h => h.2.1) fun _ _ h => h)) ?_
    fun _ _ _ _ => trivial
  intro err l₁ now₁ h₁
  have hshape : l₁.execs.length = l.execs.length := (Prod.mk.inj h₁.1).2
  refine Host.wp_seq (time_wp ((throw_unless_allocated_inert err).quiet.mono (fun _ h => h.2.1) fun _ _ h => h)) ?_
    fun _ _ _ _ => trivial
  intro _ l₂ now₂ h₂
  have hshape₂ : l₂.execs.length = l₁.execs.length := (Prod.mk.inj h₂.1).2
  refine Host.wp_seq (enqueue_h2d_timeline (hstart (hshape₂.trans hshape) (h₁.2.trans h₂.2))) ?_
    fun _ _ _ _ => trivial
  intro _ l now h
  -- the pipeline: job `i` is issued when the jobs up to it have been picked up
  refine Host.wp_seq (Y := fun _ _ _ => True) (Host.wp_forRange (I := fun i => PickedUp batch (i + 1)) ?_ h) ?_
    fun _ _ _ _ => trivial
  · intro i _ l now h
    exact issue_job_timeline o.impl h
  intro _ l now h
  have hall : PickedUp batch batch.length l now :=
    ⟨h.length, h.submitted, fun j hj => h.pickup j (Nat.lt_succ_of_lt hj)⟩
  refine Host.wp_seq (collect_jobs_timeline o.retain_results List.drop_zero hall) ?_ fun _ _ _ _ => trivial
  intro out l now hout
  rw [Host.wp_bind, Host.wp_call]
  refine ⟨hout, fun _ _ _ => ?_⟩
  rw [Host.wp_call]
  exact ⟨trivial, fun _ _ _ => trivial⟩

theorem execute_batch_timeline (h : Submitted batch now) :
    (execute_batch o batch).wp clockWorld (fun _ _ _ => True) (fun _ _ _ => True) l now := by
  have later : ∀ {α : Type} {p : WorkerM α} {l : Locals} {now : ℤ}, Preparing p → Submitted batch now →
      p.wp clockWorld (fun _ _ now => Submitted batch now) (fun _ _ _ => True) l now := by
    intro α p l now hp h
    refine Host.wp_mono (time_wp (hp.steady.mono (fun _ h => h.2.1) fun _ _ h => h)) ?_ fun _ _ _ _ => trivial
    intro _ _ _ h'
    exact h.mono h'.2
  refine execute_batch_rule (P := fun _ => Submitted batch) (R := fun _ => Submitted batch) (Y := fun _ _ => True)
    (M := fun _ _ => True) (later create_streams_preparing h) ?_ ?_ ?_ ?_
  · intro l now h
    exact later (grow_events_preparing _) h
  · intro l now h
    exact try_block_timeline (by simp) h
  · intro e l now _
    unfold catch_block
    rw [Host.wp_bind, Host.wp_call]
    refine ⟨trivial, fun _ _ _ => ?_⟩
    rw [Host.wp_call]
    exact ⟨trivial, fun _ _ _ => trivial⟩
  · intro l now _
    exact Host.wp_mono (time_wp ((release_jobs_quiet _ _).mono (fun _ h => h.2.1) fun _ _ h => h))
      (fun _ _ _ _ => trivial)
      fun _ _ _ _ => trivial

/-- **A turn publishes timely entries**, if its jobs have been submitted and the clock is read as
it is, whatever else happens. -/
theorem worker_body_timeline (gpu_absent : Bool) (h : Submitted batch now) :
    (worker_body o gpu_absent batch).wp clockWorld (fun _ _ _ => True) (fun _ _ _ => True) l now := by
  refine worker_body_rule (P := fun _ => Submitted batch) (M := fun _ _ => True) (Y := fun _ _ => True) ?_ ?_ ?_ ?_ ?_
  · rw [Host.wp_call]
    exact ⟨trivial, fun _ _ hr => h.mono hr.1⟩
  · intro _ l now _
    rw [Host.wp_call]
    exact ⟨trivial, fun _ _ _ => trivial⟩
  · intro l now h
    exact execute_batch_timeline h
  · intro l now _
    rw [Host.wp_call]
    exact ⟨trivial, fun _ _ _ => trivial⟩
  · intro l now _
    rw [Host.wp_call]
    exact ⟨trivial, fun _ _ _ => trivial⟩

/-! ### The scheduler -/

/-- The clock is read as it is. -/
def Honest (s : State) : Action → Prop
  | .answer _ c r => ∀ t ∈ reading c r, t = s.clock
  | _ => True

instance (s : State) : ∀ a, Decidable (Honest s a)
  | .answer _ c r => inferInstanceAs (Decidable (∀ t ∈ reading c r, t = s.clock))
  | .tick _ | .submit _ | .client _ | .start | .probe .. | .spawn | .stop | .notify_all _ | .join | .dispatcher
  | .sample _ | .notify_worker _ | .worker _ | .spurious_dispatcher | .spurious_worker _ => .isTrue trivial

/-- Time does not go back. -/
theorem Step.clock_le (h : Step o s a t) : s.clock ≤ t.clock := by
  cases h with
  | client _ h =>
    cases h with
    | tick ns => exact le_add_of_nonneg_right (Int.natCast_nonneg ns)
    | _ => exact le_refl _
  | control _ h => cases h <;> exact le_refl _
  | dispatcher _ h => cases h <;> exact le_refl _
  | worker _ h =>
    cases h with
    | @call _ _ _ c => cases c <;> exact le_refl _
    | _ => exact le_refl _

/-- No job in the scheduler was submitted later than now. -/
abbrev Stamped (s : State) : Prop :=
  Carried (fun job => job.submit_time ≤ s.clock) (fun batch => Submitted batch s.clock) s

theorem ClientStep.stamped (h : ClientStep s a t) (hs : Stamped s) : Stamped t := by
  obtain ⟨h₁, h₂, h₃, h₄, h₅, h₆⟩ := hs
  cases h with
  | tick ns =>
    have hle : s.clock ≤ s.clock + ns := le_add_of_nonneg_right (Int.natCast_nonneg ns)
    exact ⟨fun job hj => (h₁ job hj).trans hle, fun job hj => (h₂ job hj).trans hle,
      fun job hj => (h₃ job hj).trans hle, h₄.mono hle, fun batch hb => (h₅ batch hb).mono hle,
      fun w hw turn hpc => (h₆ w hw turn hpc).mono hle⟩
  | submit job =>
    refine ⟨fun job' hj => ?_, h₂, h₃, h₄, h₅, h₆⟩
    rcases List.mem_append.mp hj with hj | hj
    · exact h₁ job' hj
    · obtain rfl := SubmitPc.stamped.inj (List.mem_singleton.mp hj)
      exact le_refl _
  | @push i job hi =>
    refine ⟨fun job' hj => h₁ job' (mem_of_mem_set_of_ne (by simp) hj), fun job' hj => ?_, h₃, h₄, h₅, h₆⟩
    rcases List.mem_append.mp hj with hj | hj
    · exact h₂ job' hj
    · obtain rfl := List.mem_singleton.mp hj
      exact h₁ job (List.mem_of_getElem? hi)
  | count => exact ⟨fun job' hj => h₁ job' (mem_of_mem_set_of_ne (by simp) hj), h₂, h₃, h₄, h₅, h₆⟩
  | notify =>
    have hd := s.wakeDispatcher_woken_queue
    exact ⟨fun job' hj => h₁ job' (mem_of_mem_set_of_ne (by simp) hj), h₂, hd.undecided ▸ h₃, hd.chosen ▸ h₄, h₅, h₆⟩

theorem Step.stamped (h : Step o s a t) (hs : Stamped s) : Stamped t := by
  have hrunning := h.running_carried hs
  have hnil : Submitted [] s.clock := List.forall_mem_nil _
  cases h with
  | client _ h => exact h.stamped hs
  | control _ h =>
    have hclock : t.clock = s.clock := by cases h <;> rfl
    rw [Stamped, hclock]
    exact h.carried hnil hrunning hs
  | dispatcher _ h =>
    have hclock : t.clock = s.clock := by cases h <;> rfl
    rw [Stamped, hclock]
    exact h.carried hnil (fun _ _ _ hc job hj => hc job (mem_of_mem_selected hj)) hrunning hs
  | worker _ h =>
    have hclock : t.clock = s.clock := by
      cases h with
      | @call _ _ _ c => cases c <;> rfl
      | _ => rfl
    rw [Stamped, hclock]
    exact h.carried hrunning hs

/-- If the turn's jobs have been submitted, what is left of it publishes timely entries. -/
def Punctual (clock : ℤ) (turn : Turn) : Prop :=
  Submitted turn.batch clock →
    ∃ now ≤ clock, turn.prog.wp clockWorld (Host.ends (fun _ _ _ => True) fun _ _ _ => True) now

theorem Punctual.after {turn : Turn} {clock : ℤ} (h : Punctual clock turn) {c : Call}
    {k : c.Ret → Prog Call Call.Ret (Except Exn Unit × Locals)} (hp : turn.prog = .call c k) {r : c.Ret}
    (hr : ∀ t ∈ reading c r, t = clock) : Punctual clock (turn.after c r (k r)) := by
  intro hsubmitted
  obtain ⟨now, hle, hwp⟩ := h hsubmitted
  rw [hp] at hwp
  exact ⟨clock, le_refl _, hwp.2 r clock ⟨hle, hr⟩⟩

/-- What is so as long as the clock is read as it is. -/
structure OnTime (s : State) : Prop where
  stamped : Stamped s
  turns : AllTurns (Punctual s.clock) s.workers
  entries : ∀ m ∈ s.metrics_, Timely m

theorem forall_timely_append {entries out : List JobMetrics} (h : ∀ m ∈ entries, Timely m) (h' : ∀ m ∈ out, Timely m) :
    ∀ m ∈ entries ++ out, Timely m :=
  List.forall_mem_append.mpr ⟨h, h'⟩

theorem forall_timely_failed (jobs : List InferenceJob) : ∀ m ∈ jobs.map failedMetrics, Timely m :=
  List.forall_mem_map.mpr fun job _ => timely_failedMetrics job

theorem Step.onTime (h : Step o s a t) (ha : Honest s a) (hs : OnTime s) : OnTime t := by
  obtain ⟨hstamped, hturns, hentries⟩ := hs
  have hle := h.clock_le
  -- time may pass: a turn that was punctual is punctual later
  have hlater : AllTurns (Punctual t.clock) s.workers := by
    intro w hw turn hpc _
    obtain ⟨now, hnow, hwp⟩ := hturns w hw turn hpc (hstamped.running w hw turn hpc)
    exact ⟨now, hnow.trans hle, hwp⟩
  refine ⟨h.stamped hstamped,
    h.allTurns hlater (fun batch l hsub => ⟨_, le_refl _, worker_body_timeline _ hsub⟩) ?_, ?_⟩
  · intro i c r w turn k he hw hpc hp _
    subst he
    obtain ⟨now, hnow, hwp⟩ := ((hturns w hw turn hpc).after hp ha) (hstamped.running w hw turn hpc)
    exact ⟨now, hnow.trans hle, hwp⟩
  · cases h with
    | client _ h => cases h <;> exact hentries
    | control _ h => cases h <;> exact hentries
    | dispatcher _ h =>
      cases h with
      | no_gpu | reject => exact forall_timely_append hentries (forall_timely_failed _)
      | _ => exact hentries
    | worker _ h =>
      cases h with
      | @call i w turn c k r hi hw hp _ =>
        have hmem := List.mem_of_getElem? hi
        obtain ⟨now, -, hwp⟩ := hturns w hmem turn hw (hstamped.running w hmem turn hw)
        rw [hp] at hwp
        cases c with
        | insert_metrics out => exact forall_timely_append hentries hwp.1
        | fail_batch batch => exact forall_timely_append hentries (forall_timely_failed batch)
        | _ => exact hentries
      | _ => exact hentries

theorem onTime (h : Reachable (scheduler o) Honest s) : OnTime s := by
  refine h.invariant (I := OnTime) ?_ fun _ hs hstep ha => Step.onTime hstep ha hs
  rintro _ ⟨t, rfl⟩
  refine ⟨⟨by simp, by simp, by simp [DispatcherPc.undecided], List.forall_mem_nil _, by simp, by simp⟩, ?_, by simp⟩
  simp [AllTurns]

/-- **The latencies add up**: in every run in which the clock is read as it is, an entry's waiting
time and execution time are not negative, and their sum is its end-to-end latency, which is `0`
for a failed job. -/
theorem latencies_add_up (h : Reachable (scheduler o) Honest s) : ∀ m ∈ s.metrics_,
    0 ≤ m.queue_wait ∧ 0 ≤ m.exec ∧ m.queue_wait + m.exec = m.e2e ∧ (m.ok = false → m.e2e = 0) := by
  intro m hm
  obtain ⟨h₁, h₂, h₃, h₄⟩ := (onTime h).entries m hm
  exact ⟨h₁, h₂, h₃, h₄⟩

/-- Answers in which the clock reads `3`, and then `7`. -/
def timedAnswers : Answers
  | n, .now => if n < 30 then 3 else 7
  | n, c => failAwait 0 n c

/-- The clock moves on before the batch is executed, and between the issues of its two jobs. -/
def timedTrace : List Action :=
  let trace := retainedTrace timedAnswers
  trace.take 19 ++ [.tick 2] ++ (trace.drop 19).take 30 ++ [.tick 4] ++ trace.drop 49

/-- Two jobs are submitted at `1` and picked up at `3` and at `7`. -/
theorem latencies_add_up_timed : ∃ s : State,
    s.metrics_.map (fun m => (m.queue_wait, m.exec, m.e2e)) = [(2, 4, 6), (6, 0, 6)] ∧
    ∀ m ∈ s.metrics_, 0 ≤ m.queue_wait ∧ 0 ≤ m.exec ∧ m.queue_wait + m.exec = m.e2e ∧ (m.ok = false → m.e2e = 0) := by
  obtain ⟨s, hr, hp⟩ := exists_of_follow retaining Honest 1 timedTrace
    (fun s => s.metrics_.map (fun m => (m.queue_wait, m.exec, m.e2e)) = [(2, 4, 6), (6, 0, 6)]) (by decide +kernel)
  exact ⟨s, by simpa using hp, latencies_add_up hr⟩

end Gbis.Sched
