import Gbis.Sched.Entries

/-!
# The metrics endpoint

The handler of `GET /metrics` in `src/src/server/http_server.cpp`: it reads `submitted()`,
`completed()`, `queued()` and `metrics()` of the running scheduler, one after the other, and
reports them with what it computes from them — the number of failed jobs, the latencies of
the others, and as jobs in flight what is submitted, not completed and not queued. The
percentile of the latencies is computed in `Gbis.Server.Percentiles`; the utilization, a
number computed from nothing else here, is left out.

The four reads are four steps, between which the scheduler goes on. A request therefore
sees no one state, and the report may be of a scheduler that never was: more failed jobs
than completed ones, and jobs in flight that were all the time in the dispatcher's hands
(`scrape_inconsistent`). It is consistent when the scheduler completes no job between the
reads of `completed_` and of the queue and fails none from there to the read of `metrics_`,
and the queue is read while the dispatcher is not in a round (`scrape_consistent`).

`peak` is a ghost: the largest number of jobs in flight since the request began.
-/

namespace Gbis.Server

open Gbis.Core Gbis.Sched Library

/-! ### The handler -/

/-- What the response reports. -/
structure Report where
  queue_depth : ℕ
  in_flight_jobs : ℕ
  submitted_jobs_total : ℕ
  completed_jobs_total : ℕ
  failed_jobs_total : ℕ
  /-- The latencies whose percentile is reported. -/
  e2e : List ℤ
  deriving DecidableEq

/-- The report made of the four values read. -/
def report (submitted completed queued : ℕ) (metrics : List JobMetrics) : Report where
  queue_depth := queued
  in_flight_jobs := if submitted ≥ completed + queued then submitted - completed - queued else 0
  submitted_jobs_total := submitted
  completed_jobs_total := completed
  failed_jobs_total := failedEntries metrics
  e2e := (metrics.filter (·.ok)).map (·.e2e)

/-- Where the handler is. -/
inductive RequestPc where
  /-- There is no request. -/
  | idle
  /-- It is about to read `submitted()`. -/
  | started
  | has_submitted (submitted : ℕ)
  | has_completed (submitted completed : ℕ)
  | has_queued (submitted completed queued : ℕ)
  /-- It has responded. -/
  | answered (r : Report)
  deriving DecidableEq

/-- Whether a request is being handled. -/
def RequestPc.busy : RequestPc → Bool
  | .idle | .answered _ => false
  | _ => true

/-- The scheduler and the handler. -/
structure HttpStatusServer where
  sched : State
  request : RequestPc := .idle
  /-- The most jobs in flight at a moment of the request. -/
  peak : ℕ := 0

/-- The labels of the steps. -/
inductive Action where
  /-- The scheduler goes on. -/
  | sched (a : Sched.Action)
  /-- A request comes. -/
  | request
  /-- The handler makes its next read. -/
  | read

/-- The server after a step of the scheduler. -/
def HttpStatusServer.after (p : HttpStatusServer) (t : State) : HttpStatusServer :=
  { p with sched := t, peak := if p.request.busy then max p.peak t.inFlight else p.peak }

variable (o : Options)

/-- **A step** of the server. -/
inductive ServerStep (p : HttpStatusServer) : Action → HttpStatusServer → Prop where
  | sched {a : Sched.Action} {t : State} : Step o p.sched a t → ServerStep p (.sched a) (p.after t)
  | request : p.request.busy = false → p.sched.terminated = false →
      ServerStep p .request { p with request := .started, peak := p.sched.inFlight }
  /-- `sched_.submitted()`. -/
  | submitted : p.request = .started → p.sched.terminated = false →
      ServerStep p .read { p with request := .has_submitted p.sched.submitted_ }
  /-- `sched_.completed()`. -/
  | completed {submitted : ℕ} : p.request = .has_submitted submitted → p.sched.terminated = false →
      ServerStep p .read { p with request := .has_completed submitted p.sched.completed_ }
  /-- `sched_.queued()`, under `queue_mutex_`. -/
  | queued {submitted completed : ℕ} : p.request = .has_completed submitted completed → p.sched.terminated = false →
      p.sched.queue_mutex_free →
      ServerStep p .read { p with request := .has_queued submitted completed p.sched.queue_.length }
  /-- `sched_.metrics()`, and the response. -/
  | metrics {submitted completed queued : ℕ} : p.request = .has_queued submitted completed queued →
      p.sched.terminated = false →
      ServerStep p .read { p with request := .answered (report submitted completed queued p.sched.metrics_) }

/-- The server of a scheduler with options `o`. -/
def server : System HttpStatusServer Action where
  init p := ∃ t, p = { sched := { clock := t } }
  step := ServerStep o

/-- The step with a given label, as a function. -/
def serverAt (p : HttpStatusServer) : Action → Option HttpStatusServer
  | .sched a => (stepAt o p.sched a).map p.after
  | .request =>
    if p.request.busy || p.sched.terminated then none
    else some { p with request := .started, peak := p.sched.inFlight }
  | .read =>
    if p.sched.terminated then none
    else match p.request with
      | .started => some { p with request := .has_submitted p.sched.submitted_ }
      | .has_submitted submitted => some { p with request := .has_completed submitted p.sched.completed_ }
      | .has_completed submitted completed =>
        if p.sched.queue_mutex_free then
          some { p with request := .has_queued submitted completed p.sched.queue_.length }
        else none
      | .has_queued submitted completed queued =>
        some { p with request := .answered (report submitted completed queued p.sched.metrics_) }
      | _ => none

theorem serverStep_of_serverAt (p : HttpStatusServer) (a : Action) (q : HttpStatusServer)
    (h : serverAt o p a = some q) :
    ServerStep o p a q := by
  cases a with
  | sched a =>
    obtain ⟨t, ht, rfl⟩ := Option.map_eq_some_iff.mp h
    exact .sched (step_of_stepAt o ht)
  | request =>
    by_cases hb : (p.request.busy || p.sched.terminated) = true
    · simp [serverAt, hb] at h
    · obtain rfl : { p with request := .started, peak := p.sched.inFlight } = q := by simpa [serverAt, hb] using h
      rw [Bool.or_eq_true, not_or, Bool.not_eq_true, Bool.not_eq_true] at hb
      exact .request hb.1 hb.2
  | read =>
    by_cases ht : p.sched.terminated = true
    · simp [serverAt, ht] at h
    · have ht : p.sched.terminated = false := by simpa using ht
      simp only [serverAt, ht, Bool.false_eq_true, if_false] at h
      split at h
      · rename_i hr; cases h; exact .submitted hr ht
      · rename_i hr; cases h; exact .completed hr ht
      · rename_i hr
        by_cases hf : p.sched.queue_mutex_free
        · rw [if_pos hf] at h
          cases h
          exact .queued hr ht hf
        · rw [if_neg hf] at h
          cases h
      · rename_i hr; cases h; exact .metrics hr ht
      · cases h

variable {o} {p q : HttpStatusServer} {a : Action}

/-- The server runs the scheduler. -/
theorem server_simulation : Simulation (server o) Always (scheduler o) HttpStatusServer.sched where
  init := by
    rintro _ ⟨t, rfl⟩
    exact ⟨t, rfl⟩
  step := by
    intro p a q _ hstep _
    cases hstep with
    | sched h => exact .inr ⟨_, h⟩
    | _ => exact .inl rfl

/-! ### Consistency -/

/-- What a report should satisfy, when `peak` is the most jobs in flight during the request. -/
structure Consistent (r : Report) (peak : ℕ) : Prop where
  failed : r.failed_jobs_total ≤ r.completed_jobs_total
  in_flight : r.in_flight_jobs ≤ peak

/-- The condition on the steps: between the reads of `completed_` and of the queue no job is
completed, between those of the queue and of `metrics_` none is failed, and the queue is read
while the dispatcher holds no jobs. -/
def Undisturbed (p : HttpStatusServer) : Action → Prop
  | .sched a =>
    match p.request with
    | .has_completed .. => completedBy p.sched a = 0
    | .has_queued .. => failedBy p.sched a = []
    | _ => True
  | .read =>
    match p.request with
    | .has_completed .. => p.sched.dispatcher.undecided = [] ∧ p.sched.dispatcher.chosen = []
    | _ => True
  | .request => True

instance (p : HttpStatusServer) (a : Action) : Decidable (Undisturbed p a) := by
  unfold Undisturbed
  split
  · split <;> infer_instance
  · split <;> infer_instance
  · infer_instance

/-- What is known of the values read so far. -/
def ReadSoFar (p : HttpStatusServer) : Prop :=
  match p.request with
  | .idle => True
  | .started => p.sched.inFlight ≤ p.peak
  | .has_submitted submitted => submitted ≤ p.sched.next_seq_ ∧ p.sched.inFlight ≤ p.peak
  | .has_completed submitted completed =>
    submitted ≤ p.sched.next_seq_ ∧ completed = p.sched.completed_ ∧ p.sched.inFlight ≤ p.peak
  | .has_queued submitted completed queued =>
    submitted ≤ completed + queued + p.peak ∧ failedEntries p.sched.metrics_ ≤ completed
  | .answered r => Consistent r p.peak

/-- A step of the scheduler keeps what is known. -/
theorem ReadSoFar.sched (hp : ReadSoFar p) (hr : Reachable (scheduler o) Always p.sched) {b : Sched.Action} {t : State}
    (hstep : Step o p.sched b t) (hok : Undisturbed p (.sched b)) : ReadSoFar (p.after t) := by
  have hnext := hstep.next_seq_le
  have hcount := (hstep.completes hr).counted
  have hfailed := hstep.failed hr
  obtain ⟨s, request, peak⟩ := p
  cases request with
  | idle => exact trivial
  | answered r => exact hp
  | started => exact le_max_right _ _
  | has_submitted submitted => exact ⟨hp.1.trans hnext, le_max_right _ _⟩
  | has_completed submitted completed =>
    have hby : completedBy s b = 0 := hok
    rw [hby, Multiset.card_zero, add_zero] at hcount
    exact ⟨hp.1.trans hnext, hp.2.1.trans hcount.symm, le_max_right _ _⟩
  | has_queued submitted completed queued =>
    have hby : failedBy s b = [] := hok
    rw [hby, List.length_nil, add_zero] at hfailed
    exact ⟨hp.1.trans (Nat.add_le_add_left (le_max_left _ _) _), hfailed ▸ hp.2⟩

/-- So does a read. -/
theorem ServerStep.readSoFar (h : ServerStep o p a q) (hr : Reachable (scheduler o) Always p.sched) (hp : ReadSoFar p)
    (hok : Undisturbed p a) : ReadSoFar q := by
  cases h with
  | sched h => exact hp.sched hr h hok
  | request => exact le_rfl
  | submitted hreq =>
    have hsub := submitted_add_card hr
    have hle : p.sched.submitted_ ≤ p.sched.next_seq_ := by omega
    rw [ReadSoFar, hreq] at hp
    exact ⟨hle, hp⟩
  | completed hreq =>
    rw [ReadSoFar, hreq] at hp
    exact ⟨hp.1, rfl, hp.2⟩
  | @queued submitted completed hreq =>
    rw [ReadSoFar, hreq] at hp
    rw [Undisturbed, hreq] at hok
    obtain ⟨hsub, rfl, hpeak⟩ := hp
    obtain ⟨hund, hch⟩ := hok
    have hplaces := next_seq_le hr
    rw [hund, hch, List.length_nil, add_zero, add_zero] at hplaces
    have hle : submitted ≤ p.sched.completed_ + p.sched.queue_.length + p.peak := by omega
    exact ⟨hle, failed_le_completed hr⟩
  | @metrics submitted completed queued hreq =>
    rw [ReadSoFar, hreq] at hp
    refine ⟨hp.2, ?_⟩
    have hle := hp.1
    unfold report
    dsimp only
    split_ifs <;> omega

/-- **A request that is not disturbed is answered consistently**: no more failed jobs are
reported than completed ones, and no more jobs in flight than were at some moment of the
request. -/
theorem scrape_consistent (h : Reachable (server o) Undisturbed p) {r : Report} (hr : p.request = .answered r) :
    Consistent r p.peak := by
  have hread : ReadSoFar p := by
    refine h.invariant (I := ReadSoFar) ?_ ?_
    · rintro _ ⟨t, rfl⟩
      exact trivial
    · intro p a q hp hread hstep hok
      exact ServerStep.readSoFar hstep (server_simulation.reachable (hp.mono fun _ _ _ => trivial)) hread hok
  rwa [ReadSoFar, hr] at hread

/-- The scheduler's own steps. -/
def ofScheduler (choices : List (State → Option Sched.Action)) : List (HttpStatusServer → Option Action) :=
  choices.map fun choice p => (choice p.sched).map .sched

/-- Three jobs are submitted, and a worker has taken the smallest. While it executes it the request reads
`submitted()` and `completed()`, a fourth job is submitted, the request reads `queued()`, the fourth job is pushed,
the worker returns, and the request reads `metrics()`. -/
def busyRequest : List (HttpStatusServer → Option Action) :=
  ofScheduler (ofLabels (takenTrace ++ [.client 0, .client 1, .client 2])) ++
  ofLabels [.request, .read] ++
  ofScheduler ((List.range 20).map (answerFresh 0)) ++
  ofLabels [.read] ++
  ofScheduler (ofLabels [.submit { m := 4, n := 1, k := 1 }] ++ (List.range' 20 10).map (answerFresh 0)) ++
  ofLabels [.read] ++
  ofScheduler (ofLabels [.client 3, .client 3] ++ (List.range' 30 13).map (answerFresh 0) ++ ofLabels [.worker 0]) ++
  ofLabels [.read]

/-- The report is of no one moment, since it has the latency of a job and does not count it as completed; but one job
was in flight. -/
theorem scrape_consistent_busy : ∃ p : HttpStatusServer, ∃ r, p.request = .answered r ∧ p.sched.queue_.length = 3 ∧
    p.sched.completed_ = 1 ∧ r.queue_depth = 2 ∧ r.completed_jobs_total = 0 ∧ r.e2e = [33] ∧ r.in_flight_jobs = 1 ∧
    r.in_flight_jobs ≤ p.peak ∧ r.failed_jobs_total ≤ r.completed_jobs_total := by
  obtain ⟨p, hr, hp⟩ := Reachable.of_chosen (T := server oneByOne) Undisturbed (serverStep_of_serverAt _) ⟨1, rfl⟩
    busyRequest
    (fun p => p.request = .answered ⟨2, 1, 3, 0, 0, [33]⟩ && (p.sched.queue_.length = 3 && p.sched.completed_ = 1))
    (by decide +kernel)
  simp only [Bool.and_eq_true, decide_eq_true_eq] at hp
  obtain ⟨hanswered, hqueue, hcompleted⟩ := hp
  have hc := scrape_consistent hr hanswered
  exact ⟨p, _, hanswered, hqueue, hcompleted, rfl, rfl, rfl, rfl, hc.in_flight, hc.failed⟩

/-- Without a GPU the dispatcher fails a job between the reads of `completed_` and of
`metrics_`. -/
def failedRequest : List Action :=
  [.sched .start, .sched (.probe true 0), .sched .spawn, .sched .spawn, .sched (.submit { m := 1, n := 1, k := 1 }),
   .sched (.client 0), .sched (.client 0), .request, .read, .read, .sched .dispatcher, .sched .dispatcher,
   .sched .dispatcher, .read, .read]

/-- The dispatcher has drained the queue into its vector of candidates when the request comes,
and packs nothing until it is answered. -/
def drainedRequest : List Action :=
  [.sched .start, .sched (.probe false 0), .sched .spawn, .sched .spawn, .sched (.submit { m := 1, n := 1, k := 1 }),
   .sched (.client 0), .sched (.client 0), .sched .dispatcher, .sched .dispatcher, .request, .read, .read, .read, .read]

/-- A request may find one failed job and none completed; and it may find one job in flight
when throughout the request no batch is in `batch_queue_` and no worker has one. -/
theorem scrape_inconsistent :
    (∃ p : HttpStatusServer, ∃ r, Reachable (server { num_workers := 1 }) Always p ∧ p.request = .answered r ∧
      ¬ r.failed_jobs_total ≤ r.completed_jobs_total) ∧
    ∃ p : HttpStatusServer, ∃ r, Reachable (server { num_workers := 1 }) Always p ∧ p.request = .answered r ∧
      ¬ r.in_flight_jobs ≤ p.peak := by
  constructor
  · obtain ⟨p, hr, hp⟩ := Reachable.of_follow (T := server { num_workers := 1 }) Always
      (serverStep_of_serverAt _) ⟨1, rfl⟩ failedRequest
      (fun p => p.request = .answered ⟨0, 1, 1, 0, 1, []⟩) (by decide)
    exact ⟨p, _, hr, of_decide_eq_true hp, by decide⟩
  · obtain ⟨p, hr, hp⟩ := Reachable.of_follow (T := server { num_workers := 1 }) Always
      (serverStep_of_serverAt _) ⟨1, rfl⟩ drainedRequest
      (fun p => p.request = .answered ⟨0, 1, 1, 0, 0, []⟩ && p.peak = 0) (by decide)
    simp only [Bool.and_eq_true, decide_eq_true_eq] at hp
    exact ⟨p, _, hr, hp.1, by rw [hp.2]; decide⟩

end Gbis.Server
