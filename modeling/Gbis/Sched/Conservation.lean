import Gbis.Library.Ledger
import Gbis.Sched.Failure
import Gbis.Sched.Threads

/-!
# No job is lost or counted twice

A job that has been submitted is, at every moment, in one place: the priority queue;
the dispatcher's round, before the batch is packed or as part of what it packed; a
batch of `batch_queue_`; the batch of a worker that has not recorded it yet; or, as an
entry, in `metrics_`. The scheduler is shown to refine the ledger whose tokens are the
sequence numbers, and whose moves are the hand-overs between these places
(`ledger_simulation`): every step is one hand-over, one arrival in the queue, or
nothing to the ledger at all. What holds of ledgers then holds of jobs, over every
interleaving and every number of starts and stops:

* `jobs_conserved` — each number handed out is in exactly one place, once; and
  `completed_` counts the entries, but for those a worker has recorded and not counted.
-/

namespace Gbis.Sched

open Gbis.Core Library

variable {o : Options} {s t : State} {a : Action}

/-! ### The places -/

/-- Where a job may be. The dispatcher's round is `round` and `chosen` together. -/
inductive Place where
  /-- The priority queue. -/
  | queue
  /-- The dispatcher's round, outside the batch. -/
  | round
  /-- The batch the dispatcher has packed. -/
  | chosen
  /-- The batches of `batch_queue_`. -/
  | batches
  /-- The batches the workers have taken and not recorded. -/
  | workers
  /-- The entries of `metrics_`. -/
  | metrics
  deriving DecidableEq

instance : Fintype Place :=
  ⟨{.queue, .round, .chosen, .batches, .workers, .metrics}, fun p => by cases p <;> simp⟩

/-- The jobs of a round that are not in its batch. -/
def DispatcherPc.undecided : DispatcherPc → List InferenceJob
  | .drained candidates | .filtered candidates | .based candidates _ | .budgeted candidates _ => candidates
  | .rejecting large candidates => large ++ candidates
  | .packed _ remaining => remaining
  | _ => []

/-- The jobs of the batch of a round. -/
def DispatcherPc.chosen : DispatcherPc → List InferenceJob
  | .packed selected _ | .requeued selected | .reserved selected => selected
  | _ => []

/-- The batch a worker has taken. -/
def WorkerPc.batch : WorkerPc → List InferenceJob
  | .running turn => turn.batch
  | _ => []

/-- The jobs a worker has taken and not recorded. -/
def WorkerPc.unrecorded : WorkerPc → List InferenceJob
  | .running turn => if turn.account.recorded = [] then turn.batch else []
  | _ => []

/-- The sequence numbers of jobs. -/
def seqs (jobs : List InferenceJob) : Multiset ℕ := jobs.map InferenceJob.seq

/-- The sequence numbers in each place. -/
def State.hold (s : State) : Place → Multiset ℕ
  | .queue => seqs s.queue_
  | .round => seqs s.dispatcher.undecided
  | .chosen => seqs s.dispatcher.chosen
  | .batches => seqs s.batch_queue_.flatten
  | .workers => (s.workers.map fun w => seqs w.pc.unrecorded).sum
  | .metrics => s.metrics_.map JobMetrics.seq

/-- The ledger of a state. -/
def State.ledger (s : State) : Ledger Place := ⟨s.next_seq_, s.hold⟩

/-- The hand-overs. -/
inductive HandOver : Place → Place → Prop where
  | drain : HandOver .queue .round
  | fail : HandOver .round .metrics
  | pack : HandOver .round .chosen
  | requeue : HandOver .round .queue
  | push : HandOver .chosen .batches
  | pop : HandOver .batches .workers
  | record : HandOver .workers .metrics

/-- The ledger of jobs: they arrive in the queue. -/
abbrev jobLedger : System (Ledger Place) (Entry Place) := ledger (· = .queue) HandOver

@[simp] theorem seqs_nil : seqs [] = 0 := rfl

theorem seqs_eq_of_perm {xs ys : List InferenceJob} (h : xs.Perm ys) : seqs xs = seqs ys :=
  Multiset.coe_eq_coe.mpr (h.map _)

@[simp] theorem seq_comp_failedMetrics : JobMetrics.seq ∘ failedMetrics = InferenceJob.seq := rfl

/-! ### Turns -/

/-- What the books say of every turn. -/
theorem turn_books (h : Reachable (scheduler o) Always s) :
    ∀ w ∈ s.workers, ∀ turn, w.pc = .running turn →
      turn.prog.wp (accountWorld turn.batch) (Host.ends (fun _ _ => Settled turn.batch)
        (fun _ _ acc => acc = aborted turn.batch)) turn.account :=
  turn_kept accountWorld Turn.account
    (fun batch => Host.ends (fun _ _ => Settled batch) (fun _ _ acc => acc = aborted batch))
    (fun _ _ _ => worker_body_account o _) (fun _ _ _ _ _ _ _ _ _ _ => rfl) h

/-! ### The refinement -/

/-- Two states with the same jobs in the same places. -/
theorem ledger_eq (hn : t.next_seq_ = s.next_seq_) (hh : ∀ p, t.hold p = s.hold p) : t.ledger = s.ledger :=
  Ledger.ext hn (funext hh)

/-- The shared fields the places are made of are the same. -/
structure SamePlaces (s t : State) : Prop where
  next_seq_ : t.next_seq_ = s.next_seq_
  queue_ : t.queue_ = s.queue_
  batch_queue_ : t.batch_queue_ = s.batch_queue_
  metrics_ : t.metrics_ = s.metrics_

/-- A step of the dispatcher's that moves no job. -/
theorem SamePlaces.ledger_eq (h : SamePlaces s t) (hw : t.workers = s.workers)
    (hu : t.dispatcher.undecided.Perm s.dispatcher.undecided) (hc : t.dispatcher.chosen = s.dispatcher.chosen) :
    t.ledger = s.ledger := by
  refine Sched.ledger_eq h.next_seq_ fun p => ?_
  cases p with
  | queue => exact congrArg seqs h.queue_
  | round => exact seqs_eq_of_perm hu
  | chosen => exact congrArg seqs hc
  | batches => exact congrArg (fun b => seqs b.flatten) h.batch_queue_
  | workers => simp only [State.hold, hw]
  | metrics => simp only [State.hold, h.metrics_]

theorem Woken.undecided {pc pc' : DispatcherPc} (h : Woken pc pc') : pc'.undecided = pc.undecided := by
  cases h <;> rfl

theorem Woken.chosen {pc pc' : DispatcherPc} (h : Woken pc pc') : pc'.chosen = pc.chosen := by
  cases h <;> rfl

/-- Waking the dispatcher moves no job. -/
theorem SamePlaces.ledger_eq_of_woken (h : SamePlaces s t) (hw : t.workers = s.workers)
    (hd : Woken s.dispatcher t.dispatcher) : t.ledger = s.ledger :=
  h.ledger_eq hw (hd.undecided ▸ .refl _) hd.chosen

attribute [local simp] State.ledger State.hold DispatcherPc.undecided DispatcherPc.chosen WorkerPc.unrecorded seqs

theorem ClientStep.ledger (h : ClientStep s a t) :
    t.ledger = s.ledger ∨ ∃ e, Ledger.Step (· = .queue) HandOver s.ledger e t.ledger := by
  cases h with
  | tick | submit | count => exact .inl rfl
  | push =>
    refine .inr (Ledger.Step.of_arrive (p := .queue) rfl rfl (by simp) ?_)
    intro q hq
    cases q <;> first | rfl | exact absurd rfl hq
  | notify => exact .inl (SamePlaces.ledger_eq_of_woken ⟨rfl, rfl, rfl, rfl⟩ rfl s.wakeDispatcher_woken_queue)

theorem DispatcherPc.undecided_of_rested : ∀ {pc : DispatcherPc}, pc.rested = true → pc.undecided = [] ∧ pc.chosen = []
  | .absent, _ | .exited, _ => ⟨rfl, rfl⟩

theorem Worker.wake_unrecorded (w : Worker) : w.wake.pc.unrecorded = w.pc.unrecorded := by
  unfold Worker.wake
  split
  · rename_i h; rw [h]; rfl
  · rfl

theorem ControlStep.ledger (h : ControlStep o s a t) (hl : Lifecycle s) : t.ledger = s.ledger := by
  cases h with
  | probe _ _ hc =>
    obtain ⟨hu, hch⟩ := DispatcherPc.undecided_of_rested (hl.dispatcher (by simp [State.dispatcherJoined, hc]))
    exact SamePlaces.ledger_eq ⟨rfl, rfl, rfl, rfl⟩ rfl (hu ▸ .refl _) hch.symm
  | spawn =>
    refine ledger_eq rfl fun p => ?_
    cases p with
    | workers => simp
    | _ => rfl
  | notify_batch =>
    refine ledger_eq rfl fun p => ?_
    cases p with
    | workers => simp only [State.hold, List.map_map, Function.comp_def, Worker.wake_unrecorded]
    | _ => rfl
  | notify_queue => exact SamePlaces.ledger_eq_of_woken ⟨rfl, rfl, rfl, rfl⟩ rfl s.wakeDispatcher_woken_queue
  | notify_space => exact SamePlaces.ledger_eq_of_woken ⟨rfl, rfl, rfl, rfl⟩ rfl s.wakeDispatcher_woken_space
  | _ => rfl

theorem drainOrder_perm (queue : List InferenceJob) : (drainOrder queue).Perm queue := stable_sort_perm _ _

/-- The oversized candidates and those kept are the candidates. -/
theorem oversized_append_admitted_perm (max_job : ℕ) (candidates : List InferenceJob) :
    (oversized max_job candidates ++ admitted max_job candidates).Perm candidates := by
  unfold oversized admitted
  split_ifs
  · exact List.filter_append_perm _ _
  · exact .refl _

theorem DispatcherStep.ledger (h : DispatcherStep o s a t) :
    t.ledger = s.ledger ∨ ∃ e, Ledger.Step (· = .queue) HandOver s.ledger e t.ledger := by
  cases h with
  | drain hd =>
    refine .inr (Ledger.Step.of_move (seqs s.queue_) .drain (by decide) rfl (by simp) ?_ ?_)
    · simpa [hd] using (drainOrder_perm s.queue_).map _
    · intro q h₁ h₂
      cases q <;> first | contradiction | rfl | simp [hd]
  | @no_gpu candidates hd =>
    refine .inr (Ledger.Step.of_move (seqs candidates) .fail
      (by decide) rfl (by simp [hd]) (by simp [State.fail_batch]) ?_)
    intro q h₁ h₂
    cases q <;> first | contradiction | rfl | simp [hd]
  | @keep candidates hd _ ho =>
    have hp := oversized_append_admitted_perm (max_job_bytes o s.total_mem_bytes_) candidates
    rw [ho, List.nil_append] at hp
    exact .inl (SamePlaces.ledger_eq ⟨rfl, rfl, rfl, rfl⟩ rfl (by rw [hd]; exact hp) (by rw [hd]; rfl))
  | @filter candidates hd =>
    have hp := oversized_append_admitted_perm (max_job_bytes o s.total_mem_bytes_) candidates
    exact .inl (SamePlaces.ledger_eq ⟨rfl, rfl, rfl, rfl⟩ rfl (by rw [hd]; exact hp) (by rw [hd]; rfl))
  | @reject large candidates hd =>
    refine .inr (Ledger.Step.of_move (seqs large) .fail (by decide) rfl ?_ (by simp [State.fail_batch]) ?_)
    · simpa [hd] using List.perm_append_comm
    · intro q h₁ h₂
      cases q <;> first | contradiction | rfl | simp [hd]
  | @pack candidates budget hd =>
    have hp := pack_jobs_perm s.clock candidates budget o.max_batch
    refine .inr (Ledger.Step.of_move (seqs (pack_jobs s.clock candidates budget o.max_batch).selected) .pack (by decide)
      rfl ?_ (by simp [hd]) ?_)
    · simpa [hd] using ((List.perm_append_comm.trans hp).map InferenceJob.seq).symm
    · intro q h₁ h₂
      cases q <;> first | contradiction | rfl
  | @requeue selected remaining hd =>
    refine .inr (Ledger.Step.of_move (seqs remaining) .requeue (by decide) rfl (by simp [hd]) (by simp) ?_)
    intro q h₁ h₂
    cases q <;> first | contradiction | rfl | simp [hd]
  | @push selected hd =>
    refine .inr (Ledger.Step.of_move (seqs selected) .push (by decide) rfl (by simp [hd]) (by simp) ?_)
    intro q h₁ h₂
    cases q <;> first | contradiction | rfl | simp [hd]
  | notify hd hi =>
    refine .inl (ledger_eq rfl fun p => ?_)
    cases p with
    | workers =>
      obtain ⟨rest, h₁, h₂⟩ := exists_sum_set (fun w : Worker => seqs w.pc.unrecorded) hi
      simp only [State.hold, State.setWorker, h₁, h₂, Worker.wake_unrecorded]
    | _ => first | rfl | simp [hd]
  | space_exit hd | space_pass hd | space_false hd | space_block hd | queue_exit hd | queue_false hd | queue_block hd
  | fixed hd | no_free _ hd | free _ hd | budget hd | nothing hd | reserve hd | notify_none hd | spurious_space hd
  | spurious_queue hd =>
    exact .inl (SamePlaces.ledger_eq ⟨rfl, rfl, rfl, rfl⟩ rfl (by simp [hd]) (by simp [hd]))

/-- A step of a worker's that moves no job. -/
theorem SamePlaces.ledger_eq_of_set (h : SamePlaces s t) (hd : Woken s.dispatcher t.dispatcher) {i : ℕ} {w w' : Worker}
    (hi : s.workers[i]? = some w) (ht : t.workers = s.workers.set i w')
    (hu : seqs w'.pc.unrecorded = seqs w.pc.unrecorded) : t.ledger = s.ledger := by
  refine Sched.ledger_eq h.next_seq_ fun p => ?_
  cases p with
  | queue => exact congrArg seqs h.queue_
  | round => exact congrArg seqs hd.undecided
  | chosen => exact congrArg seqs hd.chosen
  | batches => exact congrArg (fun b => seqs b.flatten) h.batch_queue_
  | workers =>
    obtain ⟨rest, h₁, h₂⟩ := exists_sum_set (fun w : Worker => seqs w.pc.unrecorded) hi
    simp only [State.hold, ht, h₁, h₂, hu]
  | metrics => simp only [State.hold, h.metrics_]

/-- A worker records the batch it has. -/
theorem ledger_record {i : ℕ} {w w' : Worker} (out : List JobMetrics) (hi : s.workers[i]? = some w)
    (hw : seqs w'.pc.unrecorded = 0) (hout : seqs w.pc.unrecorded = out.map JobMetrics.seq)
    (hs : t.next_seq_ = s.next_seq_)
    (hq : t.queue_ = s.queue_) (hb : t.batch_queue_ = s.batch_queue_) (hd : t.dispatcher = s.dispatcher)
    (ht : t.workers = s.workers.set i w') (hm : t.metrics_ = s.metrics_ ++ out) :
    ∃ e, Ledger.Step (· = .queue) HandOver s.ledger e t.ledger := by
  obtain ⟨rest, h₁, h₂⟩ := exists_sum_set (fun w : Worker => seqs w.pc.unrecorded) hi
  refine Ledger.Step.of_move (seqs w.pc.unrecorded) .record (by decide) hs ?_ ?_ ?_
  · simp only [State.ledger, State.hold, ht, h₁, h₂, hw, add_zero]
  · rw [hout]
    simp [hm]
  · intro p h₁ h₂
    cases p <;> first | contradiction | simp [hq, hb, hd]

/-- Once the batch is recorded nothing of it is left to record. -/
theorem seqs_unrecorded_of_recorded {batch : List InferenceJob} {acc : Account}
    (h : acc.recorded.map JobMetrics.seq = batch.map InferenceJob.seq) :
    seqs (if acc.recorded = [] then batch else []) = 0 := by
  split_ifs with hr
  · rw [hr, List.map_nil, eq_comm, List.map_eq_nil_iff] at h
    rw [h, seqs_nil]
  · exact seqs_nil

/-- The calls that record. -/
def records : Call → Bool
  | .insert_metrics _ | .fail_batch _ => true
  | _ => false

theorem Account.apply_recorded (acc : Account) {c : Call} (h : records c = false) (r : c.Ret) :
    (acc.apply c r).recorded = acc.recorded := by
  cases c with
  | cudaStreamCreateWithFlags | cudaStreamCreate | cudaEventCreate => cases r <;> rfl
  | insert_metrics | fail_batch => cases h
  | _ => rfl

theorem State.effect_samePlaces (s : State) {c : Call} (h : records c = false) : SamePlaces s (s.effect c) := by
  cases c with
  | insert_metrics | fail_batch => cases h
  | _ => exact ⟨rfl, rfl, rfl, rfl⟩

theorem WorkerStep.ledger (h : WorkerStep o s a t)
    (hb : ∀ w ∈ s.workers, ∀ turn, w.pc = .running turn →
      turn.prog.wp (accountWorld turn.batch) (Host.ends (fun _ _ => Settled turn.batch)
        (fun _ _ acc => acc = aborted turn.batch)) turn.account) :
    t.ledger = s.ledger ∨ ∃ e, Ledger.Step (· = .queue) HandOver s.ledger e t.ledger := by
  cases h with
  | exit hi hw | found_empty hi hw | block hi hw =>
    exact .inl (SamePlaces.ledger_eq_of_set ⟨rfl, rfl, rfl, rfl⟩ (.same _) hi rfl (by simp [hw]))
  | spurious hi =>
    exact .inl (SamePlaces.ledger_eq_of_set ⟨rfl, rfl, rfl, rfl⟩ (.same _) hi rfl (by rw [Worker.wake_unrecorded]))
  | throw => exact .inl rfl
  | @pop i w batch rest hi hw _ hq =>
    obtain ⟨left, h₁, h₂⟩ := exists_sum_set (fun w : Worker => seqs w.pc.unrecorded) hi
    refine .inr (Ledger.Step.of_move (seqs batch) .pop (by decide) rfl ?_ ?_ ?_)
    · simpa [hq] using List.perm_append_comm
    · simp only [State.ledger, State.hold, State.setWorker, h₁, h₂, hw]
      simp
    · intro p h₁ h₂
      cases p <;> first | contradiction | rfl
  | @done i w turn l hi hw hp =>
    have hset := hb w (List.mem_of_getElem? hi) turn hw
    rw [hp] at hset
    have hset : Settled turn.batch turn.account := hset
    refine .inl (SamePlaces.ledger_eq_of_set ⟨rfl, rfl, rfl, rfl⟩ (.same _) hi rfl ?_)
    rw [hw]
    exact (seqs_unrecorded_of_recorded hset.recorded.map_seq).symm
  | @call i w turn c k r hi hw hp hr =>
    have hwp := hb w (List.mem_of_getElem? hi) turn hw
    rw [hp] at hwp
    have hpre : accountPre turn.batch c turn.account := hwp.1
    by_cases hc : records c = true
    · cases c with
      | insert_metrics out =>
        obtain ⟨h₁, -, h₂⟩ := hpre
        refine .inr (ledger_record out hi ?_ ?_ rfl rfl rfl rfl rfl rfl)
        · exact seqs_unrecorded_of_recorded (by simpa [Account.apply, h₁] using h₂)
        · simp [hw, h₁, h₂]
      | fail_batch failed =>
        obtain ⟨h₁, -, rfl⟩ := hpre
        refine .inr (ledger_record (turn.batch.map failedMetrics) hi ?_ ?_ rfl rfl rfl rfl rfl rfl)
        · exact seqs_unrecorded_of_recorded (by simp [Account.apply, h₁])
        · simp [hw, h₁]
      | _ => cases hc
    · have hc : records c = false := by simpa using hc
      obtain ⟨h₁, h₂, h₃, h₄⟩ := s.effect_samePlaces hc
      have hs := congrArg (fun ws => ws.set i { w with pc := .running (turn.after c r (k r)) }) (s.effect_workers c)
      refine .inl (SamePlaces.ledger_eq_of_set ⟨h₁, h₂, h₃, h₄⟩ (s.effect_woken c) hi hs ?_)
      simp only [WorkerPc.unrecorded, Turn.after, hw, Account.apply_recorded _ hc]

/-- **The scheduler refines the ledger of its jobs**: every step hands some jobs over
from one place to another, or brings one new job into the queue, or moves none. -/
theorem ledger_simulation : Simulation (scheduler o) Always jobLedger State.ledger where
  init := by
    rintro _ ⟨t, rfl⟩
    refine Ledger.ext rfl (funext fun p => ?_)
    cases p <;> simp
  step {s a t} hs hstep _ := by
    cases hstep with
    | client _ h => exact h.ledger
    | control _ h => exact .inl (h.ledger (lifecycle hs))
    | dispatcher _ h => exact h.ledger
    | worker _ h => exact h.ledger (turn_books hs)

/-! ### The count of the completed -/

/-- The entries a worker has recorded and not yet counted. -/
def WorkerPc.uncounted : WorkerPc → ℕ
  | .running turn => turn.account.recorded.length - turn.account.counted
  | _ => 0

/-- Whether a worker is between recording metrics and counting them. -/
def WorkerPc.recording : WorkerPc → Bool
  | .running turn => match turn.prog with
    | .call (.add_completed _) _ => true
    | _ => false
  | _ => false

theorem Worker.wake_uncounted (w : Worker) : w.wake.pc.uncounted = w.pc.uncounted := by
  unfold Worker.wake
  split
  · rename_i h; rw [h]; rfl
  · rfl

/-- What a worker's step makes of the sum of what is uncounted. -/
theorem sum_uncounted_set {i : ℕ} {w : Worker} (w' : Worker) (hi : s.workers[i]? = some w) :
    ((s.workers.set i w').map fun w => w.pc.uncounted).sum + w.pc.uncounted =
      (s.workers.map fun w => w.pc.uncounted).sum + w'.pc.uncounted := by
  obtain ⟨rest, h₁, h₂⟩ := exists_sum_set (fun w : Worker => w.pc.uncounted) hi
  rw [h₁, h₂]
  omega

/-- `completed_` and what is uncounted make up the entries. -/
def Counted (s : State) : Prop :=
  s.completed_ + (s.workers.map fun w => w.pc.uncounted).sum = s.metrics_.length

/-- A worker that moves without recording or counting. -/
theorem Counted.set (hs : Counted s) {i : ℕ} {w w' : Worker} (hi : s.workers[i]? = some w)
    (hu : w'.pc.uncounted = w.pc.uncounted) (hw : t.workers = s.workers.set i w') (hc : t.completed_ = s.completed_)
    (hm : t.metrics_ = s.metrics_) : Counted t := by
  have h := sum_uncounted_set w' hi
  unfold Counted at hs ⊢
  rw [hw, hc, hm]
  omega

/-- What is recorded by a call and not counted by it is counted by a later one. -/
theorem effect_counted (s : State) {batch : List InferenceJob} {acc : Account} {c : Call}
    (hpre : accountPre batch c acc)
    (r : c.Ret) :
    (s.effect c).completed_ + ((acc.apply c r).recorded.length - (acc.apply c r).counted) + s.metrics_.length =
      s.completed_ + (acc.recorded.length - acc.counted) + (s.effect c).metrics_.length := by
  cases c with
  | insert_metrics out | fail_batch failed =>
    obtain ⟨h₁, h₂, -⟩ := hpre
    simp only [State.effect, State.fail_batch, Account.apply, h₁, h₂, List.length_append, List.length_nil,
      List.length_map]
    omega
  | add_completed n =>
    have hpre : acc.counted + n = acc.recorded.length := hpre
    simp only [State.effect, Account.apply]
    omega
  | cudaStreamCreateWithFlags | cudaStreamCreate | cudaEventCreate => cases r <;> rfl
  | _ => rfl

theorem WorkerStep.counted (h : WorkerStep o s a t)
    (hb : ∀ w ∈ s.workers, ∀ turn, w.pc = .running turn →
      turn.prog.wp (accountWorld turn.batch) (Host.ends (fun _ _ => Settled turn.batch)
        (fun _ _ acc => acc = aborted turn.batch)) turn.account)
    (hs : Counted s) : Counted t := by
  cases h with
  | exit hi hw | found_empty hi hw | block hi hw | pop hi hw => exact hs.set hi (by rw [hw]; rfl) rfl rfl rfl
  | spurious hi => exact hs.set hi (Worker.wake_uncounted _) rfl rfl rfl
  | throw => exact hs
  | @done i w turn l hi hw hp =>
    have hset := hb w (List.mem_of_getElem? hi) turn hw
    rw [hp] at hset
    have hset : Settled turn.batch turn.account := hset
    exact hs.set hi (by simp [hw, WorkerPc.uncounted, hset.counted]) rfl rfl rfl
  | @call i w turn c k r hi hw hp hr =>
    have hwp := hb w (List.mem_of_getElem? hi) turn hw
    rw [hp] at hwp
    have hpre : accountPre turn.batch c turn.account := hwp.1
    have hsum := sum_uncounted_set { w with pc := .running (turn.after c r (k r)) } hi
    have heff := effect_counted s hpre r
    have hbefore : w.pc.uncounted = turn.account.recorded.length - turn.account.counted := by rw [hw]; rfl
    have hafter : (WorkerPc.running (turn.after c r (k r))).uncounted =
      (turn.account.apply c r).recorded.length - (turn.account.apply c r).counted := rfl
    simp only [hbefore, hafter] at hsum
    simp only [Counted, State.setWorker, s.effect_workers] at hs ⊢
    unfold Turn.after at hsum
    omega

theorem counted (h : Reachable (scheduler o) Always s) : Counted s := by
  refine h.invariant ?_ fun {s a t} hr hs hstep _ => ?_
  · rintro _ ⟨t, rfl⟩
    rfl
  · cases hstep with
    | client _ h => cases h <;> exact hs
    | control _ h =>
      cases h with
      | spawn => simpa [Counted, WorkerPc.uncounted] using hs
      | notify_batch => simpa [Counted, Function.comp_def, Worker.wake_uncounted] using hs
      | _ => exact hs
    | dispatcher _ h =>
      cases h with
      | no_gpu | reject =>
        simp only [Counted, State.fail_batch, List.length_append, List.length_map] at hs ⊢
        omega
      | notify _ hi => exact hs.set hi (Worker.wake_uncounted _) rfl rfl rfl
      | _ => exact hs
    | worker _ h => exact h.counted (turn_books hr) hs

/-- Between recording and counting is where a worker has something uncounted. -/
theorem uncounted_eq_zero (h : Reachable (scheduler o) Always s) {w : Worker} (hw : w ∈ s.workers)
    (hr : w.pc.recording = false) : w.pc.uncounted = 0 := by
  cases hpc : w.pc with
  | running turn =>
    have hwp := turn_books h w hw turn hpc
    cases hp : turn.prog with
    | pure r =>
      rw [hp] at hwp
      rcases r with ⟨e | _, l⟩
      · have hwp : turn.account = aborted turn.batch := hwp
        rw [WorkerPc.uncounted, hwp]
        rfl
      · have hwp : Settled turn.batch turn.account := hwp
        simp [WorkerPc.uncounted, hwp.counted]
    | call c k =>
      rw [hp] at hwp
      have hpre : accountPre turn.batch c turn.account := hwp.1
      cases c with
      | add_completed n => simp [hpc, WorkerPc.recording, hp] at hr
      | insert_metrics | fail_batch => simp [WorkerPc.uncounted, hpre.1]
      | release_bytes => simp [WorkerPc.uncounted, hpre.1]
      | _ =>
        have hpre : turn.account.counted = turn.account.recorded.length := hpre
        simp [WorkerPc.uncounted, hpre]
  | _ => rfl

/-! ### Conservation -/

/-- **No job is lost or counted twice**: in every state the scheduler reaches, each
sequence number handed out is in exactly one place, and there once; the others are
nowhere. `completed_` never exceeds the number of entries, and is equal to it whenever
no worker is between recording entries and counting them. -/
theorem jobs_conserved (h : Reachable (scheduler o) Always s) :
    (∀ seq < s.next_seq_, ∃ p, (s.hold p).count seq = 1 ∧ ∀ q, q ≠ p → seq ∉ s.hold q) ∧
    (∀ p, ∀ seq ∈ s.hold p, seq < s.next_seq_) ∧
    s.completed_ ≤ s.metrics_.length ∧
    ((∀ w ∈ s.workers, w.pc.recording = false) → s.completed_ = s.metrics_.length) := by
  have hl := ledger_simulation.reachable h
  have hc : Counted s := counted h
  unfold Counted at hc
  refine ⟨fun seq hseq => hl.exists_unique_place hseq, fun p seq hseq => hl.lt_of_mem hseq, by omega, fun hr => ?_⟩
  have h₀ : (s.workers.map fun w => w.pc.uncounted).sum = 0 :=
    List.sum_eq_zero fun n hn => by
      obtain ⟨w, hw, rfl⟩ := List.mem_map.mp hn
      exact uncounted_eq_zero h hw (hr w hw)
  omega

/-- Batches of one job, for one worker. -/
def oneByOne : Options := { num_workers := 1, max_batch := 1, fixed_budget_bytes := 1024 }

/-- Answers in which events, memory and times are new. -/
def freshAnswers : Answers
  | n, .now => n + 1
  | n, .cudaEventCreate => .ok n
  | n, .cudaMalloc _ | n, .cudaHostAlloc _ => .ok n
  | _, c => succeed c

/-- Worker `i` is answered, for the `n`-th time. -/
def answerFresh (i n : ℕ) (s : State) : Option Action := (s.nextCall i).map fun c => .answer i c (freshAnswers n c)

/-- Three jobs are pushed; the smallest is packed, and a worker takes it. -/
def takenTrace : List Action :=
  [.start, .probe false 1073741824, .spawn, .spawn, .submit { m := 2, n := 3, k := 2 },
   .submit { m := 1, n := 2, k := 4, batch := 2 }, .submit { m := 3, n := 1, k := 1 }, .client 1, .client 0, .client 2] ++
  List.replicate 9 .dispatcher ++ [.notify_worker none, .worker 0]

/-- The worker executes it and returns; then the next job is packed, and the worker takes it. -/
def workedTrace : List (State → Option Action) :=
  ofLabels takenTrace ++
  (List.range 43).map (answerFresh 0) ++
  ofLabels ([.worker 0] ++ List.replicate 9 .dispatcher ++ [.notify_worker none, .worker 0])

/-- Of the three jobs one is recorded, one is with the worker, and one is back in the queue. -/
theorem jobs_conserved_worked : ∃ s : State, s.metrics_.map JobMetrics.seq = [2] ∧
    s.workers.map (fun w => w.pc.unrecorded.map InferenceJob.seq) = [[1]] ∧ s.queue_.map InferenceJob.seq = [0] ∧
    (∀ seq < 3, ∃ p, (s.hold p).count seq = 1 ∧ ∀ q, q ≠ p → seq ∉ s.hold q) ∧ s.completed_ ≤ s.metrics_.length := by
  obtain ⟨s, hr, hfound⟩ := Reachable.of_chosen (T := scheduler oneByOne) Always
    (fun _ _ _ => step_of_stepAt oneByOne) ⟨1, rfl⟩ workedTrace
    (fun s => s.metrics_.map JobMetrics.seq = [2] &&
      (s.workers.map (fun w => w.pc.unrecorded.map InferenceJob.seq) = [[1]] &&
        (s.queue_.map InferenceJob.seq = [0] && s.next_seq_ = 3)))
    (by decide +kernel)
  simp only [Bool.and_eq_true, decide_eq_true_eq] at hfound
  obtain ⟨hmetrics, hworkers, hqueue, hnext⟩ := hfound
  obtain ⟨hplaces, -, hcounted, -⟩ := jobs_conserved hr
  exact ⟨s, hmetrics, hworkers, hqueue, fun seq hseq => hplaces seq (hnext ▸ hseq), hcounted⟩

/-- A job is in one place only. -/
theorem place_unique (h : Reachable (scheduler o) Always s) {p q : Place} {seq : ℕ} (hp : seq ∈ s.hold p)
    (hq : seq ∈ s.hold q) : p = q := by
  have hl := ledger_simulation.reachable h
  obtain ⟨r, -, hr⟩ := hl.exists_unique_place (hl.lt_of_mem (p := p) hp)
  have hpr : p = r := by_contra fun hne => hr p hne hp
  have hqr : q = r := by_contra fun hne => hr q hne hq
  rw [hpr, hqr]

/-- The jobs of a place are different ones. -/
theorem nodup_hold (h : Reachable (scheduler o) Always s) (p : Place) : (s.hold p).Nodup := by
  have hl := ledger_simulation.reachable h
  refine Multiset.nodup_iff_count_le_one.mpr fun seq => ?_
  by_cases hmem : seq ∈ s.hold p
  · obtain ⟨q, hq, hother⟩ := hl.exists_unique_place (hl.lt_of_mem (p := p) hmem)
    have hpq : p = q := by_contra fun hne => hother p hne hmem
    exact hpq ▸ hq.le
  · rw [Multiset.count_eq_zero.mpr hmem]
    exact Nat.zero_le 1

/-- The numbers of the jobs are those handed out. -/
theorem seq_lt_next (h : Reachable (scheduler o) Always s) {p : Place} {seq : ℕ} (hseq : seq ∈ s.hold p) :
    seq < s.next_seq_ :=
  (ledger_simulation.reachable h).lt_of_mem (p := p) hseq

/-- A job in places that no hand-over leaves stays there. -/
theorem mem_hold_of_closed {S : Place → Prop} (hS : ∀ p q, HandOver p q → S p → S q)
    (h : Reachable (scheduler o) Always s)
    (hrun : Steps (scheduler o) Always s t) {p : Place} {seq : ℕ} (hp : S p) (hseq : seq ∈ s.hold p) :
    ∃ q, S q ∧ seq ∈ t.hold q :=
  (ledger_simulation.steps h hrun).mem_of_closed hS hp hseq

/-- The places a job that has been packed may be in. -/
def Place.committed : Place → Prop
  | .chosen | .batches | .workers | .metrics => True
  | _ => False

theorem HandOver.committed : ∀ {p q : Place}, HandOver p q → p.committed → q.committed
  | _, _, .push, _ | _, _, .pop, _ | _, _, .record, _ => trivial
  | _, _, .drain, h | _, _, .fail, h | _, _, .pack, h | _, _, .requeue, h => h.elim

end Gbis.Sched
