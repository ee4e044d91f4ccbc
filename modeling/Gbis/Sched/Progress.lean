import Gbis.Sched.Completion
import Gbis.Sched.Launched
import Gbis.Sched.Reservation
import Gbis.Sched.Wakeup
import Mathlib.Data.Prod.Lex

/-!
# Nothing gets stuck

The threads of a running scheduler wait for one another: a client for `queue_mutex_`, the
dispatcher for jobs, for space and for `batch_mutex_`, the workers for batches. This module
shows that they never wait in vain. From every state that a running scheduler reaches, if
nobody disturbs it any more and the calls it makes succeed, it can finish everything: every
client returns, every job gets its entry, and nothing is reserved (`can_finish`). No wake-up
for no reason is needed for it.

What is needed is that each job submitted can be dealt with at all (`Serviceable`): it is at
most the budget that is there when nothing is reserved, or larger than the largest job, so
that the dispatcher rejects it.

The proof is by the progress rule, and the measure says what comes first (`State.measure`):
the clients return; jobs are completed; the dispatcher comes nearer to packing a batch, which
it does within two rounds of its loop, the first of which may go by a budget that is out of
date; and the workers come to rest.
-/

namespace Gbis.Sched

open Gbis.Core Library

variable {o : Options} {total : UInt64} {base : ℕ} {s t : State} {a : Action}

/-! ### What is assumed -/

/-- `base` is a value `budget_bytes()` can have while nothing is reserved. -/
def Offers (o : Options) (base : ℕ) : Prop :=
  if o.fixed_budget_bytes > 0 then base = o.fixed_budget_bytes.toNat
  else ∃ free : UInt64, ¬ free ≤ o.safety_margin_bytes ∧ base = (free - o.safety_margin_bytes).toNat

/-- The job fits the budget, or the dispatcher rejects it. -/
def Serviceable (o : Options) (total : UInt64) (base : ℕ) (job : InferenceJob) : Prop :=
  job.bytes_required ≤ base ∨ 0 < max_job_bytes o total ∧ max_job_bytes o total < job.bytes_required

instance (job : InferenceJob) : Decidable (Serviceable o total base job) := inferInstanceAs (Decidable (_ ∨ _))

/-- What happens before: nobody calls `stop()`, the device has `total` bytes of memory, the jobs
can be dealt with, and the streams and events can be created. -/
def Ordinary (o : Options) (total : UInt64) (base : ℕ) (_ : State) : Action → Prop
  | .submit job => Serviceable o total base job
  | .probe _ bytes => bytes = total
  | .stop => False
  | .answer _ c r => failedCreation ⟨c, r⟩ = false
  | _ => True

instance (s : State) : ∀ a, Decidable (Ordinary o total base s a)
  | .submit job => inferInstanceAs (Decidable (Serviceable o total base job))
  | .probe _ bytes => inferInstanceAs (Decidable (bytes = total))
  | .stop => .isFalse id
  | .answer _ c r => inferInstanceAs (Decidable (failedCreation ⟨c, r⟩ = false))
  | .tick _ | .client _ | .start | .spawn | .notify_all _ | .join | .dispatcher | .sample _ | .notify_worker _
  | .worker _ | .spurious_dispatcher | .spurious_worker _ => .isTrue trivial

/-- What happens from then on: the threads go on, and the calls succeed. -/
def Undisturbed (_ : State) : Action → Prop
  | .client _ | .dispatcher | .sample _ | .notify_worker _ | .worker _ => True
  | .answer _ c r => succeeded c r = true
  | _ => False

theorem failedCreation_of_succeeded {c : Call} {r : c.Ret} (h : succeeded c r = true) :
    failedCreation ⟨c, r⟩ = false := by
  cases c with
  | cudaStreamCreateWithFlags | cudaStreamCreate | cudaEventCreate =>
    cases r with
    | ok => rfl
    | error => cases h
  | _ => rfl

theorem Undisturbed.ordinary (h : Undisturbed s a) : Ordinary o total base s a := by
  cases a with
  | answer => exact failedCreation_of_succeeded h
  | _ => trivial

theorem Ordinary.noStop (h : Ordinary o total base s a) : NoStop s a := by
  cases a with
  | stop => exact h.elim
  | _ => rfl

theorem Ordinary.submits (h : Ordinary o total base s a) : Submits (Serviceable o total base) s a := by
  cases a with
  | submit => exact h
  | _ => trivial

/-! ### What holds of a running scheduler -/

/-- All turns satisfy `P`. -/
def AllTurns (P : Turn → Prop) (workers : List Worker) : Prop := ∀ w ∈ workers, ∀ turn, w.pc = .running turn → P turn

/-- No turn has failed to create a stream or an event. -/
abbrev AllCreated : List Worker → Prop := AllTurns fun turn => turn.account.creation_failed = false

/-- What keeps the threads alive. -/
structure Alive (total : UInt64) (s : State) : Prop where
  created : AllCreated s.workers
  terminated : s.terminated = false
  dispatcher : s.started_ = true → s.control ≠ .starting → s.dispatcher.rested = false
  total : s.dispatcher ≠ .absent → s.total_mem_bytes_ = total

theorem creation_failed_apply_of {acc : Account} {c : Call} {r : c.Ret} (h : acc.creation_failed = false)
    (hr : failedCreation ⟨c, r⟩ = false) : (acc.apply c r).creation_failed = false := by
  rw [show (acc.apply c r).creation_failed = _ from creation_failed_apply acc ⟨c, r⟩, h, hr]
  rfl

theorem AllTurns.set {P : Turn → Prop} {workers : List Worker} (h : AllTurns P workers) {i : ℕ} {w : Worker}
    (hw : ∀ turn, w.pc = .running turn → P turn) : AllTurns P (workers.set i w) := by
  intro v hv turn hpc
  rcases List.mem_or_eq_of_mem_set hv with hv | rfl
  · exact h v hv turn hpc
  · exact hw turn hpc

/-- A worker that wakes, if it does, has what it had. -/
theorem Worker.running_of_wake {w : Worker} {turn : Turn} (h : w.wake.pc = .running turn) : w.pc = .running turn := by
  unfold Worker.wake at h
  split at h
  · cases h
  · exact h

/-- **What is true of a turn when it begins, and is kept by its calls**, is true of all turns after
every step. The answer to a call is that of the step's label. -/
theorem Step.allTurns {P : Turn → Prop} (h : Step o s a t) (hs : AllTurns P s.workers)
    (hpop : ∀ batch l, P { batch, prog := worker_body o s.gpu_absent_ batch l })
    (hcall : ∀ i c r w turn k, a = .answer i c r → w ∈ s.workers → w.pc = .running turn → turn.prog = .call c k →
      P (turn.after c r (k r))) : AllTurns P t.workers := by
  cases h with
  | client _ h => cases h <;> exact hs
  | control _ h =>
    cases h with
    | spawn =>
      intro v hv turn hpc
      rcases List.mem_append.mp hv with hv | hv
      · exact hs v hv turn hpc
      · rw [List.mem_singleton.mp hv] at hpc
        cases hpc
    | notify_batch =>
      intro v hv turn hpc
      obtain ⟨w, hw, rfl⟩ := List.mem_map.mp hv
      exact hs w hw turn (Worker.running_of_wake hpc)
    | _ => exact hs
  | dispatcher _ h =>
    cases h with
    | notify _ hi => exact hs.set fun turn hpc => hs _ (List.mem_of_getElem? hi) turn (Worker.running_of_wake hpc)
    | _ => exact hs
  | worker _ h =>
    cases h with
    | exit | found_empty | block | done => exact hs.set (by simp)
    | pop =>
      refine hs.set fun turn hpc => ?_
      cases hpc
      exact hpop _ _
    | @call i w turn c k r hi hw hp _ =>
      simp only [State.setWorker, s.effect_workers]
      refine hs.set fun turn' hpc => ?_
      cases hpc
      exact hcall i c r w turn k rfl (List.mem_of_getElem? hi) hw hp
    | throw => exact hs
    | spurious hi => exact hs.set fun turn hpc => hs _ (List.mem_of_getElem? hi) turn (Worker.running_of_wake hpc)

/-- A turn in which no creation has failed does not throw. -/
theorem not_aborted {turn : Turn} (h : turn.account.creation_failed = false) :
    turn.account ≠ aborted turn.batch := by
  intro hab
  rw [hab] at h
  cases h

theorem Step.allCreated (h : Step o s a t) (ha : Ordinary o total base s a) (hs : AllCreated s.workers) :
    AllCreated t.workers := by
  refine h.allTurns hs (fun _ _ => rfl) ?_
  rintro i c r w turn k rfl hw hpc -
  exact creation_failed_apply_of (hs w hw turn hpc) ha

theorem DispatcherStep.rested_after (h : DispatcherStep o s a t) (hs : s.shutdown_ = false) :
    t.dispatcher.rested = false := by
  cases h with
  | space_exit _ _ hsd => simp [hs] at hsd
  | queue_exit _ hsd => simp [hs] at hsd
  | _ => rfl

/-- An exception leaves a worker only if a creation has failed. -/
theorem Step.terminated_eq (h : Step o s a t) (hr : Reachable (scheduler o) Always s) (hs : AllCreated s.workers) :
    t.terminated = s.terminated := by
  cases h with
  | client _ h => cases h <;> rfl
  | control _ h => cases h <;> rfl
  | dispatcher _ h => cases h <;> rfl
  | worker _ h =>
    cases h with
    | @throw i w turn e l hi hw hp =>
      have hmem := List.mem_of_getElem? hi
      have hwp := turn_books hr w hmem turn hw
      rw [hp] at hwp
      exact absurd hwp (not_aborted (hs w hmem turn hw))
    | @call _ _ _ c => cases c <;> rfl
    | _ => rfl

/-- When there is a dispatcher `start()` has just looked for a GPU, or what it has found is as before. -/
theorem Step.probe_cases (h : Step o s a t) (hd : t.dispatcher ≠ .absent) :
    (∃ gpu_absent bytes, a = .probe gpu_absent bytes ∧ t.gpu_absent_ = gpu_absent ∧ t.total_mem_bytes_ = bytes) ∨
      s.dispatcher ≠ .absent ∧ t.gpu_absent_ = s.gpu_absent_ ∧ t.total_mem_bytes_ = s.total_mem_bytes_ := by
  rcases h.control_cases with hcs | hsame
  · cases hcs with
    | probe => exact .inl ⟨_, _, rfl, rfl, rfl⟩
    | notify_queue =>
      exact .inr ⟨fun hab => hd (s.wakeDispatcher_woken_queue.eq_after hab (by simp)), rfl, rfl⟩
    | notify_space =>
      exact .inr ⟨fun hab => hd (s.wakeDispatcher_woken_space.eq_after hab (by simp)), rfl, rfl⟩
    | _ => exact .inr ⟨hd, rfl, rfl⟩
  · refine .inr ⟨fun hab => ?_, hsame.gpu_absent_, hsame.total_mem_bytes_⟩
    rcases h.dispatcher_cases with hds | hw | ⟨hc, hc', -⟩
    · have hrested := hds.rested_eq_false
      rw [hab] at hrested
      cases hrested
    · exact hd (hw.eq_after hab (by simp))
    · exact hc' (hsame.control.trans hc)

theorem Step.alive (h : Step o s a t) (ha : Ordinary o total base s a) (hr : Reachable (scheduler o) Always s)
    (hsd : s.shutdown_ = false) (hs : Alive total s) : Alive total t := by
  refine ⟨h.allCreated ha hs.created, (h.terminated_eq hr hs.created).trans hs.terminated, fun hst hc => ?_,
    fun hd => ?_⟩
  · rcases h.control_cases with hcs | hsame
    · cases hcs with
      | start => exact absurd rfl hc
      | probe => rfl
      | stopped => cases hst
      | notify_queue hc' =>
        rw [s.wakeDispatcher_woken_queue.rested]
        exact hs.dispatcher hst (by simp [hc'])
      | notify_space hc' =>
        rw [s.wakeDispatcher_woken_space.rested]
        exact hs.dispatcher hst (by simp [hc'])
      | spawn hc' | started hc' | stop hc' | notify_batch hc' | join_dispatcher hc' | join_workers hc' =>
        exact hs.dispatcher hst (by simp [hc'])
    · rw [hsame.started_] at hst
      rw [hsame.control] at hc
      rcases h.dispatcher_cases with hd | hd | ⟨hc', -⟩
      · exact hd.rested_after hsd
      · rw [hd.rested]
        exact hs.dispatcher hst hc
      · exact absurd hc' hc
  · rcases h.probe_cases hd with ⟨g, bytes, rfl, -, htotal⟩ | ⟨hd, -, htotal⟩
    · exact htotal.trans ha
    · exact htotal.trans (hs.total hd)

theorem jobsSeen (h : Reachable (scheduler o) Always s) : JobsSeen s := by
  refine h.invariant (I := JobsSeen) ?_ fun _ hs hstep _ => Step.jobsSeen hstep hs
  rintro _ ⟨t, rfl⟩
  exact ⟨by simp, by simp⟩

theorem spaceSeen (h : Reachable (scheduler o) Always s) : SpaceSeen o s := by
  refine h.invariant (I := SpaceSeen o) ?_ fun _ hs hstep _ => Step.spaceSeen hstep hs
  rintro _ ⟨t, rfl⟩
  exact ⟨by simp, by simp⟩

theorem batchesSeen (hn : 1 ≤ o.num_workers.toInt) (h : Reachable (scheduler o) NoStop s) : BatchesSeen s := by
  refine h.invariant (I := BatchesSeen) ?_ fun hr hs hstep ha =>
    Step.batchesSeen hn hstep ha (lifecycle (hr.mono fun _ _ _ => trivial)) hs
  rintro _ ⟨t, rfl⟩
  exact ⟨rfl, by simp, by simp, by simp, by simp⟩

theorem alive (hn : 1 ≤ o.num_workers.toInt) (h : Reachable (scheduler o) (Ordinary o total base) s) :
    Alive total s := by
  refine h.invariant (I := Alive total) ?_ fun hr hs hstep ha =>
    Step.alive hstep ha (hr.mono fun _ _ _ => trivial) (batchesSeen hn (hr.mono fun _ _ => Ordinary.noStop)).running hs
  rintro _ ⟨t, rfl⟩
  exact ⟨by simp [AllTurns], rfl, by simp, by simp⟩

/-- A scheduler that has been started, and whose past is ordinary. -/
structure Operating (o : Options) (total : UInt64) (base : ℕ) (s : State) : Prop where
  reachable : Reachable (scheduler o) (Ordinary o total base) s
  idle : s.control = .idle
  started : s.started_ = true

theorem Operating.always (h : Operating o total base s) : Reachable (scheduler o) Always s :=
  h.reachable.mono fun _ _ _ => trivial

theorem Operating.batchesSeen (hn : 1 ≤ o.num_workers.toInt) (h : Operating o total base s) : BatchesSeen s :=
  Sched.batchesSeen hn (h.reachable.mono fun _ _ => Ordinary.noStop)

theorem Operating.alive (hn : 1 ≤ o.num_workers.toInt) (h : Operating o total base s) : Alive total s :=
  Sched.alive hn h.reachable

theorem Operating.step (h : Operating o total base s) (hst : Step o s a t) (ha : Undisturbed s a) :
    Operating o total base t := by
  refine ⟨h.reachable.tail hst ha.ordinary, ?_, ?_⟩
  all_goals
    rcases hst.control_cases with hc | hsame
    · cases hc <;> exact ha.elim
  · exact hsame.control.trans h.idle
  · exact hsame.started_.trans h.started

theorem Operating.steps (h : Operating o total base s) (hst : Steps (scheduler o) Undisturbed s t) :
    Operating o total base t :=
  hst.preserves (I := Operating o total base) (fun hs hstep ha => Operating.step hs hstep ha) h

/-! ### A worker finishes its turn -/

/-- What a worker leaves alone: the clients, the queue, the batches, and the dispatcher, but that
it may wake it. -/
structure Aside (s t : State) : Prop where
  clients : SameClients s t
  queue_ : t.queue_ = s.queue_
  batch_queue_ : t.batch_queue_ = s.batch_queue_
  dispatcher : Woken s.dispatcher t.dispatcher

theorem Woken.trans {p q r : DispatcherPc} (h : Woken p q) (h' : Woken q r) : Woken p r := by
  cases h with
  | same => exact h'
  | space => cases h'; exact .space
  | queue => cases h'; exact .queue

theorem Aside.trans {u : State} (h : Aside s t) (h' : Aside t u) : Aside s u :=
  ⟨⟨h'.clients.submits.trans h.clients.submits, h'.clients.next_seq_.trans h.clients.next_seq_,
      h'.clients.submitted_.trans h.clients.submitted_⟩,
    h'.queue_.trans h.queue_, h'.batch_queue_.trans h.batch_queue_, h.dispatcher.trans h'.dispatcher⟩

/-- An answer of success to each call; memory is handed out at `p`. -/
def succeedAt (p : ℕ) : (c : Call) → c.Ret
  | .cudaMalloc _ => .ok p
  | c => succeed c

theorem succeeded_succeedAt (p : ℕ) (c : Call) : succeeded c (succeedAt p c) = true := by
  cases c <;> rfl

theorem exists_mayAnswer (s : State) (c : Call) : ∃ r, s.mayAnswer c r ∧ succeeded c r = true := by
  obtain ⟨p, hp⟩ := Infinite.exists_notMem_finset s.allocated.toFinset
  refine ⟨succeedAt p c, ?_, succeeded_succeedAt p c⟩
  cases c with
  | cudaMalloc bytes =>
    rintro q ⟨⟩
    simpa using hp
  | _ => rintro q ⟨⟩

/-- What a call completes, the worker counts. -/
theorem effect_completed (s : State) (acc : Account) (c : Call) (r : c.Ret) :
    (s.effect c).completed_ + acc.counted = s.completed_ + (acc.apply c r).counted := by
  cases c with
  | add_completed | fail_batch => simp [State.effect, State.fail_batch, Account.apply]; omega
  | cudaStreamCreateWithFlags | cudaStreamCreate | cudaEventCreate => cases r <;> rfl
  | _ => rfl

/-- **A turn comes to its end**, with the whole batch completed. -/
theorem Operating.finish_turn (hn : 1 ≤ o.num_workers.toInt) {i : ℕ} {w : Worker} {turn : Turn}
    (h : Operating o total base s) (hi : s.workers[i]? = some w) (hw : w.pc = .running turn) :
    ∃ t l, Steps (scheduler o) Undisturbed s t ∧ t.workers = s.workers.set i ⟨.wait, l⟩ ∧ Aside s t ∧
      t.completed_ + turn.account.counted = s.completed_ + turn.batch.length := by
  have hmem := List.mem_of_getElem? hi
  have halive := h.alive hn
  have hwp := turn_books h.always w hmem turn hw
  induction hp : turn.prog generalizing s w turn with
  | pure r =>
    rw [hp] at hwp
    obtain ⟨e | ⟨⟩, l⟩ := r
    · exact absurd hwp (not_aborted (halive.created w hmem turn hw))
    · have hset : Settled turn.batch turn.account := hwp
      refine ⟨s.setWorker i ⟨.wait, l⟩, l, .single (.worker halive.terminated (.done hi hw hp)) trivial, rfl,
        ⟨⟨rfl, rfl, rfl⟩, rfl, rfl, .same _⟩, ?_⟩
      rw [hset.counted, hset.recorded.length_eq]
      rfl
  | call c k ih =>
    obtain ⟨r, hr, hok⟩ := exists_mayAnswer s c
    have hstep : Step o s (.answer i c r) ((s.effect c).setWorker i { w with pc := .running (turn.after c r (k r)) }) :=
      .worker halive.terminated (.call hi hw hp hr)
    have hrun := h.step hstep hok
    have hlt := (List.getElem?_eq_some_iff.mp hi).1
    have hi' : ((s.effect c).setWorker i { w with pc := .running (turn.after c r (k r)) }).workers[i]? =
        some { w with pc := .running (turn.after c r (k r)) } := by
      simp [State.setWorker, s.effect_workers, hlt]
    have hmem' := List.mem_of_getElem? hi'
    obtain ⟨t, l, hst, hws, haside, hcount⟩ := ih r hrun hi' rfl hmem' (hrun.alive hn)
      (turn_books hrun.always _ hmem' _ rfl) rfl
    obtain ⟨h₁, h₂, h₃⟩ := s.effect_queues c
    obtain ⟨-, h₄, h₅⟩ := s.effect_sameClients c
    refine ⟨t, l, (Steps.single (T := scheduler o) hstep hok).trans hst, ?_,
      Aside.trans (t := (s.effect c).setWorker i _) ⟨⟨h₁, h₄, h₅⟩, h₂, h₃, s.effect_woken c⟩ haside, ?_⟩
    · rw [hws]
      simp [State.setWorker, s.effect_workers]
    · have heff := effect_completed s turn.account c r
      simp only [State.setWorker, Turn.after] at hcount
      omega

/-! ### The measure -/

/-- The steps a client has yet to take. -/
def SubmitPc.left : SubmitPc → ℕ
  | .stamped _ => 3
  | .pushed _ => 2
  | .counted _ => 1
  | .returned _ => 0

/-- A worker that has something to do before it rests. -/
def WorkerPc.load : WorkerPc → ℕ
  | .running _ | .found_empty => 1
  | _ => 0

/-- So has the dispatcher. -/
def DispatcherPc.load : DispatcherPc → ℕ
  | .space_false | .queue_false | .pushed => 1
  | _ => 0

/-- How far the dispatcher is from pushing a batch, when no batch is committed. A place from which
it will select something comes before the wait for space, and one from which it will not, the budget
being out of date, after it. -/
def DispatcherPc.lap (base : ℕ) : DispatcherPc → ℕ
  | .absent | .exited => 0
  | .reserved _ => 1
  | .requeued selected => if selected = [] then 11 else 2
  | .packed selected _ => if selected = [] then 12 else 3
  | .budgeted candidates budget => if ∃ job ∈ candidates, job.bytes_required ≤ budget then 4 else 13
  | .based candidates base => if ∃ job ∈ candidates, job.bytes_required ≤ base then 5 else 14
  | .filtered candidates => if ∃ job ∈ candidates, job.bytes_required ≤ base then 6 else 15
  | .queue_wait => 9
  | .space_wait => 10
  | .pushed => 11
  | .rejecting .. => 16
  | .drained _ => 17
  | .space_blocked | .queue_blocked => 18
  | .space_false | .queue_false => 19

/-- What the clients have yet to do. -/
def State.clientsLeft (s : State) : ℕ := (s.submits.map SubmitPc.left).sum

/-- The jobs that have yet to be completed. -/
def State.jobsLeft (s : State) : ℕ := s.next_seq_ - s.completed_

/-- No batch is waiting for a worker, or for a worker to record it. -/
def State.Uncommitted (s : State) : Prop := s.batch_queue_ = [] ∧ ∀ w ∈ s.workers, w.pc.unrecorded = []

instance (s : State) : Decidable s.Uncommitted := inferInstanceAs (Decidable (_ ∧ _))

/-- How far the dispatcher is from committing a batch, if none is committed. -/
def State.lap (base : ℕ) (s : State) : ℕ := if s.Uncommitted then s.dispatcher.lap base else 0

/-- How far the workers are from rest. -/
def State.load (s : State) : ℕ :=
  2 * s.batch_queue_.length + (s.workers.map fun w => w.pc.load).sum + s.dispatcher.load

/-- What is left to do, the most important first. -/
def State.measure (base : ℕ) (s : State) : ℕ ×ₗ ℕ ×ₗ ℕ ×ₗ ℕ :=
  toLex (s.clientsLeft, toLex (s.jobsLeft, toLex (s.lap base, s.load)))

theorem measure_lt_iff : t.measure base < s.measure base ↔
    t.clientsLeft < s.clientsLeft ∨ t.clientsLeft = s.clientsLeft ∧ (t.jobsLeft < s.jobsLeft ∨
      t.jobsLeft = s.jobsLeft ∧ (t.lap base < s.lap base ∨ t.lap base = s.lap base ∧ t.load < s.load)) := by
  simp only [State.measure, Prod.Lex.toLex_lt_toLex]

/-- From `s` the scheduler, undisturbed, gets nearer to having finished. -/
def Nears (o : Options) (base : ℕ) (s : State) : Prop :=
  ∃ t, Steps (scheduler o) Undisturbed s t ∧ t.measure base < s.measure base

/-- It does when a job is completed, and the clients stay where they are. -/
theorem measure_lt_of_completed (hr : Reachable (scheduler o) Always t) (h : SameClients s t)
    (hc : s.completed_ < t.completed_) : t.measure base < s.measure base := by
  have hle := (completed_le_entries hr).trans (entries_le_next hr)
  rw [h.next_seq_] at hle
  refine measure_lt_iff.mpr (.inr ⟨by simp only [State.clientsLeft, h.submits], .inl ?_⟩)
  simp only [State.jobsLeft, h.next_seq_]
  omega

/-- It does when no job is completed, and the rest of the measure is smaller. -/
theorem measure_lt_of_same (h : SameClients s t) (hc : t.completed_ = s.completed_)
    (hl : t.lap base < s.lap base ∨ t.lap base ≤ s.lap base ∧ t.load < s.load) : t.measure base < s.measure base := by
  refine measure_lt_iff.mpr (.inr ⟨by simp only [State.clientsLeft, h.submits], .inr ⟨?_, ?_⟩⟩)
  · simp only [State.jobsLeft, h.next_seq_, hc]
  · omega

theorem lap_le (hu : t.Uncommitted → s.Uncommitted) (hd : t.dispatcher.lap base ≤ s.dispatcher.lap base) :
    t.lap base ≤ s.lap base := by
  unfold State.lap
  split_ifs with ht hs
  · exact hd
  · exact absurd (hu ht) hs
  · exact Nat.zero_le _
  · exact le_refl _

theorem lap_eq_zero (h : ¬ s.Uncommitted) : s.lap base = 0 := if_neg h

/-- A dispatcher that is woken is nearer. -/
theorem Woken.lap_le {pc pc' : DispatcherPc} (h : Woken pc pc') : pc'.lap base ≤ pc.lap base := by
  cases h <;> simp [DispatcherPc.lap]

theorem Woken.load_le {pc pc' : DispatcherPc} (h : Woken pc pc') : pc'.load ≤ pc.load := by
  cases h <;> simp [DispatcherPc.load]

/-! ### The clients return -/

theorem Operating.client_nears (hn : 1 ≤ o.num_workers.toInt) (h : Operating o total base s) {i : ℕ} {p : SubmitPc}
    (hi : s.submits[i]? = some p) (hp : 0 < p.left) (hq : s.dispatcher ≠ .queue_false) : Nears o base s := by
  have hterm := (h.alive hn).terminated
  -- a step that makes `q` of the client makes the sum smaller, if `q` has less left
  have hless : ∀ q : SubmitPc, q.left < p.left →
      ((s.submits.set i q).map SubmitPc.left).sum < (s.submits.map SubmitPc.left).sum := by
    intro q hq
    obtain ⟨rest, h₁, h₂⟩ := exists_sum_set SubmitPc.left hi
    rw [h₁, h₂]
    omega
  cases p with
  | stamped job =>
    exact ⟨_, .single (.client hterm (.push hi hq)) trivial,
      measure_lt_iff.mpr (.inl (hless (.pushed s.next_seq_) (by simp [SubmitPc.left])))⟩
  | pushed seq =>
    exact ⟨_, .single (.client hterm (.count hi)) trivial,
      measure_lt_iff.mpr (.inl (hless (.counted seq) (by simp [SubmitPc.left])))⟩
  | counted seq =>
    exact ⟨_, .single (.client hterm (.notify hi)) trivial,
      measure_lt_iff.mpr (.inl (hless (.returned seq) (by simp [SubmitPc.left])))⟩
  | returned => cases hp

/-! ### The workers come to rest -/

/-- What is reserved for a worker's batch, other workers left alone. -/
theorem unrecorded_set {i : ℕ} {w w' : Worker} (hi : s.workers[i]? = some w) (hw : w.pc.unrecorded = [])
    (h : ∀ v ∈ s.workers.set i w', v.pc.unrecorded = []) : ∀ v ∈ s.workers, v.pc.unrecorded = [] := by
  intro v hv
  obtain ⟨j, hj⟩ := List.mem_iff_getElem?.mp hv
  by_cases hij : i = j
  · subst hij
    obtain rfl : w = v := Option.some.inj (hi.symm.trans hj)
    exact hw
  · exact h v (List.mem_of_getElem? ((List.getElem?_set_ne hij).trans hj))

theorem load_set (m n : ℕ) {i : ℕ} {w : Worker} (w' : Worker) (hi : s.workers[i]? = some w) (hw : w.pc.load = m)
    (hw' : w'.pc.load = n) :
    ((s.workers.set i w').map fun w => w.pc.load).sum + m = (s.workers.map fun w => w.pc.load).sum + n := by
  obtain ⟨rest, h₁, h₂⟩ := exists_sum_set (fun w : Worker => w.pc.load) hi
  rw [h₁, h₂, hw, hw']
  omega

/-- A worker that has found no batch goes to sleep. -/
theorem Operating.found_empty_nears (hn : 1 ≤ o.num_workers.toInt) (h : Operating o total base s) {i : ℕ} {w : Worker}
    (hi : s.workers[i]? = some w) (hw : w.pc = .found_empty) : Nears o base s := by
  refine ⟨_, .single (.worker (h.alive hn).terminated (.block hi hw)) trivial,
    measure_lt_of_same ⟨rfl, rfl, rfl⟩ rfl (.inr ⟨?_, ?_⟩)⟩
  · exact lap_le (fun hu => ⟨hu.1, unrecorded_set hi (by rw [hw]; rfl) hu.2⟩) (le_refl _)
  · have hload := load_set 1 0 { w with pc := .blocked } hi (by rw [hw]; rfl) rfl
    simp only [State.load, State.setWorker]
    omega

/-- So does the dispatcher when it has found no space, or no job. -/
theorem Operating.looked_nears (hn : 1 ≤ o.num_workers.toInt) (h : Operating o total base s)
    (hd : s.dispatcher = .space_false ∨ s.dispatcher = .queue_false) : Nears o base s := by
  have hterm := (h.alive hn).terminated
  rcases hd with hd | hd
  · refine ⟨_, .single (.dispatcher hterm (.space_block hd)) trivial,
      measure_lt_of_same ⟨rfl, rfl, rfl⟩ rfl (.inr ⟨lap_le id (by simp [hd, DispatcherPc.lap]), ?_⟩)⟩
    simp [State.load, hd, DispatcherPc.load]
  · refine ⟨_, .single (.dispatcher hterm (.queue_block hd)) trivial,
      measure_lt_of_same ⟨rfl, rfl, rfl⟩ rfl (.inr ⟨lap_le id (by simp [hd, DispatcherPc.lap]), ?_⟩)⟩
    simp [State.load, hd, DispatcherPc.load]

/-- What is counted has been recorded. -/
theorem counted_le_recorded (hr : Reachable (scheduler o) Always s) {w : Worker} (hw : w ∈ s.workers) {turn : Turn}
    (hpc : w.pc = .running turn) (hcreated : turn.account.creation_failed = false) :
    turn.account.counted ≤ turn.account.recorded.length := by
  have hwp := turn_books hr w hw turn hpc
  cases hp : turn.prog with
  | pure r =>
    rw [hp] at hwp
    obtain ⟨e | ⟨⟩, l⟩ := r
    · exact absurd hwp (not_aborted hcreated)
    · have hset : Settled turn.batch turn.account := hwp
      exact hset.counted.le
  | call c k =>
    rw [hp] at hwp
    have hpre : accountPre turn.batch c turn.account := hwp.1
    cases c with
    | insert_metrics | fail_batch => exact hpre.2.1 ▸ Nat.zero_le _
    | add_completed n => exact Nat.le.intro hpre
    | release_bytes => exact hpre.1.le
    | _ => exact Nat.le_of_eq hpre

/-- A worker finishes its turn. Either that completes a job, or the batch had been recorded before. -/
theorem Operating.running_nears (hn : 1 ≤ o.num_workers.toInt) (h : Operating o total base s) {i : ℕ} {w : Worker}
    {turn : Turn} (hi : s.workers[i]? = some w) (hw : w.pc = .running turn) : Nears o base s := by
  obtain ⟨t, l, hst, hws, haside, hcount⟩ := h.finish_turn hn hi hw
  have hmem := List.mem_of_getElem? hi
  have hle : s.completed_ ≤ t.completed_ :=
    hst.preserves (I := fun u => s.completed_ ≤ u.completed_)
      (fun hs hstep _ => hs.trans (Step.completed_le hstep)) le_rfl
  refine ⟨t, hst, ?_⟩
  rcases hle.lt_or_eq with hlt | heq
  · exact measure_lt_of_completed (h.steps hst).always haside.clients hlt
  · have hne := List.length_pos_iff.mpr ((batched h.always).running w hmem turn hw)
    have hrec := counted_le_recorded h.always hmem hw ((h.alive hn).created w hmem turn hw)
    have hsome : turn.account.recorded ≠ [] := List.length_pos_iff.mp (by omega)
    have hunrec : w.pc.unrecorded = [] := by rw [hw]; exact if_neg hsome
    refine measure_lt_of_same haside.clients heq.symm (.inr ⟨?_, ?_⟩)
    · refine lap_le (fun hu => ⟨haside.batch_queue_ ▸ hu.1, ?_⟩) haside.dispatcher.lap_le
      exact unrecorded_set hi hunrec (hws ▸ hu.2)
    · have hload := load_set 1 0 ⟨.wait, l⟩ hi (by rw [hw]; rfl) rfl
      have hd := haside.dispatcher.load_le
      simp only [State.load, haside.batch_queue_, hws]
      omega

/-- When there is a batch and no worker is running, one takes it, or is woken first. -/
theorem Operating.batch_nears (hn : 1 ≤ o.num_workers.toInt) (h : Operating o total base s) (hq : s.batch_queue_ ≠ [])
    (hm : s.batch_mutex_free) (hr : ∀ w ∈ s.workers, ∀ turn, w.pc ≠ .running turn) : Nears o base s := by
  have hterm := (h.alive hn).terminated
  have hpushed : s.dispatcher = .pushed ∨ ∃ w ∈ s.workers, w.pc.isAwake = true := by
    refine ((h.batchesSeen hn).awake hq).imp_right fun hc => hc.resolve_left ?_
    simp [h.idle, ControlPc.spawns]
  by_cases hwait : ∃ w ∈ s.workers, w.pc = .wait
  · -- it takes the batch, which it has not recorded
    obtain ⟨w, hmem, hw⟩ := hwait
    obtain ⟨i, hi⟩ := List.mem_iff_getElem?.mp hmem
    obtain ⟨batch, rest, hqs⟩ := List.exists_cons_of_ne_nil hq
    have hne := (batched h.always).batches batch (by simp [hqs])
    refine ⟨_, .single (.worker hterm (.pop hi hw hm hqs)) trivial,
      measure_lt_of_same ⟨rfl, rfl, rfl⟩ rfl (.inr ⟨?_, ?_⟩)⟩
    · refine (lap_eq_zero fun hu => hne ?_).trans_le (Nat.zero_le _)
      exact hu.2 _ (List.mem_set (List.getElem?_eq_some_iff.mp hi).1 _)
    · have hload := load_set 0 1
        { w with pc := .running { batch, prog := worker_body o s.gpu_absent_ batch w.locals } } hi (by rw [hw]; rfl) rfl
      simp only [State.load, State.setWorker, hqs, List.length_cons]
      omega
  · -- nobody is awake, so the dispatcher is about to wake one of the workers, who all sleep
    obtain hd | ⟨w, hmem, hawake⟩ := hpushed
    · obtain ⟨w, hmem⟩ : ∃ w, w ∈ s.workers := by
        refine List.exists_mem_of_ne_nil _ (((h.batchesSeen hn).crew (by simp [hd])).resolve_left ?_)
        simp [h.idle, ControlPc.spawns]
      have hblocked : w.pc.isBlocked = true := by
        have hlook := hm.2 w hmem
        have hstay := (h.batchesSeen hn).staying w hmem
        cases hpc : w.pc with
        | wait => exact absurd ⟨w, hmem, hpc⟩ hwait
        | running turn => exact absurd hpc (hr w hmem turn)
        | found_empty => simp [hpc, WorkerPc.holdsMutex] at hlook
        | exited => simp [hpc, WorkerPc.isExited] at hstay
        | blocked => rfl
      obtain ⟨i, hi⟩ := List.mem_iff_getElem?.mp hmem
      refine ⟨_, .single (.dispatcher hterm (.notify hd hi hblocked)) trivial,
        measure_lt_of_same ⟨rfl, rfl, rfl⟩ rfl (.inr ⟨?_, ?_⟩)⟩
      · refine (lap_eq_zero fun hu => hq ?_).trans_le (Nat.zero_le _)
        exact hu.1
      · have hload := load_set 0 0 w.wake hi (by rw [WorkerPc.eq_blocked hblocked]; rfl)
          (show w.wake.pc.load = 0 by unfold Worker.wake; rw [WorkerPc.eq_blocked hblocked]; rfl)
        simp only [State.load, State.setWorker, hd, DispatcherPc.load]
        omega
    · cases hpc : w.pc with
      | wait => exact absurd ⟨w, hmem, hpc⟩ hwait
      | running turn => exact absurd hpc (hr w hmem turn)
      | found_empty | blocked | exited => simp [hpc, WorkerPc.isAwake] at hawake

/-! ### The dispatcher comes round -/

/-- Everybody but the dispatcher rests. -/
structure Calm (s : State) : Prop where
  clients : ∀ p ∈ s.submits, p.left = 0
  workers : ∀ w ∈ s.workers, w.pc.load = 0
  batch_queue_ : s.batch_queue_ = []

theorem WorkerPc.unrecorded_of_load : ∀ {pc : WorkerPc}, pc.load = 0 → pc.unrecorded = [] ∧ pc.uncounted = 0
  | .wait, _ | .blocked, _ | .exited, _ => ⟨rfl, rfl⟩

theorem WorkerPc.committed_of_load : ∀ {pc : WorkerPc}, pc.load = 0 → pc.committed = 0
  | .wait, _ | .blocked, _ | .exited, _ => rfl

theorem Calm.uncommitted (h : Calm s) : s.Uncommitted :=
  ⟨h.batch_queue_, fun w hw => (WorkerPc.unrecorded_of_load (h.workers w hw)).1⟩

theorem Calm.batch_mutex_free (h : Calm s) (hd : s.dispatcher ≠ .space_false) : s.batch_mutex_free := by
  refine ⟨hd, fun w hw => ?_⟩
  have hload := h.workers w hw
  cases hpc : w.pc with
  | found_empty => simp [hpc, WorkerPc.load] at hload
  | _ => rfl

/-- Nothing is reserved, but for a batch that the dispatcher is about to push. -/
theorem Calm.reserved (h : Calm s) (hr : Reachable (scheduler o) Always s) :
    s.reserved_bytes_ = s.dispatcher.committed := by
  have hworkers : (s.workers.map fun w => w.pc.committed).sum = 0 := by
    refine List.sum_eq_zero fun n hn => ?_
    obtain ⟨w, hw, rfl⟩ := List.mem_map.mp hn
    exact WorkerPc.committed_of_load (h.workers w hw)
  simp [(reservation hr).reserved, State.committed, hworkers, h.batch_queue_]

/-- If a job is not completed and the dispatcher has none, there is one in the queue. -/
theorem Calm.queue_ne_nil (h : Calm s) (hr : Reachable (scheduler o) Always s) (hlt : s.completed_ < s.next_seq_)
    (hu : s.dispatcher.undecided = []) (hc : s.dispatcher.chosen = []) : s.queue_ ≠ [] := by
  intro hq
  have hworkers : (s.workers.map fun w => seqs w.pc.unrecorded).sum = 0 := by
    refine List.sum_eq_zero fun n hn => ?_
    obtain ⟨w, hw, rfl⟩ := List.mem_map.mp hn
    rw [(WorkerPc.unrecorded_of_load (h.workers w hw)).1]
    rfl
  have huncounted : (s.workers.map fun w => w.pc.uncounted).sum = 0 := by
    refine List.sum_eq_zero fun n hn => ?_
    obtain ⟨w, hw, rfl⟩ := List.mem_map.mp hn
    exact (WorkerPc.unrecorded_of_load (h.workers w hw)).2
  have hcounted : Counted s := counted hr
  unfold Counted at hcounted
  have hsum : ∑ p, s.hold p = Multiset.range s.next_seq_ := (ledger_simulation.reachable hr).sum_hold
  rw [Finset.sum_eq_single Place.metrics] at hsum
  · have hcard := congrArg Multiset.card hsum
    simp only [State.hold, Multiset.coe_card, List.length_map, Multiset.card_range] at hcard
    omega
  · intro p _ hp
    cases p with
    | queue => simp [State.hold, hq]
    | round => simp [State.hold, hu]
    | chosen => simp [State.hold, hc]
    | batches => simp [State.hold, h.batch_queue_]
    | workers => exact hworkers
    | metrics => exact absurd rfl hp
  · simp

theorem lap_lt (hu : s.Uncommitted) (hd : t.dispatcher.lap base < s.dispatcher.lap base) : t.lap base < s.lap base := by
  unfold State.lap
  rw [if_pos hu]
  split_ifs <;> omega

/-- It does when the dispatcher gets nearer, and perhaps completes jobs. -/
theorem measure_lt_of_lap (hr : Reachable (scheduler o) Always t) (h : SameClients s t)
    (hc : s.completed_ ≤ t.completed_) (hl : t.lap base < s.lap base) : t.measure base < s.measure base := by
  rcases hc.lt_or_eq with hlt | heq
  · exact measure_lt_of_completed hr h hlt
  · exact measure_lt_of_same h heq.symm (.inl hl)

/-- One step of the dispatcher, by which it gets nearer. -/
theorem Operating.dispatcher_nears (hn : 1 ≤ o.num_workers.toInt) (h : Operating o total base s) (hcalm : Calm s)
    (hstep : DispatcherStep o s a t) (ha : Undisturbed s a) (hd : t.dispatcher.lap base < s.dispatcher.lap base) :
    Nears o base s := by
  have hst : Step o s a t := .dispatcher (h.alive hn).terminated hstep
  refine ⟨t, .single hst ha, measure_lt_of_lap (h.step hst ha).always ?_ hst.completed_le (lap_lt hcalm.uncommitted hd)⟩
  rcases hst.client_cases with hc | hc
  · cases hstep <;> cases hc
  · exact hc

theorem serviceable_stamped (job : InferenceJob) (time : ℤ) (seq : ℕ) (h : Serviceable o total base job) :
    Serviceable o total base { job with submit_time := time, seq := seq } := h

/-- Of jobs that can be dealt with, those that are not rejected fit the budget. -/
theorem exists_fits {candidates : List InferenceJob} (hne : candidates ≠ [])
    (hs : ∀ job ∈ candidates, Serviceable o total base job) (hno : oversized (max_job_bytes o total) candidates = []) :
    ∃ job ∈ admitted (max_job_bytes o total) candidates, job.bytes_required ≤ base := by
  have hperm := oversized_append_admitted_perm (max_job_bytes o total) candidates
  rw [hno, List.nil_append] at hperm
  obtain ⟨job, hjob⟩ := List.exists_mem_of_ne_nil _ hne
  refine ⟨job, hperm.mem_iff.mpr hjob, (hs job hjob).resolve_right ?_⟩
  intro hlarge
  rw [oversized, if_pos hlarge.1, List.filter_eq_nil_iff] at hno
  exact hno job hjob (by simpa using hlarge.2)

/-- The dispatcher drains the queue: some of the jobs are failed at once, or one of them fits. -/
theorem Operating.drain_nears (hn : 1 ≤ o.num_workers.toInt) (h : Operating o total base s) (hcalm : Calm s)
    (hd : s.dispatcher = .queue_wait) (hq : s.queue_ ≠ []) : Nears o base s := by
  have halive := h.alive hn
  have htotal := halive.total (by simp [hd])
  have hserviceable : ∀ job ∈ drainOrder s.queue_, Serviceable o total base job := by
    have hcarried := carried (B := fun _ => True) serviceable_stamped trivial (fun _ _ _ _ _ _ => trivial)
      (h.reachable.mono fun _ _ => Ordinary.submits)
    exact fun job hjob => hcarried.queue_ job ((drainOrder_perm s.queue_).mem_iff.mp hjob)
  have hne : drainOrder s.queue_ ≠ [] := fun hnil => hq (List.perm_nil.mp (hnil ▸ (drainOrder_perm s.queue_).symm))
  have hdrain : Step o s .dispatcher { s with dispatcher := .drained (drainOrder s.queue_), queue_ := [] } :=
    .dispatcher halive.terminated (.drain hd (h.batchesSeen hn).running hq)
  have hrun := h.step hdrain trivial
  have hterm := (hrun.alive hn).terminated
  have hfirst : Steps (scheduler o) Undisturbed s _ := .single hdrain trivial
  by_cases hg : s.gpu_absent_ = true
  · have hfail := Step.dispatcher hterm (.no_gpu (o := o) rfl hg)
    refine ⟨_, hfirst.tail hfail trivial, measure_lt_of_completed (hrun.step hfail trivial).always ⟨rfl, rfl, rfl⟩ ?_⟩
    exact Nat.lt_add_of_pos_right (List.length_pos_iff.mpr hne)
  · have hg : s.gpu_absent_ = false := by simpa using hg
    by_cases hno : oversized (max_job_bytes o total) (drainOrder s.queue_) = []
    · have hkeep := Step.dispatcher hterm (.keep (o := o) rfl hg (htotal ▸ hno))
      refine ⟨_, hfirst.tail hkeep trivial, measure_lt_of_same ⟨rfl, rfl, rfl⟩ rfl (.inl (lap_lt hcalm.uncommitted ?_))⟩
      have hfits := exists_fits hne hserviceable hno
      rw [← htotal] at hfits
      simp only [DispatcherPc.lap, hd, if_pos hfits]
      omega
    · have hfilter := Step.dispatcher hterm (.filter (o := o) rfl hg (htotal ▸ hno))
      have hrun' := hrun.step hfilter trivial
      have hreject := Step.dispatcher (hrun'.alive hn).terminated (.reject (o := o) rfl)
      refine ⟨_, (hfirst.tail hfilter trivial).tail hreject trivial,
        measure_lt_of_completed (hrun'.step hreject trivial).always ⟨rfl, rfl, rfl⟩ ?_⟩
      exact Nat.lt_add_of_pos_right (List.length_pos_iff.mpr (htotal ▸ hno))

/-- The dispatcher wakes a worker, if one sleeps, or none. -/
theorem Operating.pushed_nears (hn : 1 ≤ o.num_workers.toInt) (h : Operating o total base s) (hcalm : Calm s)
    (hd : s.dispatcher = .pushed) : Nears o base s := by
  have hlap : DispatcherPc.lap base .space_wait < s.dispatcher.lap base := by simp [hd, DispatcherPc.lap]
  by_cases hb : ∃ w ∈ s.workers, w.pc.isBlocked = true
  · obtain ⟨w, hmem, hblocked⟩ := hb
    obtain ⟨i, hi⟩ := List.mem_iff_getElem?.mp hmem
    exact h.dispatcher_nears hn hcalm (.notify hd hi hblocked) trivial hlap
  · refine h.dispatcher_nears hn hcalm (.notify_none hd fun w hw => ?_) trivial hlap
    by_contra hne
    exact hb ⟨w, hw, by simpa using hne⟩

theorem two_le_max_queue_depth : 2 ≤ max_queue_depth o := le_max_left _ _

/-- **The dispatcher comes nearer** to a batch, wherever it is, while a job is not completed and
the others rest. -/
theorem Operating.calm_nears (hn : 1 ≤ o.num_workers.toInt) (hbase : Offers o base) (h : Operating o total base s)
    (hcalm : Calm s) (hlt : s.completed_ < s.next_seq_) : Nears o base s := by
  have hrested := (h.alive hn).dispatcher h.started (by simp [h.idle])
  have hsd := (h.batchesSeen hn).running
  have hqueue := hcalm.queue_ne_nil h.always hlt
  cases hd : s.dispatcher with
  | absent | exited => simp [hd, DispatcherPc.rested] at hrested
  | space_false => exact h.looked_nears hn (.inl hd)
  | queue_false => exact h.looked_nears hn (.inr hd)
  | pushed => exact h.pushed_nears hn hcalm hd
  | queue_wait =>
    exact h.drain_nears hn hcalm hd
      (hqueue (by simp [hd, DispatcherPc.undecided]) (by simp [hd, DispatcherPc.chosen]))
  | space_blocked =>
    rcases (spaceSeen h.always).asleep hd with hfull | ⟨w, hw, hnotifies⟩
    · have := two_le_max_queue_depth (o := o)
      simp only [hcalm.batch_queue_, List.length_nil] at hfull
      omega
    · have hload := hcalm.workers w hw
      cases hpc : w.pc <;> simp_all [WorkerPc.load, WorkerPc.notifies]
  | queue_blocked =>
    rcases (jobsSeen h.always).asleep hd with hq | ⟨p, hp, hnotifies⟩
    · exact absurd hq (hqueue (by simp [hd, DispatcherPc.undecided]) (by simp [hd, DispatcherPc.chosen]))
    · have hleft := hcalm.clients p hp
      cases p <;> simp_all [SubmitPc.left, SubmitPc.notifies]
  | space_wait =>
    refine h.dispatcher_nears hn hcalm (.space_pass hd (hcalm.batch_mutex_free (by simp [hd])) hsd ?_) trivial ?_
    · have := two_le_max_queue_depth (o := o)
      simp only [hcalm.batch_queue_, List.length_nil]
      omega
    · simp [hd, DispatcherPc.lap]
  | drained candidates =>
    by_cases hg : s.gpu_absent_ = true
    · exact h.dispatcher_nears hn hcalm (.no_gpu hd hg) trivial (by simp [hd, DispatcherPc.lap])
    · have hg : s.gpu_absent_ = false := by simpa using hg
      by_cases hno : oversized (max_job_bytes o s.total_mem_bytes_) candidates = []
      · refine h.dispatcher_nears hn hcalm (.keep hd hg hno) trivial ?_
        simp only [hd, DispatcherPc.lap]
        split_ifs <;> omega
      · exact h.dispatcher_nears hn hcalm (.filter hd hg hno) trivial (by simp [hd, DispatcherPc.lap])
  | rejecting large candidates =>
    refine h.dispatcher_nears hn hcalm (.reject hd) trivial ?_
    simp only [hd, DispatcherPc.lap]
    split_ifs <;> omega
  | filtered candidates =>
    have hlap : DispatcherPc.lap base (.based candidates base) < s.dispatcher.lap base := by
      simp only [hd, DispatcherPc.lap]
      split_ifs <;> omega
    by_cases hf : o.fixed_budget_bytes > 0
    · rw [Offers, if_pos hf] at hbase
      exact h.dispatcher_nears hn hcalm (.fixed hd hf) trivial (hbase ▸ hlap)
    · rw [Offers, if_neg hf] at hbase
      obtain ⟨free, hfree, hbase⟩ := hbase
      exact h.dispatcher_nears hn hcalm (.free free hd hf hfree) trivial (hbase ▸ hlap)
  | based candidates budget =>
    -- nothing is reserved, so the budget stays what it is
    have hzero : s.reserved_bytes_ = 0 := by rw [hcalm.reserved h.always, hd]; rfl
    refine h.dispatcher_nears hn hcalm (.budget hd) trivial ?_
    have hsame : (if budget > s.reserved_bytes_ then budget - s.reserved_bytes_ else 0) = budget := by
      rw [hzero]
      split_ifs <;> omega
    simp only [hsame, hd, DispatcherPc.lap]
    split_ifs <;> omega
  | budgeted candidates budget =>
    refine h.dispatcher_nears hn hcalm (.pack hd) trivial ?_
    have hsel : (pack_jobs s.clock candidates budget o.max_batch).selected ≠ [] ↔ _ := selected_ne_nil_iff
    simp only [hd, DispatcherPc.lap, ← hsel]
    split_ifs <;> simp_all
  | packed selected remaining =>
    refine h.dispatcher_nears hn hcalm (.requeue hd) trivial ?_
    simp only [hd, DispatcherPc.lap]
    split_ifs <;> omega
  | requeued selected =>
    by_cases hsel : selected = []
    · subst hsel
      exact h.dispatcher_nears hn hcalm (.nothing hd) trivial (by simp [hd, DispatcherPc.lap])
    · exact h.dispatcher_nears hn hcalm (.reserve hd hsel) trivial (by simp [hd, DispatcherPc.lap, hsel])
  | reserved selected =>
    have hpush := Step.dispatcher (h.alive hn).terminated (.push (o := o) hd (hcalm.batch_mutex_free (by simp [hd])))
    refine ⟨_, .single hpush trivial, measure_lt_of_same ⟨rfl, rfl, rfl⟩ rfl (.inl ?_)⟩
    -- there is a batch now
    refine (lap_eq_zero fun hu => ?_).trans_lt ?_
    · exact List.append_ne_nil_of_right_ne_nil s.batch_queue_ (List.cons_ne_nil selected []) hu.1
    · rw [State.lap, if_pos hcalm.uncommitted, hd]
      exact Nat.one_pos

/-! ### Everything gets done -/

/-- Every client has returned, every job is completed, and nobody holds a batch. -/
structure Finished (s : State) : Prop where
  clients : ∀ p ∈ s.submits, p.left = 0
  workers : ∀ w ∈ s.workers, w.pc.load = 0
  completed : s.next_seq_ ≤ s.completed_

/-- As long as it has not finished, the scheduler gets nearer to it. -/
theorem Operating.nears (hn : 1 ≤ o.num_workers.toInt) (hbase : Offers o base) (h : Operating o total base s)
    (hnot : ¬ Finished s) : Nears o base s := by
  by_cases hlook : s.dispatcher = .space_false ∨ s.dispatcher = .queue_false
  · exact h.looked_nears hn hlook
  obtain ⟨hspace, hqueue⟩ := not_or.mp hlook
  by_cases hclients : ∀ p ∈ s.submits, p.left = 0
  · by_cases hworkers : ∀ w ∈ s.workers, w.pc.load = 0
    · by_cases hq : s.batch_queue_ = []
      · refine h.calm_nears hn hbase ⟨hclients, hworkers, hq⟩ (Nat.lt_of_not_le fun hle => ?_)
        exact hnot ⟨hclients, hworkers, hle⟩
      · refine h.batch_nears hn hq ⟨hspace, fun w hw => ?_⟩ fun w hw turn hpc => ?_
        · have hload := hworkers w hw
          cases hpc : w.pc with
          | found_empty => simp [hpc, WorkerPc.load] at hload
          | _ => rfl
        · have hload := hworkers w hw
          simp [hpc, WorkerPc.load] at hload
    · obtain ⟨w, hw, hload⟩ : ∃ w ∈ s.workers, w.pc.load ≠ 0 := by simpa using hworkers
      obtain ⟨i, hi⟩ := List.mem_iff_getElem?.mp hw
      cases hpc : w.pc with
      | running turn => exact h.running_nears hn hi hpc
      | found_empty => exact h.found_empty_nears hn hi hpc
      | _ => simp [hpc, WorkerPc.load] at hload
  · obtain ⟨p, hp, hleft⟩ : ∃ p ∈ s.submits, p.left ≠ 0 := by simpa using hclients
    obtain ⟨i, hi⟩ := List.mem_iff_getElem?.mp hp
    exact h.client_nears hn hi (Nat.pos_of_ne_zero hleft) hqueue

/-- When the budget is the free memory of a device that has more than the margin, it can be the size
of the largest job. -/
theorem offers_of_live (hf : o.fixed_budget_bytes = 0) (ht : o.safety_margin_bytes < total) :
    Offers o (max_job_bytes o total) := by
  have hne : total ≠ 0 := by
    rintro rfl
    exact absurd ht (by simp [UInt64.lt_iff_toNat_lt])
  rw [Offers, if_neg (by simp [hf])]
  refine ⟨total, ?_, ?_⟩
  · simpa [UInt64.le_iff_toNat_le, UInt64.lt_iff_toNat_lt] using ht
  · rw [max_job_bytes, if_neg hne, if_pos ht]

end Gbis.Sched
