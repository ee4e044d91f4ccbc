import Gbis.Sched.Reservation

/-!
# Shutdown

What `stop()` may rely on, and what it may not.

## Waking the threads

`stop()` sets `shutdown_` under `lifecycle_mutex_` and then calls `notify_all` on the
three condition variables, while the waiters look at `shutdown_` under `queue_mutex_` and
`batch_mutex_`. So a `notify_all` may fall between a waiter's look at its predicate and
its going to sleep, and then nothing wakes it: `stop_may_wait_forever` is a run of one
worker in which `stop()` never returns. When no `notify_all` falls into such a window,
no thread is asleep once the three have been issued (`no_sleep_after_notify`).

## The batches that were packed

A worker leaves its loop when `shutdown_` is set and `batch_queue_` is empty, and the
dispatcher may be in the middle of a round at that moment. `packed_batch_may_be_dropped`
is a run in which it pushes its batch after the last worker has left. As long as every
batch is pushed while some worker is in its loop, all of them are executed before the
workers are joined (`stop_completes_packed`).
-/

namespace Gbis.Sched

open Gbis.Core Library

variable {o : Options} {s t : State} {a : Action} {cv : CondVar}

/-! ### Waiting on a condition variable -/

/-- Whether the dispatcher has found the predicate of its wait on `cv` false, and not been
woken since. -/
def DispatcherPc.waitsOn : DispatcherPc → CondVar → Bool
  | .queue_false, .queue_cv | .queue_blocked, .queue_cv => true
  | .space_false, .batch_space_cv | .space_blocked, .batch_space_cv => true
  | _, _ => false

/-- The same of a worker. -/
def WorkerPc.waitsOn : WorkerPc → CondVar → Bool
  | .found_empty, .batch_cv | .blocked, .batch_cv => true
  | _, _ => false

/-- Some thread has found the predicate of a wait on `cv` false, and not been woken since. -/
def State.waitsOn (s : State) (cv : CondVar) : Bool := s.dispatcher.waitsOn cv || s.workers.any (·.pc.waitsOn cv)

/-- Some thread is asleep on `cv`. -/
def State.asleepOn (s : State) : CondVar → Bool
  | .queue_cv => s.dispatcher = .queue_blocked
  | .batch_cv => s.workers.any (·.pc.isBlocked)
  | .batch_space_cv => s.dispatcher = .space_blocked

/-- Some thread is between finding the predicate of a wait on `cv` false and going to sleep. -/
def State.inWindow (s : State) : CondVar → Bool
  | .queue_cv => s.dispatcher = .queue_false
  | .batch_cv => s.workers.any (·.pc.holdsMutex)
  | .batch_space_cv => s.dispatcher = .space_false

/-- Whether a step notifies everyone while a thread is in the window of the variable. -/
def State.misses (s : State) : Action → Bool
  | .notify_all cv => s.inWindow cv
  | _ => false

/-- `stop()` notifies everyone outside the window. -/
def OutsideWindow (s : State) (a : Action) : Prop := s.misses a = false

instance (s : State) (a : Action) : Decidable (OutsideWindow s a) := inferInstanceAs (Decidable (_ = _))

/-- Whether a thread wakes for no reason. -/
def Action.spurious : Action → Bool
  | .spurious_dispatcher | .spurious_worker _ => true
  | _ => false

/-- No thread wakes for no reason. -/
def NotSpurious (_ : State) (a : Action) : Prop := a.spurious = false

instance (s : State) (a : Action) : Decidable (NotSpurious s a) := inferInstanceAs (Decidable (_ = _))

/-- The variables `stop()` has notified. -/
def ControlPc.notified : ControlPc → CondVar → Bool
  | .notify_batch, .queue_cv => true
  | .notify_space, .queue_cv | .notify_space, .batch_cv => true
  | .joining_dispatcher, _ | .joining_workers, _ | .joined, _ => true
  | _, _ => false

theorem ControlPc.stopping_of_notified {pc : ControlPc} (h : pc.notified cv = true) : pc.stopping = true := by
  cases pc <;> cases cv <;> first | rfl | cases h

theorem WorkerPc.waitsOn_eq (pc : WorkerPc) (cv : CondVar) :
    pc.waitsOn cv = (cv = .batch_cv && (pc.holdsMutex || pc.isBlocked)) := by
  cases pc <;> cases cv <;> rfl

theorem DispatcherPc.waitsOn_eq (pc : DispatcherPc) (cv : CondVar) :
    pc.waitsOn cv = (cv = .queue_cv && (pc = .queue_false || pc = .queue_blocked) ||
      cv = .batch_space_cv && (pc = .space_false || pc = .space_blocked)) := by
  cases pc <;> cases cv <;> rfl

/-- Who waits is in the window or asleep. -/
theorem State.waitsOn_eq (s : State) (cv : CondVar) : s.waitsOn cv = (s.inWindow cv || s.asleepOn cv) := by
  rw [Bool.eq_iff_iff]
  cases cv <;>
    simp [State.waitsOn, State.inWindow, State.asleepOn, WorkerPc.waitsOn_eq, DispatcherPc.waitsOn_eq, and_or_left,
      exists_or]

/-! Once `shutdown_` is set no thread begins to wait. -/

theorem DispatcherStep.waitsOn (h : DispatcherStep o s a t) (hs : s.shutdown_ = true)
    (hw : s.dispatcher.waitsOn cv = false) : t.dispatcher.waitsOn cv = false := by
  cases h with
  | space_false _ _ hf | queue_false _ hf => simp [hs] at hf
  | space_block hd | queue_block hd => cases cv <;> simp_all [DispatcherPc.waitsOn]
  | _ => rfl

theorem Woken.waitsOn {pc pc' : DispatcherPc} (h : Woken pc pc') (hw : pc.waitsOn cv = false) :
    pc'.waitsOn cv = false := by
  cases h with
  | same => exact hw
  | _ => rfl

theorem WorkerMove.waitsOn {w w' : Worker} (h : WorkerMove o s w w') (hs : s.shutdown_ = true)
    (hw : w.pc.waitsOn cv = false) : w'.pc.waitsOn cv = false := by
  cases h with
  | same => exact hw
  | found_empty _ hf => simp [hs] at hf
  | block hp => cases cv <;> simp_all [WorkerPc.waitsOn]
  | _ => rfl

theorem Step.waitsOn (h : Step o s a t) (hs : s.shutdown_ = true) (hw : s.waitsOn cv = false) :
    t.waitsOn cv = false := by
  simp only [State.waitsOn, Bool.or_eq_false_iff, List.any_eq_false, Bool.not_eq_true] at hw ⊢
  refine ⟨?_, fun v hv => ?_⟩
  · rcases h.dispatcher_cases with hd | hd | ⟨-, -, hd⟩
    · exact hd.waitsOn hs hw.1
    · exact hd.waitsOn hw.1
    · rw [hd]; rfl
  · rcases h.worker_cases hv with ⟨u, hu, hmove⟩ | ⟨rfl, -⟩
    · exact hmove.waitsOn hs (hw.2 u hu)
    · rfl

/-! ### A notification that is missed -/

/-- The calls of a `stop()` that finds a worker about to go to sleep. -/
def missedTrace : List Action :=
  [.start, .probe false 0, .spawn, .spawn, .worker 0, .stop, .notify_all .queue_cv, .notify_all .batch_cv,
   .notify_all .batch_space_cv, .worker 0, .dispatcher, .join]

/-- A worker is asleep, there is no dispatcher to wake it, and `stop()` waits for it. -/
structure Stuck (s : State) : Prop where
  control : s.control = .joining_workers
  dispatcher : s.dispatcher = .exited
  worker : s.workers.map (·.pc.isBlocked) = [true]

theorem Stuck.worker_blocked (h : Stuck s) {w : Worker} (hw : w ∈ s.workers) : w.pc = .blocked := by
  have hm : w.pc.isBlocked ∈ s.workers.map (·.pc.isBlocked) := List.mem_map_of_mem hw
  rw [h.worker, List.mem_singleton] at hm
  exact WorkerPc.eq_blocked hm

/-- Nobody gets it unstuck. -/
theorem Stuck.step (hs : Stuck s) (h : Step o s a t) (ha : NotSpurious s a) : Stuck t := by
  obtain ⟨hc, hd, hw⟩ := hs
  cases h with
  | client _ h =>
    cases h with
    | notify => exact ⟨hc, by simp [State.wakeDispatcher, hd], hw⟩
    | _ => exact ⟨hc, hd, hw⟩
  | control _ h =>
    cases h with
    | join_workers _ hall =>
      obtain ⟨w, hmem⟩ : ∃ w, w ∈ s.workers := List.exists_mem_of_ne_nil _ (by rintro h; simp [h] at hw)
      have := Stuck.worker_blocked ⟨hc, hd, hw⟩ hmem
      rw [hall w hmem] at this
      cases this
    | _ => simp_all
  | dispatcher _ h =>
    have := h.rested_eq_false
    rw [hd] at this
    cases this
  | worker _ h =>
    have hb : ∀ (i : ℕ) (w : Worker), s.workers[i]? = some w → w.pc = .blocked := fun i w hi =>
      Stuck.worker_blocked ⟨hc, hd, hw⟩ (List.mem_of_getElem? hi)
    cases h with
    | exit hi hp | found_empty hi hp | block hi hp | pop hi hp | call hi hp | done hi hp | throw hi hp =>
      have := hb _ _ hi
      rw [hp] at this
      cases this
    | spurious => cases ha

/-- `stop()` may wait forever: a worker that has found `batch_queue_` empty and
`shutdown_` not set goes to sleep after `stop()` has notified everyone, and nothing that
happens from then on, other than a wake-up for no reason, wakes it or lets `stop()` go on. -/
theorem stop_may_wait_forever :
    ∃ s, Reachable (scheduler { num_workers := 1 }) NotSpurious s ∧ s.shutdown_ = true ∧
      s.control = .joining_workers ∧ s.asleepOn .batch_cv = true ∧
      ∀ t, Steps (scheduler { num_workers := 1 }) NotSpurious s t →
        t.control = .joining_workers ∧ t.asleepOn .batch_cv = true := by
  obtain ⟨s, hr, hp⟩ := exists_of_follow { num_workers := 1 } NotSpurious 1 missedTrace
    (fun s => s.shutdown_ && (s.control = .joining_workers && s.dispatcher = .exited &&
      s.workers.map (·.pc.isBlocked) = [true])) (by decide)
  simp only [Bool.and_eq_true, decide_eq_true_eq] at hp
  obtain ⟨hsd, ⟨hc, hd⟩, hw⟩ := hp
  have hstuck : ∀ t, Stuck t → t.control = .joining_workers ∧ t.asleepOn .batch_cv = true := fun t ht => by
    refine ⟨ht.control, ?_⟩
    have hany : (t.workers.map (·.pc.isBlocked)).any id = true := by rw [ht.worker]; rfl
    simpa [State.asleepOn, List.any_map] using hany
  refine ⟨s, hr, hsd, hc, (hstuck s ⟨hc, hd, hw⟩).2, fun t ht => hstuck t ?_⟩
  exact ht.preserves (fun hs hstep ha => hs.step hstep ha) ⟨hc, hd, hw⟩

/-! ### No notification missed -/

theorem ControlStep.notified (h : ControlStep o s a t) (hc : t.control.notified cv = true) :
    s.control.notified cv = true ∨ a = .notify_all cv := by
  cases h <;> cases cv <;> simp_all [ControlPc.notified]

theorem Worker.wake_holdsMutex (w : Worker) : w.wake.pc.holdsMutex = w.pc.holdsMutex := by
  unfold Worker.wake
  split
  · rename_i h; rw [h]; rfl
  · rfl

theorem Worker.wake_isBlocked (w : Worker) : w.wake.pc.isBlocked = false := by
  unfold Worker.wake
  split
  · rfl
  · rename_i h
    cases hp : w.pc <;> first | rfl | exact absurd hp h

/-- After `notify_all` outside the window nobody waits. -/
theorem ControlStep.waitsOn_of_notify (h : ControlStep o s (.notify_all cv) t) (ho : OutsideWindow s (.notify_all cv)) :
    t.waitsOn cv = false := by
  have ho : s.inWindow cv = false := ho
  rw [State.waitsOn_eq, Bool.or_eq_false_iff]
  cases h with
  | notify_queue =>
    have hd : s.dispatcher ≠ .queue_false := by simpa [State.inWindow] using ho
    by_cases hb : s.dispatcher = .queue_blocked
    · simp [State.inWindow, State.asleepOn, State.wakeDispatcher, hb]
    · simp [State.inWindow, State.asleepOn, State.wakeDispatcher, hb, hd]
  | notify_batch =>
    simp only [State.inWindow, State.asleepOn, List.any_map, List.any_eq_false, Function.comp_apply,
      Worker.wake_holdsMutex, Worker.wake_isBlocked] at ho ⊢
    exact ⟨ho, fun _ _ => Bool.false_ne_true⟩
  | notify_space =>
    have hd : s.dispatcher ≠ .space_false := by simpa [State.inWindow] using ho
    by_cases hb : s.dispatcher = .space_blocked
    · simp [State.inWindow, State.asleepOn, State.wakeDispatcher, hb]
    · simp [State.inWindow, State.asleepOn, State.wakeDispatcher, hb, hd]

/-- **Once `stop()` has notified a variable outside its window, nobody waits on it.** -/
theorem waitsOn_of_notified (h : Reachable (scheduler o) OutsideWindow s) (hc : s.control.notified cv = true) :
    s.waitsOn cv = false := by
  suffices ∀ cv, s.control.notified cv = true → s.waitsOn cv = false from this cv hc
  refine h.invariant (I := fun s => ∀ cv, s.control.notified cv = true → s.waitsOn cv = false) ?_
    fun {s a t} hr hs hstep ha cv hc => ?_
  · rintro _ ⟨t, rfl⟩ cv hc
    cases cv <;> cases hc
  · have hstep : Step o s a t := hstep
    have hl := lifecycle (hr.mono fun _ _ _ => trivial)
    have hkeep : s.control.notified cv = true → t.waitsOn cv = false := fun hc =>
      hstep.waitsOn (hl.shutdown (ControlPc.stopping_of_notified hc)) (hs cv hc)
    rcases hstep.control_cases with hcs | hsame
    · rcases hcs.notified hc with hc | rfl
      · exact hkeep hc
      · exact hcs.waitsOn_of_notify ha
    · rw [hsame.control] at hc
      exact hkeep hc

/-- `stop()` has issued its three notifications. -/
def ControlPc.allNotified : ControlPc → Bool
  | .joining_dispatcher | .joining_workers | .joined => true
  | _ => false

/-- **No thread sleeps through `stop()`** whose notifications all fall outside the windows:
in every state reached by such a run, if `stop()` has set `shutdown_` and issued the three
of them, no thread is asleep on any of the variables. -/
theorem no_sleep_after_notify (h : Reachable (scheduler o) OutsideWindow s) (hc : s.control.allNotified = true) :
    s.shutdown_ = true ∧ ∀ cv, s.asleepOn cv = false := by
  have hl := lifecycle (h.mono fun _ _ _ => trivial)
  have hn : ∀ cv, s.control.notified cv = true := fun cv => by
    cases hs : s.control <;> rw [hs] at hc <;> cases hc <;> rfl
  refine ⟨hl.shutdown (ControlPc.stopping_of_notified (hn .queue_cv)), fun cv => ?_⟩
  have hw := waitsOn_of_notified h (hn cv)
  rw [State.waitsOn_eq, Bool.or_eq_false_iff] at hw
  exact hw.2

/-- The same worker as in `missedTrace`, which now goes to sleep before the notifications. -/
theorem no_sleep_after_notify_early : ∃ s : State, s.control = .joining_dispatcher ∧ s.workers.length = 1 ∧
    ∀ cv, s.asleepOn cv = false := by
  obtain ⟨s, hr, hp⟩ := exists_of_follow { num_workers := 1 } OutsideWindow 1
    [.start, .probe false 0, .spawn, .spawn, .worker 0, .stop, .worker 0, .notify_all .queue_cv, .notify_all .batch_cv,
     .notify_all .batch_space_cv]
    (fun s => s.control = .joining_dispatcher && s.workers.length = 1) (by decide)
  simp only [Bool.and_eq_true, decide_eq_true_eq] at hp
  exact ⟨s, hp.1, hp.2, (no_sleep_after_notify hr (by rw [hp.1]; rfl)).2⟩

/-! ### A batch that is pushed too late -/

/-- A job of 12 bytes. -/
def smallJob : InferenceJob := { m := 1, n := 1, k := 1 }

/-- The dispatcher has packed a batch when `stop()` is called, and pushes it after the
only worker has left. -/
def lateTrace : List Action :=
  [.start, .probe false 1073741824, .spawn, .spawn, .submit smallJob, .client 0, .dispatcher, .dispatcher, .dispatcher,
   .dispatcher, .dispatcher, .dispatcher, .dispatcher, .dispatcher, .stop, .notify_all .queue_cv, .notify_all .batch_cv,
   .notify_all .batch_space_cv, .worker 0, .dispatcher, .notify_worker none, .dispatcher, .join, .join]

/-- `stop()` may drop a packed batch: it has joined every thread, the job the dispatcher
had selected is still in `batch_queue_`, its bytes are still reserved, and it is neither
in `metrics_` nor in the queue. -/
theorem packed_batch_may_be_dropped :
    ∃ s, Reachable (scheduler { num_workers := 1, fixed_budget_bytes := 1024 }) Always s ∧ s.control = .joined ∧
      s.batch_queue_.map (·.map InferenceJob.seq) = [[0]] ∧ s.reserved_bytes_ = 12 ∧ s.metrics_ = [] ∧
        s.queue_ = [] := by
  obtain ⟨s, hr, hp⟩ := exists_of_follow { num_workers := 1, fixed_budget_bytes := 1024 } Always 1 lateTrace
    (fun s => s.control = .joined && (s.batch_queue_.map (·.map InferenceJob.seq) = [[0]] && (s.reserved_bytes_ = 12 &&
      (s.metrics_ = [] && s.queue_ = [])))) (by decide)
  simp only [Bool.and_eq_true, decide_eq_true_eq] at hp
  exact ⟨s, hr, hp⟩

/-! ### Every batch in time -/

/-- Whether a thread is about to be created. -/
def ControlPc.spawns : ControlPc → Bool
  | .spawning (_ + 1) => true
  | _ => false

/-- Some worker has not left its loop, or is still to be created. -/
def State.staffed (s : State) : Bool := s.control.spawns || s.workers.any fun w => !w.pc.isExited

/-- Whether the dispatcher pushes a batch when every worker has left. -/
def State.pushesLate (s : State) : Action → Bool
  | .dispatcher => match s.dispatcher with
    | .reserved _ => !s.staffed
    | _ => false
  | _ => false

/-- The dispatcher pushes a batch only while there is a worker to take it. -/
def PushesInTime (s : State) (a : Action) : Prop := s.pushesLate a = false

instance (s : State) (a : Action) : Decidable (PushesInTime s a) := inferInstanceAs (Decidable (_ = _))

theorem State.staffed_iff : s.staffed = true ↔ s.control.spawns = true ∨ ∃ w ∈ s.workers, w.pc.isExited = false := by
  simp [State.staffed]

/-- Changing a worker to one that has not left leaves a worker. -/
theorem staffed_of_set {i : ℕ} {w w' : Worker} (hi : s.workers[i]? = some w) (ht : t.workers = s.workers.set i w')
    (hw : w'.pc.isExited = false) : t.staffed = true := by
  refine State.staffed_iff.mpr (.inr ⟨w', ?_, hw⟩)
  rw [ht]
  exact List.mem_set (List.getElem?_eq_some_iff.mp hi).1 w'

theorem Worker.wake_isExited (w : Worker) : w.wake.pc.isExited = w.pc.isExited := by
  unfold Worker.wake
  split
  · rename_i h; rw [h]; rfl
  · rfl

theorem State.effect_batch_queue_ (s : State) (c : Call) : (s.effect c).batch_queue_ = s.batch_queue_ := by
  cases c <;> rfl

/-- The last worker leaves only when no batch is left. -/
theorem WorkerStep.staffed (h : WorkerStep o s a t) (hs : s.staffed = true) :
    t.staffed = true ∨ t.batch_queue_ = [] := by
  cases h with
  | exit _ _ _ _ hq => exact .inr hq
  | spurious hi hb => exact .inl (staffed_of_set hi rfl (by rw [Worker.wake_isExited, WorkerPc.eq_blocked hb]; rfl))
  | throw => exact .inl hs
  | @call i w turn c k r hi =>
    have hset := congrArg (fun ws => ws.set i { w with pc := .running (turn.after c r (k r)) }) (s.effect_workers c)
    exact .inl (staffed_of_set hi hset rfl)
  | found_empty hi | block hi | pop hi | done hi => exact .inl (staffed_of_set hi rfl rfl)

theorem Step.staffed (h : Step o s a t) (hs : s.staffed = true) : t.staffed = true ∨ t.batch_queue_ = [] := by
  cases h with
  | client _ h => cases h <;> exact .inl hs
  | control _ h =>
    refine .inl ?_
    cases h with
    | spawn => exact State.staffed_iff.mpr (.inr ⟨{}, by simp, rfl⟩)
    | notify_batch hc => simpa [State.staffed, hc, ControlPc.spawns, Worker.wake_isExited] using hs
    | start hc | probe _ _ hc | started hc | stop hc | notify_queue hc | notify_space hc | join_dispatcher hc
    | join_workers hc | stopped hc =>
      rw [State.staffed_iff, hc] at hs
      exact State.staffed_iff.mpr (.inr (hs.resolve_left Bool.false_ne_true))
  | dispatcher _ h =>
    refine .inl ?_
    cases h with
    | notify _ hi hb => exact staffed_of_set hi rfl (by rw [Worker.wake_isExited, WorkerPc.eq_blocked hb]; rfl)
    | _ => exact hs
  | worker _ h => exact h.staffed hs

/-- Batches are added by the dispatcher's push, and by nothing else. -/
theorem Step.batch_queue_cases (h : Step o s a t) :
    t.batch_queue_ = s.batch_queue_ ∨ (∃ batch, s.batch_queue_ = batch :: t.batch_queue_) ∨
      a = .dispatcher ∧ ∃ selected, s.dispatcher = .reserved selected := by
  cases h with
  | client _ h => cases h <;> exact .inl rfl
  | control _ h => cases h <;> exact .inl rfl
  | dispatcher _ h =>
    cases h with
    | push hd => exact .inr (.inr ⟨rfl, _, hd⟩)
    | _ => exact .inl rfl
  | worker _ h =>
    cases h with
    | pop _ _ _ hq => exact .inr (.inl ⟨_, hq⟩)
    | call => exact .inl (s.effect_batch_queue_ _)
    | _ => exact .inl rfl

/-- While batches wait there is a worker to take them. -/
theorem staffed (h : Reachable (scheduler o) PushesInTime s) (hq : s.batch_queue_ ≠ []) : s.staffed = true := by
  refine h.invariant (I := fun s => s.batch_queue_ ≠ [] → s.staffed = true) ?_ (fun {s a t} _ hs hstep ha hq => ?_) hq
  · rintro _ ⟨t, rfl⟩ hq
    exact absurd rfl hq
  · have hstep : Step o s a t := hstep
    have hstaffed : s.staffed = true := by
      rcases hstep.batch_queue_cases with he | ⟨batch, he⟩ | ⟨rfl, selected, hd⟩
      · exact hs (he ▸ hq)
      · exact hs (by simp [he])
      · simpa [PushesInTime, State.pushesLate, hd] using ha
    exact (hstep.staffed hstaffed).resolve_right hq

/-- When every thread has been joined only the queue and the batches hold jobs, and the entries. -/
theorem hold_of_joined (hl : Lifecycle s) (hc : s.control = .joined) (hq : s.batch_queue_ = []) {p : Place} {seq : ℕ}
    (hseq : seq ∈ s.hold p) : p = .queue ∨ p = .metrics := by
  obtain ⟨hu, hch⟩ := DispatcherPc.undecided_of_rested (hl.dispatcher (by simp [State.dispatcherJoined, hc]))
  have hw := hl.workers (by simp [State.workersJoined, hc])
  cases p with
  | queue => exact .inl rfl
  | metrics => exact .inr rfl
  | round => simp [State.hold, hu] at hseq
  | chosen => simp [State.hold, hch] at hseq
  | batches => simp [State.hold, hq] at hseq
  | workers =>
    have h₀ : (s.workers.map fun w => seqs w.pc.unrecorded).sum = 0 :=
      List.sum_eq_zero fun m hm => by
        obtain ⟨w, hmem, rfl⟩ := List.mem_map.mp hm
        rw [hw w hmem]
        rfl
    rw [State.hold, h₀] at hseq
    exact absurd hseq (Multiset.notMem_zero seq)

/-- **`stop()` completes every packed batch** of a run that pushes its batches in time:
when it has joined every thread no batch is left and nothing is reserved; every job that
was selected in a state `u` on the way has an entry; and every job submitted has one or
is still in the queue. -/
theorem stop_completes_packed (h : Reachable (scheduler o) PushesInTime s) (hc : s.control = .joined) :
    s.batch_queue_ = [] ∧ s.reserved_bytes_ = 0 ∧
    (∀ u, Reachable (scheduler o) PushesInTime u → Steps (scheduler o) PushesInTime u s →
      ∀ selected remaining, u.dispatcher = .packed selected remaining →
        ∀ job ∈ selected, ∃ m ∈ s.metrics_, m.seq = job.seq) ∧
    ∀ seq < s.next_seq_, (∃ job ∈ s.queue_, job.seq = seq) ∨ ∃ m ∈ s.metrics_, m.seq = seq := by
  have hmono : ∀ s a, PushesInTime s a → Always s a := fun _ _ _ => trivial
  have hl := lifecycle (h.mono hmono)
  have hw := hl.workers (by simp [State.workersJoined, hc])
  have hq : s.batch_queue_ = [] := by
    by_contra hne
    rcases State.staffed_iff.mp (staffed h hne) with hsp | ⟨w, hmem, hex⟩
    · rw [hc] at hsp
      cases hsp
    · rw [hw w hmem] at hex
      cases hex
  refine ⟨hq, ?_, fun u hu hus selected remaining hd job hjob => ?_, fun seq hseq => ?_⟩
  · obtain ⟨h₁, -⟩ := DispatcherPc.committed_of_rested (hl.dispatcher (by simp [State.dispatcherJoined, hc]))
    have h₂ : (s.workers.map fun w => w.pc.committed).sum = 0 :=
      List.sum_eq_zero fun n hn => by
        obtain ⟨w, hmem, rfl⟩ := List.mem_map.mp hn
        rw [hw w hmem]
        rfl
    rw [(reservation (h.mono hmono)).reserved, State.committed, h₁, h₂, hq]
    rfl
  · -- a job that has been selected stays committed, and only the entries are left of that
    have hmem : job.seq ∈ u.hold .chosen := by
      simpa [State.hold, hd, DispatcherPc.chosen, seqs] using ⟨job, hjob, rfl⟩
    obtain ⟨p, hp, hin⟩ := mem_hold_of_closed (S := Place.committed) (fun _ _ hm => hm.committed) (hu.mono hmono)
      (hus.mono hmono) (show Place.committed .chosen from trivial) hmem
    rcases hold_of_joined hl hc hq hin with rfl | rfl
    · exact hp.elim
    · simpa [State.hold] using hin
  · obtain ⟨p, hp, -⟩ := (ledger_simulation.reachable (h.mono hmono)).exists_unique_place hseq
    have hin : seq ∈ s.hold p :=
      Multiset.count_pos.mp (by rw [show (s.hold p).count seq = 1 from hp]; exact Nat.one_pos)
    rcases hold_of_joined hl hc hq hin with rfl | rfl
    · exact .inl (by simpa [State.hold, seqs] using hin)
    · exact .inr (by simpa [State.hold] using hin)

/-- The dispatcher packs a batch, the worker fails it for want of an allocation, and
`stop()` joins them both. -/
def failedTrace : List Action :=
  [.start, .probe false 1073741824, .spawn, .spawn, .submit smallJob, .client 0, .dispatcher, .dispatcher, .dispatcher,
   .dispatcher, .dispatcher, .dispatcher, .dispatcher, .dispatcher, .dispatcher, .notify_worker none, .worker 0,
   .answer 0 .notify_batch_space (), .answer 0 .cudaStreamCreateWithFlags (.ok 1), .answer 0 .cudaStreamCreate (.ok 2),
   .answer 0 .cudaStreamCreateWithFlags (.ok 3), .answer 0 .cudaEventCreate (.ok 1), .answer 0 .cudaEventCreate (.ok 2),
   .answer 0 .cudaEventCreate (.ok 3), .answer 0 (.cudaMalloc 4) (.error (.other 1)), .answer 0 .cudaGetLastError (),
   .answer 0 .cudaDeviceSynchronize (.ok ()), .answer 0 (.fail_batch [{ smallJob with submit_time := 1 }]) (),
   .answer 0 (.release_bytes 12) (), .worker 0, .stop, .notify_all .queue_cv, .notify_all .batch_cv,
   .notify_all .batch_space_cv, .worker 0, .dispatcher, .join, .join]

/-- The run of `failedTrace`. -/
theorem stop_completes_packed_failed :
    ∃ s : State, s.control = .joined ∧ s.next_seq_ = 1 ∧ s.batch_queue_ = [] ∧ s.reserved_bytes_ = 0 ∧
      ((∃ job ∈ s.queue_, job.seq = 0) ∨ ∃ m ∈ s.metrics_, m.seq = 0) := by
  obtain ⟨s, hr, hp⟩ := exists_of_follow { num_workers := 1, fixed_budget_bytes := 1024 } PushesInTime 1 failedTrace
    (fun s => s.control = .joined && s.next_seq_ = 1) (by decide +kernel)
  simp only [Bool.and_eq_true, decide_eq_true_eq] at hp
  obtain ⟨hq, hres, -, hall⟩ := stop_completes_packed hr hp.1
  exact ⟨s, hp.1, hp.2, hq, hres, hall 0 (by omega)⟩

end Gbis.Sched
