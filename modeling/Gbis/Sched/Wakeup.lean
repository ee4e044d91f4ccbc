import Gbis.Sched.Carried
import Gbis.Sched.Shutdown

/-!
# No wake-up is lost

All notifications but those of `stop()` wake one thread, and are issued after the mutex has
been released. That is enough, as long as nobody calls `stop()` (`no_lost_wakeup`):

* the dispatcher sleeps on `queue_cv_` only if the queue is empty, or a client is on its way
  from its push to its notification (`JobsSeen`);
* it sleeps on `batch_space_cv_` only if `batch_queue_` is full, or a worker is on its way
  from its pop to its notification (`SpaceSeen`);
* while there is a batch, the dispatcher is on its way from its push to its notification, or
  some worker is awake, which looks for a batch before it sleeps (`BatchesSeen`): a worker
  that is woken and finds its batch gone goes back to sleep, but whoever took it is awake.
-/

namespace Gbis.Sched

open Gbis.Core Library

variable {o : Options} {s t : State} {a : Action}

/-- Whether a client is between its push and its notification. -/
def SubmitPc.notifies : SubmitPc → Bool
  | .pushed _ | .counted _ => true
  | _ => false

/-- Whether a worker is between its pop and its notification. -/
def WorkerPc.notifies : WorkerPc → Bool
  | .running ⟨_, .call .notify_batch_space _, _, _⟩ => true
  | _ => false

/-- Whether a worker is about to look for a batch, or has one. -/
def WorkerPc.isAwake : WorkerPc → Bool
  | .wait | .running _ => true
  | _ => false

/-- Whether a step is a call of `stop()`. -/
def Action.stops : Action → Bool
  | .stop => true
  | _ => false

/-- Nobody calls `stop()`. -/
def NoStop (_ : State) (a : Action) : Prop := a.stops = false

instance (s : State) (a : Action) : Decidable (NoStop s a) := inferInstanceAs (Decidable (_ = _))

/-- A place that is not that of a dispatcher just woken is where it was. -/
theorem Woken.eq_before {pc pc' p : DispatcherPc} (h : Woken pc pc') (hp : pc' = p)
    (hn : p ≠ .space_wait ∧ p ≠ .queue_wait) : pc = p := by
  cases h <;> simp_all

/-- A dispatcher that does not sleep stays where it is. -/
theorem Woken.eq_after {pc pc' p : DispatcherPc} (h : Woken pc pc') (hp : pc = p)
    (hn : p ≠ .space_blocked ∧ p ≠ .queue_blocked) : pc' = p := by
  cases h <;> simp_all

/-- What is true of some worker is true of one when another is changed. -/
theorem exists_mem_set {p : Worker → Bool} {i : ℕ} {w w' : Worker} (hi : s.workers[i]? = some w)
    (hw : p w = true → p w' = true) (h : ∃ v ∈ s.workers, p v = true) : ∃ v ∈ s.workers.set i w', p v = true := by
  obtain ⟨v, hv, hp⟩ := h
  obtain ⟨j, hj⟩ := List.mem_iff_getElem?.mp hv
  by_cases hij : i = j
  · subst hij
    obtain rfl : w = v := Option.some.inj (hi.symm.trans hj)
    exact ⟨w', List.mem_set (List.getElem?_eq_some_iff.mp hi).1 w', hw hp⟩
  · exact ⟨v, List.mem_of_getElem? ((List.getElem?_set_ne hij).trans hj), hp⟩

/-- A dispatcher that is notified is not asleep any more. -/
theorem State.wakeDispatcher_ne (s : State) {blocked waiting : DispatcherPc} (h : waiting ≠ blocked) :
    (s.wakeDispatcher blocked waiting).dispatcher ≠ blocked := by
  intro hd
  simp only [State.wakeDispatcher] at hd
  split_ifs at hd with hb
  · exact h hd
  · exact hb hd

/-! ### The queue -/

/-- The dispatcher sleeps on `queue_cv_` for a reason, or is about to be woken. -/
structure JobsSeen (s : State) : Prop where
  looking : s.dispatcher = .queue_false → s.queue_ = []
  asleep : s.dispatcher = .queue_blocked → s.queue_ = [] ∨ ∃ p ∈ s.submits, p.notifies = true

/-- A step that leaves the queue and the clients alone, and wakes the dispatcher at most. -/
theorem JobsSeen.of_woken (hs : JobsSeen s) (hq : t.queue_ = s.queue_) (hc : t.submits = s.submits)
    (hd : Woken s.dispatcher t.dispatcher) : JobsSeen t := by
  refine ⟨fun hp => ?_, fun hp => ?_⟩
  · rw [hq]
    exact hs.looking (hd.eq_before hp (by simp))
  · rw [hq, hc]
    exact hs.asleep (hd.eq_before hp (by simp))

theorem mem_set_of_getElem? {i : ℕ} {p p' : SubmitPc} (hi : s.submits[i]? = some p) : p' ∈ s.submits.set i p' :=
  List.mem_set (List.getElem?_eq_some_iff.mp hi).1 p'

theorem ClientStep.jobsSeen (h : ClientStep s a t) (hs : JobsSeen s) : JobsSeen t := by
  cases h with
  | tick => exact ⟨hs.looking, hs.asleep⟩
  | submit =>
    refine ⟨hs.looking, fun hp => (hs.asleep hp).imp_right ?_⟩
    rintro ⟨p, hmem, hn⟩
    exact ⟨p, List.mem_append_left _ hmem, hn⟩
  | push hi hm => exact ⟨fun hp => absurd hp hm, fun _ => .inr ⟨_, mem_set_of_getElem? hi, rfl⟩⟩
  | count hi => exact ⟨hs.looking, fun _ => .inr ⟨_, mem_set_of_getElem? hi, rfl⟩⟩
  | notify =>
    exact ⟨fun hp => hs.looking (s.wakeDispatcher_woken_queue.eq_before hp (by simp)),
      fun hp => absurd hp (s.wakeDispatcher_ne (by simp))⟩

theorem DispatcherStep.jobsSeen (h : DispatcherStep o s a t) (hs : JobsSeen s) : JobsSeen t := by
  cases h with
  | queue_false _ _ hq => exact ⟨fun _ => hq, by simp⟩
  | queue_block hd => exact ⟨by simp, fun _ => .inl (hs.looking hd)⟩
  | _ => exact ⟨by simp, by simp⟩

theorem Step.jobsSeen (h : Step o s a t) (hs : JobsSeen s) : JobsSeen t := by
  cases h with
  | client _ h => exact h.jobsSeen hs
  | control _ h =>
    have hsame : t.queue_ = s.queue_ ∧ t.submits = s.submits := by cases h <;> exact ⟨rfl, rfl⟩
    rcases h.woken with hw | ⟨-, -, hd⟩
    · exact hs.of_woken hsame.1 hsame.2 hw
    · exact ⟨by simp [hd], by simp [hd]⟩
  | dispatcher _ h => exact h.jobsSeen hs
  | worker _ h =>
    have hsame : t.queue_ = s.queue_ ∧ t.submits = s.submits := by
      cases h with
      | call => exact ⟨(s.effect_queues _).2.1, (s.effect_queues _).1⟩
      | _ => exact ⟨rfl, rfl⟩
    exact hs.of_woken hsame.1 hsame.2 h.woken

/-! ### The space -/

/-- The dispatcher sleeps on `batch_space_cv_` for a reason, or is about to be woken. -/
structure SpaceSeen (o : Options) (s : State) : Prop where
  looking : s.dispatcher = .space_false → max_queue_depth o ≤ s.batch_queue_.length
  asleep : s.dispatcher = .space_blocked →
    max_queue_depth o ≤ s.batch_queue_.length ∨ ∃ w ∈ s.workers, w.pc.notifies = true

/-- A step that takes no batch, and wakes the dispatcher at most. -/
theorem SpaceSeen.of_woken (hs : SpaceSeen o s) (hb : t.batch_queue_ = s.batch_queue_)
    (hw : (∃ w ∈ s.workers, w.pc.notifies = true) → ∃ w ∈ t.workers, w.pc.notifies = true)
    (hd : Woken s.dispatcher t.dispatcher) : SpaceSeen o t := by
  refine ⟨fun hp => ?_, fun hp => ?_⟩
  · rw [hb]
    exact hs.looking (hd.eq_before hp (by simp))
  · rw [hb]
    exact (hs.asleep (hd.eq_before hp (by simp))).imp_right hw

theorem Worker.wake_notifies (w : Worker) : w.wake.pc.notifies = w.pc.notifies := by
  unfold Worker.wake
  split
  · rename_i h; rw [h]; rfl
  · rfl

theorem ControlStep.spaceSeen (h : ControlStep o s a t) (hs : SpaceSeen o s) : SpaceSeen o t := by
  cases h with
  | probe => exact ⟨by simp, by simp⟩
  | spawn =>
    refine hs.of_woken rfl ?_ (.same _)
    rintro ⟨w, hw, hn⟩
    exact ⟨w, List.mem_append_left _ hw, hn⟩
  | notify_queue => exact hs.of_woken rfl id s.wakeDispatcher_woken_queue
  | notify_batch =>
    refine hs.of_woken rfl ?_ (.same _)
    rintro ⟨w, hw, hn⟩
    exact ⟨w.wake, List.mem_map_of_mem hw, w.wake_notifies.trans hn⟩
  | notify_space => exact hs.of_woken rfl id s.wakeDispatcher_woken_space
  | _ => exact hs.of_woken rfl id (.same _)

theorem DispatcherStep.spaceSeen (h : DispatcherStep o s a t) (hs : SpaceSeen o s) : SpaceSeen o t := by
  cases h with
  | space_false _ _ _ hfull => exact ⟨fun _ => Nat.le_of_not_lt hfull, by simp⟩
  | space_block hd => exact ⟨by simp, fun _ => .inl (hs.looking hd)⟩
  | _ => exact ⟨by simp, by simp⟩

theorem WorkerStep.spaceSeen (h : WorkerStep o s a t) (hs : SpaceSeen o s) : SpaceSeen o t := by
  cases h with
  | exit hi hw | found_empty hi hw | block hi hw =>
    exact hs.of_woken rfl (exists_mem_set hi (by simp [hw, WorkerPc.notifies])) (.same _)
  | @done i w turn l hi hw hp =>
    obtain ⟨batch, prog, account, held⟩ := turn
    obtain rfl : prog = _ := hp
    exact hs.of_woken rfl (exists_mem_set hi (by simp [hw, WorkerPc.notifies])) (.same _)
  | spurious hi hb =>
    exact hs.of_woken rfl (exists_mem_set hi (by simp [WorkerPc.eq_blocked hb, WorkerPc.notifies])) (.same _)
  | throw => exact ⟨hs.looking, hs.asleep⟩
  | pop hi _ hm _ =>
    -- the worker that takes the batch will notify
    exact ⟨fun hp => absurd hp hm.1, fun _ => .inr ⟨_, List.mem_set (List.getElem?_eq_some_iff.mp hi).1 _, rfl⟩⟩
  | @call i w turn c k r hi hw hp =>
    obtain ⟨batch, prog, account, held⟩ := turn
    obtain rfl : prog = _ := hp
    by_cases hc : c = .notify_batch_space
    · subst hc
      exact ⟨fun hp => hs.looking (s.wakeDispatcher_woken_space.eq_before hp (by simp)),
        fun hp => absurd hp (s.wakeDispatcher_ne (by simp))⟩
    · have hn : w.pc.notifies = false := by
        rw [hw]
        cases c <;> first | rfl | exact absurd rfl hc
      refine hs.of_woken (s.effect_batch_queue_ c) (fun h => ?_) (s.effect_woken c)
      simp only [State.setWorker, s.effect_workers]
      exact exists_mem_set hi (by simp [hn]) h

theorem Step.spaceSeen (h : Step o s a t) (hs : SpaceSeen o s) : SpaceSeen o t := by
  cases h with
  | client _ h =>
    have hsame : t.batch_queue_ = s.batch_queue_ ∧ t.workers = s.workers := by cases h <;> exact ⟨rfl, rfl⟩
    exact hs.of_woken hsame.1 (fun hw => hsame.2 ▸ hw) h.woken
  | control _ h => exact h.spaceSeen hs
  | dispatcher _ h => exact h.spaceSeen hs
  | worker _ h => exact h.spaceSeen hs

/-! ### The batches -/

/-- What keeps a batch from lying there while all workers sleep. -/
structure BatchesSeen (s : State) : Prop where
  running : s.shutdown_ = false
  looking : ∀ w ∈ s.workers, w.pc.holdsMutex = true → s.batch_queue_ = []
  staying : ∀ w ∈ s.workers, w.pc.isExited = false
  crew : s.dispatcher ≠ .absent → s.control.spawns = true ∨ s.workers ≠ []
  awake : s.batch_queue_ ≠ [] →
    s.dispatcher = .pushed ∨ s.control.spawns = true ∨ ∃ w ∈ s.workers, w.pc.isAwake = true

theorem Worker.isAwake_of_wake (w : Worker) (h : w.pc.isBlocked = true) : w.wake.pc.isAwake = true := by
  unfold Worker.wake
  rw [WorkerPc.eq_blocked h]
  rfl

/-- A worker that neither looks, sleeps nor has left is awake. -/
theorem WorkerPc.isAwake_of {pc : WorkerPc} (h₁ : pc.holdsMutex = false) (h₂ : pc.isBlocked = false)
    (h₃ : pc.isExited = false) : pc.isAwake = true := by
  cases pc with
  | found_empty => cases h₁
  | blocked => cases h₂
  | exited => cases h₃
  | _ => rfl

/-- While there is a batch, one of the workers that do not sleep is awake. -/
theorem BatchesSeen.isAwake (hs : BatchesSeen s) (hq : s.batch_queue_ ≠ [])
    (hn : ∀ w ∈ s.workers, w.pc.isBlocked = false)
    (hd : s.dispatcher ≠ .absent) : s.control.spawns = true ∨ ∃ w ∈ s.workers, w.pc.isAwake = true := by
  refine (hs.crew hd).imp_right fun hne => ?_
  obtain ⟨w, hw⟩ := List.exists_mem_of_ne_nil _ hne
  have hlook : w.pc.holdsMutex = false := by
    by_contra h
    exact hq (hs.looking w hw (by simpa using h))
  exact ⟨w, hw, WorkerPc.isAwake_of hlook (hn w hw) (hs.staying w hw)⟩

/-- Where a worker may be after a step, if nobody has called `stop()`. -/
theorem WorkerMove.staying {w w' : Worker} (h : WorkerMove o s w w') (hs : s.shutdown_ = false)
    (hw : w.pc.isExited = false) : w'.pc.isExited = false := by
  cases h with
  | same => exact hw
  | exit _ hsd => simp [hs] at hsd
  | _ => rfl

theorem Step.staying (h : Step o s a t) (hs : BatchesSeen s) : ∀ w ∈ t.workers, w.pc.isExited = false := by
  intro v hv
  rcases h.worker_cases hv with ⟨u, hu, hmove⟩ | ⟨rfl, -⟩
  · exact hmove.staying hs.running (hs.staying u hu)
  · rfl

/-- A step that leaves the batches and the dispatcher's place alone. -/
theorem BatchesSeen.of_same (hs : BatchesSeen s) (hr : t.shutdown_ = false) (hb : t.batch_queue_ = s.batch_queue_)
    (hw : t.workers = s.workers) (hc : t.control.spawns = s.control.spawns) (hd : Woken s.dispatcher t.dispatcher) :
    BatchesSeen t := by
  refine ⟨hr, ?_, ?_, ?_, ?_⟩
  · rw [hb, hw]
    exact hs.looking
  · rw [hw]
    exact hs.staying
  · rw [hw, hc]
    exact fun hne => hs.crew fun h => hne (hd.eq_after h (by simp))
  · rw [hb, hw, hc]
    exact fun hq => (hs.awake hq).imp_left fun hp => hd.eq_after hp (by simp)

theorem ControlStep.batchesSeen (hn : 1 ≤ o.num_workers.toInt) (h : ControlStep o s a t) (ha : NoStop s a)
    (hstay : ∀ w ∈ t.workers, w.pc.isExited = false) (hl : Lifecycle s) (hs : BatchesSeen s) : BatchesSeen t := by
  have hstop : s.control.stopping = false := by
    by_contra hc
    have hsd := hl.shutdown (by simpa using hc)
    rw [hs.running] at hsd
    cases hsd
  cases h with
  | start hc => exact hs.of_same rfl rfl rfl (by rw [hc]; rfl) (.same _)
  | probe _ _ hc =>
    have hspawn : ControlPc.spawns (.spawning o.num_workers.toInt.toNat) = true := by
      obtain ⟨n, hn'⟩ : ∃ n, o.num_workers.toInt.toNat = n + 1 := ⟨o.num_workers.toInt.toNat - 1, by omega⟩
      rw [hn']
      rfl
    exact ⟨hs.running, hs.looking, hs.staying, fun _ => .inl hspawn, fun _ => .inr (.inl hspawn)⟩
  | @spawn left hc =>
    refine ⟨hs.running, fun w hw hm => ?_, hstay, fun _ => .inr (by simp), fun hq => ?_⟩
    · rcases List.mem_append.mp hw with hw | hw
      · exact hs.looking w hw hm
      · rw [List.mem_singleton.mp hw] at hm
        cases hm
    · exact .inr (.inr ⟨{}, by simp, rfl⟩)
  | started hc => exact hs.of_same hs.running rfl rfl (by rw [hc]; rfl) (.same _)
  | stop => cases ha
  | notify_queue hc | notify_batch hc | notify_space hc | join_dispatcher hc | join_workers hc | stopped hc =>
    rw [hc] at hstop
    cases hstop

theorem DispatcherStep.batchesSeen (h : DispatcherStep o s a t) (hstay : ∀ w ∈ t.workers, w.pc.isExited = false)
    (hs : BatchesSeen s) : BatchesSeen t := by
  have hcrew := hs.crew
  have hawake := hs.awake
  cases h with
  | push hd hm =>
    refine ⟨hs.running, fun w hw hp => ?_, hs.staying, fun _ => hcrew (by simp [hd]), fun _ => .inl rfl⟩
    rw [hm.2 w hw] at hp
    cases hp
  | @notify i w hd hi hb =>
    have hw' : w.wake ∈ s.workers.set i w.wake := List.mem_set (List.getElem?_eq_some_iff.mp hi).1 _
    refine ⟨hs.running, fun v hv hp => ?_, hstay, fun _ => .inr (List.ne_nil_of_mem hw'),
      fun _ => .inr (.inr ⟨w.wake, hw', w.isAwake_of_wake hb⟩)⟩
    rcases List.mem_or_eq_of_mem_set hv with hv | rfl
    · exact hs.looking v hv hp
    · rw [Worker.wake_holdsMutex, WorkerPc.eq_blocked hb] at hp
      cases hp
  | notify_none hd hnone =>
    exact ⟨hs.running, hs.looking, hs.staying, fun _ => hcrew (by simp [hd]),
      fun hq => .inr (hs.isAwake hq hnone (by simp [hd]))⟩
  | space_exit hd | space_pass hd | space_false hd | space_block hd | queue_exit hd | drain hd | queue_false hd
  | queue_block hd | no_gpu hd | keep hd | filter hd | reject hd | fixed hd | no_free _ hd | free _ hd | budget hd
  | pack hd | requeue hd | nothing hd | reserve hd | spurious_space hd | spurious_queue hd =>
    exact ⟨hs.running, hs.looking, hs.staying, fun _ => hcrew (by simp [hd]),
      fun hq => .inr ((hawake hq).resolve_left (by simp [hd]))⟩

/-- A worker's step after which it is awake, or which found it so no less. -/
theorem BatchesSeen.of_set (hs : BatchesSeen s) {i : ℕ} {w w' : Worker} (hi : s.workers[i]? = some w)
    (hr : t.shutdown_ = s.shutdown_) (ht : t.workers = s.workers.set i w')
    (hstay : ∀ w ∈ t.workers, w.pc.isExited = false) (hb : t.batch_queue_ ≠ [] → s.batch_queue_ ≠ [])
    (hm : w'.pc.holdsMutex = true → t.batch_queue_ = []) (hw : t.batch_queue_ ≠ [] → w'.pc.isAwake = true) :
    BatchesSeen t := by
  have hw' : w' ∈ t.workers := by
    rw [ht]
    exact List.mem_set (List.getElem?_eq_some_iff.mp hi).1 _
  refine ⟨hr.trans hs.running, fun v hv hp => ?_, hstay, fun _ => .inr (List.ne_nil_of_mem hw'),
    fun hq => .inr (.inr ⟨w', hw', hw hq⟩)⟩
  rw [ht] at hv
  rcases List.mem_or_eq_of_mem_set hv with hv | rfl
  · by_contra hne
    exact hb hne (hs.looking v hv hp)
  · exact hm hp

theorem WorkerStep.batchesSeen (h : WorkerStep o s a t) (hstay : ∀ w ∈ t.workers, w.pc.isExited = false)
    (hs : BatchesSeen s) : BatchesSeen t := by
  cases h with
  | exit _ _ _ hsd => simp [hs.running] at hsd
  | @pop i w batch rest hi hw _ hq =>
    exact hs.of_set hi rfl rfl hstay (fun _ => by simp [hq]) (by simp [WorkerPc.holdsMutex]) fun _ => rfl
  | found_empty hi hw _ _ hq =>
    exact hs.of_set hi rfl rfl hstay id (fun _ => hq) fun hne => absurd hq hne
  | block hi hw =>
    have hq : s.batch_queue_ = [] := hs.looking _ (List.mem_of_getElem? hi) (by rw [hw]; rfl)
    exact hs.of_set hi rfl rfl hstay id (by simp [WorkerPc.holdsMutex]) fun hne => absurd hq hne
  | @call i w turn c k r hi =>
    have hset := congrArg (fun ws => ws.set i { w with pc := .running (turn.after c r (k r)) }) (s.effect_workers c)
    have hsame := s.effect_sameControl c
    refine hs.of_set hi hsame.shutdown_ hset hstay (fun hne => ?_) (by simp [WorkerPc.holdsMutex]) fun _ => rfl
    rwa [← s.effect_batch_queue_ c]
  | done hi => exact hs.of_set hi rfl rfl hstay id (by simp [WorkerPc.holdsMutex]) fun _ => rfl
  | throw => exact ⟨hs.running, hs.looking, hs.staying, hs.crew, hs.awake⟩
  | @spurious i w hi hb =>
    refine hs.of_set hi rfl rfl hstay id (fun hp => ?_) fun _ => w.isAwake_of_wake hb
    rw [Worker.wake_holdsMutex, WorkerPc.eq_blocked hb] at hp
    cases hp

theorem Step.batchesSeen (hn : 1 ≤ o.num_workers.toInt) (h : Step o s a t) (ha : NoStop s a) (hl : Lifecycle s)
    (hs : BatchesSeen s) : BatchesSeen t := by
  have hstay := h.staying hs
  cases h with
  | client _ h =>
    have hsame := h.sameControl
    have hbw : t.batch_queue_ = s.batch_queue_ ∧ t.workers = s.workers := by cases h <;> exact ⟨rfl, rfl⟩
    exact hs.of_same (hsame.shutdown_.trans hs.running) hbw.1 hbw.2 (by rw [hsame.control]) h.woken
  | control _ h => exact h.batchesSeen hn ha hstay hl hs
  | dispatcher _ h => exact h.batchesSeen hstay hs
  | worker _ h => exact h.batchesSeen hstay hs

/-- **No wake-up is lost.** If nobody calls `stop()`, no state is reached in which there are
jobs, the dispatcher sleeps on `queue_cv_` and no client is on its way to notify it; nor one in
which there is a batch, all workers sleep and the dispatcher is not on its way to notify one;
nor one in which there is space, the dispatcher sleeps on `batch_space_cv_` and no worker is on
its way to notify it. -/
theorem no_lost_wakeup (hn : 1 ≤ o.num_workers.toInt) (h : Reachable (scheduler o) NoStop s) :
    ¬ (s.queue_ ≠ [] ∧ s.dispatcher = .queue_blocked ∧ ∀ p ∈ s.submits, p.notifies = false) ∧
      ¬ (s.batch_queue_ ≠ [] ∧ s.control.spawns = false ∧ (∀ w ∈ s.workers, w.pc.isBlocked = true) ∧
        s.dispatcher ≠ .pushed) ∧
      ¬ (s.batch_queue_.length < max_queue_depth o ∧ s.dispatcher = .space_blocked ∧
        ∀ w ∈ s.workers, w.pc.notifies = false) := by
  have hjobs : JobsSeen s := by
    refine h.invariant (I := JobsSeen) ?_ fun _ hs hstep _ => Step.jobsSeen hstep hs
    rintro _ ⟨t, rfl⟩
    exact ⟨by simp, by simp⟩
  have hspace : SpaceSeen o s := by
    refine h.invariant (I := SpaceSeen o) ?_ fun _ hs hstep _ => Step.spaceSeen hstep hs
    rintro _ ⟨t, rfl⟩
    exact ⟨by simp, by simp⟩
  have hbatches : BatchesSeen s := by
    refine h.invariant (I := BatchesSeen) ?_ fun hr hs hstep ha =>
      Step.batchesSeen hn hstep ha (lifecycle (hr.mono fun _ _ _ => trivial)) hs
    rintro _ ⟨t, rfl⟩
    exact ⟨rfl, by simp, by simp, by simp, by simp⟩
  refine ⟨?_, ?_, ?_⟩
  · rintro ⟨hq, hd, hnone⟩
    obtain ⟨p, hp, hnotifies⟩ := (hjobs.asleep hd).resolve_left hq
    rw [hnone p hp] at hnotifies
    cases hnotifies
  · rintro ⟨hq, hc, hall, hd⟩
    rcases hbatches.awake hq with hd' | hc' | ⟨w, hw, hawake⟩
    · exact hd hd'
    · rw [hc] at hc'
      cases hc'
    · rw [WorkerPc.eq_blocked (hall w hw)] at hawake
      cases hawake
  · rintro ⟨hlt, hd, hnone⟩
    obtain ⟨w, hw, hnotifies⟩ := (hspace.asleep hd).resolve_left (Nat.not_le_of_lt hlt)
    rw [hnone w hw] at hnotifies
    cases hnotifies

/-- One worker and the dispatcher are asleep, and a client has pushed a job. -/
theorem no_lost_wakeup_pushed :
    ∃ s, Reachable (scheduler { num_workers := 1 }) NoStop s ∧ s.dispatcher = .queue_blocked ∧ s.queue_ ≠ [] ∧
      ¬ ∀ p ∈ s.submits, p.notifies = false := by
  obtain ⟨s, hr, hp⟩ := exists_of_follow { num_workers := 1 } NoStop 1
    [.start, .probe false 0, .spawn, .spawn, .worker 0, .worker 0, .dispatcher, .dispatcher, .dispatcher,
     .submit smallJob, .client 0]
    (fun s => s.dispatcher = .queue_blocked && s.queue_ ≠ []) (by decide)
  simp only [Bool.and_eq_true, decide_eq_true_eq] at hp
  exact ⟨s, hr, hp.1, hp.2, fun hnone => (no_lost_wakeup (by decide) hr).1 ⟨hp.2, hp.1, hnone⟩⟩

end Gbis.Sched
